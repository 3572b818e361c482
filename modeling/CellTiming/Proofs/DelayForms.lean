import CellTiming.Proofs.Constant
import CellTiming.Proofs.PathForms

/-! The ways to write delays. A delay is one expression or three of them between colons, the three
alone or in parentheses, and a list of delays stands in parentheses, its delays between commas.
However the delays are written, the list has their values; where no list has that many values, it
is refused at the parenthesis that closes it. -/
namespace CellTiming.Grammar

open Operators TokenRule

section Values

variable {table : Specparams}

abbrev WritesConstant (table : Specparams) := Reads (constants table) (.operation 0)

/-- `e:e:e` -/
inductive WritesTriple (table : Specparams) : List Token → Triple → Prop
  | between {first second third colon colon' least typical greatest}
      (head : WritesConstant table first least) (sign : colon.kind = .symbol .colon)
      (middle : WritesConstant table second typical) (sign' : colon'.kind = .symbol .colon)
      (last : WritesConstant table third greatest) :
      WritesTriple table (first ++ colon :: (second ++ colon' :: third))
        ⟨least.toFloat, typical.toFloat, greatest.toFloat⟩

/-- `e`, `e:e:e` or `(e:e:e)` -/
inductive WritesDelay (table : Specparams) : List Token → Triple → Prop
  | single {used value} (reads : WritesConstant table used value) :
      WritesDelay table used (.uniform value.toFloat)
  | triple {used value} (writes : WritesTriple table used value) : WritesDelay table used value
  | group {opening used closing value} (opens : opening.kind = .symbol .leftParen)
      (writes : WritesTriple table used value) (closes : closing.kind = .symbol .rightParen) :
      WritesDelay table (opening :: (used ++ [closing])) value

theorem WritesDelay.ne_nil {used : List Token} {value : Triple}
    (writes : WritesDelay table used value) : used ≠ [] := by
  cases writes with
  | single reads => exact reads.operation_ne_nil
  | triple writes => cases writes; simp
  | group => simp

/-- What does not go on as an expression or as a triple. -/
def EndsDelay (table : Specparams) (rest : List Token) : Prop :=
  Stops (constants table) 0 rest ∧ NotAhead (.symbol .colon) rest

theorem endsDelay_symbol (table : Specparams) {symbol : Symbol} {t : Token}
    (kind : t.kind = .symbol symbol) (other : symbol ∉ [.plus, .minus, .colon]) (rest : List Token) :
    EndsDelay table (t :: rest) := by
  simp only [List.mem_cons, List.not_mem_nil, or_false, not_or] at other
  exact ⟨constants_stops table kind other.1 other.2.1 rest,
    notAhead_cons (by simpa [kind] using other.2.2)⟩

theorem tripleFrom_run {second third rest : List Token} {colon : Token}
    {typical greatest : Number} (middle : WritesConstant table second typical)
    (sign : colon.kind = .symbol .colon) (last : WritesConstant table third greatest)
    (stops : Stops (constants table) 0 rest) (least : Number) :
    (tripleFrom table least).run (second ++ colon :: (third ++ rest)) =
      .ok (⟨least.toFloat, typical.toFloat, greatest.toFloat⟩, rest) := by
  have stop := constants_stops table sign (by decide) (by decide) (third ++ rest)
  rw [tripleFrom, Rule.run_then (constant_run middle stop), expect_then sign,
    Rule.run_then (constant_run last stops)]
  rfl

theorem delayValue_written {used rest : List Token} {value : Triple}
    (writes : WritesDelay table used value) (ends : EndsDelay table rest) :
    (delayValue table).run (used ++ rest) = .ok (value, rest) := by
  cases writes with
  | single reads => exact delayValue_run reads ends.1 ends.2
  | triple writes =>
    obtain ⟨head, sign, middle, sign', last⟩ := writes
    rw [List.append_assoc, List.cons_append, List.append_assoc, List.cons_append,
      delayValue_constant head (constants_stops table sign (by decide) (by decide) _),
      valueFrom, eat_then sign, if_pos rfl, tripleFrom_run middle sign' last ends.1]
  | @group opening _ closing _ opens writes closes =>
    obtain ⟨head, sign, middle, sign', last⟩ := writes
    have stop := constants_stops table closes (by decide) (by decide) rest
    simp only [List.cons_append, List.append_assoc, List.nil_append]
    rw [delayValue, eat_then opens, if_pos rfl,
      Rule.run_then (constant_run head (constants_stops table sign (by decide) (by decide) _)),
      eat_then sign, if_pos rfl, Rule.run_then (tripleFrom_run middle sign' last stop _),
      expect_then closes]
    rfl

theorem writes_of_constant {ts rest : List Token} {value : Number}
    (ok : (constant table).run ts = .ok (value, rest)) :
    ∃ used, ts = used ++ rest ∧ WritesConstant table used value := by
  obtain ⟨used, same, reads, _⟩ := expression_run.mp ok
  exact ⟨used, same, reads⟩

theorem writes_group {opening closing : Token} {inner more : List Token} {within value : Number}
    (opens : opening.kind = .symbol .leftParen) (head : WritesConstant table inner within)
    (closes : closing.kind = .symbol .rightParen)
    (joined : Reads (constants table) (.extension 0 within) more value) :
    WritesConstant table (opening :: (inner ++ [closing]) ++ more) value :=
  .operation (.group (by simp [constants, opens]) (by simp [Token.isSymbol, opens])
    (by simp [Token.isSymbol, closes]) (by simp [constants, closes]) head) joined

theorem triple_of_tripleFrom {first ts rest : List Token} {colon : Token} {least : Number}
    {value : Triple} (head : WritesConstant table first least) (sign : colon.kind = .symbol .colon)
    (ok : (tripleFrom table least).run ts = .ok (value, rest)) :
    ∃ used, ts = used ++ rest ∧ WritesTriple table (first ++ colon :: used) value := by
  obtain ⟨_, _, middle, tail⟩ := Rule.run_bind_ok.mp ok
  obtain ⟨second, rfl, typical⟩ := writes_of_constant middle
  obtain ⟨_, _, between, last⟩ := Rule.run_bind_ok.mp tail
  obtain ⟨colon', rfl, sign'⟩ := expect_run.mp between
  obtain ⟨_, _, ending, made⟩ := Rule.run_bind_ok.mp last
  cases made
  obtain ⟨third, rfl, greatest⟩ := writes_of_constant ending
  exact ⟨second ++ colon' :: third, by simp, .between head sign typical sign' greatest⟩

theorem delay_of_valueFrom {first ts rest : List Token} {least : Number} {value : Triple}
    (head : WritesConstant table first least)
    (ok : (valueFrom table least).run ts = .ok (value, rest)) :
    ∃ used, ts = used ++ rest ∧ WritesDelay table (first ++ used) value := by
  obtain ⟨_, _, eaten, tail⟩ := Rule.run_bind_ok.mp ok
  rcases eat_run.mp eaten with ⟨rfl, colon, rfl, sign⟩ | ⟨rfl, rfl, _⟩
  · obtain ⟨used, rfl, writes⟩ := triple_of_tripleFrom head sign tail
    exact ⟨colon :: used, rfl, .triple writes⟩
  · cases tail
    exact ⟨[], rfl, by simpa using WritesDelay.single head⟩

/-- What is read as a delay is written in one of the ways. -/
theorem delayValue_takes : (delayValue table).Takes (WritesDelay table) := by
  intro ts value rest ok
  obtain ⟨_, _, eaten, tail⟩ := Rule.run_bind_ok.mp ok
  rcases eat_run.mp eaten with ⟨rfl, opening, rfl, opens⟩ | ⟨rfl, rfl, _⟩
  · obtain ⟨_, _, first, behind⟩ := Rule.run_bind_ok.mp tail
    obtain ⟨inner, rfl, head⟩ := writes_of_constant first
    obtain ⟨_, _, second, branch⟩ := Rule.run_bind_ok.mp behind
    rcases eat_run.mp second with ⟨rfl, colon, rfl, sign⟩ | ⟨rfl, rfl, _⟩
    · obtain ⟨_, _, triple, closed⟩ := Rule.run_bind_ok.mp branch
      obtain ⟨used, rfl, writes⟩ := triple_of_tripleFrom head sign triple
      obtain ⟨_, _, last, made⟩ := Rule.run_bind_ok.mp closed
      cases made
      obtain ⟨closing, rfl, closes⟩ := expect_run.mp last
      exact ⟨opening :: (inner ++ colon :: used ++ [closing]), by simp, .group opens writes closes⟩
    · obtain ⟨_, _, last, joined⟩ := Rule.run_bind_ok.mp branch
      obtain ⟨closing, rfl, closes⟩ := expect_run.mp last
      obtain ⟨_, _, further, goesOn⟩ := Rule.run_bind_ok.mp joined
      obtain ⟨more, rfl, extension, _⟩ := continuing_run.mp further
      obtain ⟨used, rfl, writes⟩ :=
        delay_of_valueFrom (writes_group opens head closes extension) goesOn
      exact ⟨_, by simp, writes⟩
  · obtain ⟨_, _, read, behind⟩ := Rule.run_bind_ok.mp tail
    obtain ⟨first, rfl, head⟩ := writes_of_constant read
    obtain ⟨used, rfl, writes⟩ := delay_of_valueFrom head behind
    exact ⟨first ++ used, by simp, writes⟩

end Values

section Lists

variable {table : Specparams}

/-- Delays that each follow a comma. -/
abbrev DelayRow (table : Specparams) := Rule.Row fun (t : Token) used (value : Triple) =>
  t.kind = .symbol .comma ∧ WritesDelay table used value

/-- `d, …, d` -/
inductive WritesDelays (table : Specparams) : List Token → List Triple → Prop
  | row {first others value values} (head : WritesDelay table first value)
      (tail : DelayRow table others values) :
      WritesDelays table (first ++ others) (value :: values)

/-- The values of a list that ends at the given parenthesis, if a list has that many. -/
def delaysAt (closing : Token) (values : List Triple) (rest : List Token) :
    Except SourceError (Transitions × List Token) :=
  match Transitions.ofValues? values with
  | some delays => .ok (delays, rest)
  | none => .error (.unexpected closing.line (some closing.text))

variable {opening closing : Token} {others used rest : List Token} {value : Triple}
  {values : List Triple}

theorem delayListFrom_written (row : DelayRow table others values)
    (closes : closing.kind = .symbol .rightParen) :
    (delayListFrom table value).run (others ++ closing :: rest) =
      delaysAt closing (value :: values) rest := by
  have ends := endsDelay_symbol table closes (by simp) rest
  have read : (following .comma (delayValue table)).run (others ++ closing :: rest) =
      .ok (values, closing :: rest) :=
    following_row delayValue_written (fun kind => endsDelay_symbol table kind (by simp)) row ends
      (notAhead_cons (by simp [closes]))
  rw [delayListFrom, Rule.run_then read,
    Rule.run_then (show blame.run (closing :: rest) = .ok (_, closing :: rest) from rfl),
    expect_then closes, delaysAt]
  cases Transitions.ofValues? (value :: values) with
  | some delays => rfl
  | none =>
    change Except.error (unexpectedAt (closing :: rest)) = _
    simp [unexpectedAt, closes]

theorem DelayRow.behind (row : DelayRow table others values)
    (closes : closing.kind = .symbol .rightParen) (rest : List Token) :
    EndsDelay table (others ++ closing :: rest) := by
  cases row with
  | nil => exact endsDelay_symbol table closes (by simp) rest
  | cons head _ => exact endsDelay_symbol table head.1 (by simp) _

/-- However its delays are written, a list in parentheses has their values. -/
theorem delayList_written (opens : opening.kind = .symbol .leftParen)
    (writes : WritesDelays table used values) (closes : closing.kind = .symbol .rightParen)
    (ends : EndsDelay table rest) :
    (delayList table).run (opening :: (used ++ closing :: rest)) = delaysAt closing values rest := by
  obtain ⟨writes, row⟩ := writes
  rename_i first others value values
  have behind := row.behind closes rest
  rw [List.append_assoc]
  obtain ⟨t, tail, begins⟩ := List.exists_cons_of_ne_nil writes.ne_nil
  by_cases nested : t.kind = .symbol .leftParen
  · have ahead : TokenRule.kind.run (first ++ (others ++ closing :: rest)) =
        .ok (t.kind, first ++ (others ++ closing :: rest)) := by
      rw [begins]
      rfl
    rw [delayList, eat_then opens, if_pos rfl, Rule.run_then ahead, if_pos nested,
      Rule.run_then (delayValue_written writes behind), delayListFrom_written row closes]
  · have plain : (delayList table).run (opening :: t :: (tail ++ (others ++ closing :: rest))) = _ :=
      delayList_plain opens nested _
    rw [← List.cons_append, ← begins] at plain
    rw [plain]
    cases writes with
    | @single _ number reads =>
      rw [Rule.run_then (constant_run reads behind.1)]
      cases row with
      | nil =>
        have alone : ((constants table).continuing number).run rest = .ok (number, rest) :=
          continuing_run.mpr ⟨[], rfl, .stop, ends.1⟩
        rw [List.nil_append, eat_then closes, if_pos rfl, Rule.run_then alone,
          Rule.run_then (valueFrom_run ends.2 number)]
        rfl
      | @cons comma piece _ more _ head row =>
        have more_ : NotAhead (.symbol .rightParen) (comma :: (piece ++ more) ++ closing :: rest) :=
          notAhead_cons (by simp [head.1])
        rw [eat_skip more_, if_neg Bool.false_ne_true, Rule.run_then (valueFrom_run behind.2 number),
          delayListFrom_written (.cons head row) closes]
    | triple writes =>
      obtain ⟨head, sign, middle, sign', last⟩ := writes
      rename_i second third colon colon' least _ _
      have more_ : NotAhead (.symbol .rightParen)
          (colon :: (second ++ colon' :: (third ++ (others ++ closing :: rest)))) :=
        notAhead_cons (by simp [sign])
      have stop := constants_stops table sign (by decide) (by decide)
      simp only [List.append_assoc, List.cons_append]
      rw [Rule.run_then (constant_run head (stop _)), eat_skip more_, if_neg Bool.false_ne_true,
        valueFrom, bind_assoc, eat_then sign, if_pos rfl,
        Rule.run_then (tripleFrom_run middle sign' last behind.1 least),
        delayListFrom_written row closes]
    | group opens' =>
      cases begins
      exact absurd opens' nested

end Lists

/-- The numbers of values that a list of delays may have. -/
def arities : List Nat := [1, 2, 3, 6, 12]

theorem isSome_ofValues (values : List Triple) :
    (Transitions.ofValues? values).isSome = true ↔ values.length ∈ arities := by
  rcases values with _ | ⟨_, _ | ⟨_, _ | ⟨_, _ | ⟨_, _ | ⟨_, _ | ⟨_, _ | ⟨_, _ | ⟨_, _ | ⟨_, _ | ⟨_, _ |
    ⟨_, _ | ⟨_, _ | ⟨_, _⟩⟩⟩⟩⟩⟩⟩⟩⟩⟩⟩⟩⟩ <;> simp [Transitions.ofValues?, arities]

theorem PathHead.ends {table : Specparams} {ending : List Token} (head : PathHead)
    (closes : ending.map (·.kind) = head.ending.map Token.Kind.symbol) (rest : List Token) :
    EndsDelay table (ending ++ rest) := by
  cases head with
  | simple | closed =>
    obtain ⟨t, more, rfl, kind, _⟩ := List.map_eq_cons_iff.mp closes
    exact endsDelay_symbol table kind (by simp) _
  | «open» =>
    obtain ⟨t, more, rfl, kind, _⟩ := List.map_eq_cons_iff.mp closes
    exact endsDelay_symbol table kind (by simp) _

/-- The delays of a path may be written in any of the ways, in a list of any arity. A list of
another number of delays is a syntax error at the parenthesis that closes it. -/
theorem path_delays_written {table : Specparams} {opening closing : Token}
    {used ending : List Token} {values : List Triple} (head : PathHead)
    (opens : opening.kind = .symbol .leftParen) (writes : WritesDelays table used values)
    (closes : closing.kind = .symbol .rightParen)
    (ends : ending.map (·.kind) = head.ending.map Token.Kind.symbol) (rest : List Token) :
    (values.length ∈ arities → ∃ delays, Transitions.ofValues? values = some delays ∧
      (path table).run (head.tokens ++ opening :: (used ++ closing :: (ending ++ rest))) =
        .ok (head.toPath delays, rest)) ∧
    (values.length ∉ arities →
      (path table).run (head.tokens ++ opening :: (used ++ closing :: (ending ++ rest))) =
        .error (.unexpected closing.line (some closing.text))) := by
  have list := delayList_written opens writes closes (head.ends ends rest)
  rw [head.run, PathHead.behind]
  refine ⟨fun arity => ?_, fun other => ?_⟩
  · obtain ⟨delays, found⟩ := Option.isSome_iff_exists.mp ((isSome_ofValues values).mpr arity)
    have last : (expects head.ending).run (ending ++ rest) = .ok ((), rest) :=
      expects_run.mpr ⟨ending, rfl, ends⟩
    rw [delaysAt, found] at list
    refine ⟨delays, found, ?_⟩
    rw [Rule.run_then list, Rule.run_then last]
    rfl
  · have missing : Transitions.ofValues? values = none :=
      Option.not_isSome_iff_eq_none.mp (mt (isSome_ofValues values).mp other)
    rw [delaysAt, missing] at list
    rw [Rule.run_bind, list]

section Mixed

private def signAt (line : Nat) (symbol : Symbol) : Token := ⟨.symbol symbol, symbol.spelling, line, 0⟩

private def nameAt (line : Nat) (text : String) : Token := ⟨.name, text, line, 0⟩

/-- `(A => Y) =` on the first line -/
private def mixedHead : PathHead :=
  .simple ⟨⟨signAt 1 .leftParen, rfl⟩, none, ⟨nameAt 1 "A", rfl⟩, none, ⟨signAt 1 .parallelPath, rfl⟩⟩
    ⟨nameAt 1 "Y", rfl⟩ ⟨signAt 1 .rightParen, rfl⟩ ⟨signAt 1 .assign, rfl⟩

private def two : Specparams := [("T", Number.ofInt 2)]

/-- `T:T:T` on the second line -/
private def mixedTriple : List Token :=
  [nameAt 2 "T"] ++ signAt 2 .colon :: ([nameAt 2 "T"] ++ signAt 2 .colon :: [nameAt 2 "T"])

private theorem writes_two : WritesConstant two [nameAt 2 "T"] (Number.ofInt 2) :=
  Reads.operation (.atom rfl rfl rfl) .stop

private theorem writes_mixedTriple : WritesTriple two mixedTriple (.uniform (Number.ofInt 2).toFloat) :=
  .between writes_two rfl writes_two rfl writes_two

/-- `(T:T:T), T` and a number of further `, T` -/
private def mixedDelays (more : Nat) : List Token :=
  signAt 2 .leftParen :: (mixedTriple ++ [signAt 2 .rightParen]) ++
    (List.replicate more [signAt 2 .comma, nameAt 2 "T"]).flatten

private theorem writes_mixed (more : Nat) : WritesDelays two (mixedDelays more)
    (List.replicate (more + 1) (.uniform (Number.ofInt 2).toFloat)) := by
  refine .row (.group rfl writes_mixedTriple rfl) ?_
  induction more with
  | zero => exact .nil
  | succ more ih => exact .cons ⟨rfl, .single writes_two⟩ ih

theorem path_delays_written_mixed :
    (∃ delays, Transitions.ofValues? (List.replicate 3 (.uniform (Number.ofInt 2).toFloat)) =
        some delays ∧
      (path two).run (mixedHead.tokens ++
          signAt 2 .leftParen :: (mixedDelays 2 ++ signAt 3 .rightParen :: ([signAt 3 .semicolon] ++ []))) =
        .ok (mixedHead.toPath delays, [])) ∧
      (path two).run (mixedHead.tokens ++
          signAt 2 .leftParen :: (mixedDelays 3 ++ signAt 3 .rightParen :: ([signAt 3 .semicolon] ++ []))) =
        .error (.unexpected 3 (some ")")) :=
  ⟨(path_delays_written mixedHead rfl (writes_mixed 2) rfl rfl []).1 (by decide),
    (path_delays_written mixedHead rfl (writes_mixed 3) rfl rfl []).2 (by decide)⟩

end Mixed

end CellTiming.Grammar
