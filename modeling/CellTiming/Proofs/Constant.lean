import CellTiming.Grammar.Block
import CellTiming.Proofs.Places

/-! A constant expression where a delay may stand. It has the value it has as a specparam,
but a list of delays takes the group at its front for the list if another parenthesis
follows the first, and then nothing may come after that group. -/
namespace CellTiming.Grammar

open Operators TokenRule

variable {table : Specparams}

theorem constants_before {t : Token} {apply : Number → Number}
    (sign : (constants table).before t = some apply) :
    t.kind = .symbol .plus ∨ t.kind = .symbol .minus := by
  simp only [constants] at sign
  split at sign
  · exact .inl ‹_›
  · exact .inr ‹_›
  · cases sign

theorem constants_between {t : Token} {found : Nat × (Number → Number → Number)}
    (sign : (constants table).between t = some found) :
    t.kind = .symbol .plus ∨ t.kind = .symbol .minus := by
  simp only [constants] at sign
  split at sign
  · exact .inl ‹_›
  · exact .inr ‹_›
  · cases sign

theorem constants_atom {t : Token} {value : Number}
    (meaning : (constants table).atom t = .ok value) : t.kind = .number ∨ t.kind = .name := by
  simp only [constants] at meaning
  split at meaning
  · exact .inl ‹_›
  · exact .inr ‹_›
  · cases meaning

/-- The symbols that an expression does not reach over. -/
theorem constants_stops (table : Specparams) {symbol : Symbol} {t : Token}
    (kind : t.kind = .symbol symbol) (plus : symbol ≠ .plus) (minus : symbol ≠ .minus) (rest : List Token) :
    Stops (constants table) 0 (t :: rest) := by
  refine stops_cons _ 0 t rest ?_
  cases sign : (constants table).between t with
  | none => rfl
  | some found =>
    rcases constants_between sign with same | same
    · rw [kind] at same
      cases same
      exact absurd rfl plus
    · rw [kind] at same
      cases same
      exact absurd rfl minus

/-- An expression behind a parenthesis is a group and what is joined to it. -/
theorem reads_opened {opening : Token} {tail : List Token} {value : Number}
    (opens : opening.kind = .symbol .leftParen)
    (reads : Reads (constants table) (.operation 0) (opening :: tail) value) :
    ∃ inner within closing more, tail = inner ++ closing :: more ∧
      closing.kind = .symbol .rightParen ∧ Reads (constants table) (.operation 0) inner within ∧
      Reads (constants table) (.extension 0 within) more value := by
  generalize whole : opening :: tail = ts at reads
  cases reads with
  | @operation _ _ more _ _ head extension =>
    cases head with
    | before sign _ =>
      cases whole
      rcases constants_before sign with same | same
      · cases opens.symm.trans same
      · cases opens.symm.trans same
    | @group _ closing used within _ _ closes _ inner =>
      cases whole
      exact ⟨used, within, closing, more, by simp, by simpa [Token.isSymbol] using closes, inner,
        extension⟩
    | atom _ single _ =>
      cases whole
      simp [Token.isSymbol, opens] at single

/-- The rest of an expression after the group at its front. -/
def afterGroup (depth : Nat) : List Word → List Word
  | [] => []
  | word :: rest =>
    if word.1 = .symbol .leftParen then afterGroup (depth + 1) rest
    else if word.1 = .symbol .rightParen then
      if depth ≤ 1 then rest else afterGroup (depth - 1) rest
    else afterGroup depth rest

/-- Two parentheses begin the expression, and it goes on after the group of the first. -/
def OutgrowsGroup (e : List Word) : Prop :=
  ∃ first second rest, e = first :: second :: rest ∧ first.1 = .symbol .leftParen ∧
    second.1 = .symbol .leftParen ∧ afterGroup 0 e ≠ []

section AfterGroup

variable {t : Token}

theorem afterGroup_opening (opens : t.kind = .symbol .leftParen) (depth : Nat)
    (rest : List Word) : afterGroup depth (t.spelled :: rest) = afterGroup (depth + 1) rest := by
  have kind : t.spelled.1 = .symbol .leftParen := opens
  rw [afterGroup, if_pos kind]

theorem afterGroup_closing (closes : t.kind = .symbol .rightParen) (depth : Nat)
    (rest : List Word) :
    afterGroup depth (t.spelled :: rest) =
      if depth ≤ 1 then rest else afterGroup (depth - 1) rest := by
  have kind : t.spelled.1 = .symbol .rightParen := closes
  rw [afterGroup, if_neg (by simp [kind]), if_pos kind]

theorem afterGroup_other (left : t.kind ≠ .symbol .leftParen)
    (right : t.kind ≠ .symbol .rightParen) (depth : Nat) (rest : List Word) :
    afterGroup depth (t.spelled :: rest) = afterGroup depth rest := by
  have notLeft : t.spelled.1 ≠ .symbol .leftParen := left
  have notRight : t.spelled.1 ≠ .symbol .rightParen := right
  rw [afterGroup, if_neg notLeft, if_neg notRight]

end AfterGroup

/-- The parentheses of an expression are balanced. -/
theorem afterGroup_reads {phrase : Phrase Number} {used : List Token} {value : Number}
    (reads : Reads (constants table) phrase used value) (depth : Nat) (rest : List Word) :
    afterGroup (depth + 1) (words used ++ rest) = afterGroup (depth + 1) rest := by
  have sign {t : Token} (kind : t.kind = .symbol .plus ∨ t.kind = .symbol .minus) (depth : Nat)
      (rest : List Word) : afterGroup depth (t.spelled :: rest) = afterGroup depth rest := by
    rcases kind with same | same
    · exact afterGroup_other (by simp [same]) (by simp [same]) depth rest
    · exact afterGroup_other (by simp [same]) (by simp [same]) depth rest
  induction reads generalizing depth rest with
  | before before _ ih =>
    exact (sign (constants_before before) (depth + 1) _).trans (ih depth rest)
  | @group opening closing used value _ opens closes _ _ ih =>
    have left : opening.kind = .symbol .leftParen := by simpa [Token.isSymbol] using opens
    have right : closing.kind = .symbol .rightParen := by simpa [Token.isSymbol] using closes
    have shape : words (opening :: (used ++ [closing])) ++ rest =
        opening.spelled :: (words used ++ (closing.spelled :: rest)) := by
      simp [words]
    rw [shape, afterGroup_opening left, ih, afterGroup_closing right, if_neg (by omega)]
    rfl
  | @atom t value _ _ meaning =>
    rcases constants_atom meaning with same | same
    · exact afterGroup_other (by simp [same]) (by simp [same]) (depth + 1) rest
    · exact afterGroup_other (by simp [same]) (by simp [same]) (depth + 1) rest
  | operation _ _ ihHead ihTail =>
    rw [words_append, List.append_assoc, ihHead, ihTail]
  | stop => rfl
  | @join _ _ _ _ t used _ more _ between _ _ _ _ ihHead ihTail =>
    have shape : words (t :: (used ++ more)) ++ rest =
        t.spelled :: (words used ++ (words more ++ rest)) := by
      simp [words]
    rw [shape, sign (constants_between between), ihHead, ihTail]

/-- After the group at the front comes what is joined to it. -/
theorem afterGroup_opened {opening closing : Token} {inner : List Token} {within : Number}
    (opens : opening.kind = .symbol .leftParen) (closes : closing.kind = .symbol .rightParen)
    (reads : Reads (constants table) (.operation 0) inner within) (more : List Token) :
    afterGroup 0 (words (opening :: (inner ++ closing :: more))) = words more := by
  have shape : words (opening :: (inner ++ closing :: more)) =
      opening.spelled :: (words inner ++ (closing.spelled :: words more)) := by
    simp [words]
  rw [shape, afterGroup_opening opens, afterGroup_reads reads, afterGroup_closing closes]
  rfl

theorem constant_run {used rest : List Token} {value : Number}
    (reads : Reads (constants table) (.operation 0) used value)
    (stops : Stops (constants table) 0 rest) :
    (constant table).run (used ++ rest) = .ok (value, rest) :=
  expression_run.mpr ⟨used, rfl, reads, stops⟩

theorem valueFrom_run {rest : List Token} (single : NotAhead (.symbol .colon) rest) (n : Number) :
    (valueFrom table n).run rest = .ok (.uniform n.toFloat, rest) := by
  rw [valueFrom, eat_skip single]
  rfl

/-- A value goes on as a triple may after an expression, whatever the expression begins with. -/
theorem delayValue_constant {used rest : List Token} {value : Number}
    (reads : Reads (constants table) (.operation 0) used value)
    (stops : Stops (constants table) 0 rest) :
    (delayValue table).run (used ++ rest) = (valueFrom table value).run rest := by
  rw [delayValue]
  cases used with
  | nil => exact absurd rfl reads.operation_ne_nil
  | cons t tail =>
    by_cases opens : t.kind = .symbol .leftParen
    · obtain ⟨inner, within, closing, more, rfl, closes, group, joined⟩ :=
        reads_opened opens reads
      have stop := constants_stops table closes nofun nofun (more ++ rest)
      have noColon : NotAhead (.symbol .colon) (closing :: (more ++ rest)) :=
        notAhead_cons (by simp [closes])
      rw [List.cons_append, List.append_assoc, List.cons_append, eat_then opens, if_pos rfl,
        Rule.run_then (constant_run group stop), eat_skip noColon, if_neg Bool.false_ne_true,
        expect_then closes, Rule.run_then (continuing_run.mpr ⟨more, rfl, joined, stops⟩)]
    · have plain : NotAhead (.symbol .leftParen) (t :: tail ++ rest) := notAhead_cons opens
      rw [eat_skip plain, if_neg Bool.false_ne_true, Rule.run_then (constant_run reads stops)]

theorem delayValue_run {used rest : List Token} {value : Number}
    (reads : Reads (constants table) (.operation 0) used value)
    (stops : Stops (constants table) 0 rest) (single : NotAhead (.symbol .colon) rest) :
    (delayValue table).run (used ++ rest) = .ok (.uniform value.toFloat, rest) :=
  (delayValue_constant reads stops).trans (valueFrom_run single value)

theorem delayListFrom_single {first : Triple} {closing : Token} (rest : List Token)
    (closes : closing.kind = .symbol .rightParen) :
    (delayListFrom table first).run (closing :: rest) = .ok (.uniform first, rest) := by
  have noComma : NotAhead (.symbol .comma) (closing :: rest) := notAhead_cons (by simp [closes])
  rw [delayListFrom, Rule.run_then (following_run_stop _ noComma),
    Rule.run_then (show blame.run (closing :: rest) = .ok (_, closing :: rest) from rfl),
    expect_then closes]
  rfl

theorem OutgrowsGroup.of_words {first second : Token} {tail : List Token} :
    OutgrowsGroup (words (first :: second :: tail)) ↔
      first.kind = .symbol .leftParen ∧ second.kind = .symbol .leftParen ∧
        afterGroup 0 (words (first :: second :: tail)) ≠ [] := by
  constructor
  · rintro ⟨_, _, _, same, left, right, more⟩
    cases same
    exact ⟨left, right, more⟩
  · rintro ⟨left, right, more⟩
    exact ⟨first.spelled, second.spelled, words tail, rfl, left, right, more⟩

section Group

variable {opening second closing : Token} {others rest : List Token} {within : Number}

/-- A group that begins with a group is read as a whole list. -/
theorem delayList_nested (opens : opening.kind = .symbol .leftParen)
    (nested : second.kind = .symbol .leftParen) (closes : closing.kind = .symbol .rightParen)
    (group : Reads (constants table) (.operation 0) (second :: others) within) :
    (delayList table).run (opening :: (second :: others ++ closing :: rest)) =
      .ok (.uniform (.uniform within.toFloat), rest) := by
  have stop := constants_stops table closes nofun nofun rest
  have noColon : NotAhead (.symbol .colon) (closing :: rest) := notAhead_cons (by simp [closes])
  have ahead : TokenRule.kind.run (second :: others ++ closing :: rest) =
      .ok (second.kind, second :: others ++ closing :: rest) := rfl
  rw [delayList, eat_then opens, if_pos rfl, Rule.run_then ahead, if_pos nested,
    Rule.run_then (delayValue_run group stop noColon), delayListFrom_single rest closes]

/-- A list that begins with no parenthesis is read from its first expression on. -/
theorem delayList_plain {t : Token} (opens : opening.kind = .symbol .leftParen)
    (plain : t.kind ≠ .symbol .leftParen) (ts : List Token) :
    (delayList table).run (opening :: t :: ts) = (do
      let head ← constant table
      if ← eat .rightParen then
        return .uniform (← valueFrom table (← (constants table).continuing head))
      else delayListFrom table (← valueFrom table head) : TokenRule Transitions).run (t :: ts) := by
  have ahead : TokenRule.kind.run (t :: ts) = .ok (t.kind, t :: ts) := rfl
  rw [delayList, eat_then opens, if_pos rfl, Rule.run_then ahead, if_neg plain]

end Group

/-- Two parentheses begin the tokens. -/
def Nested (ts : List Token) : Prop :=
  ∃ first second rest, ts = first :: second :: rest ∧ first.kind = .symbol .leftParen ∧
    second.kind = .symbol .leftParen

theorem Nested.append {ts : List Token} (nested : Nested ts) (rest : List Token) :
    Nested (ts ++ rest) := by
  obtain ⟨first, second, more, rfl, opens, opens'⟩ := nested
  exact ⟨first, second, more ++ rest, rfl, opens, opens'⟩

theorem OutgrowsGroup.nested {used : List Token} (outgrown : OutgrowsGroup (words used)) :
    Nested used := by
  obtain ⟨_, _, _, same, _⟩ := id outgrown
  match used with
  | [] => cases same
  | [_] => cases same
  | first :: second :: rest =>
    obtain ⟨opens, opens', _⟩ := OutgrowsGroup.of_words.mp outgrown
    exact ⟨first, second, rest, rfl, opens, opens'⟩

/-- A list goes on as a triple may after an expression that one parenthesis begins at most. -/
theorem delayList_constant {used rest : List Token} {value : Number}
    (reads : Reads (constants table) (.operation 0) used value) (flat : ¬Nested used)
    (stops : Stops (constants table) 0 rest) :
    (delayList table).run (used ++ rest) =
      (do return .uniform (← valueFrom table value) : TokenRule Transitions).run rest := by
  cases used with
  | nil => exact absurd rfl reads.operation_ne_nil
  | cons t tail =>
    by_cases opens : t.kind = .symbol .leftParen
    · obtain ⟨inner, within, closing, more, rfl, closes, group, joined⟩ := reads_opened opens reads
      obtain ⟨second, others, rfl⟩ := List.exists_cons_of_ne_nil group.operation_ne_nil
      have single : second.kind ≠ .symbol .leftParen := fun opens' =>
        flat ⟨t, second, _, rfl, opens, opens'⟩
      have stop := constants_stops table closes nofun nofun (more ++ rest)
      rw [List.cons_append, List.append_assoc, List.cons_append, List.cons_append,
        delayList_plain opens single, ← List.cons_append, Rule.run_then (constant_run group stop),
        eat_then closes, if_pos rfl, Rule.run_then (continuing_run.mpr ⟨more, rfl, joined, stops⟩)]
    · have plain : NotAhead (.symbol .leftParen) (t :: tail ++ rest) := notAhead_cons opens
      rw [delayList, eat_skip plain, if_neg Bool.false_ne_true, Rule.run_bind,
        delayValue_constant reads stops, ← Rule.run_bind]

/-- A list that is one expression stands for a uniform delay, if it is read to its end. -/
theorem delayList_run {used rest : List Token} {value : Number}
    (reads : Reads (constants table) (.operation 0) used value)
    (stops : Stops (constants table) 0 rest) (single : NotAhead (.symbol .colon) rest) :
    (¬OutgrowsGroup (words used) →
      (delayList table).run (used ++ rest) = .ok (.uniform (.uniform value.toFloat), rest)) ∧
    (OutgrowsGroup (words used) → ∃ delays t more,
      (delayList table).run (used ++ rest) = .ok (delays, t :: more) ∧
        (t.kind = .symbol .plus ∨ t.kind = .symbol .minus)) := by
  by_cases nested : Nested used
  · obtain ⟨t, _, _, rfl, opens, opens'⟩ := nested
    obtain ⟨inner, within, closing, more, tail, closes, group, joined⟩ := reads_opened opens reads
    obtain ⟨second, others, rfl⟩ := List.exists_cons_of_ne_nil group.operation_ne_nil
    rw [List.cons_append] at tail
    obtain ⟨rfl, rfl⟩ := List.cons.inj tail.symm
    have after := afterGroup_opened opens closes group more
    have outgrows : OutgrowsGroup (words (t :: second :: (others ++ closing :: more))) ↔
        words more ≠ [] := by
      rw [OutgrowsGroup.of_words, ← List.cons_append, after]
      exact ⟨fun all => all.2.2, fun some_ => ⟨opens, opens', some_⟩⟩
    have shape : t :: second :: (others ++ closing :: more) ++ rest =
        t :: (second :: others ++ closing :: (more ++ rest)) := by simp
    rw [shape, outgrows, delayList_nested opens opens' closes group]
    cases joined with
    | stop => exact ⟨fun _ => rfl, absurd rfl⟩
    | @join _ _ _ _ t _ _ _ _ sign =>
      exact ⟨fun ended => absurd nofun ended, fun _ => ⟨_, t, _, rfl, constants_between sign⟩⟩
  · refine ⟨fun _ => ?_, fun outgrown => absurd outgrown.nested nested⟩
    rw [delayList_constant reads nested stops, Rule.run_then (valueFrom_run single value)]
    rfl

section Items

/-- `specparam name = e;` -/
def specparamWords (name : String) (e : List Word) : List Word :=
  (.keyword .specparam, "specparam") :: nameWord name :: symbolWord .assign ::
    (e ++ [symbolWord .semicolon])

/-- `(input => output) = e;` -/
def pathWords (input output : String) (e : List Word) : List Word :=
  symbolWord .leftParen :: nameWord input :: symbolWord .parallelPath :: nameWord output ::
    symbolWord .rightParen :: symbolWord .assign :: (e ++ [symbolWord .semicolon])

/-- `$period(signal, e);` -/
def periodWords (signal : String) (e : List Word) : List Word :=
  (.task .period, "$period") :: symbolWord .leftParen :: nameWord signal :: symbolWord .comma ::
    (e ++ [symbolWord .rightParen] ++ [symbolWord .semicolon])

/-- The first item and the tokens after it. -/
def item (table : Specparams) : List Token → Except SourceError (TimingItem × List Token)
  | [] => .error (unexpectedAt [])
  | t :: rest => (itemAfter table t).run rest

/-- A specparam with a value has an expression after its assignment sign. -/
theorem reads_of_specparam {name : String} {e : List Word} {ts rest : List Token} {line : Nat}
    {value : Number} (written : words ts = specparamWords name e)
    (ok : item table (ts ++ rest) = .ok (.specparam line name (some value), rest)) :
    ∃ used, words used = e ∧ Reads (constants table) (.operation 0) used value := by
  obtain ⟨keyword, ts, rfl, opens, written⟩ := words_eq_cons written
  obtain ⟨x, ts, rfl, named, _, written⟩ := words_eq_name written
  obtain ⟨sign, ts, rfl, assigns, written⟩ := words_eq_symbol written
  obtain ⟨body, semicolon, rfl, same, ends⟩ := words_eq_end written
  refine ⟨body, same, ?_⟩
  have shape : keyword :: x :: sign :: (body ++ [semicolon]) ++ rest =
      keyword :: x :: sign :: (body ++ semicolon :: rest) := by simp
  rw [shape, item, itemAfter, Token.kind_of_word opens] at ok
  change (specparam table).run _ = _ at ok
  rw [specparam, Rule.run_then (take_run.mpr ⟨rfl, named⟩), expect_then assigns] at ok
  obtain ⟨quoted, middle, first, ok⟩ := Rule.run_bind_ok.mp ok
  rcases take?_run.mp first with ⟨t, rfl, _, _⟩ | ⟨rfl, rfl, _⟩
  · obtain ⟨_, _, _, made⟩ := Rule.run_bind_ok.mp ok
    cases made
  · obtain ⟨found, after, read, ok⟩ := Rule.run_bind_ok.mp ok
    obtain ⟨_, _, ending, made⟩ := Rule.run_bind_ok.mp ok
    cases made
    obtain ⟨used, whole, reads, _⟩ := expression_run.mp read
    obtain ⟨last, rfl, _⟩ := expect_run.mp ending
    have same' : body ++ [semicolon] = used ++ [last] :=
      List.append_cancel_right (by simpa using whole)
    rw [(List.append_inj' same' rfl).1]
    exact reads

/-- A name alone is an event. -/
theorem event_of_name {x comma : Token} (named : x.kind = .name)
    (follows : comma.kind = .symbol .comma) (rest : List Token) :
    event.run (x :: comma :: rest) = .ok (⟨.rising, x.text, []⟩, comma :: rest) := by
  have noEdge (keyword : Keyword) : NotAhead (.keyword keyword) (x :: comma :: rest) :=
    notAhead_cons (by simp [named])
  have term : eventTerm.run (x :: comma :: rest) = .ok (x.text, comma :: rest) := by
    refine expression_run.mpr ⟨[x] ++ [], rfl, .operation (.atom ?_ ?_ ?_) .stop, ?_⟩
    · simp [eventTerms, named]
    · simp [Token.isSymbol, named]
    · simp [eventTerms, named]
    · exact stops_cons _ 0 comma rest (by simp [eventTerms, follows])
  have alone : (following .tripleAmp eventTerm).run (comma :: rest) = .ok ([], comma :: rest) :=
    following_run_stop _ (notAhead_cons (by simp [follows]))
  have edge : edge?.run (x :: comma :: rest) = .ok (none, x :: comma :: rest) := by
    rw [edge?, eatKeyword_skip (noEdge _), if_neg Bool.false_ne_true, eatKeyword_skip (noEdge _)]
    rfl
  rw [event, Rule.run_then edge, Rule.run_then term, Rule.run_then alone]
  rfl

theorem item_of_period {signal : String} {e : List Word} {ts used : List Token} {value : Number}
    (written : words ts = periodWords signal e) (same : words used = e)
    (reads : Reads (constants table) (.operation 0) used value) (rest : List Token) :
    item table (ts ++ rest) =
      .ok (.check (.period ⟨.rising, signal, []⟩ (.uniform value.toFloat) none), rest) := by
  obtain ⟨task, ts, rfl, opens, written⟩ := words_eq_cons written
  obtain ⟨left, ts, rfl, opening, written⟩ := words_eq_symbol written
  obtain ⟨x, ts, rfl, named, text, written⟩ := words_eq_name written
  obtain ⟨comma, ts, rfl, follows, written⟩ := words_eq_symbol written
  obtain ⟨most, semicolon, rfl, written, ends⟩ := words_eq_end written
  obtain ⟨body, right, rfl, alike, closes⟩ := words_eq_end written
  have shape : task :: left :: x :: comma :: (body ++ [right] ++ [semicolon]) ++ rest =
      task :: left :: x :: comma :: (body ++ right :: semicolon :: rest) := by simp
  have reads' := reads.of_words (placeless_constants table) (alike.trans same.symm)
  have stop := constants_stops table closes nofun nofun (semicolon :: rest)
  have noColon : NotAhead (.symbol .colon) (right :: semicolon :: rest) :=
    notAhead_cons (by simp [closes])
  have noComma : NotAhead (.symbol .comma) (right :: semicolon :: rest) :=
    notAhead_cons (by simp [closes])
  have notifier : lastNotifier.run (right :: semicolon :: rest) =
      .ok (none, right :: semicolon :: rest) := by
    rw [lastNotifier, eat_skip noComma]
    rfl
  have arguments : (period table).run (x :: comma :: (body ++ right :: semicolon :: rest)) =
      .ok (.period ⟨.rising, signal, []⟩ (.uniform value.toFloat) none,
        right :: semicolon :: rest) := by
    rw [period, Rule.run_then (event_of_name named follows _), expect_then follows,
      Rule.run_then (delayValue_run reads' stop noColon), Rule.run_then notifier, text]
    rfl
  have check : (timingCheck table .period).run
      (left :: x :: comma :: (body ++ right :: semicolon :: rest)) =
      .ok (.period ⟨.rising, signal, []⟩ (.uniform value.toFloat) none, rest) := by
    rw [timingCheck, Rule.run_then (show (Rule.ahead _).run _ = .ok (_, _) from rfl),
      expect_then opening, checkArguments, Rule.run_then arguments, expect_then closes,
      expect_then ends]
    rfl
  rw [shape, item, itemAfter, Token.kind_of_word opens]
  change (timingCheck table .period >>= _).run _ = _
  rw [Rule.run_then check]
  rfl

/-- The path that the tokens before its delays describe. -/
def plainPath (input output : String) (delays : Transitions) : Path where
  input
  output
  edge := none
  parallel := true
  inverted := false
  source := none
  condition := none
  delays

/-- A plain path up to its delays. -/
theorem pathBody_of_plain {x arrow y right sign : Token} {more : List Token}
    (input : x.kind = .name) (leads : arrow.kind = .symbol .parallelPath)
    (output : y.kind = .name) (closes : right.kind = .symbol .rightParen)
    (assigns : sign.kind = .symbol .assign) :
    (pathBody table).run (x :: arrow :: y :: right :: sign :: more) =
      (do
        let delays ← delayList table
        TokenRule.expect .semicolon
        return plainPath x.text y.text delays : TokenRule Path).run more := by
  have noEdge (keyword : Keyword) :
      NotAhead (.keyword keyword) (x :: arrow :: y :: right :: sign :: more) :=
    notAhead_cons (by simp [input])
  have edge : edge?.run (x :: arrow :: y :: right :: sign :: more) =
      .ok (none, x :: arrow :: y :: right :: sign :: more) := by
    rw [edge?, eatKeyword_skip (noEdge _), if_neg Bool.false_ne_true, eatKeyword_skip (noEdge _)]
    rfl
  have unsigned : arrowPolarity.run (arrow :: y :: right :: sign :: more) =
      .ok (false, arrow :: y :: right :: sign :: more) := by
    rw [arrowPolarity, Rule.run_then (show (Rule.ahead _).run _ = .ok (false, _) from ?_)]
    · rfl
    · simp [Rule.ahead, Token.isSymbol, leads]
  have parallel : Grammar.arrow.run (arrow :: y :: right :: sign :: more) =
      .ok (true, y :: right :: sign :: more) := by
    rw [Grammar.arrow, eat_then leads]
    rfl
  have noGroup : NotAhead (.symbol .leftParen) (y :: right :: sign :: more) :=
    notAhead_cons (by simp [output])
  rw [pathBody, Rule.run_then edge, name_then input, Rule.run_then unsigned,
    Rule.run_then parallel, eat_skip noGroup, if_neg Bool.false_ne_true, name_then output,
    expect_then closes, expect_then assigns]
  rfl

theorem item_of_path {input output : String} {e : List Word} {ts used : List Token}
    {value : Number} (written : words ts = pathWords input output e) (same : words used = e)
    (reads : Reads (constants table) (.operation 0) used value) (rest : List Token) :
    (¬OutgrowsGroup e → item table (ts ++ rest) =
      .ok (.path (plainPath input output (.uniform (.uniform value.toFloat))), rest)) ∧
    (OutgrowsGroup e → ∀ found, item table (ts ++ rest) ≠ .ok found) := by
  obtain ⟨left, ts, rfl, opens, written⟩ := words_eq_symbol written
  obtain ⟨x, ts, rfl, named, text, written⟩ := words_eq_name written
  obtain ⟨arrow, ts, rfl, leads, written⟩ := words_eq_symbol written
  obtain ⟨y, ts, rfl, named', text', written⟩ := words_eq_name written
  obtain ⟨right, ts, rfl, closes, written⟩ := words_eq_symbol written
  obtain ⟨sign, ts, rfl, assigns, written⟩ := words_eq_symbol written
  obtain ⟨body, semicolon, rfl, alike, ends⟩ := words_eq_end written
  have shape : left :: x :: arrow :: y :: right :: sign :: (body ++ [semicolon]) ++ rest =
      left :: x :: arrow :: y :: right :: sign :: (body ++ semicolon :: rest) := by simp
  have reads' := reads.of_words (placeless_constants table) (alike.trans same.symm)
  have stop := constants_stops table ends nofun nofun rest
  have noColon : NotAhead (.symbol .colon) (semicolon :: rest) :=
    notAhead_cons (by simp [ends])
  obtain ⟨uniform, outgrown⟩ := delayList_run reads' stop noColon
  rw [alike] at uniform outgrown
  rw [shape, item, itemAfter, opens]
  change (¬OutgrowsGroup e → (pathBody table >>= _).run _ = _) ∧
    (OutgrowsGroup e → ∀ found, (pathBody table >>= _).run _ ≠ _)
  have plain : (pathBody table).run
      (x :: arrow :: y :: right :: sign :: (body ++ semicolon :: rest)) = _ :=
    pathBody_of_plain named leads named' closes assigns
  refine ⟨fun ingrown => ?_, fun outgrows found ok => ?_⟩
  · rw [Rule.run_then (uniform ingrown), expect_then ends, text, text'] at plain
    rw [Rule.run_then plain]
    rfl
  · obtain ⟨delays, t, more, read, kind⟩ := outgrown outgrows
    obtain ⟨path, after, run, _⟩ := Rule.run_bind_ok.mp ok
    rw [plain, Rule.run_then read] at run
    obtain ⟨_, _, ending, _⟩ := Rule.run_bind_ok.mp run
    obtain ⟨t', same', kind'⟩ := expect_run.mp ending
    cases same'
    rw [kind'] at kind
    rcases kind with kind | kind <;> cases kind

end Items

/-- An expression that a specparam may be set to is the same limit of a check. As the
delays of a path it is the same delay, unless it outgrows a nested group; then the path
is refused. -/
theorem constant_anywhere {table : Specparams} {name : String} {e : List Word}
    {ts rest : List Token} {line : Nat} {value : Number}
    (written : words ts = specparamWords name e)
    (ok : item table (ts ++ rest) = .ok (.specparam line name (some value), rest))
    (signal input output : String) :
    (∀ ts' rest', words ts' = periodWords signal e → item table (ts' ++ rest') =
      .ok (.check (.period ⟨.rising, signal, []⟩ (.uniform value.toFloat) none), rest')) ∧
    ∀ ts' rest', words ts' = pathWords input output e →
      (item table (ts' ++ rest') =
          .ok (.path (plainPath input output (.uniform (.uniform value.toFloat))), rest') ↔
        ¬OutgrowsGroup e) ∧
      (OutgrowsGroup e → ∀ found, item table (ts' ++ rest') ≠ .ok found) := by
  obtain ⟨used, same, reads⟩ := reads_of_specparam written ok
  refine ⟨fun ts' rest' written' => item_of_period written' same reads rest',
    fun ts' rest' written' => ?_⟩
  obtain ⟨uniform, refused⟩ := item_of_path written' same reads rest'
  exact ⟨⟨fun read outgrows => refused outgrows _ read, uniform⟩, refused⟩

/-- Words standing on one line. -/
private def onLine (written : List Word) : List Token :=
  written.map fun word => ⟨word.1, word.2, 1, 0⟩

private def groupedSum : List Word :=
  [symbolWord .leftParen, (.number, "1"), symbolWord .rightParen, symbolWord .plus, (.number, "2")]

/-- A specparam with an integer of the usual form. -/
private def plainValue? : TimingItem → Option (Nat × String × Int)
  | .specparam line name (some ⟨width, base, .int value⟩) =>
    if width = Number.defaultWidth ∧ base = .decimal then some (line, name, value) else none
  | _ => none

private theorem eq_of_plainValue {item : TimingItem} {line : Nat} {name : String} {value : Int}
    (found : plainValue? item = some (line, name, value)) :
    item = .specparam line name (some (Number.ofInt value)) := by
  unfold plainValue? at found
  split at found
  · split at found
    · rename_i plain
      obtain ⟨rfl, rfl⟩ := plain
      cases found
      rfl
    · cases found
  · cases found

theorem constant_anywhere_sum :
    item [] (onLine (periodWords "CLK" groupedSum) ++ []) =
        .ok (.check (.period ⟨.rising, "CLK", []⟩ (.uniform (Float.ofInt 3)) none), []) ∧
      item [] (onLine (pathWords "A" "Y" groupedSum) ++ []) =
        .ok (.path (plainPath "A" "Y" (.uniform (.uniform (Float.ofInt 3)))), []) := by
  have ok : item [] (onLine (specparamWords "X" groupedSum) ++ []) =
      .ok (.specparam 1 "X" (some (Number.ofInt 3)), []) := by
    have read : (item [] (onLine (specparamWords "X" groupedSum) ++ [])).toOption.map
        (fun found => (plainValue? found.1, found.2)) = some (some (1, "X", 3), []) := by
      decide +kernel
    obtain ⟨⟨found, rest⟩, ok, same⟩ := exists_ok_of_toOption read
    obtain ⟨plain, rfl⟩ := Prod.mk.inj same
    have whole : found = _ := eq_of_plainValue plain
    rw [ok, whole]
  have grows : ¬OutgrowsGroup groupedSum := by
    rintro ⟨_, _, _, same, _, second, _⟩
    cases same
    cases second
  have written :
      words (onLine (specparamWords "X" groupedSum)) = specparamWords "X" groupedSum := by
    decide
  obtain ⟨period, path⟩ := constant_anywhere written ok "CLK" "A" "Y"
  exact ⟨period _ [] (by decide), (path _ [] (by decide)).1.mpr grows⟩

theorem nested_group_refused :
    (ModuleTiming.ofBlock "specify\nspecparam X = ((1))+2;\nendspecify").isOk = true ∧
      (ModuleTiming.ofBlock "specify\n(A => Y) = ((1))+2;\nendspecify").isOk = false := by
  exact ⟨by decide +kernel, by decide +kernel⟩

end CellTiming.Grammar
