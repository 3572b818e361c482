import CellTiming.Grammar.Block
import CellTiming.Proofs.Balanced
import CellTiming.Proofs.Parts

/-! How far rules look. What a rule makes of the tokens it takes depends on the next token at
most, an event or a delay only on whether an argument ends there. A rule that ends with a
semicolon depends on nothing that follows. -/
namespace CellTiming

/-- What is seen of the elements that are not taken. -/
structure Sight (σ : Type) where
  Alike : List σ → List σ → Prop
  behind : ∀ used {rest rest'}, Alike rest rest' → Alike (used ++ rest) (used ++ rest')

/-- The next element is seen, as far as there is one. -/
def Sight.next {σ : Type} : Sight σ where
  Alike rest rest' := rest'.head? = rest.head?
  behind used rest rest' alike := by rw [List.head?_append, List.head?_append, alike]

namespace Rule

variable {σ ε α β : Type} {sight : Sight σ} {rule : Rule σ ε α} {next : α → Rule σ ε β}

/-- What the rule takes is read in the same way before everything that looks like the rest. -/
def Local (sight : Sight σ) (rule : Rule σ ε α) : Prop :=
  ∀ ts value rest, rule.run ts = .ok (value, rest) → ∃ used, ts = used ++ rest ∧
    ∀ rest', sight.Alike rest rest' → rule.run (used ++ rest') = .ok (value, rest')

/-- The rule takes something, and that is read in the same way whatever follows. -/
def Closed (rule : Rule σ ε α) : Prop :=
  ∀ ts value rest, rule.run ts = .ok (value, rest) → ∃ used, ts = used ++ rest ∧ used ≠ [] ∧
    ∀ rest', rule.run (used ++ rest') = .ok (value, rest')

section Composition

theorem Local.mono {sight' : Sight σ} (seen : rule.Local sight)
    (more : ∀ rest rest', sight'.Alike rest rest' → sight.Alike rest rest') :
    rule.Local sight' := by
  intro ts value rest ok
  obtain ⟨used, same, again⟩ := seen ts value rest ok
  exact ⟨used, same, fun rest' alike => again rest' (more rest rest' alike)⟩

theorem Local.bind (first : rule.Local sight) (second : ∀ value, (next value).Local sight) :
    (rule >>= next).Local sight := by
  intro ts result rest ok
  obtain ⟨value, middle, head, tail⟩ := run_bind_ok.mp ok
  obtain ⟨used, rfl, again⟩ := first ts value middle head
  obtain ⟨more, rfl, again'⟩ := second value middle result rest tail
  refine ⟨used ++ more, (List.append_assoc _ _ _).symm, fun rest' alike => ?_⟩
  rw [List.append_assoc, run_then (again (more ++ rest') (sight.behind more alike))]
  exact again' rest' alike

theorem Local.ite {condition : Prop} [Decidable condition] {other : Rule σ ε α}
    (left : rule.Local sight) (right : other.Local sight) :
    (if condition then rule else other).Local sight := by
  split
  · exact left
  · exact right

theorem local_pure {value : α} : (pure value : Rule σ ε α).Local sight := by
  intro ts value' rest ok
  cases ok
  exact ⟨[], rfl, fun _ _ => rfl⟩

theorem local_fail {error : ε} : (fail error : Rule σ ε α).Local sight := fun _ _ _ ok => nomatch ok

theorem local_ahead {f : List σ → α}
    (seen : ∀ rest rest', sight.Alike rest rest' → f rest' = f rest) :
    (ahead f : Rule σ ε α).Local sight := by
  intro ts value rest ok
  cases ok
  exact ⟨[], rfl, fun rest' alike => congrArg (fun value => Except.ok (value, rest')) (seen _ _ alike)⟩

/-- None of the elements ahead passes the test. -/
def Stopped (first : σ → Bool) (ts : List σ) : Prop := ∀ t tail, ts = t :: tail → first t = false

theorem local_repeated {first : σ → Bool} {rule : σ → Rule σ ε α}
    (seen : ∀ rest rest', sight.Alike rest rest' → Stopped first rest → Stopped first rest')
    (each : ∀ t, (rule t).Local sight) : (repeated first rule).Local sight := by
  intro ts values rest ok
  have stop {rest : List σ} (stopped : Stopped first rest) : ∃ used, rest = used ++ rest ∧
      ∀ rest', sight.Alike rest rest' → (repeated first rule).run (used ++ rest') = .ok ([], rest') :=
    ⟨[], rfl, fun rest' alike => repeated_run_stop rule (seen rest rest' alike stopped)⟩
  change repeatedFrom (fun t _ => first t) rule ts = .ok (values, rest) at ok
  fun_induction repeatedFrom (fun t _ => first t) rule ts generalizing values with
  | case1 =>
    cases ok
    exact stop (by rintro _ _ ⟨⟩)
  | case2 => cases ok
  | case3 t tail passes value middle found _ ih =>
    cases others : repeatedFrom (fun t _ => first t) rule middle with
    | error e => rw [others] at ok; cases ok
    | ok step =>
      rw [others] at ok
      cases ok
      obtain ⟨more, rfl, again'⟩ := ih _ others
      obtain ⟨piece, rfl, again⟩ := each t _ _ _ found
      refine ⟨t :: (piece ++ more), by simp, fun rest' alike => ?_⟩
      have head := again (more ++ rest') (sight.behind more alike)
      have tail := again' rest' alike
      change repeatedFrom (fun t _ => first t) rule _ = _ at tail ⊢
      rw [List.cons_append, List.append_assoc, repeatedFrom_more passes, head]
      change Except.map _ (repeatedFrom _ rule (more ++ rest')) = _
      rw [tail]
      rfl
  | case4 t tail fails =>
    cases ok
    refine stop ?_
    rintro t' tail' ⟨⟩
    simpa using fails

theorem Closed.local (closed : rule.Closed) : rule.Local sight := by
  intro ts value rest ok
  obtain ⟨used, same, _, again⟩ := closed ts value rest ok
  exact ⟨used, same, fun rest' _ => again rest'⟩

/-- What the first rule sees is taken by the second. -/
theorem Local.closes (first : rule.Local .next) (second : ∀ value, (next value).Closed) :
    (rule >>= next).Closed := by
  intro ts result rest ok
  obtain ⟨value, middle, head, tail⟩ := run_bind_ok.mp ok
  obtain ⟨used, rfl, again⟩ := first ts value middle head
  obtain ⟨more, rfl, some_, again'⟩ := second value middle result rest tail
  refine ⟨used ++ more, (List.append_assoc _ _ _).symm, by simp [some_], fun rest' => ?_⟩
  have alike : (more ++ rest').head? = (more ++ rest).head? := by
    cases more with
    | nil => exact absurd rfl some_
    | cons => rfl
  rw [List.append_assoc, run_then (again (more ++ rest') alike)]
  exact again' rest'

theorem Closed.return {make : α → β} (closed : rule.Closed) :
    (rule >>= fun value => pure (make value)).Closed := by
  intro ts result rest ok
  obtain ⟨value, _, head, tail⟩ := run_bind_ok.mp ok
  cases tail
  obtain ⟨used, same, some_, again⟩ := closed ts value rest head
  exact ⟨used, same, some_, fun rest' => run_then (again rest')⟩

theorem closed_fail {error : ε} : (fail error : Rule σ ε α).Closed := fun _ _ _ ok => nomatch ok

theorem closed_failAt {error : List σ → ε} : (failAt error : Rule σ ε α).Closed :=
  fun _ _ _ ok => nomatch ok

theorem Closed.ite {condition : Prop} [Decidable condition] {other : Rule σ ε α}
    (left : rule.Closed) (right : other.Closed) : (if condition then rule else other).Closed := by
  split
  · exact left
  · exact right

end Composition

end Rule

namespace TokenRule

open Rule (Local Closed)

/-- An argument of a call ends before the token. -/
def endsArgument (t : Token) : Bool := t.isSymbol .comma || t.isSymbol .rightParen

/-- The next token is seen, but commas and closing parentheses look alike. -/
def argumentEnd : Sight Token where
  Alike rest rest' := rest'.head? = rest.head? ∨
    rest.head?.any endsArgument = true ∧ rest'.head?.any endsArgument = true
  behind used rest rest' alike := by
    cases used with
    | nil => exact alike
    | cons t used => exact .inl rfl

variable {sight : Sight Token} {α : Type}

/-- It is seen whether the next token is of the kind. -/
def Shows (sight : Sight Token) (kind : Token.Kind) : Prop :=
  ∀ rest rest', sight.Alike rest rest' → NotAhead kind rest → NotAhead kind rest'

theorem shows_next (kind : Token.Kind) : Shows .next kind := by
  rintro rest rest' alike other t tail rfl
  obtain ⟨more, same⟩ := List.head?_eq_some_iff.mp alike.symm
  exact other t more same

theorem shows_argument {kind : Token.Kind} (comma : kind ≠ .symbol .comma)
    (closing : kind ≠ .symbol .rightParen) : Shows argumentEnd kind := by
  rintro rest rest' (alike | ⟨_, ends⟩) other t tail rfl
  · exact shows_next kind rest _ alike other t tail rfl
  · rintro rfl
    simp [endsArgument, Token.isSymbol, comma, closing] at ends

theorem local_next {rule : TokenRule α} (seen : rule.Local argumentEnd) : rule.Local .next :=
  seen.mono fun _ _ => .inl

theorem local_take? {kind : Token.Kind} (shows_ : Shows sight kind) : (take? kind).Local sight := by
  intro ts found rest ok
  rcases take?_run.mp ok with ⟨t, rfl, rfl, matched⟩ | ⟨rfl, rfl, other⟩
  · exact ⟨[t], rfl, fun rest' _ => take?_run.mpr (.inl ⟨t, rfl, rfl, matched⟩)⟩
  · exact ⟨[], rfl, fun rest' alike => take?_run.mpr (.inr ⟨rfl, rfl, shows_ _ _ alike other⟩)⟩

theorem local_eat {symbol : Symbol} (shows_ : Shows sight (.symbol symbol)) :
    (eat symbol).Local sight := (local_take? shows_).bind fun _ => Rule.local_pure

theorem local_eatKeyword {keyword : Keyword} (shows_ : Shows sight (.keyword keyword)) :
    (eatKeyword keyword).Local sight := (local_take? shows_).bind fun _ => Rule.local_pure

theorem closed_take (kind : Token.Kind) : (take kind).Closed := by
  intro ts t rest ok
  obtain ⟨rfl, matched⟩ := take_run.mp ok
  exact ⟨[t], rfl, nofun, fun rest' => take_run.mpr ⟨rfl, matched⟩⟩

theorem closed_expect (symbol : Symbol) : (expect symbol).Closed := (closed_take _).return

theorem closed_name : name.Closed := (closed_take _).return

theorem closed_number : number.Closed := by
  intro ts value rest ok
  obtain ⟨t, rfl, found⟩ := number_run.mp ok
  exact ⟨[t], rfl, nofun, fun rest' => number_run.mpr ⟨t, rfl, found⟩⟩

theorem local_kind : kind.Local .next := by
  refine Rule.local_ahead fun rest rest' alike => ?_
  cases rest <;> cases rest' <;> cases alike <;> rfl

theorem local_blame : blame.Local .next := by
  refine Rule.local_ahead fun rest rest' alike => ?_
  cases rest <;> cases rest' <;> cases alike <;> rfl

theorem local_following {separator : Symbol} {rule : TokenRule α}
    (shows_ : Shows sight (.symbol separator)) (seen : rule.Local sight) :
    (following separator rule).Local sight := by
  refine Rule.local_repeated (fun rest rest' alike stopped => ?_) fun _ => seen
  have other : NotAhead (.symbol separator) rest := by
    rintro t tail rfl
    simpa [Token.isSymbol] using stopped t tail rfl
  rintro t tail rfl
  simpa [Token.isSymbol] using shows_ _ _ alike other t tail rfl

end TokenRule

namespace Operators

variable {α : Type} {g : Operators α}

/-- Neither a comma nor a closing parenthesis is an operator. -/
theorem Stops.alike (ends : ∀ t, TokenRule.endsArgument t = true → g.between t = none)
    {rest rest' : List Token} (stops : Stops g 0 rest)
    (alike : TokenRule.argumentEnd.Alike rest rest') : Stops g 0 rest' := by
  rintro t tail own apply rfl sign
  rcases alike with alike | ⟨_, closes⟩
  · obtain ⟨more, same⟩ := List.head?_eq_some_iff.mp alike.symm
    exact stops t more own apply same sign
  · rw [ends t (by simpa using closes)] at sign
    cases sign

section Argument

variable (ends : ∀ t, TokenRule.endsArgument t = true → g.between t = none)

include ends

theorem local_expression : g.expression.Local TokenRule.argumentEnd := by
  intro ts value rest ok
  obtain ⟨used, same, reads, stops⟩ := expression_run.mp ok
  exact ⟨used, same, fun rest' alike =>
    expression_run.mpr ⟨used, rfl, reads, stops.alike ends alike⟩⟩

theorem local_continuing (left : α) : (g.continuing left).Local TokenRule.argumentEnd := by
  intro ts value rest ok
  obtain ⟨used, same, reads, stops⟩ := continuing_run.mp ok
  exact ⟨used, same, fun rest' alike =>
    continuing_run.mpr ⟨used, rfl, reads, stops.alike ends alike⟩⟩

end Argument

end Operators

namespace Grammar

open TokenRule Operators
open Rule (local_pure)

section Arguments

variable (table : Specparams)

private theorem ends_kind {t : Token} (ends : endsArgument t = true) :
    t.kind = .symbol .comma ∨ t.kind = .symbol .rightParen := by
  simpa [endsArgument, Token.isSymbol] using ends

theorem constants_ends (t : Token) (ends : endsArgument t = true) :
    (constants table).between t = none := by
  rcases ends_kind ends with kind | kind <;> simp [constants, kind]

theorem conditions_ends (t : Token) (ends : endsArgument t = true) :
    (conditions table).between t = none := by
  rcases ends_kind ends with kind | kind <;> simp [conditions, kind]

theorem eventTerms_ends (t : Token) (ends : endsArgument t = true) :
    eventTerms.between t = none := by
  rcases ends_kind ends with kind | kind <;> simp [eventTerms, kind]

theorem local_constant : (constant table).Local argumentEnd :=
  local_expression (constants_ends table)

theorem local_condition : (condition table).Local argumentEnd :=
  local_expression (conditions_ends table)

theorem local_eventTerm : eventTerm.Local argumentEnd := local_expression eventTerms_ends

theorem composed_local {sight : Sight Token} : Composed fun _ rule => rule.Local sight where
  unit := local_pure
  bind := .bind

theorem local_valueParts : ValueParts table fun _ rule => rule.Local argumentEnd where
  toComposed := composed_local
  rising := local_eatKeyword (shows_argument (by decide) (by decide))
  falling := local_eatKeyword (shows_argument (by decide) (by decide))
  eventTerm := local_eventTerm
  terms := local_following (shows_argument (by decide) (by decide)) local_eventTerm
  constant := local_constant table
  triple := local_eat (shows_argument (by decide) (by decide))
  colon := (closed_expect _).local
  opening := local_eat (shows_argument (by decide) (by decide))
  closing := (closed_expect _).local
  continuing := local_continuing (constants_ends table)

theorem local_edge : edge?.Local argumentEnd := (local_valueParts []).edge

theorem local_event : event.Local argumentEnd := (local_valueParts []).event

theorem local_delayValue : (delayValue table).Local argumentEnd := (local_valueParts table).delayValue

theorem local_listParts : ListParts table fun _ rule => rule.Local .next where
  toComposed := composed_local
  kind := local_kind
  opening := local_eat (shows_next _)
  closing := local_eat (shows_next _)
  constant := local_next (local_constant table)
  continuing left := local_next (local_continuing (constants_ends table) left)
  valueFrom first := local_next ((local_valueParts table).valueFrom first)
  delayValue := local_next (local_delayValue table)
  others := local_following (shows_next _) (local_next (local_delayValue table))
  ending delays := by
    refine local_blame.bind fun _ => (closed_expect _).local.bind fun _ => ?_
    cases delays with
    | some => exact local_pure
    | none => exact Rule.local_fail

theorem local_delayList : (delayList table).Local .next := (local_listParts table).delayList

theorem local_checkParts : CheckParts table fun _ rule => rule.Local .next where
  toComposed := composed_local
  kind := local_kind
  name := closed_name.local
  more := local_eat (shows_next _)
  comma := (closed_expect _).local
  event := local_next local_event
  condition := local_next (local_condition table)
  delayValue := local_next (local_delayValue table)

/-- A call, its semicolon and what it is read as. The check does not depend on what follows. -/
theorem timingCheck_run {table : Specparams} {task : CheckTask} {ts rest : List Token}
    {check : TimingCheck} : (timingCheck table task).run ts = .ok (check, rest) ↔
      ∃ opening arguments closing semicolon,
        ts = opening :: (arguments ++ closing :: semicolon :: rest) ∧
        opening.kind = .symbol .leftParen ∧ closing.kind = .symbol .rightParen ∧
        semicolon.kind = .symbol .semicolon ∧ Balanced listKinds arguments ∧
        ∀ rest', (checkArguments table (argumentCount arguments) task).run
          (arguments ++ closing :: rest') = .ok (check, closing :: rest') := by
  constructor
  · intro ok
    obtain ⟨count, _, counted, opened⟩ := Rule.run_bind_ok.mp ok
    cases counted
    obtain ⟨_, inside, opening, body⟩ := Rule.run_bind_ok.mp opened
    obtain ⟨left, rfl, opens⟩ := expect_run.mp opening
    obtain ⟨found, _, read, ending⟩ := Rule.run_bind_ok.mp body
    obtain ⟨_, _, closing, last⟩ := Rule.run_bind_ok.mp ending
    obtain ⟨right, rfl, closes⟩ := expect_run.mp closing
    obtain ⟨_, _, semicolon, finish⟩ := Rule.run_bind_ok.mp last
    obtain ⟨stop, rfl, ends⟩ := expect_run.mp semicolon
    cases finish
    obtain ⟨arguments, rfl, balanced⟩ := bracketed_checkArguments table _ task _ _ _ read
    rw [balanced.count opens closes] at read
    refine ⟨left, arguments, right, stop, rfl, opens, closes, ends, balanced, fun rest' => ?_⟩
    obtain ⟨used, same, again⟩ := (local_checkParts table).checkArguments _ task _ _ _ read
    cases List.append_cancel_right same
    exact again (right :: rest') rfl
  · rintro ⟨left, arguments, right, last, rfl, opens, closes, ends, balanced, read⟩
    have counted : (Rule.ahead (countArguments 0 1) : TokenRule Nat).run
        (left :: (arguments ++ right :: last :: rest)) =
        .ok (argumentCount arguments, left :: (arguments ++ right :: last :: rest)) :=
      congrArg (fun count => Except.ok (count, _)) (balanced.count opens closes _)
    rw [timingCheck, Rule.run_then counted, expect_then opens, Rule.run_then (read _),
      expect_then closes, expect_then ends]
    rfl

theorem closed_timingCheck (task : CheckTask) : (timingCheck table task).Closed := by
  intro ts check rest ok
  obtain ⟨opening, arguments, closing, semicolon, rfl, call⟩ := timingCheck_run.mp ok
  refine ⟨opening :: (arguments ++ [closing, semicolon]), by simp, nofun, fun rest' => ?_⟩
  exact timingCheck_run.mpr ⟨opening, arguments, closing, semicolon, by simp, call⟩

end Arguments

section Items

variable (table : Specparams)

theorem arrow_run {ts rest : List Token} {parallel : Bool} :
    arrow.run ts = .ok (parallel, rest) ↔ ∃ t, ts = t :: rest ∧
      (parallel = true ∧ t.kind = .symbol .parallelPath ∨
        parallel = false ∧ t.kind = .symbol .fullPath) := by
  rw [arrow, Rule.run_bind_ok]
  constructor
  · rintro ⟨eaten, middle, head, tail⟩
    rcases eat_run.mp head with ⟨rfl, t, rfl, kind⟩ | ⟨rfl, rfl, _⟩
    · cases tail
      exact ⟨t, rfl, .inl ⟨rfl, kind⟩⟩
    · obtain ⟨_, _, full, finish⟩ := Rule.run_bind_ok.mp tail
      obtain ⟨t, rfl, kind⟩ := expect_run.mp full
      cases finish
      exact ⟨t, rfl, .inr ⟨rfl, kind⟩⟩
  · rintro ⟨t, rfl, ⟨rfl, kind⟩ | ⟨rfl, kind⟩⟩
    · exact ⟨true, rest, eat_run.mpr (.inl ⟨rfl, t, rfl, kind⟩), rfl⟩
    · have other : NotAhead (.symbol .parallelPath) (t :: rest) := notAhead_cons (by simp [kind])
      exact ⟨false, t :: rest, eat_run.mpr (.inr ⟨rfl, rfl, other⟩), expect_then kind⟩

section Signs

variable {t sign : Token} {rest : List Token}

/-- A plus or minus sign. -/
def isSign (t : Token) : Bool := t.isSymbol .plus || t.isSymbol .minus

theorem sign_cases (signed : isSign sign = true) :
    sign.kind = .symbol .plus ∨ sign.kind = .symbol .minus := by
  simpa [isSign, Token.isSymbol] using signed

theorem arrowPolarity_signed (signed : isSign sign = true) (leads : t.kind.isPath = true) :
    arrowPolarity.run (sign :: t :: rest) = .ok (sign.isSymbol .minus, t :: rest) := by
  rw [arrowPolarity, Rule.run_bind]
  change (if (isSign sign && t.kind.isPath) = true then _ else _ : TokenRule Bool).run _ = _
  rw [if_pos (by rw [signed, leads]; rfl)]
  rcases sign_cases signed with kind | kind
  · have other : NotAhead (.symbol .minus) (sign :: t :: rest) := notAhead_cons (by simp [kind])
    rw [eat_skip other, if_neg Bool.false_ne_true, expect_then kind]
    simp [Token.isSymbol, kind]
  · rw [eat_then kind, if_pos rfl]
    simp [Token.isSymbol, kind]

theorem arrowPolarity_unsigned (plain : ¬(isSign t = true ∧ rest.head?.any (·.kind.isPath) = true)) :
    arrowPolarity.run (t :: rest) = .ok (false, t :: rest) := by
  rw [arrowPolarity, Rule.run_bind]
  cases rest with
  | nil => rfl
  | cons next rest =>
    change (if (isSign t && next.kind.isPath) = true then _ else _ : TokenRule Bool).run _ = _
    rw [if_neg (by simpa using plain)]
    rfl

theorem arrowPolarity_leads (leads : t.kind.isPath = true) :
    arrowPolarity.run (t :: rest) = .ok (false, t :: rest) := by
  refine arrowPolarity_unsigned fun both => ?_
  rcases sign_cases both.1 with kind | kind <;> simp [kind, Token.Kind.isPath] at leads

/-- A sign is only taken with an arrow behind it, so an arrow shows all that is seen. -/
theorem closed_arrows {β : Type} {next : Bool → Bool → TokenRule β}
    (closed : ∀ inverted parallel, (next inverted parallel).Closed) :
    (arrowPolarity >>= fun inverted => arrow >>= fun parallel => next inverted parallel).Closed := by
  intro ts value rest ok
  obtain ⟨inverted, middle, polarity, tail⟩ := Rule.run_bind_ok.mp ok
  obtain ⟨parallel, after, read, last⟩ := Rule.run_bind_ok.mp tail
  obtain ⟨t, rfl, kind⟩ := arrow_run.mp read
  obtain ⟨used, rfl, _, again⟩ := closed inverted parallel after value rest last
  have leads : t.kind.isPath = true := by
    rcases kind with ⟨_, kind⟩ | ⟨_, kind⟩ <;> simp [kind, Token.Kind.isPath]
  have read' (rest' : List Token) : arrow.run (t :: (used ++ rest')) = .ok (parallel, used ++ rest') :=
    arrow_run.mpr ⟨t, rfl, kind⟩
  cases ts with
  | nil => cases polarity
  | cons first more =>
    by_cases signed : isSign first = true ∧ more.head?.any (·.kind.isPath) = true
    · obtain ⟨arrow, others, rfl⟩ : ∃ arrow others, more = arrow :: others := by
        cases more with
        | nil => simp at signed
        | cons arrow others => exact ⟨arrow, others, rfl⟩
      rw [arrowPolarity_signed signed.1 (by simpa using signed.2)] at polarity
      cases polarity
      refine ⟨first :: t :: used, rfl, nofun, fun rest' => ?_⟩
      rw [List.cons_append, List.cons_append, Rule.run_then (arrowPolarity_signed signed.1 leads),
        Rule.run_then (read' rest'), again]
    · rw [arrowPolarity_unsigned signed] at polarity
      cases polarity
      refine ⟨t :: used, rfl, nofun, fun rest' => ?_⟩
      rw [List.cons_append, Rule.run_then (arrowPolarity_leads leads), Rule.run_then (read' rest'),
        again]

theorem closed_dataSource : dataSource.Closed := by
  refine local_kind.closes fun kind => ?_
  split
  · exact closed_name
  · exact closed_number.return
  · exact Rule.closed_failAt

/-- The source behind its colon. -/
def sourceFrom (inverted : Bool) : TokenRule (Bool × Option String) := do
  TokenRule.expect .colon
  return (inverted, some (← dataSource))

theorem closed_sourceFrom (inverted : Bool) : (sourceFrom inverted).Closed :=
  (closed_expect _).local.closes fun _ => closed_dataSource.return

theorem sourceClause_none (closes : t.kind = .symbol .rightParen) :
    sourceClause.run (t :: rest) = .ok ((false, none), t :: rest) := by
  rw [sourceClause, Rule.run_then (show kind.run (t :: rest) = .ok (t.kind, t :: rest) from rfl),
    if_pos closes]
  rfl

/-- The source behind its sign, if there is one. -/
def sourceAfter (signed : Bool) : TokenRule (Bool × Option String) := do
  let inverted ← if signed then eat .minus else pure false
  if signed && !inverted then expect .plus
  sourceFrom inverted

theorem sourceClause_run (other : t.kind ≠ .symbol .rightParen) : sourceClause.run (t :: rest) =
    (sourceAfter (isSign t && rest.head?.any (·.isSymbol .colon))).run (t :: rest) := by
  rw [sourceClause, Rule.run_then (show kind.run (t :: rest) = .ok (t.kind, t :: rest) from rfl),
    if_neg other, Rule.run_bind]
  cases rest with
  | nil =>
    rw [List.head?_nil, Option.any_none, Bool.and_false]
    rfl
  | cons => rfl

theorem sourceClause_signed (signed : isSign sign = true) (colon : t.kind = .symbol .colon) :
    sourceClause.run (sign :: t :: rest) = (sourceFrom (sign.isSymbol .minus)).run (t :: rest) := by
  have other : sign.kind ≠ .symbol .rightParen := by
    rcases sign_cases signed with kind | kind <;> simp [kind]
  have both : (isSign sign && (t :: rest).head?.any (·.isSymbol .colon)) = true := by
    simp [signed, Token.isSymbol, colon]
  rw [sourceClause_run other, both, sourceAfter, if_pos rfl]
  rcases sign_cases signed with kind | kind
  · have plus : NotAhead (.symbol .minus) (sign :: t :: rest) := notAhead_cons (by simp [kind])
    have minus : sign.isSymbol .minus = false := by simp [Token.isSymbol, kind]
    rw [eat_skip plus, minus]
    exact expect_then kind
  · have minus : sign.isSymbol .minus = true := by simp [Token.isSymbol, kind]
    rw [eat_then kind, minus]
    rfl

theorem sourceClause_unsigned (other : t.kind ≠ .symbol .rightParen)
    (plain : ¬(isSign t = true ∧ rest.head?.any (·.isSymbol .colon) = true)) :
    sourceClause.run (t :: rest) = (sourceFrom false).run (t :: rest) := by
  rw [← Bool.and_eq_true, Bool.not_eq_true] at plain
  rw [sourceClause_run other, plain]
  rfl

theorem local_sourceClause : sourceClause.Local .next := by
  intro ts value rest ok
  cases ts with
  | nil => cases ok
  | cons t more =>
    by_cases closes : t.kind = .symbol .rightParen
    · rw [sourceClause_none closes] at ok
      cases ok
      refine ⟨[], rfl, fun rest' alike => ?_⟩
      obtain ⟨tail, rfl⟩ := List.head?_eq_some_iff.mp (alike : rest'.head? = some t)
      exact sourceClause_none closes
    · by_cases signed : isSign t = true ∧ more.head?.any (·.isSymbol .colon) = true
      · obtain ⟨colon, others, rfl⟩ : ∃ colon others, more = colon :: others := by
          cases more with
          | nil => simp at signed
          | cons colon others => exact ⟨colon, others, rfl⟩
        have kind : colon.kind = .symbol .colon := by simpa [Token.isSymbol] using signed.2
        rw [sourceClause_signed signed.1 kind] at ok
        obtain ⟨used, same, some_, again⟩ := closed_sourceFrom _ _ _ _ ok
        obtain ⟨first, used, rfl⟩ := List.exists_cons_of_ne_nil some_
        cases same
        refine ⟨t :: colon :: used, rfl, fun rest' _ => ?_⟩
        exact (sourceClause_signed signed.1 kind).trans (again rest')
      · rw [sourceClause_unsigned closes signed] at ok
        obtain ⟨used, same, some_, again⟩ := closed_sourceFrom _ _ _ _ ok
        obtain ⟨first, used, rfl⟩ := List.exists_cons_of_ne_nil some_
        cases same
        -- the source begins with its colon, which is no sign
        obtain ⟨_, _, head, _⟩ := Rule.run_bind_ok.mp ok
        obtain ⟨_, same, kind⟩ := expect_run.mp head
        cases same
        refine ⟨t :: used, rfl, fun rest' _ => ?_⟩
        refine (sourceClause_unsigned closes fun both => ?_).trans (again rest')
        rcases sign_cases both.1 with sign | sign <;> simp [kind] at sign

end Signs

theorem local_groupedDelays : (groupedDelays table).Local .next :=
  (local_eat (shows_next _)).bind fun _ => .ite
    ((closed_expect _).local.bind fun _ => local_delayList table)
    ((closed_expect _).local.bind fun _ => (local_delayList table).bind fun _ =>
      (closed_expect _).local.bind fun _ => local_pure)

theorem closed_pathBody : (pathBody table).Closed := by
  refine (local_next local_edge).closes fun _ => closed_name.local.closes fun _ =>
    closed_arrows fun _ _ => (local_eat (shows_next _)).closes fun _ => .ite ?_ ?_
  · exact closed_name.local.closes fun _ => local_sourceClause.closes fun _ =>
      (closed_expect _).local.closes fun _ => (local_groupedDelays table).closes fun _ =>
      (closed_expect _).return
  · exact closed_name.local.closes fun _ => (closed_expect _).local.closes fun _ =>
      (closed_expect _).local.closes fun _ => (local_delayList table).closes fun _ =>
      (closed_expect _).return

theorem closed_path : (path table).Closed :=
  (closed_expect _).local.closes fun _ => closed_pathBody table

theorem closed_specparam : (specparam table).Closed := by
  refine (closed_take _).local.closes fun _ => (closed_expect _).local.closes fun _ =>
    (local_take? (shows_next _)).closes fun _ => .ite ?_ ?_
  · exact (closed_expect _).return
  · exact (local_next (local_constant table)).closes fun _ => (closed_expect _).return

theorem closed_conditionedPath : (conditionedPath table).Closed :=
  (closed_expect _).local.closes fun _ => (local_next (local_condition table)).closes fun _ =>
    (closed_expect _).local.closes fun _ => (closed_path table).return

/-- Every item is read in the same way whatever follows it. -/
theorem closed_itemAfter (t : Token) : (itemAfter table t).Closed := by
  unfold itemAfter
  split
  · exact closed_specparam table
  · exact closed_conditionedPath table
  · exact (closed_path table).return
  · exact (closed_pathBody table).return
  · exact (closed_timingCheck table _).return
  · exact Rule.closed_fail

end Items

end Grammar

end CellTiming
