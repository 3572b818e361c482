import CellTiming.Grammar.Condition
import CellTiming.Grammar.Expression
import CellTiming.Proofs.Operators

/-! Errors have their cause among the tokens. Ahead of the end of the input a rule either
leaves the end ahead, or fails for one of the tokens it was given. A statement about a rule
says so; it is proved for the parts of a rule and carried over to their composition. -/
namespace CellTiming

/-- The token is what the error is about. -/
inductive Token.Causes (t : Token) : SourceError → Prop
  | misplaced (inner : t.kind ≠ .endOfInput) : t.Causes (.unexpected t.line (some t.text))
  | ending (last : t.kind = .endOfInput) : t.Causes (.unexpected t.line none)
  | malformed (number : t.kind = .number) (unread : Number.ofString? t.text = none) :
      t.Causes (.malformedNumber t.line t.text)
  | redefined (name : t.kind = .name) : t.Causes (.specparamRedefined t.line t.text)
  | undeclared (name : t.kind = .name) : t.Causes (.specparamUndeclared t.line t.text)
  | uncovered (opens : t.kind = .keyword .ifnone) : t.Causes (.ifnoneUncovered t.line)

def CausedIn (ts : List Token) (e : SourceError) : Prop := ∃ t ∈ ts, t.Causes e

/-- The end of the input is still ahead. -/
def Ended (ts : List Token) : Prop := ∃ t ∈ ts, t.kind = .endOfInput

section Ahead

variable {t : Token} {used rest : List Token}

theorem Ended.after (ended : Ended (used ++ rest)) (inner : ∀ t ∈ used, t.kind ≠ .endOfInput) :
    Ended rest := by
  obtain ⟨t, member, ending⟩ := ended
  rcases List.mem_append.mp member with member | member
  · exact absurd ending (inner t member)
  · exact ⟨t, member, ending⟩

theorem Ended.tail (ended : Ended (t :: rest)) (inner : t.kind ≠ .endOfInput) : Ended rest := by
  rw [← List.singleton_append] at ended
  exact ended.after (List.forall_mem_singleton.mpr inner)

theorem causes_unexpected (t : Token) (ts : List Token) : t.Causes (unexpectedAt (t :: ts)) := by
  rw [unexpectedAt]
  split
  next ending => exact .ending ending
  next inner => exact .misplaced inner

theorem Ended.causedIn {all ts : List Token} (ended : Ended ts) (within : ts <:+ all) :
    CausedIn all (unexpectedAt ts) := by
  cases ts with
  | nil => simp [Ended] at ended
  | cons t rest => exact ⟨t, within.subset List.mem_cons_self, causes_unexpected t rest⟩

end Ahead

namespace TokenRule

/-- The end of the input is still ahead and the value has the property, or the error is
caused by one of the tokens. -/
def Explained (all : List Token) {α : Type} (P : α → Prop) :
    Except SourceError (α × List Token) → Prop
  | .ok (value, rest) => Ended rest ∧ P value
  | .error e => CausedIn all e

def Traced (all : List Token) {α : Type} (rule : TokenRule α) (P : α → Prop) : Prop :=
  ∀ ts, ts <:+ all → Ended ts → Explained all P (rule.run ts)

/-- The same of a rule whose value does not matter. -/
abbrev Traces (all : List Token) {α : Type} (rule : TokenRule α) : Prop :=
  Traced all rule fun _ => True

section Parts

variable {all : List Token} {α β : Type} {P : α → Prop} {Q : β → Prop}

theorem Explained.bind {result : Except SourceError (α × List Token)}
    {next : α × List Token → Except SourceError (β × List Token)} (first : Explained all P result)
    (second : ∀ value rest, result = .ok (value, rest) → Ended rest → P value →
      Explained all Q (next (value, rest))) : Explained all Q (result >>= next) := by
  cases result with
  | error e => exact first
  | ok step => exact second step.1 step.2 rfl first.1 first.2

theorem Traced.bind {rule : TokenRule α} {next : α → TokenRule β} (first : Traced all rule P)
    (second : ∀ value, P value → Traced all (next value) Q) : Traced all (rule >>= next) Q := by
  intro ts within ended
  have found := first ts within ended
  rw [Rule.run_bind]
  cases step : rule.run ts with
  | error e =>
    rw [step] at found
    exact found
  | ok step' =>
    rw [step] at found
    exact second step'.1 found.2 step'.2 ((rule.suffix step).trans within) found.1

theorem Traced.of_ok {R : α → Prop} {rule : TokenRule α} (traced : Traced all rule P)
    (made : ∀ {ts value rest}, ts <:+ all → rule.run ts = .ok (value, rest) → R value) :
    Traced all rule R := by
  intro ts within ended
  have found := traced ts within ended
  cases step : rule.run ts with
  | error e => rwa [step] at found
  | ok step' =>
    rw [step] at found
    exact ⟨found.1, made within step⟩

theorem Traced.mono {R : α → Prop} {rule : TokenRule α} (traced : Traced all rule P)
    (weaker : ∀ value, P value → R value) : Traced all rule R := by
  intro ts within ended
  have found := traced ts within ended
  cases step : rule.run ts with
  | error e => rwa [step] at found
  | ok step' =>
    rw [step] at found
    exact ⟨found.1, weaker _ found.2⟩

theorem Traced.ite {condition : Prop} [Decidable condition] {first second : TokenRule α}
    (left : Traced all first P) (right : Traced all second P) :
    Traced all (if condition then first else second) P := by
  split
  · exact left
  · exact right

theorem traced_pure {value : α} (holds : P value) : Traced all (pure value) P :=
  fun _ _ ended => ⟨ended, holds⟩

theorem traces_pure {value : α} : Traces all (pure value : TokenRule α) := traced_pure trivial

theorem traced_fail {error : SourceError} (caused : CausedIn all error) :
    Traced all (Rule.fail error) P := fun _ _ _ => caused

theorem traced_ahead {f : List Token → α} (holds : ∀ ts, ts <:+ all → Ended ts → P (f ts)) :
    Traced all (Rule.ahead f) P := fun ts within ended => ⟨ended, holds ts within ended⟩

theorem traces_ahead {f : List Token → α} : Traces all (Rule.ahead f : TokenRule α) :=
  traced_ahead fun _ _ _ => trivial

theorem traced_unexpected : Traced all (unexpected : TokenRule α) P :=
  fun _ within ended => ended.causedIn within

theorem traced_blame : Traced all blame (CausedIn all) :=
  traced_ahead fun _ within ended => ended.causedIn within

theorem traced_take? {kind : Token.Kind} (inner : kind ≠ .endOfInput) :
    Traced all (take? kind) fun found => ∀ t, found = some t → t ∈ all ∧ t.kind = kind := by
  intro ts within ended
  cases ts with
  | nil => exact ⟨ended, fun _ same => nomatch same⟩
  | cons t rest =>
    by_cases matched : t.kind = kind
    · have taken : (take? kind).run (t :: rest) = .ok (some t, rest) :=
        take?_run.mpr (.inl ⟨t, rfl, rfl, matched⟩)
      rw [taken]
      refine ⟨ended.tail (matched ▸ inner), fun t' same => ?_⟩
      cases same
      exact ⟨within.subset List.mem_cons_self, matched⟩
    · have kept : (take? kind).run (t :: rest) = .ok (none, t :: rest) :=
        take?_run.mpr (.inr ⟨rfl, rfl, notAhead_cons matched⟩)
      rw [kept]
      exact ⟨ended, fun _ same => nomatch same⟩

theorem traced_take {kind : Token.Kind} (inner : kind ≠ .endOfInput) :
    Traced all (take kind) fun t => t ∈ all ∧ t.kind = kind := by
  refine (traced_take? inner).bind fun found taken => ?_
  cases found with
  | none => exact traced_unexpected
  | some t => exact traced_pure (taken t rfl)

theorem symbol_inner {t : Token} {symbol : Symbol} (sign : t.isSymbol symbol = true) :
    t.kind ≠ .endOfInput := by
  rw [eq_of_beq sign]
  exact Token.Kind.noConfusion

theorem traces_expect (symbol : Symbol) : Traces all (expect symbol) :=
  (traced_take Token.Kind.noConfusion).bind fun _ _ => traces_pure

theorem traces_eat (symbol : Symbol) : Traces all (eat symbol) :=
  (traced_take? Token.Kind.noConfusion).bind fun _ _ => traces_pure

theorem traces_eatKeyword (keyword : Keyword) : Traces all (eatKeyword keyword) :=
  (traced_take? Token.Kind.noConfusion).bind fun _ _ => traces_pure

theorem traces_name : Traces all name := (traced_take Token.Kind.noConfusion).bind fun _ _ => traces_pure

theorem causes_numberOf {t : Token} {e : SourceError} (number : t.kind = .number)
    (failed : numberOf t = .error e) : t.Causes e := by
  unfold numberOf at failed
  split at failed
  next => cases failed
  next unread =>
    cases failed
    exact .malformed number unread

theorem traces_number : Traces all number := by
  refine (traced_take Token.Kind.noConfusion).bind fun t taken => ?_
  cases meaning : numberOf t with
  | ok n => exact traces_pure
  | error e => exact traced_fail ⟨t, taken.1, causes_numberOf taken.2 meaning⟩

theorem traced_following {separator : Symbol} {rule : TokenRule α} (traced : Traced all rule P) :
    Traced all (following separator rule) fun values => ∀ value ∈ values, P value := by
  intro ts within ended
  change Explained all _ (Rule.repeatedFrom (fun t _ => t.isSymbol separator) (fun _ => rule) ts)
  fun_induction Rule.repeatedFrom (fun t _ => t.isSymbol separator) (fun _ => rule) ts with
  | case1 => exact ⟨ended, List.forall_mem_nil _⟩
  | case2 t tail sign e failed =>
    have first := traced tail ((List.suffix_cons t tail).trans within) (ended.tail (symbol_inner sign))
    rwa [failed] at first
  | case3 t tail sign value rest found _ ih =>
    have behind := (List.suffix_cons t tail).trans within
    have first := traced tail behind (ended.tail (symbol_inner sign))
    rw [found] at first
    have others := ih ((rule.suffix found).trans behind) first.1
    cases more : Rule.repeatedFrom (fun t _ => t.isSymbol separator) (fun _ => rule) rest with
    | error e => rwa [more] at others
    | ok step =>
      rw [more] at others
      exact ⟨others.1, List.forall_mem_cons.mpr ⟨first.2, others.2⟩⟩
  | case4 => exact ⟨ended, List.forall_mem_nil _⟩

theorem traces_following {separator : Symbol} {rule : TokenRule α} (traces : Traces all rule) :
    Traces all (following separator rule) :=
  (traced_following traces).of_ok fun _ _ => trivial

end Parts

end TokenRule

namespace Operators

open TokenRule (Explained Traces symbol_inner)

variable {α : Type} {g : Operators α} {all : List Token}

/-- The end of the input is no part of an expression, and an atom without a value is what
the error is about. -/
structure Inner (g : Operators α) : Prop where
  before : ∀ {t apply}, g.before t = some apply → t.kind ≠ .endOfInput
  between : ∀ {t found}, g.between t = some found → t.kind ≠ .endOfInput
  atom : ∀ {t value}, g.atom t = .ok value → t.kind ≠ .endOfInput
  cause : ∀ {t e}, g.atom t = .error e → t.Causes e

theorem Inner.run (inner : g.Inner) :
    (∀ ts, ts <:+ all → Ended ts → Explained all (fun _ => True) (bare (operand g ts))) ∧
    (∀ level ts, ts <:+ all → Ended ts →
      Explained all (fun _ => True) (bare (operation g level ts))) ∧
    (∀ level left ts, ts <:+ all → Ended ts →
      Explained all (fun _ => True) (bare (extend g level left ts))) := by
  have behind {t : Token} {rest : List Token} (within : t :: rest <:+ all) : rest <:+ all :=
    (List.suffix_cons t rest).trans within
  have left {ts after : List Token} (within : ts <:+ all) (suffix : after <:+ ts.tail) :
      after <:+ all := suffix.trans ((List.tail_suffix ts).trans within)
  apply rules_induction (g := g)
  case nil =>
    intro _ ended
    simp [Ended] at ended
  case before =>
    intro t rest apply sign ih within ended
    rw [operand_before sign]
    exact (ih (behind within) (ended.tail (inner.before sign))).bind fun _ _ _ ended _ =>
      ⟨ended, trivial⟩
  case group =>
    intro t rest plain opens ih within ended
    rw [operand_group plain opens]
    refine (ih (behind within) (ended.tail (symbol_inner opens))).bind fun value after found ended _ => ?_
    exact (TokenRule.traces_expect _).bind (fun _ _ => TokenRule.traces_pure) after
      (left (behind within) (suffix_of_bare found)) ended
  case atom =>
    intro t rest plain single within ended
    rw [operand_atom plain single]
    cases meaning : g.atom t with
    | error e => exact ⟨t, within.subset List.mem_cons_self, inner.cause meaning⟩
    | ok value => exact ⟨ended.tail (inner.atom meaning), trivial⟩
  case operation =>
    intro level ts ihHead ihTail within ended
    rw [operation_eq]
    exact (ihHead within ended).bind fun value rest found ended _ =>
      ihTail value rest found (left within (suffix_of_bare found)) ended
  case stop =>
    intro level value ts stops _ ended
    rw [extend_stop stops]
    exact ⟨ended, trivial⟩
  case join =>
    intro level value t rest own apply sign binds ihHead ihTail within ended
    rw [extend_join sign binds]
    have first := ihHead (behind within) (ended.tail (inner.between sign))
    exact first.bind fun value after found ended _ =>
      ihTail value after found (left (behind within) (suffix_of_bare found)) ended

theorem Inner.expression (inner : g.Inner) : Traces all g.expression := inner.run.2.1 0

theorem Inner.continuing (inner : g.Inner) (left : α) : Traces all (g.continuing left) :=
  inner.run.2.2 0 left

end Operators

namespace Grammar

open TokenRule

theorem causes_misplaced {t : Token} {e : SourceError} {α : Type}
    (failed : (.error (unexpectedAt [t]) : Except SourceError α) = .error e) : t.Causes e := by
  cases failed
  exact causes_unexpected t []

theorem inner_constants (table : Specparams) : (constants table).Inner where
  before {t _} sign ending := by simp [constants, ending] at sign
  between {t _} sign ending := by simp [constants, ending] at sign
  atom {t _} meaning ending := by simp [constants, ending] at meaning
  cause {t e} failed := by
    simp only [constants] at failed
    split at failed
    next number => exact causes_numberOf number failed
    next name =>
      unfold specparamValue at failed
      split at failed
      · cases failed
      · split at failed
        · cases failed
        · cases failed
          exact .undeclared name
    next => exact causes_misplaced failed

theorem causes_numberOf_map {α : Type} {make : Number → α} {t : Token} {e : SourceError}
    (number : t.kind = .number) (failed : (numberOf t).map make = .error e) : t.Causes e := by
  cases meaning : numberOf t with
  | ok n => rw [meaning] at failed; cases failed
  | error e' =>
    rw [meaning] at failed
    cases failed
    exact causes_numberOf number meaning

theorem inner_conditions (table : Specparams) : (conditions table).Inner where
  before {t _} sign ending := by simp [conditions, ending] at sign
  between {t _} sign ending := by simp [conditions, ending] at sign
  atom {t _} meaning ending := by simp [conditions, ending] at meaning
  cause {t e} failed := by
    simp only [conditions] at failed
    split at failed
    next number => exact causes_numberOf_map number failed
    next => cases failed
    next => exact causes_misplaced failed

theorem inner_eventTerms : eventTerms.Inner where
  before {t _} sign ending := by simp [eventTerms, ending] at sign
  between {t _} sign ending := by simp [eventTerms, ending] at sign
  atom {t _} meaning ending := by simp [eventTerms, ending] at meaning
  cause {t e} failed := by
    simp only [eventTerms] at failed
    split at failed
    next number => exact causes_numberOf_map number failed
    next => cases failed
    next => exact causes_misplaced failed

end Grammar

end CellTiming
