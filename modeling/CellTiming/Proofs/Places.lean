import CellTiming.Grammar.Condition
import CellTiming.Grammar.Expression
import CellTiming.Proofs.TokenRule
import CellTiming.Proofs.Words

/-! Where tokens stand makes no difference to what is read from them. Without their places
they give the same value and leave the same tokens, or give the same error but for its line.
A statement about a rule says so; it is proved for the parts of a rule and carried over to
their composition. -/
namespace CellTiming

theorem unexpectedAt_placeless (ts : List Token) :
    unexpectedAt (ts.map Token.placeless) = (unexpectedAt ts).placeless := by
  cases ts <;> rfl

namespace TokenRule

variable {α β γ δ : Type} {f : α → β} {g : γ → δ}

def withoutPlaces (f : α → β) :
    Except SourceError (α × List Token) → Except SourceError (β × List Token)
  | .ok (value, rest) => .ok (f value, rest.map Token.placeless)
  | .error e => .error e.placeless

theorem withoutPlaces_bind {result : Except SourceError (α × List Token)}
    {next : α × List Token → Except SourceError (γ × List Token)}
    {next' : β × List Token → Except SourceError (δ × List Token)}
    (same : ∀ value rest, result = .ok (value, rest) →
      next' (f value, rest.map Token.placeless) = withoutPlaces g (next (value, rest))) :
    withoutPlaces f result >>= next' = withoutPlaces g (result >>= next) := by
  cases result with
  | error e => rfl
  | ok step => exact same step.1 step.2 rfl

/-- The second rule makes of tokens without places what the first makes of the tokens. -/
def Placeless (f : α → β) (rule : TokenRule α) (rule' : TokenRule β) : Prop :=
  ∀ ts, rule'.run (ts.map Token.placeless) = withoutPlaces f (rule.run ts)

/-- The value of the rule does not depend on places. -/
def Blind (rule : TokenRule α) : Prop := Placeless id rule rule

section Parts

theorem Placeless.bind {rule : TokenRule α} {rule' : TokenRule β} {next : α → TokenRule γ}
    {next' : β → TokenRule δ} (first : Placeless f rule rule')
    (second : ∀ value, Placeless g (next value) (next' (f value))) :
    Placeless g (rule >>= next) (rule' >>= next') := by
  intro ts
  rw [Rule.run_bind, Rule.run_bind, first ts]
  cases rule.run ts with
  | error e => rfl
  | ok step => exact second step.1 step.2

theorem Blind.bind {rule : TokenRule α} {next : α → TokenRule γ} {next' : α → TokenRule δ}
    (first : Blind rule) (second : ∀ value, Placeless g (next value) (next' value)) :
    Placeless g (rule >>= next) (rule >>= next') :=
  Placeless.bind first second

theorem Placeless.ite {condition : Prop} [Decidable condition] {first second : TokenRule α}
    {first' second' : TokenRule β} (left : Placeless f first first')
    (right : Placeless f second second') :
    Placeless f (if condition then first else second) (if condition then first' else second') := by
  split
  · exact left
  · exact right

theorem Blind.ite {condition : Prop} [Decidable condition] {first second : TokenRule α}
    (left : Blind first) (right : Blind second) : Blind (if condition then first else second) :=
  Placeless.ite left right

theorem placeless_pure {value : α} : Placeless f (pure value) (pure (f value)) := fun _ => rfl

theorem blind_pure {value : α} : Blind (pure value) := placeless_pure

theorem placeless_fail {error : SourceError} :
    Placeless f (Rule.fail error) (Rule.fail error.placeless) := fun _ => rfl

theorem placeless_ahead {ahead : List Token → α} {ahead' : List Token → β}
    (same : ∀ ts, ahead' (ts.map Token.placeless) = f (ahead ts)) :
    Placeless f (Rule.ahead ahead) (Rule.ahead ahead') :=
  fun ts => congrArg (fun value => Except.ok (value, ts.map Token.placeless)) (same ts)

theorem blind_ahead {ahead : List Token → α}
    (same : ∀ ts, ahead (ts.map Token.placeless) = ahead ts) : Blind (Rule.ahead ahead) :=
  placeless_ahead same

theorem placeless_unexpected : Placeless f unexpected unexpected :=
  fun ts => congrArg Except.error (unexpectedAt_placeless ts)

theorem placeless_blame : Placeless SourceError.placeless blame blame :=
  placeless_ahead unexpectedAt_placeless

theorem blind_kind : Blind kind := blind_ahead fun ts => by cases ts <;> rfl

theorem placeless_take? (kind : Token.Kind) :
    Placeless (Option.map Token.placeless) (take? kind) (take? kind) := by
  intro ts
  cases ts with
  | nil => rfl
  | cons t rest =>
    by_cases matched : t.kind = kind <;> simp [take?, Rule.takeIf, withoutPlaces, matched]

theorem placeless_take (kind : Token.Kind) :
    Placeless Token.placeless (take kind) (take kind) := by
  refine (placeless_take? kind).bind fun found => ?_
  cases found with
  | none => exact placeless_unexpected
  | some t => exact placeless_pure

theorem blind_expect (symbol : Symbol) : Blind (expect symbol) :=
  (placeless_take _).bind fun _ => blind_pure

private theorem blind_isSome (kind : Token.Kind) :
    Blind (do return (← take? kind).isSome : TokenRule Bool) := by
  refine (placeless_take? kind).bind fun found => ?_
  rw [Option.isSome_map]
  exact blind_pure

theorem blind_eat (symbol : Symbol) : Blind (eat symbol) := blind_isSome _

theorem blind_eatKeyword (keyword : Keyword) : Blind (eatKeyword keyword) := blind_isSome _

theorem blind_name : Blind name := (placeless_take _).bind fun _ => blind_pure

theorem numberOf_placeless (t : Token) :
    numberOf t.placeless = (numberOf t).mapError SourceError.placeless := by
  rw [numberOf, numberOf, Token.placeless_text]
  cases Number.ofString? t.text <;> rfl

theorem blind_number : Blind number := by
  refine (placeless_take _).bind fun t => ?_
  rw [numberOf_placeless]
  cases numberOf t with
  | ok n => exact blind_pure
  | error e => exact placeless_fail

theorem blind_repeated {first : Token → Bool} {rule : Token → TokenRule α}
    (same : ∀ t, first t.placeless = first t)
    (blind : ∀ t, Placeless id (rule t) (rule t.placeless)) : Blind (Rule.repeated first rule) := by
  intro ts
  change Rule.repeatedFrom (fun t _ => first t) rule _ = withoutPlaces id (Rule.repeatedFrom _ rule ts)
  fun_induction Rule.repeatedFrom (fun t _ => first t) rule ts with
  | case1 => rw [List.map_nil, Rule.repeatedFrom]; rfl
  | case2 t tail more e failed =>
    rw [List.map_cons, Rule.repeatedFrom_more (by rwa [same]), blind t tail, failed]
    rfl
  | case3 t tail more value rest found _ ih =>
    rw [List.map_cons, Rule.repeatedFrom_more (by rwa [same]), blind t tail, found]
    change Except.map _ (Rule.repeatedFrom _ rule (rest.map Token.placeless)) = _
    rw [ih]
    cases Rule.repeatedFrom (fun t _ => first t) rule rest <;> rfl
  | case4 t tail stop =>
    rw [List.map_cons, Rule.repeatedFrom_stop (by simpa [same] using stop)]
    rfl

theorem blind_following {separator : Symbol} {rule : TokenRule α} (blind : Blind rule) :
    Blind (following separator rule) :=
  blind_repeated (fun _ => rfl) fun _ => blind

end Parts

end TokenRule

namespace Operators

open TokenRule (withoutPlaces Blind)

variable {α : Type} {g : Operators α}

theorem Placeless.run (placeless : g.Placeless) :
    (∀ ts, bare (operand g (ts.map Token.placeless)) = withoutPlaces id (bare (operand g ts))) ∧
    (∀ level ts, bare (operation g level (ts.map Token.placeless)) =
      withoutPlaces id (bare (operation g level ts))) ∧
    (∀ level left ts, bare (extend g level left (ts.map Token.placeless)) =
      withoutPlaces id (bare (extend g level left ts))) := by
  have stops_placeless {level : Nat} {ts : List Token} (stops : Stops g level ts) :
      Stops g level (ts.map Token.placeless) :=
    stops.of_words placeless (words_placeless ts).symm
  apply rules_induction (g := g)
  case nil => rw [List.map_nil, operand]; rfl
  case before =>
    intro t rest apply sign ih
    rw [List.map_cons, operand_before ((placeless.before t).trans sign), operand_before sign, ih]
    exact TokenRule.withoutPlaces_bind fun _ _ _ => rfl
  case group =>
    intro t rest plain opens ih
    rw [List.map_cons, operand_group ((placeless.before t).trans plain) opens,
      operand_group plain opens, ih]
    exact TokenRule.withoutPlaces_bind fun value after _ =>
      (TokenRule.blind_expect _).bind (fun _ => TokenRule.blind_pure) after
  case atom =>
    intro t rest plain single
    rw [List.map_cons, operand_atom ((placeless.before t).trans plain) single,
      operand_atom plain single, placeless.atom]
    cases g.atom t <;> rfl
  case operation =>
    intro level ts ihHead ihTail
    rw [operation_eq, operation_eq, ihHead]
    exact TokenRule.withoutPlaces_bind ihTail
  case stop =>
    intro level left ts stops
    rw [extend_stop (stops_placeless stops), extend_stop stops]
    rfl
  case join =>
    intro level left t rest own apply sign binds ihHead ihTail
    rw [List.map_cons, extend_join ((placeless.between t).trans sign) binds, extend_join sign binds,
      ihHead]
    exact TokenRule.withoutPlaces_bind ihTail

theorem Placeless.expression (placeless : g.Placeless) : Blind g.expression :=
  fun ts => placeless.run.2.1 0 ts

theorem Placeless.continuing (placeless : g.Placeless) (left : α) : Blind (g.continuing left) :=
  fun ts => placeless.run.2.2 0 left ts

end Operators

namespace Grammar

open TokenRule

theorem specparamValue_placeless (table : Specparams) (t : Token) :
    specparamValue table t.placeless = (specparamValue table t).mapError SourceError.placeless := by
  rw [specparamValue, specparamValue, Token.placeless_text]
  split
  · rfl
  · split <;> rfl

theorem placeless_constants (table : Specparams) : (constants table).Placeless where
  before _ := rfl
  between _ := rfl
  atom t := by
    simp only [constants, Token.placeless_kind]
    split
    · exact numberOf_placeless t
    · exact specparamValue_placeless table t
    · rfl

theorem numberOf_map_placeless {α : Type} (make : Number → α) (t : Token) :
    (numberOf t.placeless).map make = ((numberOf t).map make).mapError SourceError.placeless := by
  rw [numberOf_placeless]
  cases numberOf t <;> rfl

theorem placeless_conditions (table : Specparams) : (conditions table).Placeless where
  before _ := rfl
  between _ := rfl
  atom t := by
    simp only [conditions, Token.placeless_kind]
    split
    · exact numberOf_map_placeless _ t
    · rfl
    · rfl

theorem placeless_eventTerms : eventTerms.Placeless where
  before _ := rfl
  between _ := rfl
  atom t := by
    simp only [eventTerms, Token.placeless_kind]
    split
    · exact numberOf_map_placeless _ t
    · rfl
    · rfl

end Grammar

end CellTiming
