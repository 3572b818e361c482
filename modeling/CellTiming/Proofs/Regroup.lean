import CellTiming.Grammar.Condition
import CellTiming.Proofs.Operators
import CellTiming.Proofs.Truth

/-! How a condition is regrouped when it is put together from parts without regard to the
levels of its operators. A chain is a row of conjuncts; negating a chain, joining two
by a conjunction and joining two by an equality are chains again. -/
namespace CellTiming.Operators

variable {α : Type} {g : Operators α}

/-- One extension after the other, where the operators of the first bind as tightly. -/
theorem Reads.extend {level : Nat} {left middle value : α} {used more : List Token}
    (first : Reads g (.extension level left) used middle)
    (second : Reads g (.extension level middle) more value) (stops : Stops g (level + 1) more) :
    Reads g (.extension level left) (used ++ more) value := by
  generalize shape : Phrase.extension level left = phrase at first
  induction first generalizing left with
  | stop =>
    cases shape
    exact second
  | @join _ own apply _ t used right others _ sign binds head ends _ _ ih =>
    cases shape
    rw [List.cons_append, List.append_assoc]
    exact .join sign binds head (ends.append (stops.mono (Nat.succ_le_succ binds)))
      (ih second rfl)
  | _ => cases shape

/-- What extends a value at some level extends it at a lower one. -/
theorem Reads.lower {high low : Nat} {left value : α} {used : List Token}
    (reads : Reads g (.extension high left) used value) (le : low ≤ high) :
    Reads g (.extension low left) used value := by
  generalize shape : Phrase.extension high left = phrase at reads
  induction reads generalizing left with
  | stop =>
    cases shape
    exact .stop
  | join sign binds head ends _ _ ih =>
    cases shape
    exact .join sign (Nat.le_trans le binds) head ends (ih rfl)
  | _ => cases shape

end CellTiming.Operators

namespace CellTiming.Grammar

open Operators Condition

variable {table : Specparams}

theorem conditions_before {t : Token} {apply : Condition → Condition}
    (sign : (conditions table).before t = some apply) :
    ∃ op, apply = .not op ∧ (t.kind = .symbol .bang ∨ t.kind = .symbol .tilde) := by
  simp only [conditions] at sign
  split at sign
  · cases sign
    exact ⟨.bang, rfl, .inl ‹_›⟩
  · cases sign
    exact ⟨.tilde, rfl, .inr ‹_›⟩
  · cases sign

/-- Conjunctions stand at level zero and equalities at level one. -/
theorem conditions_between {t : Token} {own : Nat} {apply : Condition → Condition → Condition}
    (sign : (conditions table).between t = some (own, apply)) :
    (own = 0 ∧ ∃ op, apply = .and op) ∨ (own = 1 ∧ ∃ op, apply = .equals op) := by
  simp only [conditions] at sign
  split at sign
  · cases sign
    exact .inl ⟨rfl, .single, rfl⟩
  · cases sign
    exact .inl ⟨rfl, .double, rfl⟩
  · cases sign
    exact .inr ⟨rfl, .logical, rfl⟩
  · cases sign
    exact .inr ⟨rfl, .cases, rfl⟩
  · cases sign

theorem conditions_stops (ts : List Token) : Stops (conditions table) 2 ts := by
  intro t rest own apply _ sign
  rcases conditions_between sign with ⟨rfl, _⟩ | ⟨rfl, _⟩ <;> decide

/-- Equalities may start from any value; they turn it around as often as before. -/
theorem equalities_from {left value : Condition} {used : List Token}
    (reads : Reads (conditions table) (.extension 1 left) used value) (left' : Condition) :
    ∃ value', Reads (conditions table) (.extension 1 left') used value' ∧
      ∀ values, (value'.holds values == left'.holds values) =
        (value.holds values == left.holds values) := by
  have turn : ∀ a b c d right : Bool, (a == (b == right)) = (c == (d == right)) →
      (a == b) = (c == d) := by decide
  generalize shape : Phrase.extension 1 left = phrase at reads
  induction reads generalizing left left' with
  | stop =>
    cases shape
    exact ⟨left', .stop, fun _ => by simp⟩
  | @join _ own apply _ t used right more value sign binds head ends _ _ ih =>
    cases shape
    rcases conditions_between sign with ⟨rfl, _⟩ | ⟨rfl, op, rfl⟩
    · exact absurd binds (by decide)
    · obtain ⟨value', reads, truth⟩ := ih (.equals op left' right) rfl
      exact ⟨value', .join sign binds head ends reads, fun values => turn _ _ _ _ _ (truth values)⟩
  | _ => cases shape

/-- A negation before equalities negates them all. -/
theorem negated_equalities {t : Token} {op : Negation} {used : List Token} {value : Condition}
    (sign : (conditions table).before t = some (.not op))
    (reads : Reads (conditions table) (.operation 1) used value) :
    ∃ value', Reads (conditions table) (.operation 1) (t :: used) value' ∧
      ∀ values, value'.holds values = !value.holds values := by
  have turn : ∀ a b c : Bool, (a == !b) = (c == b) → a = !c := by decide
  cases reads with
  | operation head tail =>
    obtain ⟨value', reads, truth⟩ := equalities_from tail (.not op _)
    exact ⟨value', .operation (.before sign head) reads, fun values => turn _ _ _ (truth values)⟩

theorem joined_equalities {t : Token} {op : Equality} {left right : List Token}
    {value other : Condition} (sign : (conditions table).between t = some (1, .equals op))
    (first : Reads (conditions table) (.operation 1) left value)
    (second : Reads (conditions table) (.operation 1) right other) :
    ∃ joined, Reads (conditions table) (.operation 1) (left ++ t :: right) joined ∧
      ∀ values, joined.holds values = (value.holds values == other.holds values) := by
  have turn : ∀ a b c d : Bool, (a == (b == c)) = (d == c) → a = (b == d) := by decide
  cases first with
  | operation head tail =>
    cases second with
    | operation head' tail' =>
      obtain ⟨joined, reads, truth⟩ := equalities_from tail' (.equals op value _)
      have operand : Reads (conditions table) (.operation 2) (_ ++ []) _ := .operation head' .stop
      rw [List.append_nil] at operand
      refine ⟨joined, ?_, fun values => turn _ _ _ _ (truth values)⟩
      rw [List.append_assoc]
      exact .operation head (tail.extend
        (.join sign (Nat.le_refl 1) operand (conditions_stops _) reads) (conditions_stops _))

/-- The tokens are conjuncts in a row, which have the truth of the given conditions. -/
inductive Chain (table : Specparams) : List Token → List Condition → Prop
  | last {used value conjunct} (reads : Reads (conditions table) (.operation 1) used value)
      (truth : ∀ values, value.holds values = conjunct.holds values) :
      Chain table used [conjunct]
  | more {used value conjunct t op rest conjuncts}
      (reads : Reads (conditions table) (.operation 1) used value)
      (truth : ∀ values, value.holds values = conjunct.holds values)
      (sign : (conditions table).between t = some (0, .and op))
      (tail : Chain table rest conjuncts) : Chain table (used ++ t :: rest) (conjunct :: conjuncts)

namespace Chain

theorem ofOperand {used : List Token} {value : Condition}
    (reads : Reads (conditions table) .operand used value) : Chain table used [value] := by
  have alone : Reads (conditions table) (.operation 1) (used ++ []) value := .operation reads .stop
  rw [List.append_nil] at alone
  exact .last alone fun _ => rfl

theorem and {left right : List Token} {first second : List Condition} {t : Token}
    {op : Conjunction} (chain : Chain table left first)
    (sign : (conditions table).between t = some (0, .and op)) (other : Chain table right second) :
    Chain table (left ++ t :: right) (first ++ second) := by
  induction chain with
  | last reads truth => exact .more reads truth sign other
  | more reads truth sign' _ ih =>
    rw [List.append_assoc, List.cons_append]
    exact .more reads truth sign' ih

theorem not {t : Token} {op : Negation} {used : List Token} {conjuncts : List Condition}
    (sign : (conditions table).before t = some (.not op)) (chain : Chain table used conjuncts) :
    Chain table (t :: used) (conjuncts.modifyHead (.not op)) := by
  cases chain with
  | last reads truth =>
    obtain ⟨value', reads', truth'⟩ := negated_equalities sign reads
    exact .last reads' fun values => by rw [truth', truth, holds]
  | more reads truth sign' tail =>
    obtain ⟨value', reads', truth'⟩ := negated_equalities sign reads
    exact .more reads' (fun values => by rw [truth', truth, holds]) sign' tail

theorem equals {left right : List Token} {first second : List Condition} {t : Token}
    {op : Equality} (chain : Chain table left first)
    (sign : (conditions table).between t = some (1, .equals op))
    (other : Chain table right second) :
    Chain table (left ++ t :: right) (meet (.equals op) first second) := by
  induction chain with
  | last reads truth =>
    cases other with
    | last reads' truth' =>
      obtain ⟨joined, both, equal⟩ := joined_equalities sign reads reads'
      exact .last both fun values => by rw [equal, truth, truth', holds]
    | more reads' truth' sign' tail =>
      obtain ⟨joined, both, equal⟩ := joined_equalities sign reads reads'
      rw [← List.cons_append, ← List.append_assoc]
      exact .more both (fun values => by rw [equal, truth, truth', holds]) sign' tail
  | @more _ _ conjunct _ _ _ conjuncts reads truth sign' tail ih =>
    rw [List.append_assoc, List.cons_append]
    have shape : meet (.equals op) (conjunct :: conjuncts) second =
        conjunct :: meet (.equals op) conjuncts second := by
      cases tail <;> rfl
    rw [shape]
    exact .more reads truth sign' ih

/-- A chain extends a value by its conjuncts. -/
theorem extending {rest : List Token} {conjuncts : List Condition} (chain : Chain table rest conjuncts)
    (left : Condition) {t : Token} {op : Conjunction}
    (sign : (conditions table).between t = some (0, .and op)) :
    ∃ value, Reads (conditions table) (.extension 0 left) (t :: rest) value ∧
      ∀ values, value.holds values = (left.holds values && conjuncts.all (·.holds values)) := by
  induction chain generalizing left t op with
  | @last used value conjunct reads truth =>
    refine ⟨.and op left value, ?_, fun values => by simp [holds, truth]⟩
    have joined : Reads (conditions table) (.extension 0 left) (t :: (used ++ [])) _ :=
      .join sign (Nat.zero_le 0) reads (stops_nil (conditions table) 1) .stop
    rwa [List.append_nil] at joined
  | @more used value conjunct t' op' rest conjuncts reads truth sign' tail ih =>
    obtain ⟨whole, extended, all⟩ := ih (.and op left value) sign'
    refine ⟨whole, .join sign (Nat.zero_le 0) reads ?_ extended, fun values => ?_⟩
    · intro found others own apply same between
      cases same
      rw [sign'] at between
      cases between
      decide
    · rw [all, holds, truth, List.all_cons, Bool.and_assoc]

/-- A chain is a condition that holds when all its conjuncts do. -/
theorem reads {used : List Token} {conjuncts : List Condition} (chain : Chain table used conjuncts) :
    ∃ value, Reads (conditions table) (.operation 0) used value ∧
      ∀ values, value.holds values = conjuncts.all (·.holds values) := by
  cases chain with
  | last reads truth =>
    cases reads with
    | operation head tail =>
      exact ⟨_, .operation head (tail.lower (Nat.zero_le 1)), fun values => by simp [truth]⟩
  | @more used value conjunct t op rest conjuncts reads truth sign tail =>
    cases reads with
    | operation head joined =>
      obtain ⟨whole, extended, all⟩ := tail.extending value sign
      refine ⟨whole, ?_, fun values => by rw [all, truth, List.all_cons]⟩
      rw [List.append_assoc]
      refine .operation head ((joined.lower (Nat.zero_le 1)).extend extended ?_)
      intro found others own apply same between
      cases same
      rw [sign] at between
      cases between
      decide

end Chain

end CellTiming.Grammar
