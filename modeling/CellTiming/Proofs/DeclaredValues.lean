import CellTiming.Proofs.Numeral
import CellTiming.Proofs.Operators
import CellTiming.Proofs.Reached

/-! The values of specparams. Whatever an expression makes of its numbers, an integer keeps
a width and a base that integers are written with and stays in their range, and a real has
the width and the base of all reals. -/
namespace CellTiming

namespace Number

def WellFormed (n : Number) : Prop :=
  match n.value with
  | .int value =>
    n.width ≤ greatestWidth ∧ n.base ≠ .real ∧ leastInt ≤ value ∧ value ≤ greatestInt
  | .real value => n = ofReal value

section Arithmetic

variable {n left right : Number}

theorem saturate_bounds (value : Int) :
    leastInt ≤ saturate value ∧ saturate value ≤ greatestInt := by
  have range : leastInt ≤ greatestInt := by decide
  exact ⟨Int.le_max_left _ _, Int.max_le.mpr ⟨range, Int.min_le_left _ _⟩⟩

theorem wellFormed_ofReal (value : Float) : (ofReal value).WellFormed := rfl

theorem wellFormed_zero : (ofInt 0).WellFormed := by
  refine ⟨by decide, nofun, by decide, by decide⟩

theorem WellFormed.neg (sound : n.WellFormed) : n.neg.WellFormed := by
  obtain ⟨width, base, value | value⟩ := n
  · obtain ⟨bounded, whole, _⟩ := sound
    exact ⟨bounded, whole, saturate_bounds _⟩
  · exact wellFormed_ofReal _

theorem WellFormed.combine {onInt : Int → Int → Int} {onReal : Float → Float → Float}
    (sound : left.WellFormed) : (combine onInt onReal left right).WellFormed := by
  obtain ⟨width, base, value | value⟩ := left
  · obtain ⟨width', base', value' | value'⟩ := right
    · obtain ⟨bounded, whole, _⟩ := sound
      exact ⟨bounded, whole, saturate_bounds _⟩
    · exact wellFormed_ofReal _
  · exact wellFormed_ofReal _

theorem wellFormed_of_ofChars {cs : List Char} (read : ofChars? cs = some n) : n.WellFormed := by
  rcases ofChars_eq_some read with ⟨value, rfl⟩ | ⟨width, base, digits, bounded, whole, found⟩
  · exact wellFormed_ofReal value
  · obtain ⟨values, _, _, _, most, rfl⟩ := ofDigits_eq_some.mp found
    have least : leastInt ≤ 0 := by decide
    exact ⟨bounded, whole, Int.le_trans least (Int.natCast_nonneg _), most⟩

end Arithmetic

end Number

namespace Operators

variable {α : Type} {g : Operators α} {P : α → Prop} {Q : Token → Prop}

/-- What a phrase keeps of a property that its operands have. -/
def Keeps (P : α → Prop) : Phrase α → α → Prop
  | .extension _ left, value => P left → P value
  | _, value => P value

theorem Reads.keeps
    (before : ∀ {t apply value}, Q t → g.before t = some apply → P value → P (apply value))
    (between : ∀ {t own apply left right}, Q t → g.between t = some (own, apply) → P left →
      P right → P (apply left right))
    (group : ∀ {value}, P value → P (g.group value))
    (atom : ∀ {t value}, Q t → g.atom t = .ok value → P value)
    {phrase : Phrase α} {used : List Token} {value : α} (reads : Reads g phrase used value)
    (tokens : ∀ t ∈ used, Q t) : Keeps P phrase value := by
  induction reads with
  | before sign _ ih =>
    obtain ⟨first, others⟩ := List.forall_mem_cons.mp tokens
    exact before first sign (ih others)
  | group _ _ _ _ _ ih =>
    obtain ⟨inner, _⟩ := List.forall_mem_append.mp (List.forall_mem_cons.mp tokens).2
    exact group (ih inner)
  | atom _ _ meaning => exact atom (List.forall_mem_singleton.mp tokens) meaning
  | operation _ _ ihHead ihTail =>
    obtain ⟨first, others⟩ := List.forall_mem_append.mp tokens
    exact ihTail others (ihHead first)
  | stop => exact id
  | join sign _ _ _ _ ihHead ihTail =>
    obtain ⟨first, others⟩ := List.forall_mem_cons.mp tokens
    obtain ⟨inner, behind⟩ := List.forall_mem_append.mp others
    exact fun left => ihTail behind (between first sign left (ihHead inner))

end Operators

namespace Grammar

open Operators Number

variable {table : Specparams} {timing extended : ModuleTiming} {t : Token}
  {ts rest left : List Token}

/-- Every value is well formed. -/
def Sound (table : Specparams) : Prop := ∀ entry ∈ table, entry.2.WellFormed

theorem Sound.lookup (sound : Sound table) {name : String} {n : Number}
    (found : table.lookup name = some n) : n.WellFormed := by
  obtain ⟨before, after, rfl, _⟩ := List.lookup_eq_some_iff.mp found
  exact sound (name, n) (by simp)

theorem numberOf_ok {n : Number} :
    TokenRule.numberOf t = .ok n ↔ Number.ofString? t.text = some n := by
  rw [TokenRule.numberOf]
  cases Number.ofString? t.text <;> simp

theorem Sound.value (sound : Sound table) {n : Number} (ok : specparamValue table t = .ok n) :
    n.WellFormed := by
  rw [specparamValue] at ok
  split at ok
  next found =>
    cases ok
    exact sound.lookup found
  next =>
    split at ok
    · cases ok
      exact wellFormed_zero
    · cases ok

theorem Sound.constants (sound : Sound table) {used : List Token} {value : Number}
    (reads : Reads (constants table) (.operation 0) used value) : value.WellFormed := by
  change Keeps WellFormed (.operation 0) value
  refine reads.keeps (Q := fun _ => True) ?_ ?_ id ?_ fun _ _ => trivial
  · intro t apply value _ sign formed
    simp only [Grammar.constants] at sign
    split at sign
    · cases sign
      exact formed
    · cases sign
      exact formed.neg
    · cases sign
  · intro t own apply left right _ sign formed _
    simp only [Grammar.constants] at sign
    split at sign
    · cases sign
      exact formed.combine
    · cases sign
      exact formed.combine
    · cases sign
  · intro t value _ meaning
    simp only [Grammar.constants] at meaning
    split at meaning
    next => exact wellFormed_of_ofChars (numberOf_ok.mp meaning)
    next => exact sound.value meaning
    next => cases meaning

/-- The value of a declaration is an expression behind its assignment sign. -/
theorem itemAfter_specparam {line : Nat} {name : String} {value : Number}
    (read : (itemAfter table t).run ts = .ok (.specparam line name (some value), rest)) :
    ∃ used, Reads (constants table) (.operation 0) used value := by
  obtain ⟨_, _, opens⟩ := itemAfter_opens table t ts _ rest read
  have opens : t.kind = .keyword .specparam := opens
  simp only [itemAfter, opens] at read
  obtain ⟨_, _, _, read⟩ := Rule.run_bind_ok.mp read
  obtain ⟨_, _, _, read⟩ := Rule.run_bind_ok.mp read
  obtain ⟨quoted, _, _, read⟩ := Rule.run_bind_ok.mp read
  split at read
  · obtain ⟨_, _, _, made⟩ := Rule.run_bind_ok.mp read
    cases made
  · obtain ⟨found, _, evaluated, read⟩ := Rule.run_bind_ok.mp read
    obtain ⟨_, _, _, made⟩ := Rule.run_bind_ok.mp read
    cases made
    obtain ⟨used, _, reads, _⟩ := expression_run.mp evaluated
    exact ⟨used, reads⟩

theorem Sound.add {item : TimingItem} (sound : Sound timing.specparams)
    (read : (itemAfter timing.specparams t).run ts = .ok (item, rest))
    (added : timing.add item = .ok extended) : Sound extended.specparams := by
  cases adds_of_ok added with
  | string | check | path | conditioned | ifnone => exact sound
  | value =>
    obtain ⟨used, reads⟩ := itemAfter_specparam read
    intro entry member
    rcases List.mem_append.mp member with member | member
    · exact sound entry member
    · cases List.mem_singleton.mp member
      exact sound.constants reads

theorem sound_of_reached {found : List TimingItem} (reached : Reached ts found timing left) :
    Sound timing.specparams := by
  induction reached with
  | start => exact fun _ member => nomatch member
  | item _ _ read added ih => exact ih.add read added
  | group _ _ _ ih => exact ih

end Grammar

end CellTiming
