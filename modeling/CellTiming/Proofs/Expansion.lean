import CellTiming.Proofs.DelayForms

/-! The numbers of values that delays are given by, as abbreviations of one another. One, two or
three values stand for six, and six for twelve, whose last six are the earlier and later of their
neighbours; twelve values are the delays themselves, transition by transition. -/
namespace CellTiming

theorem Triple.lesser_self (value : Triple) : value.lesser value = value :=
  ite_self value

theorem Triple.greater_self (value : Triple) : value.greater value = value :=
  ite_self value

namespace Transitions

/-- The delays in the order in which twelve values give them. -/
def slots (delays : Transitions) : List Triple :=
  [delays.rise, delays.fall, delays.zeroToZ, delays.zToOne, delays.oneToZ, delays.zToZero,
    delays.zeroToX, delays.xToOne, delays.oneToX, delays.xToZero, delays.xToZ, delays.zToX]

theorem ofValues?_slots (delays : Transitions) : ofValues? delays.slots = some delays := rfl

/-- The six values that fewer of them stand for. -/
def sixOf : List Triple → List Triple
  | [value] => [value, value, value, value, value, value]
  | [rise, fall] => [rise, fall, rise, rise, fall, fall]
  | [rise, fall, off] => [rise, fall, off, rise, off, fall]
  | values => values

/-- The twelve values that six of them stand for. -/
def twelveOf : List Triple → List Triple
  | [rise, fall, zeroToZ, zToOne, oneToZ, zToZero] =>
    [rise, fall, zeroToZ, zToOne, oneToZ, zToZero,
      rise.lesser zeroToZ, rise.greater zToOne, fall.lesser oneToZ, fall.greater zToZero,
      zeroToZ.greater oneToZ, zToOne.lesser zToZero]
  | values => values

theorem ofValues?_twelveOf (values : List Triple) :
    ofValues? (twelveOf values) = ofValues? values := by
  fun_cases twelveOf values with
  | case1 => rfl
  | case2 => rfl

theorem ofValues?_sixOf (values : List Triple) : ofValues? (sixOf values) = ofValues? values := by
  -- a value beside itself is the earlier and the later of the two
  fun_cases sixOf values with
  | case1 value => simp only [ofValues?, uniform, Triple.lesser_self, Triple.greater_self]
  | case2 rise fall => simp only [ofValues?, Triple.lesser_self, Triple.greater_self]
  | case3 rise fall off => simp only [ofValues?, Triple.greater_self]
  | case4 => rfl

theorem slots_of_ofValues? {values : List Triple} {delays : Transitions}
    (found : ofValues? values = some delays) : delays.slots = twelveOf (sixOf values) := by
  fun_cases ofValues? values with
  | case1 value =>
    cases found
    simp only [slots, uniform, sixOf, twelveOf, Triple.lesser_self, Triple.greater_self]
  | case2 rise fall =>
    cases found
    simp only [slots, sixOf, twelveOf, Triple.lesser_self, Triple.greater_self]
  | case3 rise fall off =>
    cases found
    simp only [slots, sixOf, twelveOf, Triple.greater_self]
  | case4 =>
    cases found
    rfl
  | case5 =>
    cases found
    rfl
  | case6 => simp_all [ofValues?]

/-- The delays of a list are the twelve values it stands for, if it stands for twelve. -/
theorem ofValues?_eq_some_iff {values : List Triple} {delays : Transitions} :
    ofValues? values = some delays ↔ delays.slots = twelveOf (sixOf values) := by
  refine ⟨slots_of_ofValues?, fun same => ?_⟩
  rw [← ofValues?_sixOf, ← ofValues?_twelveOf, ← same, ofValues?_slots]

/-- Delays are given by 1, 2, 3, 6 or 12 values. Fewer values are delays exactly as the six or
twelve that they stand for, and these are the delays of the transitions in their order. -/
theorem ofValues?_scheme :
    (∀ values, (ofValues? values).isSome = true ↔ values.length ∈ [1, 2, 3, 6, 12]) ∧
    (∀ p, ofValues? [p] = ofValues? [p, p, p, p, p, p]) ∧
    (∀ p₁ p₂, ofValues? [p₁, p₂] = ofValues? [p₁, p₂, p₁, p₁, p₂, p₂]) ∧
    (∀ p₁ p₂ p₃, ofValues? [p₁, p₂, p₃] = ofValues? [p₁, p₂, p₃, p₁, p₃, p₂]) ∧
    (∀ rise fall zeroToZ zToOne oneToZ zToZero,
      ofValues? [rise, fall, zeroToZ, zToOne, oneToZ, zToZero] =
        ofValues? [rise, fall, zeroToZ, zToOne, oneToZ, zToZero,
          rise.lesser zeroToZ, rise.greater zToOne, fall.lesser oneToZ, fall.greater zToZero,
          zeroToZ.greater oneToZ, zToOne.lesser zToZero]) ∧
    ∀ rise fall zeroToZ zToOne oneToZ zToZero zeroToX xToOne oneToX xToZero xToZ zToX,
      ofValues? [rise, fall, zeroToZ, zToOne, oneToZ, zToZero,
          zeroToX, xToOne, oneToX, xToZero, xToZ, zToX] =
        some { rise, fall, zeroToZ, zToOne, oneToZ, zToZero,
               zeroToX, xToOne, oneToX, xToZero, xToZ, zToX } := by
  refine ⟨Grammar.isSome_ofValues, fun p => ?_, fun p₁ p₂ => ?_, fun p₁ p₂ p₃ => ?_, ?_, ?_⟩
  · exact (ofValues?_sixOf [p]).symm
  · exact (ofValues?_sixOf [p₁, p₂]).symm
  · exact (ofValues?_sixOf [p₁, p₂, p₃]).symm
  · intro rise fall zeroToZ zToOne oneToZ zToZero
    exact (ofValues?_twelveOf [rise, fall, zeroToZ, zToOne, oneToZ, zToZero]).symm
  · intros
    rfl

end Transitions

end CellTiming
