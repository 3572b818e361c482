import CellTiming.Decimal.Reading
import Mathlib

/-! Floating point numbers as bits. Apart from the sign the bits of a number count the
magnitudes below it, those of infinity being the last that are no NaN. -/
namespace CellTiming.Decimal

open Float.Model Float.Model.UnpackedFloat

/-- The bits of a number without its sign. -/
def magnitudeBits (x : Float) : Nat := x.toBits.toNat % Nat.pow 2 63

theorem eq_of_toBits {x y : Float} (same : x.toBits = y.toBits) : x = y := by
  obtain ⟨⟨bits, _⟩⟩ := x
  obtain ⟨⟨bits', _⟩⟩ := y
  cases same
  rfl

section Fields

variable (b : BitVec Format.binary64.numBits)

theorem toNat_unpackMantissa :
    (unpackMantissa b).toNat = b.toNat % 2 ^ 52 := by
  simp [unpackMantissa, BitVec.extractLsb]

theorem toNat_unpackExponent :
    (unpackExponent b).toNat = b.toNat / 2 ^ 52 % 2 ^ 11 := by
  simp [unpackExponent, BitVec.extractLsb, Nat.shiftRight_eq_div_pow]

theorem toNat_unpackSign :
    (unpackSign b).toNat = b.toNat / 2 ^ 63 := by
  have small : b.toNat < 2 ^ 64 := b.isLt
  simp only [unpackSign, BitVec.extractLsb, BitVec.toNat_cast, BitVec.extractLsb'_toNat,
    Nat.shiftRight_eq_div_pow]
  omega

theorem toNat_packComponents (sign : Sign) (exponent : BitVec 11) (mantissa : BitVec 52) :
    (packComponents Format.binary64 sign exponent mantissa).toNat =
      sign.toBitVec.toNat * 2 ^ 63 + exponent.toNat * 2 ^ 52 + mantissa.toNat := by
  rw [packComponents, BitVec.toNat_append, BitVec.toNat_append,
    ← Nat.shiftLeft_add_eq_or_of_lt mantissa.isLt, ← Nat.shiftLeft_add_eq_or_of_lt exponent.isLt]
  simp only [Nat.shiftLeft_eq]
  omega

end Fields

section Encoding

variable {sign : Sign} {bits : Nat} {u : UnpackedFloat}

/-- The number with a sign whose other bits are given. -/
inductive Encodes (sign : Sign) (bits : Nat) : UnpackedFloat → Prop
  | notANumber (above : 2047 * 2 ^ 52 < bits) : Encodes sign bits .notANumber
  | infinity (top : bits = 2047 * 2 ^ 52) : Encodes sign bits (.infinity sign)
  | zero (bottom : bits = 0) : Encodes sign bits (.zero sign)
  | finite {mantissa : Nat} {exponent : Int} {positive : 0 < mantissa} (shift : Nat)
      (small : mantissa < 2 ^ 53) (full : shift = 0 ∨ 2 ^ 52 ≤ mantissa)
      (code : bits = shift * 2 ^ 52 + mantissa) (below : bits < 2047 * 2 ^ 52)
      (place : exponent = (shift : Int) - 1074) :
      Encodes sign bits (.finite sign mantissa exponent positive)

theorem encodes_unpack (b : BitVec Format.binary64.numBits) :
    Encodes (.ofBitVec (unpackSign b)) (b.toNat % 2 ^ 63) (UnpackedFloat.unpack Format.binary64 b) := by
  have mantissa := toNat_unpackMantissa b
  have exponent := toNat_unpackExponent b
  unfold UnpackedFloat.unpack
  by_cases top : unpackExponent b = -1#11
  · rw [top] at exponent
    change 2047 = _ at exponent
    by_cases none : unpackMantissa b = 0#52
    · rw [none] at mantissa
      change 0 = _ at mantissa
      simp only [top, none, if_true]
      exact .infinity (by omega)
    · have some_ : (unpackMantissa b).toNat ≠ 0 :=
        fun same => none (BitVec.eq_of_toNat_eq same)
      simp only [top, none, if_true, if_false]
      exact .notANumber (by omega)
  have below : (unpackExponent b).toNat ≠ 2047 :=
    fun same => top (BitVec.eq_of_toNat_eq same)
  by_cases bottom : unpackExponent b = 0#11
  · rw [bottom] at exponent
    change 0 = _ at exponent
    have differ : ¬ 0#11 = -1#11 := by decide
    by_cases none : unpackMantissa b = 0#52
    · rw [none] at mantissa
      change 0 = _ at mantissa
      simp only [bottom, differ, none, if_true, if_false, dite_true]
      exact .zero (by omega)
    · simp only [bottom, differ, none, if_true, if_false, dite_false]
      exact .finite 0 (by omega) (.inl rfl) (by omega) (by omega) rfl
  have above : (unpackExponent b).toNat ≠ 0 :=
    fun same => bottom (BitVec.eq_of_toNat_eq same)
  have implicit : (1#1 ++ unpackMantissa b).toNat =
      2 ^ 52 + b.toNat % 2 ^ 52 := by
    rw [BitVec.toNat_append, ← Nat.shiftLeft_add_eq_or_of_lt (BitVec.isLt _), mantissa]
    rfl
  simp only [top, bottom, if_false]
  refine .finite (b.toNat / 2 ^ 52 % 2 ^ 11 - 1) (by omega) (.inr (by omega)) (by omega) (by omega) ?_
  change _ - ((1023 : Nat) + (52 : Nat) : Int) = _
  omega

theorem ofBitVec_unpackSign (b : BitVec Format.binary64.numBits) (unsigned : b.toNat < 2 ^ 63) :
    Sign.ofBitVec (unpackSign b) = .positive := by
  have zero : unpackSign b = 0#1 := by
    apply BitVec.eq_of_toNat_eq
    rw [toNat_unpackSign]
    exact Nat.div_eq_of_lt unsigned
  rw [zero]
  rfl

/-- Packing a number gives its bits. -/
theorem toNat_pack (encodes : Encodes sign bits u) (number : bits ≤ infinityBits) :
    (UnpackedFloat.pack Format.binary64 u).toNat = sign.toBitVec.toNat * 2 ^ 63 + bits := by
  cases encodes with
  | notANumber above => exact absurd number (Nat.not_le_of_lt above)
  | infinity top =>
    rw [UnpackedFloat.pack, packedInfinity, toNat_packComponents, top]
    change _ * 2 ^ 63 + 2047 * 2 ^ 52 + 0 = _
    rw [Nat.add_zero]
  | zero bottom =>
    rw [UnpackedFloat.pack, packedZero, toNat_packComponents, bottom]
    change _ * 2 ^ 63 + 0 * 2 ^ 52 + 0 = _
    rw [Nat.zero_mul]
  | @finite mantissa exponent positive shift small full code below place =>
    subst place
    have bias : ((shift : Int) - 1074 + (Format.binary64.exponentBias : Int) + (52 : Nat)).toNat =
        shift + 1 := by
      change ((shift : Int) - 1074 + (1023 : Nat) + (52 : Nat)).toNat = _
      omega
    have within : ¬ 2 ^ Format.binary64.exponentBits ≤ shift + 1 + 1 := by
      change ¬ 2048 ≤ _
      omega
    have most := (Nat.log2_lt (Nat.ne_of_gt positive)).mpr small
    simp only [UnpackedFloat.pack]
    rw [bias, if_neg within]
    by_cases normal : 2 ^ 52 ≤ mantissa
    · have least := (Nat.le_log2 (Nat.ne_of_gt positive)).mpr normal
      have length : mantissa.log2 + 1 = Format.binary64.mantissaBits := by
        change _ = 53
        omega
      rw [if_pos length, toNat_packComponents, BitVec.toNat_ofNat, BitVec.toNat_ofNat, code]
      omega
    · have least := (Nat.log2_lt (Nat.ne_of_gt positive)).mpr (Nat.lt_of_not_le normal)
      have length : ¬ mantissa.log2 + 1 = Format.binary64.mantissaBits := by
        change ¬ _ = 53
        omega
      rw [if_neg length, toNat_packComponents, BitVec.toNat_ofNat, BitVec.toNat_ofNat, code]
      omega

theorem Encodes.isFinite_iff (encodes : Encodes sign bits u) :
    u.isFinite = true ↔ bits < infinityBits := by
  change _ ↔ bits < 2047 * 2 ^ 52
  cases encodes <;> simp [UnpackedFloat.isFinite] <;> omega

theorem Encodes.isInf_iff (encodes : Encodes sign bits u) :
    u.isInf = true ↔ bits = infinityBits := by
  change _ ↔ bits = 2047 * 2 ^ 52
  cases encodes <;> simp [UnpackedFloat.isInf] <;> omega

theorem Encodes.isNaN_iff (encodes : Encodes sign bits u) :
    u.isNaN = true ↔ infinityBits < bits := by
  change _ ↔ 2047 * 2 ^ 52 < bits
  cases encodes <;> simp [UnpackedFloat.isNaN] <;> omega

end Encoding

section Numbers

variable {bits : Nat} {negative : Bool} {x : Float}

theorem toBitVec_unpackSign (b : BitVec Format.binary64.numBits) :
    (Sign.ofBitVec (unpackSign b)).toBitVec.toNat = b.toNat / 2 ^ 63 := by
  rw [← toNat_unpackSign]
  generalize unpackSign b = s
  revert s
  decide

/-- Bits that are no NaN stay as they are. -/
theorem toNat_toBits_ofBits (b : UInt64) (number : b.toNat % 2 ^ 63 ≤ infinityBits) :
    (Float.ofBits b).toBits.toNat = b.toNat := by
  refine (toNat_pack (encodes_unpack b.toBitVec) number).trans ?_
  rw [toBitVec_unpackSign]
  change b.toNat / 2 ^ 63 * 2 ^ 63 + b.toNat % 2 ^ 63 = b.toNat
  omega

theorem toBits_ofMagnitude (small : bits ≤ infinityBits) :
    (ofMagnitude negative bits).toBits.toNat = if negative then 2 ^ 63 + bits else bits := by
  have limit : infinityBits = 2047 * 2 ^ 52 := rfl
  have kept : (UInt64.ofNat (if negative then Nat.pow 2 63 + bits else bits)).toNat =
      if negative then 2 ^ 63 + bits else bits := by
    rw [UInt64.toNat_ofNat']
    change (if negative = true then 2 ^ 63 + bits else bits) % 2 ^ 64 =
      if negative = true then 2 ^ 63 + bits else bits
    split <;> omega
  refine (toNat_toBits_ofBits _ ?_).trans kept
  rw [kept]
  split <;> omega

theorem ofMagnitude_magnitudeBits (number : magnitudeBits x ≤ infinityBits) :
    ofMagnitude (isNegative x) (magnitudeBits x) = x := by
  have small : x.toBits.toNat < 2 ^ 64 := x.toBits.toNat_lt
  refine eq_of_toBits (UInt64.toNat_inj.mp ?_)
  rw [toBits_ofMagnitude number]
  change (if decide (2 ^ 63 ≤ _) = true then _ + _ % 2 ^ 63 else _ % 2 ^ 63) = _
  simp only [decide_eq_true_eq]
  split <;> omega

theorem isFinite_iff : x.isFinite = true ↔ magnitudeBits x < infinityBits :=
  (encodes_unpack x.toBits.toBitVec).isFinite_iff

theorem isInf_iff : x.isInf = true ↔ magnitudeBits x = infinityBits :=
  (encodes_unpack x.toBits.toBitVec).isInf_iff

theorem isNaN_iff : x.isNaN = true ↔ infinityBits < magnitudeBits x :=
  (encodes_unpack x.toBits.toBitVec).isNaN_iff

end Numbers

section Magnitude

variable {sign : Sign} {bits : Nat} {u : UnpackedFloat} {x : Float}

theorem Encodes.abs (encodes : Encodes sign bits u) : Encodes .positive bits u.abs := by
  cases encodes with
  | notANumber above => exact .notANumber above
  | infinity top => exact .infinity top
  | zero bottom => exact .zero bottom
  | finite shift small full code below place => exact .finite shift small full code below place

theorem toNat_toBits_abs (number : magnitudeBits x ≤ infinityBits) :
    x.abs.toBits.toNat = magnitudeBits x := by
  refine (toNat_pack (encodes_unpack x.toBits.toBitVec).abs number).trans ?_
  change 0 * 2 ^ 63 + _ = _
  rw [Nat.zero_mul, Nat.zero_add]
  rfl

theorem magnitudeBits_abs (number : magnitudeBits x ≤ infinityBits) :
    magnitudeBits x.abs = magnitudeBits x := by
  have small : magnitudeBits x < 2 ^ 63 := Nat.mod_lt _ (by decide)
  rw [magnitudeBits, toNat_toBits_abs number]
  exact Nat.mod_eq_of_lt small

theorem isNegative_abs (number : magnitudeBits x ≤ infinityBits) : isNegative x.abs = false := by
  have small : magnitudeBits x < 2 ^ 63 := Nat.mod_lt _ (by decide)
  rw [isNegative, toNat_toBits_abs number]
  exact decide_eq_false (Nat.not_le_of_lt small)

theorem Encodes.neg (encodes : Encodes sign bits u) : Encodes (-sign) bits u.neg := by
  cases encodes with
  | notANumber above => exact .notANumber above
  | infinity top => exact .infinity top
  | zero bottom => exact .zero bottom
  | finite shift small full code below place => exact .finite shift small full code below place

/-- Negation turns the sign alone. -/
theorem neg_ofMagnitude (small : bits ≤ infinityBits) :
    -ofMagnitude false bits = ofMagnitude true bits := by
  have unsigned : (ofMagnitude false bits).toBits.toNat = bits := toBits_ofMagnitude small
  have limit : infinityBits = 2047 * 2 ^ 52 := rfl
  have below : bits < 2 ^ 63 := by omega
  have same : (ofMagnitude false bits).toBits.toBitVec.toNat % 2 ^ 63 = bits := by
    change (ofMagnitude false bits).toBits.toNat % 2 ^ 63 = bits
    rw [unsigned, Nat.mod_eq_of_lt below]
  have encodes := (encodes_unpack (ofMagnitude false bits).toBits.toBitVec).neg
  rw [ofBitVec_unpackSign _ (unsigned.trans_lt below), same] at encodes
  refine eq_of_toBits (UInt64.toNat_inj.mp ?_)
  rw [toBits_ofMagnitude small]
  refine (toNat_pack encodes small).trans ?_
  change 1 * 2 ^ 63 + bits = _
  rw [Nat.one_mul]
  rfl

end Magnitude

section Order

theorem encodes_unsigned {x : Float} (unsigned : isNegative x = false) :
    Encodes .positive (magnitudeBits x) (UnpackedFloat.unpack Format.binary64 x.toBits.toBitVec) := by
  have sign := ofBitVec_unpackSign _ (Nat.lt_of_not_le (of_decide_eq_false unsigned))
  rw [← sign]
  exact encodes_unpack _

/-- Numbers without a sign are ordered as their bits are. -/
theorem lt_iff {x y : Float} (unsigned : isNegative x = false) (unsigned' : isNegative y = false)
    (number : magnitudeBits x ≤ infinityBits) (number' : magnitudeBits y ≤ infinityBits) :
    x < y ↔ magnitudeBits x < magnitudeBits y := by
  have form := encodes_unsigned unsigned
  have form' := encodes_unsigned unsigned'
  have meaning : x < y ↔ ((UnpackedFloat.unpack Format.binary64 x.toBits.toBitVec).lt
    (UnpackedFloat.unpack Format.binary64 y.toBits.toBitVec)) = true := decide_eq_true_iff
  change _ ≤ 2047 * 2 ^ 52 at number number'
  rw [meaning]
  generalize magnitudeBits x = bits at *
  generalize magnitudeBits y = bits' at *
  generalize UnpackedFloat.unpack Format.binary64 x.toBits.toBitVec = u at *
  generalize UnpackedFloat.unpack Format.binary64 y.toBits.toBitVec = u' at *
  have same : compare Sign.positive Sign.positive = .eq := rfl
  cases form with
  | notANumber above => omega
  | infinity top =>
    cases form' <;> simp [UnpackedFloat.lt, UnpackedFloat.compare, same] <;> omega
  | zero bottom =>
    cases form' <;> simp [UnpackedFloat.lt, UnpackedFloat.compare] <;> omega
  | finite shift small full code below place =>
    cases form' with
    | notANumber above => omega
    | infinity top => simp [UnpackedFloat.lt, UnpackedFloat.compare]; omega
    | zero bottom => simp [UnpackedFloat.lt, UnpackedFloat.compare]; omega
    | finite shift' small' full' code' below' place' =>
      simp [UnpackedFloat.lt, UnpackedFloat.compare, Ordering.then_eq_lt, compare_lt_iff_lt]
      omega

theorem abs_lt_iff {x y : Float} (number : magnitudeBits x ≤ infinityBits)
    (unsigned : isNegative y = false) (number' : magnitudeBits y ≤ infinityBits) :
    x.abs < y ↔ magnitudeBits x < magnitudeBits y := by
  have same := magnitudeBits_abs number
  rw [lt_iff (isNegative_abs number) unsigned (same ▸ number) number', same]

end Order

end CellTiming.Decimal
