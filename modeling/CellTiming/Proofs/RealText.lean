import CellTiming.Proofs.Numeral
import CellTiming.Proofs.Shortest

/-! Reals among the numbers. Below ten to the sixteenth power a real is written with a point
between its digits. That text is a single lexeme and reads back as the same real. -/
namespace CellTiming.Decimal

open Number

/-- Digits around a point, behind the sign of a negative number. -/
def pointed (negative : Bool) (whole fraction : List Char) : List Char :=
  (if negative then ['-'] else []) ++ (whole ++ '.' :: fraction)

section Digits

theorem isDigit_of_mem_zeros {n : Nat} {c : Char} (member : c ∈ List.replicate n '0') :
    c.isDigit = true := by
  rw [List.eq_of_mem_replicate member]
  rfl

theorem natOfDigits_zeros (cs : List Char) (n : Nat) :
    natOfDigits (cs ++ List.replicate n '0') = natOfDigits cs * 10 ^ n := by
  change Nat.ofDigitChars 10 _ 0 = Nat.ofDigitChars 10 cs 0 * 10 ^ n
  rw [Nat.ofDigitChars_append, Nat.ofDigitChars_replicate_zero, Nat.mul_comm]

theorem zeros_natOfDigits (cs : List Char) (n : Nat) :
    natOfDigits (List.replicate n '0' ++ cs) = natOfDigits cs := by
  change Nat.ofDigitChars 10 _ 0 = Nat.ofDigitChars 10 cs 0
  rw [Nat.ofDigitChars_append, Nat.ofDigitChars_replicate_zero, Nat.mul_zero]

end Digits

section Positional

variable {s : Scientific}

/-- The digits of a whole number have its noughts behind them. -/
theorem toList_positional_whole (whole : 0 ≤ s.exponent) :
    isDigits (positional s).toList = true ∧
      natOfDigits (positional s).toList = s.digits * 10 ^ s.exponent.toNat := by
  have text : (positional s).toList =
      Nat.toDigits 10 s.digits ++ List.replicate s.exponent.toNat '0' := by
    simp [positional, whole, zeros]
  obtain ⟨some_, digit⟩ := isDigits_iff.mp (isDigits_toDigits s.digits)
  rw [text, natOfDigits_zeros, natOfDigits_toDigits]
  refine ⟨isDigits_iff.mpr ⟨List.append_ne_nil_of_left_ne_nil some_ _, fun c member => ?_⟩, rfl⟩
  exact (List.mem_append.mp member).elim (digit c) isDigit_of_mem_zeros

/-- Digits that reach behind the point stand around it. -/
theorem toList_positional_fraction (below : s.exponent < 0) :
    ∃ whole fraction, (positional s).toList = whole ++ '.' :: fraction ∧
      isDigits whole = true ∧ isDigits fraction = true ∧
      natOfDigits (whole ++ fraction) = s.digits ∧ (fraction.length : Int) = -s.exponent := by
  have value := natOfDigits_toDigits s.digits
  obtain ⟨some_, digit⟩ := isDigits_iff.mp (isDigits_toDigits s.digits)
  simp only [positional, Int.not_le.mpr below, if_false]
  generalize Nat.toDigits 10 s.digits = digits at *
  have length := List.length_pos_iff.mpr some_
  split
  next inside =>
    obtain ⟨front, back, rfl, behind⟩ :
        ∃ front back, digits = front ++ back ∧ (back.length : Int) = -s.exponent :=
      ⟨digits.take (digits.length - (-s.exponent).toNat),
        digits.drop (digits.length - (-s.exponent).toNat), by simp, by rw [List.length_drop]; omega⟩
    rw [List.length_append] at inside ⊢
    have cut : front.length + back.length - (-s.exponent).toNat = front.length := by omega
    refine ⟨front, back, by simp [cut], isDigits_iff.mpr ⟨?_, fun c member => digit c ?_⟩,
      isDigits_iff.mpr ⟨?_, fun c member => digit c ?_⟩, value, behind⟩
    · exact List.ne_nil_of_length_pos (by omega)
    · exact List.mem_append_left back member
    · exact List.ne_nil_of_length_pos (by omega)
    · exact List.mem_append_right front member
  next outside =>
    refine ⟨['0'], List.replicate ((-s.exponent).toNat - digits.length) '0' ++ digits,
      by simp [zeros], by decide, isDigits_iff.mpr ⟨by simp [some_], fun c member => ?_⟩, ?_, ?_⟩
    · exact (List.mem_append.mp member).elim isDigit_of_mem_zeros (digit c)
    · rw [← value, ← List.append_assoc]
      exact zeros_natOfDigits digits (_ + 1)
    · rw [List.length_append, List.length_replicate]
      omega

end Positional

section Pointed

variable {x : Float}

theorem toList_signed (text : String) :
    (signed x text).toList = (if isNegative x then ['-'] else []) ++ text.toList := by
  rw [signed]
  split <;> simp

theorem plain_of_finite (finite : magnitudeBits x < infinityBits) :
    plain x = signed x (positional (shortest .up x)) := by
  have number : x.isNaN = false := by
    rw [Bool.eq_false_iff, ne_eq, isNaN_iff]
    omega
  have bounded : x.isInf = false := by
    rw [Bool.eq_false_iff, ne_eq, isInf_iff]
    omega
  simp only [plain, number, bounded, Bool.false_eq_true, if_false]

theorem magnitudeBits_limit : magnitudeBits 1e16 = (finestPlace + 1) * 2 ^ 52 + 5 * 10 ^ 15 := by
  rw [finestPlace_eq]
  decide +kernel

theorem isNegative_limit : isNegative 1e16 = false := by
  decide +kernel

theorem ofDigits_of_contains {whole fraction : List Char}
    (finite : magnitudeBits x < infinityBits)
    (within : (magnitude x).contains (natOfDigits (whole ++ fraction)) (10 ^ fraction.length) =
      true) : ofDigits (isNegative x) whole fraction 0 = x := by
  have places : (-((0 : Int) - fraction.length)).toNat = fraction.length := by omega
  rw [ofDigits_eq_nearest, power_of_nonpos (by omega), places, Nat.mul_one]
  exact nearest_of_contains finite (Nat.pow_pos (by decide)) within

theorem finite_of_small (small : magnitudeBits x < magnitudeBits 1e16) :
    magnitudeBits x < infinityBits :=
  Nat.lt_trans small (by decide +kernel)

/-- Below the limit only whole numbers are given a fraction. -/
theorem withFraction_small (small : magnitudeBits x < magnitudeBits 1e16) :
    withFraction x = signed x (positional (shortest .up x)) ++
      if isWhole x then ".0" else "" := by
  have finite := finite_of_small small
  have below : x.abs < 1e16 :=
    (abs_lt_iff (Nat.le_of_lt finite) isNegative_limit (by decide +kernel)).mpr small
  rw [withFraction, isFinite_iff.mpr finite, plain_of_finite finite]
  cases isWhole x <;> simp [below]

/-- A real below the limit is written around a point, and the digits are read as it. -/
theorem toList_withFraction (small : magnitudeBits x < magnitudeBits 1e16) :
    ∃ whole fraction, (withFraction x).toList = pointed (isNegative x) whole fraction ∧
      isDigits whole = true ∧ isDigits fraction = true ∧
      ofDigits (isNegative x) whole fraction 0 = x := by
  have finite := finite_of_small small
  obtain ⟨within, exponent⟩ := digits_of_shortest finite
    fun _ => by rwa [← magnitudeBits_limit]
  rw [withFraction_small small, String.toList_append, toList_signed]
  generalize shortest .up x = s at *
  by_cases integral : isWhole x = true
  · have nonneg := exponent.mpr integral
    rw [power_of_nonneg nonneg] at within
    obtain ⟨digits, value⟩ := toList_positional_whole nonneg
    refine ⟨(positional s).toList, ['0'], ?_, digits, by decide, ofDigits_of_contains finite ?_⟩
    · rw [if_pos integral]
      simp [pointed]
    · have nought : natOfDigits ((positional s).toList ++ ['0']) =
          s.digits * 10 ^ s.exponent.toNat * 10 := by
        rw [← value]
        exact natOfDigits_zeros _ 1
      rw [nought]
      exact (contains_scale (by decide)).trans within
  · have negative := Int.not_le.mp (mt exponent.mp integral)
    rw [power_of_nonpos (Int.le_of_lt negative), Nat.mul_one] at within
    obtain ⟨whole, fraction, shape, digits, digits', value, length⟩ :=
      toList_positional_fraction negative
    refine ⟨whole, fraction, ?_, digits, digits', ofDigits_of_contains finite ?_⟩
    · rw [shape, if_neg integral]
      simp [pointed]
    · rw [← length, Int.toNat_natCast] at within
      rwa [value]

end Pointed

end CellTiming.Decimal

namespace CellTiming.Number

open Decimal Token

def IsSign (c : Char) : Prop := c = '+' ∨ c = '-'

section Pointed

variable {negative : Bool} {whole fraction text : List Char}

/-- The real of digits around a point. -/
def realFrom? (negative : Bool) (text : List Char) : Option Float :=
  match cutAt? '.' text with
  | some (whole, fraction) =>
    if isDigits whole && isDigits fraction then some (ofDigits negative whole fraction 0) else none
  | none => none

theorem realOf_eq (text : List Char) :
    realOf? text = realFrom? (takeSign text).1 (takeSign text).2 := by
  unfold realOf?
  split
  next negative unsigned same =>
    have taken : takeSign text = (negative, unsigned) := by
      split at same
      · exact same
      · exact same
      next minus plus => exact (takeSign.eq_3 text minus plus).trans same
    rw [taken]
    rfl

theorem takeSign_unsigned (unsigned : ∀ c ∈ text.head?, ¬IsSign c) :
    takeSign text = (false, text) := by
  unfold takeSign
  split
  · exact absurd (.inr rfl) (unsigned _ rfl)
  · exact absurd (.inl rfl) (unsigned _ rfl)
  · rfl

theorem realFrom_pointed (digits : isDigits whole = true) (digits' : isDigits fraction = true) :
    realFrom? negative (whole ++ '.' :: fraction) = some (ofDigits negative whole fraction 0) := by
  have absent : '.' ∉ whole := fun point =>
    Bool.false_ne_true ((isDigits_iff.mp digits).2 '.' point)
  simp only [realFrom?, cutAt_append absent, digits, digits', Bool.and_self, if_true]

theorem realOf_pointed (digits : isDigits whole = true) (digits' : isDigits fraction = true) :
    realOf? (pointed negative whole fraction) = some (ofDigits negative whole fraction 0) := by
  have taken : takeSign (pointed negative whole fraction) = (negative, whole ++ '.' :: fraction) := by
    cases negative with
    | true => rfl
    | false =>
      obtain ⟨some_, digit⟩ := isDigits_iff.mp digits
      obtain ⟨c, cs, rfl⟩ := List.exists_cons_of_ne_nil some_
      have isDigit := digit c List.mem_cons_self
      refine takeSign_unsigned ?_
      rintro _ ⟨⟩ (rfl | rfl) <;> cases isDigit
  rw [realOf_eq, taken, realFrom_pointed digits digits']

theorem realLength_pointed (digits : isDigits whole = true) (digits' : isDigits fraction = true) :
    realLength? (whole ++ '.' :: fraction) = some (whole ++ '.' :: fraction).length := by
  have front : (whole ++ '.' :: fraction).takeWhile Char.isDigit = whole := by
    rw [List.takeWhile_append_of_pos (isDigits_iff.mp digits).2]
    simp
  have back : fraction.takeWhile Char.isDigit = fraction :=
    List.takeWhile_eq_self_iff.mpr (isDigits_iff.mp digits').2
  have some_ := List.length_pos_iff.mpr (isDigits_iff.mp digits).1
  have some' := List.length_pos_iff.mpr (isDigits_iff.mp digits').1
  rw [realLength_eq, front, List.drop_left, realLengthFrom?, back, if_pos ⟨by omega, by omega⟩,
    List.length_append, List.length_cons, Nat.add_assoc, Nat.add_comm 1]

/-- Digits around a point are one lexeme, with their sign where an operand may start. -/
theorem lexes_pointed {text : String} {n : Number}
    (shape : text.toList = pointed negative whole fraction) (digits : isDigits whole = true)
    (digits' : isDigits fraction = true) (read : ofString? text = some n) : Lexes .number text := by
  have length := realLength_pointed digits digits'
  have unsigned : unsignedLength (whole ++ '.' :: fraction) =
      (whole ++ '.' :: fraction).length := by
    rw [unsignedLength, length]
  rw [ofString?, shape] at read
  cases negative with
  | true =>
    have all : 1 + unsignedLength (whole ++ '.' :: fraction) =
        ('-' :: (whole ++ '.' :: fraction)).length := by
      rw [unsigned, Nat.add_comm, List.length_cons]
    exact ⟨'-', whole ++ '.' :: fraction, shape,
      (Cut.signed (.inr rfl) rfl (by rw [length]; rfl) (number_whole all read)).ok⟩
  | false =>
    obtain ⟨some_, digit⟩ := isDigits_iff.mp digits
    obtain ⟨c, cs, rfl⟩ := List.exists_cons_of_ne_nil some_
    exact ⟨c, cs ++ '.' :: fraction, shape,
      (Cut.unsigned (.inl (digit c List.mem_cons_self)) (number_whole unsigned read)).ok⟩

/-- A real below the limit is written so that it is read back. -/
theorem text_of_real {x : Float} (finite : x.isFinite = true) (small : x.abs < 1e16) :
    Lexes .number (ofReal x).text ∧ ofString? (ofReal x).text = some (ofReal x) := by
  have number := Nat.le_of_lt (isFinite_iff.mp finite)
  have below : magnitudeBits x < magnitudeBits 1e16 :=
    (abs_lt_iff number isNegative_limit (by decide +kernel)).mp small
  obtain ⟨whole, fraction, shape, digits, digits', value⟩ := toList_withFraction below
  have read : ofString? (ofReal x).text = some (ofReal x) := by
    change ofChars? (withFraction x).toList = _
    rw [shape, ofChars?, realOf_pointed digits digits', value]
  exact ⟨lexes_pointed shape digits digits' read, read⟩

end Pointed

end CellTiming.Number
