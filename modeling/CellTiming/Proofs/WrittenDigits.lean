import CellTiming.Proofs.Literal
import Mathlib.Data.Nat.Digits.Defs

/-! What the text of an integer says: its width, its base and the digits, the value of which fits
the width. An integer that is read is written so that it is read back. -/
namespace CellTiming.Number

/-- A digit of a radix, its letter in either case. -/
structure DigitOf (radix : Nat) (c : Char) (d : Nat) : Prop where
  small : d < radix
  sign : c.toLower = d.digitChar

/-- The digits of a text, the most significant first, and their value. -/
def Spells (radix : Nat) (cs : List Char) (value : Nat) : Prop :=
  ∃ digits, List.Forall₂ (DigitOf radix) cs digits ∧ value = Nat.ofDigits radix digits.reverse

/-- An integer is written as digits, or behind the letter of their base, with underscores among
them. A size may stand before the quote. -/
inductive WrittenInteger : List Char → Nat → Base → List Char → Prop
  | plain {digits : List Char} : WrittenInteger digits defaultWidth .decimal digits
  | unsized {letter : Char} {base : Base} {written : List Char}
      (lettered : letter.toLower = base.letter) (whole : base ≠ .real) :
      WrittenInteger ('\'' :: letter :: written) defaultWidth base (written.filter (· != '_'))
  | sized {size : List Char} {width : Nat} {letter : Char} {base : Base} {written : List Char}
      (some_ : size ≠ []) (spells : Spells 10 size width) (bounded : width < 2 ^ 32)
      (lettered : letter.toLower = base.letter) (whole : base ≠ .real) :
      WrittenInteger (size ++ '\'' :: letter :: written) width base (written.filter (· != '_'))

section Digits

variable {radix d : Nat} {c : Char} {cs : List Char} {digits : List Nat}

theorem positionalValue_eq (digits : List Nat) :
    positionalValue radix digits = Nat.ofDigits radix digits.reverse := by
  induction digits using List.reverseRecOn with
  | nil => rfl
  | append_singleton digits d ih =>
    rw [positionalValue_concat, ih, List.reverse_append, List.reverse_singleton,
      List.singleton_append, Nat.ofDigits_cons, Nat.add_comm]

theorem digitOf_of_digit (digit : c.isDigit = true) : DigitOf 10 c (c.toNat - '0'.toNat) := by
  obtain ⟨least, most⟩ : 48 ≤ c.toNat ∧ c.toNat ≤ 57 := by
    simpa [Char.isDigit, UInt32.le_iff_toNat_le] using digit
  have same : c = Char.ofNat c.toNat := (Char.ofNat_toNat c).symm
  generalize c.toNat = code at *
  subst same
  interval_cases code <;> exact ⟨by decide, rfl⟩

theorem digitChar_of_letter (least : 'a' ≤ c) (most : c ≤ 'f') :
    (c.toNat - 'a'.toNat + 10).digitChar = c := by
  have least : 97 ≤ c.toNat := least
  have most : c.toNat ≤ 102 := most
  have same : c = Char.ofNat c.toNat := (Char.ofNat_toNat c).symm
  generalize c.toNat = code at *
  subst same
  interval_cases code <;> rfl

theorem digitOf_of_value (value : digitValue? radix c = some d) : DigitOf radix c d := by
  obtain ⟨found, small⟩ := Option.filter_eq_some_iff.mp value
  refine ⟨by simpa using small, ?_⟩
  split at found
  next decimal =>
    have digit : c.isDigit = true := by simpa [Char.isDigit, Char.le_def] using decimal
    cases found
    exact (digitOf_of_digit digit).sign
  next =>
    split at found
    next letter =>
      cases found
      exact (digitChar_of_letter letter.1 letter.2).symm
    next => cases found

theorem spells_of_mapM (read : cs.mapM (digitValue? radix) = some digits) :
    Spells radix cs (positionalValue radix digits) :=
  ⟨digits, (mapM_eq_some.mp read).imp fun _ _ => digitOf_of_value, positionalValue_eq digits⟩

theorem spells_natOfDigits (digital : ∀ c ∈ cs, c.isDigit = true) :
    Spells 10 cs (Decimal.natOfDigits cs) := by
  refine ⟨cs.map fun c => c.toNat - '0'.toNat, ?_, ?_⟩
  · rw [List.forall₂_map_right_iff, List.forall₂_same]
    exact fun c member => digitOf_of_digit (digital c member)
  · rw [← positionalValue_eq, positionalValue, List.foldl_map]
    rfl

end Digits

theorem lettered_of_letter {letter : Char} {base : Base}
    (found : Base.ofLetter? letter = some base) :
    letter.toLower = base.letter ∧ base ≠ .real := by
  have same := List.find?_some found
  have member := List.mem_of_find?_eq_some found
  refine ⟨(eq_of_beq same).symm, ?_⟩
  rintro rfl
  simp at member

/-- No digit of a base is worth more than the bits it is charged. -/
theorem radix_le (base : Base) : base.radix ≤ 2 ^ base.bitsPerDigit := by
  cases base <;> decide

theorem value_lt {width : Nat} {base : Base} {digits : List Nat}
    (small : ∀ d ∈ digits, d < base.radix)
    (fits : digits.length * base.bitsPerDigit ≤ width) :
    positionalValue base.radix digits < 2 ^ width :=
  calc positionalValue base.radix digits
      < base.radix ^ digits.length := positionalValue_lt small
    _ ≤ (2 ^ base.bitsPerDigit) ^ digits.length := Nat.pow_le_pow_left (radix_le base) _
    _ = 2 ^ (digits.length * base.bitsPerDigit) := by rw [← Nat.pow_mul, Nat.mul_comm]
    _ ≤ 2 ^ width := Nat.pow_le_pow_right (by decide) fits

/-- The parts an integer is read from. -/
theorem written_of_integer {cs : List Char} {n : Number} (read : integerOf? cs = some n) :
    ∃ width base digits,
      WrittenInteger cs width base digits ∧ ofDigits? width base digits = some n := by
  unfold integerOf? at read
  split at read
  next size letter written cut =>
    obtain ⟨width, sized, read⟩ := Option.bind_eq_some_iff.mp read
    obtain ⟨base, lettered, read⟩ := Option.bind_eq_some_iff.mp read
    obtain ⟨same, whole⟩ := lettered_of_letter lettered
    refine ⟨width, base, _, ?_, read⟩
    rw [eq_of_cutAt cut]
    cases size with
    | nil =>
      cases sized
      exact .unsized same whole
    | cons c size =>
      have bounded := sizeOf_bound sized
      rw [sizeOf?, if_neg (by simp)] at sized
      split at sized
      next fits =>
        cases sized
        have digital := (isDigits_iff.mp fits.1).2
        exact .sized (List.cons_ne_nil c size) (spells_natOfDigits digital)
          (Nat.lt_of_le_of_lt bounded (by decide)) same whole
      next => cases sized
  next => cases read
  next => exact ⟨defaultWidth, .decimal, cs, .plain, read⟩

/-- An integer has the value of its digits, which fits its width, as the digits themselves do at the
bits each of them is charged; and its own text is read as the same number. -/
theorem ofString_integer (text : String) (n : Number) (read : ofString? text = some n)
    (whole : n.isReal = false) :
    ∃ (digits : List Char) (value : Nat), WrittenInteger text.toList n.width n.base digits ∧
      Spells n.base.radix digits value ∧ n.value = .int value ∧
      0 ≤ (value : Int) ∧ (value : Int) < 2 ^ n.width ∧
      digits.length * n.base.bitsPerDigit ≤ n.width ∧ ofString? n.text = some n := by
  have again : ofString? n.text = some n := (text_of_integer read whole).2
  rw [ofString?, ofChars?] at read
  split at read
  next => cases read; cases whole
  next =>
    obtain ⟨width, base, digits, written, read⟩ := written_of_integer read
    obtain ⟨values, found, _, fits, _, rfl⟩ := ofDigits_eq_some.mp read
    obtain ⟨length, small⟩ := digits_of_mapM found
    refine ⟨digits, _, written, spells_of_mapM found, rfl, Int.natCast_nonneg _, ?_, ?_, again⟩
    · exact_mod_cast value_lt small fits
    · rwa [← length]

theorem ofString_integer_grouped :
    ofString? "200'hFF_0a" = some ⟨200, .hex, .int 65290⟩ ∧
    text ⟨200, .hex, .int 65290⟩ = "200'hff0a" ∧
    ∃ digits value, WrittenInteger "200'hFF_0a".toList 200 .hex digits ∧ Spells 16 digits value ∧
      Value.int 65290 = .int value ∧ 0 ≤ (value : Int) ∧ (value : Int) < 2 ^ 200 ∧
      digits.length * 4 ≤ 200 ∧ ofString? "200'hff0a" = some ⟨200, .hex, .int 65290⟩ := by
  have read : ofString? "200'hFF_0a" = some ⟨200, .hex, .int 65290⟩ := by rfl
  exact ⟨read, rfl, ofString_integer _ _ read rfl⟩

end CellTiming.Number
