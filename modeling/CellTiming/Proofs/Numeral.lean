import CellTiming.Proofs.Lexeme
import Mathlib.Data.List.Induction
import Mathlib.Tactic.IntervalCases

/-! Integers among the numbers. The text an integer is written as is a single lexeme and
reads back as the same number, its width and base included. -/
namespace CellTiming.Number

section Digits

variable {radix : Nat}

theorem positionalValue_concat (digits : List Nat) (d : Nat) :
    positionalValue radix (digits ++ [d]) = radix * positionalValue radix digits + d := by
  simp [positionalValue]

theorem positionalValue_lt {digits : List Nat} (small : ∀ d ∈ digits, d < radix) :
    positionalValue radix digits < radix ^ digits.length := by
  induction digits using List.reverseRecOn with
  | nil => simp [positionalValue]
  | append_singleton digits d ih =>
    have lead := ih fun d member => small d (by simp [member])
    have last : d < radix := small d (by simp)
    rw [positionalValue_concat, List.length_append, List.length_singleton, Nat.pow_succ]
    calc radix * positionalValue radix digits + d
        < radix * (positionalValue radix digits + 1) := by rw [Nat.mul_add, Nat.mul_one]; omega
      _ ≤ radix * radix ^ digits.length := Nat.mul_le_mul_left radix lead
      _ = radix ^ digits.length * radix := Nat.mul_comm _ _

theorem digitValue_digitChar {d : Nat} (small : d < radix) (most : radix ≤ 16) :
    digitValue? radix d.digitChar = some d := by
  have bound : d < 16 := Nat.lt_of_lt_of_le small most
  interval_cases d <;> simp [digitValue?, Nat.digitChar, small]

theorem mapM_eq_some {α β : Type} {f : α → Option β} {xs : List α} {ys : List β} :
    xs.mapM f = some ys ↔ List.Forall₂ (fun x y => f x = some y) xs ys := by
  induction xs generalizing ys with
  | nil =>
    rw [List.forall₂_nil_left_iff, List.mapM_nil]
    exact Option.some_inj.trans eq_comm
  | cons x xs ih =>
    simp only [List.mapM_cons, Option.bind_eq_bind, Option.bind_eq_some_iff, ih,
      List.forall₂_cons_left_iff, Option.pure_def, Option.some_inj]
    constructor
    · rintro ⟨y, found, more, others, rfl⟩
      exact ⟨y, more, found, others, rfl⟩
    · rintro ⟨y, more, found, others, rfl⟩
      exact ⟨y, found, more, others, rfl⟩

theorem digits_of_mapM {cs : List Char} {digits : List Nat}
    (read : cs.mapM (digitValue? radix) = some digits) :
    digits.length = cs.length ∧ ∀ d ∈ digits, d < radix := by
  have found := mapM_eq_some.mp read
  refine ⟨found.length_eq.symm, ?_⟩
  clear read
  induction found with
  | nil => exact nofun
  | cons value _ ih =>
    exact List.forall_mem_cons.mpr ⟨by simpa using (Option.filter_eq_some_iff.mp value).2, ih⟩

variable (least : 1 < radix)
include least

theorem digit_of_mem_toDigits {n : Nat} {c : Char} (member : c ∈ Nat.toDigits radix n) :
    ∃ d, d < radix ∧ c = d.digitChar := by
  induction n using Nat.strongRecOn with
  | ind n ih =>
    rw [Nat.toDigits_eq_if least] at member
    split at member
    next small => exact ⟨n, small, List.mem_singleton.mp member⟩
    next large =>
      rcases List.mem_append.mp member with member | member
      · exact ih (n / radix) (Nat.div_lt_self (by omega) least) member
      · exact ⟨n % radix, Nat.mod_lt n (by omega), List.mem_singleton.mp member⟩

theorem mapM_toDigits (most : radix ≤ 16) (n : Nat) :
    ∃ digits, (Nat.toDigits radix n).mapM (digitValue? radix) = some digits ∧
      positionalValue radix digits = n := by
  induction n using Nat.strongRecOn with
  | ind n ih =>
    rw [Nat.toDigits_eq_if least]
    split
    next small => exact ⟨[n], by simp [digitValue_digitChar small most], by simp [positionalValue]⟩
    next large =>
      obtain ⟨digits, read, value⟩ := ih (n / radix) (Nat.div_lt_self (by omega) least)
      have last : n % radix < radix := Nat.mod_lt n (by omega)
      refine ⟨digits ++ [n % radix], ?_, ?_⟩
      · simp [List.mapM_append, read, digitValue_digitChar last most]
      · rw [positionalValue_concat, value]
        exact Nat.div_add_mod n radix

end Digits

section Canonical

theorem radix_bounds (base : Base) : 1 < base.radix ∧ base.radix ≤ 16 := by
  cases base <;> decide

/-- What digits are read as: at least one of them, their bits within the width and their
value within the integers. -/
theorem ofDigits_eq_some {width : Nat} {base : Base} {cs : List Char} {n : Number} :
    ofDigits? width base cs = some n ↔
      ∃ digits, cs.mapM (digitValue? base.radix) = some digits ∧ digits ≠ [] ∧
        digits.length * base.bitsPerDigit ≤ width ∧
        (positionalValue base.radix digits : Int) ≤ greatestInt ∧
        n = ⟨width, base, .int (positionalValue base.radix digits)⟩ := by
  cases found : cs.mapM (digitValue? base.radix) with
  | none => simp [ofDigits?, found]
  | some digits =>
    simp only [ofDigits?, found, Option.bind_eq_bind, Option.bind_some, List.isEmpty_iff,
      Option.some.injEq, exists_eq_left']
    split
    next fails =>
      refine iff_of_false nofun fun ⟨some_, fits, bounded, _⟩ => ?_
      rcases fails with none | wide | large
      · exact some_ none
      · exact Nat.not_lt_of_le fits wide
      · exact Int.not_lt_of_ge bounded large
    next passes =>
      simp only [not_or, Nat.not_lt, Int.not_lt] at passes
      rw [Option.some_inj, eq_comm]
      exact ⟨fun same => ⟨passes.1, passes.2.1, passes.2.2, same⟩, fun all => all.2.2.2⟩

/-- The shortest digits of a value are read as it where they fit. -/
theorem ofDigits_of_fits {width value : Nat} {base : Base}
    (fits : (Nat.toDigits base.radix value).length * base.bitsPerDigit ≤ width)
    (bounded : (value : Int) ≤ greatestInt) :
    ofDigits? width base (Nat.toDigits base.radix value) = some ⟨width, base, .int value⟩ := by
  obtain ⟨least, most⟩ := radix_bounds base
  obtain ⟨digits, read, rfl⟩ := mapM_toDigits least most value
  obtain ⟨length, _⟩ := digits_of_mapM read
  refine ofDigits_eq_some.mpr ⟨digits, read, ?_, by rwa [length], bounded, rfl⟩
  rintro rfl
  exact Nat.toDigits_ne_nil (List.length_eq_zero_iff.mp length.symm)

/-- They fit wherever other digits of the value do. -/
theorem ofDigits_toDigits {width : Nat} {base : Base} {cs : List Char} {n : Number}
    (read : ofDigits? width base cs = some n) :
    ∃ value : Nat, n = ⟨width, base, .int value⟩ ∧
      ofDigits? width base (Nat.toDigits base.radix value) = some n := by
  obtain ⟨least, _⟩ := radix_bounds base
  obtain ⟨digits, found, some_, fits, bounded, rfl⟩ := ofDigits_eq_some.mp read
  obtain ⟨_, small⟩ := digits_of_mapM found
  have shorter : (Nat.toDigits base.radix (positionalValue base.radix digits)).length ≤
      digits.length :=
    (Nat.length_toDigits_le_iff least (List.length_pos_iff.mpr some_)).mpr
      (positionalValue_lt small)
  exact ⟨_, rfl, ofDigits_of_fits (Nat.le_trans (Nat.mul_le_mul_right _ shorter) fits) bounded⟩

end Canonical

section Text

variable {value width : Nat} {base : Base}

/-- The characters an integer is written in. -/
def numeral (width : Nat) (base : Base) (value : Nat) : List Char :=
  if base = .decimal ∧ width = defaultWidth then Nat.toDigits 10 value
  else Nat.toDigits 10 width ++ '\'' :: base.letter :: Nat.toDigits base.radix value

theorem toList_text (width : Nat) (base : Base) (value : Nat) :
    (text ⟨width, base, .int value⟩).toList = numeral width base value := by
  simp only [text, numeral]
  split
  · change (Nat.repr value).toList = _
    exact Nat.toList_repr
  · have positive : ¬ (value : Int) < 0 := by omega
    simp [positive, ToString.toString, String.toList_append, Nat.toList_repr]

/-- Digits are no other numeral of a number. -/
theorem digitChar_plain {d : Nat} (small : d < 16) :
    Token.isBasedDigit d.digitChar = true ∧ d.digitChar ≠ '_' ∧ d.digitChar ≠ '.' ∧
      d.digitChar ≠ '\'' := by
  interval_cases d <;> decide

theorem plain_of_mem_toDigits {n : Nat} {c : Char} (member : c ∈ Nat.toDigits base.radix n) :
    Token.isBasedDigit c = true ∧ c ≠ '_' ∧ c ≠ '.' ∧ c ≠ '\'' := by
  obtain ⟨least, most⟩ := radix_bounds base
  obtain ⟨d, small, rfl⟩ := digit_of_mem_toDigits least member
  exact digitChar_plain (Nat.lt_of_lt_of_le small most)

theorem isDigit_of_mem_ten {n : Nat} {c : Char} (member : c ∈ Nat.toDigits 10 n) :
    c.isDigit = true :=
  Nat.isDigit_of_mem_toDigits (by decide) (by decide) member

theorem isDigits_iff {cs : List Char} :
    isDigits cs = true ↔ cs ≠ [] ∧ ∀ c ∈ cs, c.isDigit = true := by
  rw [isDigits, Bool.and_eq_true, Bool.not_eq_true', List.isEmpty_eq_false_iff, List.all_eq_true]

theorem isDigits_toDigits (n : Nat) : isDigits (Nat.toDigits 10 n) = true :=
  isDigits_iff.mpr ⟨Nat.toDigits_ne_nil, fun _ member => isDigit_of_mem_ten member⟩

theorem natOfDigits_toDigits (n : Nat) : Decimal.natOfDigits (Nat.toDigits 10 n) = n :=
  Nat.ofDigitChars_ten_toDigits

theorem notMem_toDigits {c : Char} (other : c.isDigit = false) (n : Nat) :
    c ∉ Nat.toDigits 10 n :=
  fun member => Bool.false_ne_true (other.symm.trans (isDigit_of_mem_ten member))

theorem letter_plain (base : Base) : base.letter ≠ '.' := by
  cases base <;> decide

theorem no_point_in_numeral (width : Nat) (base : Base) (value : Nat) :
    '.' ∉ numeral width base value := by
  intro member
  rw [numeral] at member
  split at member
  · exact notMem_toDigits rfl value member
  · simp only [List.mem_append, List.mem_cons] at member
    rcases member with member | same | same | member
    · exact notMem_toDigits rfl width member
    · simp at same
    · exact letter_plain base same.symm
    · exact (plain_of_mem_toDigits member).2.2.1 rfl

theorem cutAt_none {c : Char} {cs : List Char} (absent : c ∉ cs) : cutAt? c cs = none := by
  have nothing : cs.dropWhile (· != c) = [] := by
    rw [List.dropWhile_eq_nil_iff]
    intro c' member
    simpa using fun same : c' = c => absent (same ▸ member)
  rw [cutAt?, nothing]

theorem cutAt_append {c : Char} {front : List Char} (absent : c ∉ front) (rest : List Char) :
    cutAt? c (front ++ c :: rest) = some (front, rest) := by
  have before : ∀ c' ∈ front, (c' != c) = true := by
    intro c' member
    simpa using fun same : c' = c => absent (same ▸ member)
  rw [cutAt?, List.dropWhile_append_of_pos before, List.takeWhile_append_of_pos before]
  simp

/-- A sign at the front is no part of the digits. -/
theorem realOf_none {cs : List Char} (absent : '.' ∉ cs) : realOf? cs = none := by
  have none {rest : List Char} (within : rest ⊆ cs) : cutAt? '.' rest = none :=
    cutAt_none fun member => absent (within member)
  unfold realOf?
  split
  next negative unsigned same =>
    have within : unsigned ⊆ cs := by
      split at same
      · cases same
        exact List.subset_cons_self _ _
      · cases same
        exact List.subset_cons_self _ _
      · cases same
        exact List.Subset.refl _
    rw [none within]

theorem sizeOf_toDigits {width : Nat} (bounded : width ≤ greatestWidth) :
    sizeOf? (Nat.toDigits 10 width) = some width := by
  have value := natOfDigits_toDigits width
  rw [sizeOf?, if_neg (by simp), if_pos ⟨isDigits_toDigits width, by rwa [value]⟩, value]

theorem ofLetter_letter (whole : base ≠ .real) : Base.ofLetter? base.letter = some base := by
  cases base <;> first
    | exact absurd rfl whole
    | decide

/-- The text of an integer reads back. -/
theorem ofChars_numeral (bounded : width ≤ greatestWidth) (whole : base ≠ .real)
    (fits : ofDigits? width base (Nat.toDigits base.radix value) = some ⟨width, base, .int value⟩) :
    ofChars? (numeral width base value) = some ⟨width, base, .int value⟩ := by
  rw [ofChars?, realOf_none (no_point_in_numeral width base value), numeral, integerOf?]
  by_cases plain : base = .decimal ∧ width = defaultWidth
  · obtain ⟨rfl, rfl⟩ := plain
    rw [if_pos ⟨rfl, rfl⟩, cutAt_none (notMem_toDigits rfl value)]
    exact fits
  · have kept : (Nat.toDigits base.radix value).filter (· != '_') = Nat.toDigits base.radix value :=
      List.filter_eq_self.mpr fun c member => by simpa using (plain_of_mem_toDigits member).2.1
    rw [if_neg plain, cutAt_append (notMem_toDigits rfl width)]
    simp only [sizeOf_toDigits bounded, ofLetter_letter whole, kept, Option.bind_eq_bind,
      Option.bind_some, fits]

/-- No digits begin with a sign. -/
theorem ofDigits_minus (width : Nat) (base : Base) (cs : List Char) :
    ofDigits? width base ('-' :: cs) = none := by
  simp [ofDigits?, digitValue?]

/-- A negative integer is written with a sign, which no literal of an integer has. -/
theorem text_of_negative {value : Int} (negative : value < 0) :
    ofString? (text ⟨width, base, .int value⟩) = none := by
  obtain ⟨m, rfl⟩ := Int.eq_negSucc_of_lt_zero negative
  rw [ofString?, ofChars?]
  by_cases plain : base = .decimal ∧ width = defaultWidth
  · have shape : (text ⟨width, base, .int (Int.negSucc m)⟩).toList =
        '-' :: Nat.toDigits 10 (m + 1) := by
      simp only [text, if_pos plain]
      change ("-" ++ Nat.repr (m + 1)).toList = _
      rw [String.toList_append, Nat.toList_repr]
      rfl
    have noPoint : '.' ∉ '-' :: Nat.toDigits 10 (m + 1) := by
      simpa using notMem_toDigits rfl (m + 1)
    have noQuote : '\'' ∉ '-' :: Nat.toDigits 10 (m + 1) := by
      simpa using notMem_toDigits rfl (m + 1)
    rw [shape, realOf_none noPoint, integerOf?, cutAt_none noQuote]
    exact ofDigits_minus _ _ _
  · have shape : (text ⟨width, base, .int (Int.negSucc m)⟩).toList =
        Nat.toDigits 10 width ++ '\'' :: base.letter :: '-' :: Nat.toDigits base.radix (m + 1) := by
      simp [text, plain, ToString.toString, String.toList_append, Nat.toList_repr]
    have noPoint : '.' ∉ Nat.toDigits 10 width ++ '\'' :: base.letter :: '-' ::
        Nat.toDigits base.radix (m + 1) := by
      intro member
      simp only [List.mem_append, List.mem_cons] at member
      rcases member with member | same | same | same | member
      · exact notMem_toDigits rfl width member
      · simp at same
      · exact letter_plain base same.symm
      · simp at same
      · exact (plain_of_mem_toDigits member).2.2.1 rfl
    rw [shape, realOf_none noPoint, integerOf?, cutAt_append (notMem_toDigits rfl width)]
    simp only [Option.bind_eq_bind, Option.bind_eq_none_iff]
    exact fun width _ base _ => ofDigits_minus width base _

theorem sizeOf_bound {cs : List Char} (size : sizeOf? cs = some width) : width ≤ greatestWidth := by
  rw [sizeOf?] at size
  split at size
  · cases size
    decide
  · split at size
    · rename_i fits
      cases size
      exact fits.2
    · cases size

/-- A number is a real or was read from digits of a base. -/
theorem ofChars_eq_some {cs : List Char} {n : Number} (read : ofChars? cs = some n) :
    (∃ value, n = ofReal value) ∨ ∃ width base digits, width ≤ greatestWidth ∧ base ≠ .real ∧
      ofDigits? width base digits = some n := by
  rw [ofChars?] at read
  split at read
  next value _ =>
    cases read
    exact .inl ⟨value, rfl⟩
  · rw [integerOf?] at read
    split at read
    next size letter digits _ =>
      cases found : sizeOf? size with
      | none => simp [found] at read
      | some width =>
        cases sign : Base.ofLetter? letter with
        | none => simp [found, sign] at read
        | some base =>
          simp only [found, sign, Option.bind_eq_bind, Option.bind_some] at read
          refine .inr ⟨width, base, _, sizeOf_bound found, ?_, read⟩
          rintro rfl
          exact absurd (List.mem_of_find?_eq_some sign) (by decide)
    next => cases read
    next => exact .inr ⟨defaultWidth, .decimal, cs, by decide, by decide, read⟩

end Text

section Lexeme

open Token

theorem unsignedLength_numeral (width : Nat) {base : Base} (value : Nat) (whole : base ≠ .real) :
    unsignedLength (numeral width base value) = (numeral width base value).length := by
  have ten (n : Nat) : ∀ c ∈ Nat.toDigits 10 n, c.isDigit = true :=
    fun c member => isDigit_of_mem_ten member
  rw [numeral]
  split
  next plain =>
    have all : (Nat.toDigits 10 value).takeWhile Char.isDigit = Nat.toDigits 10 value :=
      List.takeWhile_eq_self_iff.mpr (ten value)
    simp [unsignedLength, realLength?, all, basedLength?]
  next sized =>
    have size : (Nat.toDigits 10 width ++ '\'' :: base.letter ::
        Nat.toDigits base.radix value).takeWhile Char.isDigit = Nat.toDigits 10 width := by
      rw [List.takeWhile_append_of_pos (ten width)]
      simp
    have digits : (Nat.toDigits base.radix value).takeWhile isBasedDigit =
        Nat.toDigits base.radix value :=
      List.takeWhile_eq_self_iff.mpr fun c member => (plain_of_mem_toDigits member).1
    have some_ : (Nat.toDigits base.radix value).length ≠ 0 := Nat.length_toDigits_pos.ne'
    simp [unsignedLength, realLength?, size, basedLength?, digits, ofLetter_letter whole]

theorem number_whole {c : Char} {cs : List Char} {n : Number} {length : Nat}
    (all : length = (c :: cs).length) (read : ofChars? (c :: cs) = some n) :
    number (c :: cs) length = .ok ⟨.number, cs.length⟩ := by
  rw [number, all, List.take_length, read]
  rfl

/-- The text of an integer is a lexeme. -/
theorem lexes_text {width value : Nat} {base : Base} (whole : base ≠ .real)
    (read : ofChars? (numeral width base value) = some ⟨width, base, .int value⟩) :
    Lexes .number (text ⟨width, base, .int value⟩) := by
  have first (n : Nat) : ∃ c cs, c.isDigit = true ∧ Nat.toDigits 10 n = c :: cs := by
    obtain ⟨c, cs, same⟩ := List.exists_cons_of_ne_nil (Nat.toDigits_ne_nil (n := n) (b := 10))
    exact ⟨c, cs, isDigit_of_mem_ten (same ▸ List.mem_cons_self), same⟩
  obtain ⟨c, cs, digit, same⟩ : ∃ c cs, c.isDigit = true ∧ numeral width base value = c :: cs := by
    rw [numeral]
    split
    · exact first value
    · obtain ⟨c, cs, digit, same⟩ := first width
      exact ⟨c, _, digit, by rw [same]; rfl⟩
  have length := unsignedLength_numeral width value whole
  rw [same] at length read
  exact ⟨c, cs, by rw [toList_text, same],
    (Cut.unsigned (.inl digit) (number_whole length read)).ok⟩

/-- A number that is no real is written so that it is read back. -/
theorem text_of_integer {cs : List Char} {n : Number} (read : ofChars? cs = some n)
    (whole : n.isReal = false) : Lexes .number n.text ∧ ofString? n.text = some n := by
  rcases ofChars_eq_some read with ⟨_, rfl⟩ | ⟨width, base, digits, bounded, based, found⟩
  · cases whole
  obtain ⟨value, rfl, fits⟩ := ofDigits_toDigits found
  have again := ofChars_numeral bounded based fits
  refine ⟨lexes_text based again, ?_⟩
  rw [ofString?, toList_text]
  exact again

end Lexeme

end CellTiming.Number
