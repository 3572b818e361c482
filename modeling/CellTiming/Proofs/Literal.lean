import CellTiming.Proofs.Fusing
import CellTiming.Proofs.RealText

/-! Literals are the texts of numbers without a sign. Each is a single lexeme wherever it
stands. A sign directly before a real joins its lexeme where an operand may start, and makes
of it the number that the sign makes of the real when it stands apart. -/
namespace CellTiming

namespace Decimal

theorem neg_ofDigits (whole fraction : List Char) (exponent : Int) :
    -ofDigits false whole fraction exponent = ofDigits true whole fraction exponent := by
  unfold ofDigits
  dsimp only
  split
  · exact neg_ofMagnitude (Nat.zero_le _)
  split
  · exact neg_ofMagnitude (Nat.le_refl _)
  · exact neg_ofMagnitude (Nat.min_le_left _ _)

end Decimal

namespace Number

open Decimal Token

variable {text : List Char} {n : Number}

structure Literal (text : List Char) (n : Number) : Prop where
  read : ofChars? text = some n
  unsigned : ∀ c ∈ text.head?, ¬IsSign c

section Real

theorem eq_of_cutAt {c : Char} {before after : List Char}
    (cut : cutAt? c text = some (before, after)) : text = before ++ c :: after := by
  unfold cutAt? at cut
  split at cut
  next => cases cut
  next first rest same =>
    cases cut
    have head := List.head?_dropWhile_not (· != c) text
    rw [same] at head
    obtain rfl : first = c := by simpa using head
    rw [← same, List.takeWhile_append_dropWhile]

theorem pointed_of_real {value : Float} (read : realOf? text = some value)
    (unsigned : ∀ c ∈ text.head?, ¬IsSign c) :
    ∃ whole fraction, text = whole ++ '.' :: fraction ∧ isDigits whole = true ∧
      isDigits fraction = true ∧ value = ofDigits false whole fraction 0 := by
  rw [realOf_eq, takeSign_unsigned unsigned] at read
  dsimp only at read
  unfold realFrom? at read
  split at read
  next whole fraction cut =>
    split at read
    next digits =>
      rw [Bool.and_eq_true] at digits
      exact ⟨whole, fraction, eq_of_cutAt cut, digits.1, digits.2, (Option.some.inj read).symm⟩
    next => cases read
  next => cases read

end Real

section Whole

theorem isSome_of_mapM {α β : Type} {f : α → Option β} {xs : List α} {ys : List β}
    (read : xs.mapM f = some ys) : ∀ x ∈ xs, (f x).isSome = true := by
  have found := mapM_eq_some.mp read
  clear read
  induction found with
  | nil => exact nofun
  | cons value _ ih => exact List.forall_mem_cons.mpr ⟨by rw [value]; rfl, ih⟩

theorem isSome_of_le {radix radix' : Nat} (le : radix ≤ radix') {c : Char}
    (digit : (digitValue? radix c).isSome = true) : (digitValue? radix' c).isSome = true := by
  simp only [digitValue?, Option.isSome_filter] at digit ⊢
  obtain ⟨d, found, small⟩ := (Option.any_eq_true _ _).mp digit
  exact (Option.any_eq_true _ _).mpr
    ⟨d, found, decide_eq_true (Nat.lt_of_lt_of_le (of_decide_eq_true small) le)⟩

theorem isDigit_of_value {c : Char} (digit : (digitValue? 10 c).isSome = true) :
    c.isDigit = true := by
  obtain ⟨d, value⟩ := Option.isSome_iff_exists.mp digit
  obtain ⟨found, small⟩ := Option.filter_eq_some_iff.mp value
  split at found
  next decimal => simpa [Char.isDigit, Char.le_def] using decimal
  next =>
    split at found
    next =>
      cases found
      simp at small
    next => cases found

/-- Plain digits, or a quote and a base behind digits or nothing. -/
inductive Whole : List Char → Prop
  | plain {digits} (digital : isDigits digits = true) : Whole digits
  | sized {size letter digits} (digital : ∀ c ∈ size, c.isDigit = true)
      (base : (Base.ofLetter? letter).isSome = true) (some_ : digits ≠ [])
      (based : ∀ c ∈ digits, isBasedDigit c = true) : Whole (size ++ '\'' :: letter :: digits)

theorem isDigit_of_size {size : List Char} {width : Nat} (sized : sizeOf? size = some width) :
    ∀ c ∈ size, c.isDigit = true := by
  rw [sizeOf?] at sized
  split at sized
  next empty => simp [List.isEmpty_iff.mp empty]
  next =>
    split at sized
    next fits => exact (isDigits_iff.mp fits.1).2
    next => cases sized

theorem whole_of_integer (read : integerOf? text = some n) : Whole text := by
  unfold integerOf? at read
  split at read
  next size letter digits cut =>
    cases sized : sizeOf? size with
    | none => simp [sized] at read
    | some width =>
      cases lettered : Base.ofLetter? letter with
      | none => simp [sized, lettered] at read
      | some base =>
        have found : ofDigits? width base (digits.filter (· != '_')) = some n := by
          simpa [sized, lettered] using read
        obtain ⟨values, digital, some_, _⟩ := ofDigits_eq_some.mp found
        rw [eq_of_cutAt cut]
        refine .sized (isDigit_of_size sized) (by rw [lettered]; rfl) ?_ fun c member => ?_
        · rintro rfl
          cases digital
          exact some_ rfl
        · rw [isBasedDigit, Bool.or_eq_true, beq_iff_eq]
          refine or_iff_not_imp_right.mpr fun other => isSome_of_le (radix_bounds base).2 ?_
          exact isSome_of_mapM digital c (List.mem_filter.mpr ⟨member, by simpa using other⟩)
  next => cases read
  next =>
    obtain ⟨values, digital, some_, _⟩ := ofDigits_eq_some.mp read
    refine .plain (isDigits_iff.mpr ⟨?_, fun c member => ?_⟩)
    · rintro rfl
      cases digital
      exact some_ rfl
    · exact isDigit_of_value (isSome_of_mapM digital c member)

theorem Whole.realLength (whole : Whole text) : realLength? text = none := by
  cases whole with
  | plain digital =>
    have all := List.takeWhile_eq_self_iff.mpr (isDigits_iff.mp digital).2
    rw [realLength_eq, all, List.drop_length]
    rfl
  | @sized size letter digits digital =>
    have front : (size ++ '\'' :: letter :: digits).takeWhile Char.isDigit = size := by
      rw [List.takeWhile_append_of_pos digital]
      simp
    rw [realLength_eq, front, List.drop_left]
    rfl

theorem Whole.unsignedLength (whole : Whole text) : unsignedLength text = text.length := by
  have none := whole.realLength
  cases whole with
  | plain digital =>
    have all := List.takeWhile_eq_self_iff.mpr (isDigits_iff.mp digital).2
    rw [Token.unsignedLength, none]
    simp [all, basedLength?]
  | @sized size letter digits digital base some_ based =>
    have front : (size ++ '\'' :: letter :: digits).takeWhile Char.isDigit = size := by
      rw [List.takeWhile_append_of_pos digital]
      simp
    have back := List.takeWhile_eq_self_iff.mpr based
    rw [Token.unsignedLength, none]
    simp [front, basedLength?, base, back, some_]

theorem Whole.opens {c : Char} {cs : List Char} (whole : Whole (c :: cs)) :
    c.isDigit ∨ (basedLength? (c :: cs)).isSome := by
  generalize same : c :: cs = text at whole
  cases whole with
  | plain digital => exact .inl ((isDigits_iff.mp digital).2 c (same ▸ List.mem_cons_self))
  | @sized size letter digits digital base some_ based =>
    cases size with
    | nil =>
      cases same
      exact .inr (by simp [basedLength?, base, List.takeWhile_eq_self_iff.mpr based, some_])
    | cons first others =>
      cases same
      exact .inl (digital c List.mem_cons_self)

end Whole

section Lexeme

theorem literal_pointed {whole fraction : List Char} (digits : isDigits whole = true)
    (digits' : isDigits fraction = true) :
    Literal (whole ++ '.' :: fraction) (ofReal (ofDigits false whole fraction 0)) := by
  have read : realOf? (whole ++ '.' :: fraction) = some (ofDigits false whole fraction 0) :=
    @realOf_pointed false whole fraction digits digits'
  refine ⟨by rw [ofChars?, read], fun c head => ?_⟩
  obtain ⟨some_, digit⟩ := isDigits_iff.mp digits
  obtain ⟨first, others, rfl⟩ := List.exists_cons_of_ne_nil some_
  cases head
  rintro (rfl | rfl) <;> cases digit _ List.mem_cons_self

/-- A literal is the text of a real, or of an integer. -/
theorem Literal.cases (literal : Literal text n) :
    (∃ whole fraction, text = whole ++ '.' :: fraction ∧ isDigits whole = true ∧
      isDigits fraction = true ∧ n = ofReal (ofDigits false whole fraction 0)) ∨ Whole text := by
  obtain ⟨read, unsigned⟩ := literal
  unfold ofChars? at read
  split at read
  next value real =>
    obtain ⟨whole, fraction, shape, digits, digits', rfl⟩ := pointed_of_real real unsigned
    exact .inl ⟨whole, fraction, shape, digits, digits', (Option.some.inj read).symm⟩
  next => exact .inr (whole_of_integer read)

/-- A literal is cut off as a number. -/
theorem Literal.lexeme {c : Char} {cs : List Char} (literal : Literal (c :: cs) n) (start : Bool) :
    lexeme start c cs = .ok ⟨.number, cs.length⟩ := by
  rcases literal.cases with ⟨whole, fraction, shape, digits, digits', _⟩ | whole
  · have length : Token.unsignedLength (c :: cs) = (c :: cs).length := by
      rw [Token.unsignedLength, shape, realLength_pointed digits digits']
    obtain ⟨some_, digit⟩ := isDigits_iff.mp digits
    have first : c.isDigit = true := by
      cases whole with
      | nil => exact absurd rfl some_
      | cons first others =>
        cases shape
        exact digit c List.mem_cons_self
    exact (Cut.unsigned (.inl first) (number_whole length literal.read)).ok
  · exact (Cut.unsigned whole.opens (number_whole whole.unsignedLength literal.read)).ok

theorem Literal.ne_nil (literal : Literal text n) : text ≠ [] := by
  rcases literal.cases with ⟨whole, fraction, rfl, _⟩ | ⟨digital⟩ | _
  · simp
  · exact (isDigits_iff.mp digital).1
  · simp

theorem Literal.realLength (literal : Literal text n) (real : (realLength? text).isSome = true) :
    realLength? text = some text.length := by
  rcases literal.cases with ⟨whole, fraction, rfl, digits, digits', _⟩ | whole
  · exact realLength_pointed digits digits'
  · rw [whole.realLength] at real
    cases real

/-- Before a real a sign is part of the number. -/
theorem Literal.signed (literal : Literal text n) (real : (realLength? text).isSome = true) :
    ofChars? ('+' :: text) = some n ∧ ofChars? ('-' :: text) = some n.neg := by
  rcases literal.cases with ⟨whole, fraction, rfl, digits, digits', rfl⟩ | whole
  · have read (sign : Char) (negative : Bool)
        (is : takeSign (sign :: (whole ++ '.' :: fraction)) =
          (negative, whole ++ '.' :: fraction)) :
        ofChars? (sign :: (whole ++ '.' :: fraction)) =
          some (ofReal (ofDigits negative whole fraction 0)) := by
      rw [ofChars?, realOf_eq, is, realFrom_pointed digits digits']
    refine ⟨read '+' false rfl, (read '-' true rfl).trans ?_⟩
    rw [← neg_ofDigits]
    rfl
  · rw [whole.realLength] at real
    cases real

end Lexeme

end Number

end CellTiming
