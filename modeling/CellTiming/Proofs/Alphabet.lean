import CellTiming.Proofs.EventTerm
import CellTiming.Proofs.Numeral

/-! The characters that texts are written in. Names, numbers and the terms of events keep to
the letters of signals; conditions add parentheses, and lists of signals blanks. -/
namespace CellTiming

/-- The characters of signals, of numbers and of the operators between them. -/
def isSignalChar (c : Char) : Bool :=
  c.isAlphanum || ['_', '$', '[', ']', '\'', '.', '-', '&', '=', '!', '~'].contains c

def isLibertyChar (c : Char) : Bool := isSignalChar c || ['(', ')', ' '].contains c

def Within (alphabet : Char → Bool) (text : String) : Prop := ∀ c ∈ text.toList, alphabet c = true

instance (alphabet : Char → Bool) (text : String) : Decidable (Within alphabet text) :=
  decidable_of_iff (text.toList.all alphabet = true) List.all_eq_true

section Within

variable {alphabet : Char → Bool} {first second : String}

theorem Within.append (left : Within alphabet first) (right : Within alphabet second) :
    Within alphabet (first ++ second) := by
  intro c member
  rw [String.toList_append] at member
  exact (List.mem_append.mp member).elim (left c) (right c)

theorem within_ofList {cs : List Char} (inside : ∀ c ∈ cs, alphabet c = true) :
    Within alphabet (String.ofList cs) := by
  rwa [Within, String.toList_ofList]

theorem Within.widen {wider : Char → Bool} (narrow : Within alphabet first)
    (contained : ∀ c, alphabet c = true → wider c = true) : Within wider first :=
  fun c member => contained c (narrow c member)

theorem within_intercalate {separator : String} {texts : List String}
    (between : Within alphabet separator) (parts : ∀ text ∈ texts, Within alphabet text) :
    Within alphabet (separator.intercalate texts) := by
  induction texts with
  | nil => exact fun c member => absurd member (by simp)
  | cons text texts ih =>
    obtain ⟨first, others⟩ := List.forall_mem_cons.mp parts
    cases texts with
    | nil => rwa [String.intercalate_singleton]
    | cons =>
      rw [String.intercalate_cons_cons]
      exact (first.append between).append (ih others)

end Within

theorem libertyChar_of_signalChar (c : Char) (inside : isSignalChar c = true) :
    isLibertyChar c = true := by
  rw [isLibertyChar, inside, Bool.true_or]

theorem signalChar_of_alphanum {c : Char} (inside : c.isAlphanum = true) :
    isSignalChar c = true := by
  rw [isSignalChar, inside, Bool.true_or]

theorem signalChar_of_digit {c : Char} (digit : c.isDigit = true) : isSignalChar c = true :=
  signalChar_of_alphanum (by rw [Char.isAlphanum, digit, Bool.or_true])

section Numbers

namespace Decimal

variable {n : Nat} {text : String}

theorem within_zeros (n : Nat) : Within isSignalChar (zeros n) :=
  within_ofList fun c member => by rw [List.eq_of_mem_replicate member]; rfl

theorem within_digits {cs : List Char} (among : cs ⊆ Nat.toDigits 10 n) :
    Within isSignalChar (String.ofList cs) :=
  within_ofList fun _ member => signalChar_of_digit (Number.isDigit_of_mem_ten (among member))

theorem within_positional (s : Scientific) : Within isSignalChar (positional s) := by
  have point : Within isSignalChar "." := by decide
  have start : Within isSignalChar "0." := by decide
  unfold positional
  dsimp only
  split
  · exact (within_digits (List.Subset.refl _)).append (within_zeros _)
  · split
    · exact ((within_digits (List.take_subset _ _)).append point).append
        (within_digits (List.drop_subset _ _))
    · exact (start.append (within_zeros _)).append (within_digits (List.Subset.refl _))

theorem within_signed (x : Float) (inside : Within isSignalChar text) :
    Within isSignalChar (signed x text) := by
  have minus : Within isSignalChar "-" := by decide
  unfold signed
  split
  · exact minus.append inside
  · exact inside

theorem within_plain (x : Float) : Within isSignalChar (plain x) := by
  unfold plain
  split
  · decide
  · split
    · exact within_signed x (by decide)
    · exact within_signed x (within_positional _)

theorem within_withFraction (x : Float) : Within isSignalChar (withFraction x) := by
  unfold withFraction
  split
  · exact (within_plain x).append (by decide)
  · exact within_plain x

end Decimal

namespace Number

theorem signalChar_of_mem_toDigits {base : Base} {n : Nat} {c : Char}
    (member : c ∈ Nat.toDigits base.radix n) : isSignalChar c = true := by
  obtain ⟨least, most⟩ := radix_bounds base
  obtain ⟨d, small, rfl⟩ := digit_of_mem_toDigits least member
  have small : d < 16 := Nat.lt_of_lt_of_le small most
  interval_cases d <;> rfl

theorem within_nat (n : Nat) : Within isSignalChar (toString n) := by
  intro c member
  change c ∈ (Nat.repr n).toList at member
  rw [Nat.toList_repr] at member
  exact signalChar_of_digit (isDigit_of_mem_ten member)

theorem within_int (value : Int) : Within isSignalChar (toString value) := by
  cases value with
  | ofNat n => exact within_nat n
  | negSucc n =>
    have minus : Within isSignalChar "-" := by decide
    exact minus.append (within_nat (n + 1))

/-- Whatever its width, base and value, a number is written in the letters of signals. -/
theorem within_text (n : Number) : Within isSignalChar n.text := by
  obtain ⟨width, base, value | value⟩ := n
  · have letter : Within isSignalChar (toString base.letter) := by cases base <;> decide
    have sign : Within isSignalChar (if value < 0 then "-" else "") := by split <;> decide
    have digits : Within isSignalChar (String.ofList (Nat.toDigits base.radix value.natAbs)) :=
      within_ofList fun _ => signalChar_of_mem_toDigits
    have quote : Within isSignalChar "'" := by decide
    simp only [text]
    split
    · exact within_int value
    · exact ((((within_nat width).append quote).append letter).append sign).append digits
  · exact Decimal.within_withFraction value

end Number

end Numbers

section Names

open Token

theorem signalChar_of_nameChar {c : Char} (name : isNameChar c = true) : isSignalChar c = true := by
  simp only [isNameChar, Bool.or_eq_true, beq_iff_eq] at name
  rcases name with (inside | rfl) | rfl
  · exact signalChar_of_alphanum inside
  · rfl
  · rfl

/-- A bit in brackets. -/
def IsBitSelect (cs : List Char) : Prop :=
  ∃ digits, digits ≠ [] ∧ (∀ c ∈ digits, c.isDigit = true) ∧ cs = '[' :: (digits ++ [']'])

/-- The letters of an identifier, which is no keyword. -/
def IsIdentifier (cs : List Char) : Prop :=
  ∃ c rest, cs = c :: rest ∧ isNameStart c = true ∧ (∀ d ∈ rest, isNameChar d = true) ∧
    Keyword.ofString? (String.ofList cs) = none

/-- An identifier with at most one bit select. -/
def SignalName (text : String) : Prop :=
  ∃ identifier select, text.toList = identifier ++ select ∧ IsIdentifier identifier ∧
    (select = [] ∨ IsBitSelect select)

theorem bitSelect_of_length {cs : List Char} (whole : bitSelectLength cs = cs.length) :
    cs = [] ∨ IsBitSelect cs := by
  unfold bitSelectLength at whole
  split at whole
  next cs =>
    obtain ⟨digits, back, rfl, taken, _⟩ := takeWhile_cut Char.isDigit cs
    rw [taken] at whole
    dsimp only at whole
    rw [List.drop_left] at whole
    split at whole
    next closed =>
      obtain ⟨rest, rfl⟩ := List.head?_eq_some_iff.mp closed.2
      have nothing : rest = [] := by
        simp only [List.length_cons, List.length_append] at whole
        exact List.length_eq_zero_iff.mp (by omega)
      subst nothing
      refine .inr ⟨digits, fun none => closed.1 (by rw [none]; rfl), fun c member => ?_, rfl⟩
      exact List.mem_takeWhile_imp (taken ▸ member)
    next => simp at whole
  next => exact .inl (List.length_eq_zero_iff.mp whole.symm)

theorem signalName_of_lexes {text : String} (lexes : Lexes .name text) : SignalName text := by
  obtain ⟨c, cs, spelled, found⟩ := lexes
  generalize whole : (⟨.name, cs.length⟩ : Lexeme) = lexeme at found
  cases cut_of_ok found with
  | word starts =>
    obtain ⟨tail, back, rfl, taken, _⟩ := takeWhile_cut isNameChar cs
    unfold word at whole
    rw [taken] at whole
    dsimp only at whole
    split at whole
    · cases whole
    next plain =>
      rw [List.drop_left, List.length_append] at whole
      refine ⟨c :: tail, back, spelled, ⟨c, tail, rfl, starts, fun d member => ?_, plain⟩,
        bitSelect_of_length (by simp at whole; omega)⟩
      exact List.mem_takeWhile_imp (taken ▸ member)
  | task _ named =>
    obtain ⟨_, kind⟩ := task_kind named
    simp [← whole] at kind
  | unsigned _ read | signed _ _ _ read =>
    have kind := number_kind read
    simp [← whole] at kind
  | string _ closed =>
    have kind := string_kind closed
    simp [← whole] at kind
  | symbol => cases whole

theorem lexes_of_signalName {text : String} (named : SignalName text) : Lexes .name text := by
  obtain ⟨_, select, spelled, ⟨c, tail, rfl, starts, letters, plain⟩, selected⟩ := named
  have ends : ∀ d rest, select = d :: rest → isNameChar d = false := by
    rintro d rest rfl
    rcases selected with none | ⟨_, _, _, same⟩
    · cases none
    · cases same
      rfl
  have taken : (tail ++ select).takeWhile isNameChar = tail := by
    rw [takeWhile_append_of_fails ends, List.takeWhile_eq_self_iff.mpr letters]
  have whole : bitSelectLength select = select.length := by
    rcases selected with rfl | ⟨digits, some_, numeric, rfl⟩
    · rfl
    · have closed : ∀ d rest, [']'] = d :: rest → d.isDigit = false := by
        rintro _ _ ⟨⟩
        rfl
      simp [bitSelectLength, takeWhile_append_of_fails closed,
        List.takeWhile_eq_self_iff.mpr numeric, some_]
  refine ⟨c, tail ++ select, spelled, ?_⟩
  rw [(Cut.word starts).ok, word, taken, plain]
  simp [whole]

theorem SignalName.letters {text : String} (name : SignalName text) :
    ∀ c ∈ text.toList, isNameChar c = true ∨ c = '[' ∨ c = ']' := by
  obtain ⟨_, select, same, ⟨c, rest, rfl, starts, letters, _⟩, selected⟩ := name
  have digit {d : Char} (digit : d.isDigit = true) : isNameChar d = true := by
    simp [isNameChar, Char.isAlphanum, digit]
  rw [same]
  refine List.forall_mem_append.mpr ⟨fun d member => .inl ?_, ?_⟩
  · rcases List.mem_cons.mp member with rfl | later
    · exact isNameChar_of_start starts
    · exact letters d later
  · rcases selected with rfl | ⟨digits, _, numeric, rfl⟩
    · exact List.forall_mem_nil _
    · refine List.forall_mem_cons.mpr ⟨.inr (.inl rfl), List.forall_mem_append.mpr
        ⟨fun d member => .inl (digit (numeric d member)), ?_⟩⟩
      exact List.forall_mem_singleton.mpr (.inr (.inr rfl))

theorem SignalName.within {text : String} (name : SignalName text) : Within isSignalChar text := by
  intro c member
  rcases name.letters c member with letter | rfl | rfl
  · exact signalChar_of_nameChar letter
  · rfl
  · rfl

end Names

end CellTiming
