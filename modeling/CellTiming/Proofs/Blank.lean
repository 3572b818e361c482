import CellTiming.Text.Blank
import Mathlib.Data.List.TakeWhile

/-! Blanks and words. Trimming cuts off blanks only, and the words of a text are those of its
parts wherever a blank stands between them. -/
namespace CellTiming.Text

section Trim

variable {cs front back : List Char}

theorem trim_infix (cs : List Char) : trim cs <:+: cs := by
  have behind : (cs.dropWhile isBlank).reverse.dropWhile isBlank <:+ (cs.dropWhile isBlank).reverse :=
    List.dropWhile_suffix isBlank
  rw [← List.reverse_prefix, List.reverse_reverse] at behind
  exact behind.isInfix.trans (List.dropWhile_suffix isBlank).isInfix

/-- What is cut off on both sides is blank. -/
theorem eq_trim (cs : List Char) : ∃ front back, cs = front ++ (trim cs ++ back) ∧
    (∀ c ∈ front, isBlank c = true) ∧ ∀ c ∈ back, isBlank c = true := by
  refine ⟨cs.takeWhile isBlank, ((cs.dropWhile isBlank).reverse.takeWhile isBlank).reverse, ?_,
    fun c => List.mem_takeWhile_imp, fun c member => ?_⟩
  · rw [trim, ← List.reverse_append, List.takeWhile_append_dropWhile, List.reverse_reverse,
      List.takeWhile_append_dropWhile]
  · exact List.mem_takeWhile_imp (List.mem_reverse.mp member)

theorem trim_ne_nil {c : Char} (member : c ∈ cs) (dark : isBlank c = false) : trim cs ≠ [] := by
  intro empty
  obtain ⟨front, back, whole, before, behind⟩ := eq_trim cs
  rw [whole, empty, List.nil_append] at member
  have blank := (List.mem_append.mp member).elim (before c) (behind c)
  simp [dark] at blank

theorem trim_blank_append (blank : ∀ c ∈ front, isBlank c = true) (rest : List Char) :
    trim (front ++ rest) = trim rest := by
  rw [trim, List.dropWhile_append_of_pos blank, trim]

theorem trim_append_blank (blank : ∀ c ∈ back, isBlank c = true) (text : List Char) :
    trim (text ++ back) = trim text := by
  rw [trim, List.dropWhile_append]
  split
  next none =>
    rw [List.dropWhile_eq_nil_iff.mpr blank, trim, List.isEmpty_iff.mp none]
  next =>
    rw [List.reverse_append, List.dropWhile_append_of_pos
      (fun c member => blank c (List.mem_reverse.mp member)), trim]

theorem trim_trim (cs : List Char) : trim (trim cs) = trim cs := by
  obtain ⟨front, back, whole, before, behind⟩ := eq_trim cs
  conv => rhs; rw [whole]
  rw [trim_blank_append before, trim_append_blank behind]

end Trim

section Words

theorem words_cons_blank {c : Char} (blank : isBlank c = true) (cs : List Char) :
    words (c :: cs) = words cs := by
  simp only [words, wordsFrom, blank, if_true, List.isEmpty_nil]

theorem words_blank_append {front : List Char} (blank : ∀ c ∈ front, isBlank c = true)
    (cs : List Char) : words (front ++ cs) = words cs := by
  induction front with
  | nil => rfl
  | cons c front ih =>
    obtain ⟨first, others⟩ := List.forall_mem_cons.mp blank
    rw [List.cons_append, words_cons_blank first, ih others]

theorem wordsFrom_append_blank {c : Char} (blank : isBlank c = true) (cs ds : List Char) :
    wordsFrom (cs ++ c :: ds) = ((wordsFrom cs).1, (wordsFrom cs).2 ++ words ds) := by
  induction cs with
  | nil => simp [wordsFrom, blank, words]
  | cons first cs ih =>
    rw [List.cons_append, wordsFrom, ih, wordsFrom]
    dsimp only
    split
    · split <;> rfl
    · rfl

theorem words_append_blank {c : Char} (blank : isBlank c = true) (cs ds : List Char) :
    words (cs ++ c :: ds) = words cs ++ words ds := by
  rw [words, wordsFrom_append_blank blank]
  conv => rhs; rw [words]
  dsimp only
  split <;> rfl

theorem words_append_blanks {back : List Char} (blank : ∀ c ∈ back, isBlank c = true)
    (cs : List Char) : words (cs ++ back) = words cs := by
  cases back with
  | nil => rw [List.append_nil]
  | cons c back =>
    obtain ⟨first, others⟩ := List.forall_mem_cons.mp blank
    have none := words_blank_append others []
    rw [List.append_nil] at none
    rw [words_append_blank first, none]
    exact List.append_nil _

theorem words_trim (cs : List Char) : words (trim cs) = words cs := by
  obtain ⟨front, back, whole, before, behind⟩ := eq_trim cs
  conv => rhs; rw [whole]
  rw [words_blank_append before, words_append_blanks behind]

/-- The words of a text hold no blank. -/
theorem dark_of_wordsFrom (cs : List Char) :
    (∀ c ∈ (wordsFrom cs).1, isBlank c = false) ∧
      ∀ word ∈ (wordsFrom cs).2, ∀ c ∈ word, isBlank c = false := by
  induction cs with
  | nil => simp [wordsFrom]
  | cons c cs ih =>
    rw [wordsFrom]
    dsimp only
    split
    next =>
      refine ⟨by simp, ?_⟩
      split
      · exact ih.2
      · exact List.forall_mem_cons.mpr ih
    next dark => exact ⟨List.forall_mem_cons.mpr ⟨by simpa using dark, ih.1⟩, ih.2⟩

theorem dark_of_words {cs word : List Char} (member : word ∈ words cs) :
    ∀ c ∈ word, isBlank c = false := by
  obtain ⟨first, others⟩ := dark_of_wordsFrom cs
  rw [words] at member
  dsimp only at member
  split at member
  · exact others word member
  · rcases List.mem_cons.mp member with rfl | member
    · exact first
    · exact others word member

theorem mem_squeeze {cs : List Char} {c : Char} (member : c ∈ squeeze cs) :
    c = ' ' ∨ isBlank c = false := by
  have inner : ∀ pieces : List (List Char), (∀ piece ∈ pieces, ∀ c ∈ piece, isBlank c = false) →
      c ∈ [' '].intercalate pieces → c = ' ' ∨ isBlank c = false := by
    intro pieces dark member
    induction pieces with
    | nil => simp at member
    | cons piece pieces ih =>
      obtain ⟨first, others⟩ := List.forall_mem_cons.mp dark
      cases pieces with
      | nil => exact .inr (first c (by simpa using member))
      | cons next pieces =>
        rw [List.intercalate_cons_cons, List.mem_append, List.mem_append] at member
        rcases member with (left | between) | right
        · exact .inr (first c left)
        · exact .inl (List.mem_singleton.mp between)
        · exact ih others right
  exact inner _ (fun _ => dark_of_words) member

end Words

end CellTiming.Text
