import CellTiming.Proofs.Blank
import CellTiming.Proofs.Cuts

/-! Structural words found again. Any part of a line that is cut off before or behind a
structural word, or begins with one, has the words in it that the line has there, and blanks
around it are of no account. -/
namespace CellTiming.Source

abbrev Words := List (StructureWord × List Char)

/-- The first of several words, each with the text up to the next, the last one perhaps bare. -/
inductive Begins : Words → Words → Prop
  | before {words} : Begins [] words
  | through {word tail words} : Begins [(word, [])] ((word, tail) :: words)
  | behind {word tail first words} (begins : Begins first words) :
      Begins ((word, tail) :: first) ((word, tail) :: words)

/-- The structural words in a text. -/
def wordsIn (text : List Char) : List StructureWord :=
  (cutAtStructure false false text).2.map Prod.fst

variable {afterBacktick inString : Bool} {line lead cs rest : List Char} {c : Char}
  {first words : Words}

section Pieces

theorem Begins.front (begins : Begins first words) (lead : List Char) :
    written (lead, first) <+: written (lead, words) := by
  refine (List.prefix_append_right_inj lead).mpr ?_
  induction begins with
  | before => exact List.nil_prefix
  | @through word tail words => exact ⟨tail ++ written ([], words), by simp [written]⟩
  | behind _ ih => exact (List.prefix_append_right_inj _).mpr ih

theorem Begins.concat {front : Words} (word : StructureWord) (tail : List Char) (words : Words) :
    Begins (front ++ [(word, [])]) (front ++ (word, tail) :: words) := by
  induction front with
  | nil => exact .through
  | cons cut front ih => exact .behind ih

theorem written_word (word : StructureWord) (text : List Char) (words : Words) :
    written ([], (word, text) :: words) = word.spelling.toList ++ written (text, words) := by
  simp [written]

theorem word_split (ends : ∀ d ds, rest = d :: ds → isWordChar d = false) (cs : List Char) :
    (cs ++ rest).takeWhile isWordChar = cs.takeWhile isWordChar ∧
      (cs ++ rest).dropWhile isWordChar = cs.dropWhile isWordChar ++ rest := by
  have taken := Token.takeWhile_append_of_fails ends cs
  exact ⟨taken, dropWhile_of_takeWhile taken⟩

/-- A word is found again before the front of what stood behind it. -/
theorem word_again (front : rest <+: cs.dropWhile isWordChar) :
    (cs.takeWhile isWordChar ++ rest).takeWhile isWordChar = cs.takeWhile isWordChar ∧
      (cs.takeWhile isWordChar ++ rest).dropWhile isWordChar = rest := by
  have ends : ∀ d ds, rest = d :: ds → isWordChar d = false := by
    rintro d ds rfl
    obtain ⟨more, whole⟩ := front
    have head := List.head?_dropWhile_not isWordChar cs
    rw [← whole] at head
    simpa using head
  obtain ⟨taken, dropped⟩ := word_split ends (cs.takeWhile isWordChar)
  have all : ∀ d ∈ cs.takeWhile isWordChar, isWordChar d = true := fun _ => List.mem_takeWhile_imp
  rw [List.takeWhile_eq_self_iff.mpr all] at taken
  rw [List.dropWhile_eq_nil_iff.mpr all] at dropped
  exact ⟨taken, dropped⟩

/-- So is a structural word. -/
theorem cutAtStructure_word {found : StructureWord} (quote : ¬c = '"')
    (other : ¬(inString = true ∨ (!isWordChar c) = true))
    (known : (if afterBacktick = true then none
      else StructureWord.ofChars? (c :: cs.takeWhile isWordChar)) = some found)
    (front : rest <+: cs.dropWhile isWordChar) :
    cutAtStructure afterBacktick inString (found.spelling.toList ++ rest) =
      ([], (found, (cutAtStructure false false rest).1) :: (cutAtStructure false false rest).2) := by
  have named : found.spelling.toList = c :: cs.takeWhile isWordChar := by
    split at known
    · cases known
    · exact spelling_of_ofChars known
  obtain ⟨taken, dropped⟩ := word_again front
  rw [named, List.cons_append, cutAtStructure, if_neg quote, if_neg other]
  dsimp only
  rw [taken, dropped, known]

end Pieces

theorem cutAtStructure_begins (cut : cutAtStructure afterBacktick inString line = (lead, words))
    (begins : Begins first words) :
    cutAtStructure afterBacktick inString (written (lead, first)) = (lead, first) := by
  fun_induction cutAtStructure afterBacktick inString line generalizing lead first words with
  | case1 =>
    cases cut
    cases begins
    rw [written, List.flatMap_nil, List.append_nil, cutAtStructure]
  | case2 afterBacktick inString cs text words' cut' ih =>
    cases cut
    change cutAtStructure afterBacktick inString ('"' :: written (text, first)) = _
    rw [cutAtStructure, if_pos rfl, ih cut' begins]
  | case3 afterBacktick inString c cs quote other text words' cut' ih =>
    cases cut
    change cutAtStructure afterBacktick inString (c :: written (text, first)) = _
    rw [cutAtStructure, if_neg quote, if_pos other, ih cut' begins]
  | case4 afterBacktick inString c cs quote other word _ text words' cut' found known =>
    rename_i ih
    cases cut
    rw [dite_eq_ite] at known
    have whole : written (text, words') = cs.dropWhile isWordChar := by
      rw [← cut', written_cutAtStructure]
    cases begins with
    | before => rw [written, List.flatMap_nil, List.append_nil, cutAtStructure]
    | through =>
      rw [written_word, show written (([], []) : Cuts) = [] from rfl,
        cutAtStructure_word quote other known List.nil_prefix, cutAtStructure]
    | behind begins =>
      have front := whole ▸ begins.front text
      rw [written_word, cutAtStructure_word quote other known front, ih cut' begins]
  | case5 afterBacktick inString c cs quote other word _ text words' cut' unknown =>
    rename_i ih
    cases cut
    have whole : written (text, words') = cs.dropWhile isWordChar := by
      rw [← cut', written_cutAtStructure]
    obtain ⟨taken, dropped⟩ := word_again (whole ▸ begins.front text)
    have split : written (c :: cs.takeWhile isWordChar ++ text, first) =
        c :: (cs.takeWhile isWordChar ++ written (text, first)) := by
      simp [written]
    rw [split, cutAtStructure, if_neg quote, if_neg other]
    rw [dite_eq_ite] at unknown
    dsimp only
    rw [taken, dropped, unknown, ih cut' begins]

/-- What begins with a structural word of a line has the words that the line has from there on. -/
theorem cutAtStructure_behind {front : Words}
    (cut : cutAtStructure afterBacktick inString line = (lead, front ++ words)) :
    cutAtStructure false false (written ([], words)) = ([], words) := by
  fun_induction cutAtStructure afterBacktick inString line generalizing lead front with
  | case1 =>
    obtain ⟨_, none⟩ := Prod.mk.inj cut
    obtain ⟨_, rfl⟩ := List.append_eq_nil_iff.mp none.symm
    rw [written, List.flatMap_nil, List.append_nil, cutAtStructure]
  | case2 afterBacktick inString cs text words' cut' ih =>
    cases cut
    exact ih cut'
  | case3 afterBacktick inString c cs quote other text words' cut' ih =>
    cases cut
    exact ih cut'
  | case4 afterBacktick inString c cs quote other word _ text words' cut' found known =>
    rename_i ih
    obtain ⟨_, same⟩ := Prod.mk.inj cut
    cases front with
    | cons cut front =>
      obtain ⟨-, rfl⟩ := List.cons.inj same
      exact ih cut'
    | nil =>
      rw [List.nil_append] at same
      subst same
      rw [dite_eq_ite] at known
      -- the word is neither behind a backtick nor in a string
      have plain : afterBacktick = false ∧ inString = false := by
        split at known
        · cases known
        · exact ⟨by simpa using ‹¬afterBacktick = true›, by simpa using (not_or.mp other).1⟩
      obtain ⟨rfl, rfl⟩ := plain
      have whole : written (text, words') = cs.dropWhile isWordChar := by
        rw [← cut', written_cutAtStructure]
      rw [written_word, whole, cutAtStructure_word quote other known List.prefix_rfl, cut']
  | case5 afterBacktick inString c cs quote other word _ text words' cut' unknown =>
    rename_i ih
    cases cut
    exact ih cut'

section Trimming

theorem plain_of_blank (blank : Text.isBlank c = true) :
    isWordChar c = false ∧ c ≠ '"' ∧ c ≠ backtick := by
  have outside : c.toNat ≤ 32 ∨ 127 ≤ c.toNat := by
    simp only [Text.isBlank, Text.blankRanges, List.any_cons, List.any_nil, Bool.or_false,
      Bool.or_eq_true, Bool.and_eq_true, decide_eq_true_eq] at blank
    omega
  refine ⟨?_, by rintro rfl; exact absurd blank (by decide),
    by rintro rfl; exact absurd blank (by decide)⟩
  by_contra wordly
  simp only [isWordChar, Char.isAlphanum, Char.isAlpha, Char.isUpper, Char.isLower, Char.isDigit,
    Bool.not_eq_false, Bool.or_eq_true, Bool.and_eq_true, decide_eq_true_eq, beq_iff_eq,
    UInt32.le_iff_toNat_le, ge_iff_le] at wordly
  rcases wordly with (((⟨low, high⟩ | ⟨low, high⟩) | ⟨low, high⟩) | rfl) | rfl
  · change 65 ≤ c.toNat at low
    change c.toNat ≤ 90 at high
    omega
  · change 97 ≤ c.toNat at low
    change c.toNat ≤ 122 at high
    omega
  · change 48 ≤ c.toNat at low
    change c.toNat ≤ 57 at high
    omega
  · exact absurd blank (by decide)
  · exact absurd blank (by decide)

theorem cutAtStructure_blank_append (blank : ∀ c ∈ lead, Text.isBlank c = true) (line : List Char) :
    (cutAtStructure false inString (lead ++ line)).2 = (cutAtStructure false inString line).2 := by
  induction lead with
  | nil => rfl
  | cons c lead ih =>
    obtain ⟨first, others⟩ := List.forall_mem_cons.mp blank
    obtain ⟨plain, quote, tick⟩ := plain_of_blank first
    rw [List.cons_append, cutAtStructure, if_neg quote, if_pos (.inr (by simp [plain])),
      decide_eq_false tick]
    exact ih others

theorem cutAtStructure_append_blank (blank : ∀ c ∈ rest, Text.isBlank c = true) :
    (cutAtStructure afterBacktick inString (line ++ rest)).2.map Prod.fst =
      (cutAtStructure afterBacktick inString line).2.map Prod.fst := by
  have ends : ∀ d ds, rest = d :: ds → isWordChar d = false := by
    rintro d ds rfl
    exact (plain_of_blank (blank d List.mem_cons_self)).1
  fun_induction cutAtStructure afterBacktick inString line with
  | case1 afterBacktick inString =>
    cases rest with
    | nil => rw [List.append_nil, cutAtStructure]
    | cons c rest =>
      obtain ⟨first, others⟩ := List.forall_mem_cons.mp blank
      obtain ⟨plain, quote, tick⟩ := plain_of_blank first
      have nothing : (cutAtStructure false inString rest).2 = [] := by
        have behind : (cutAtStructure false inString (rest ++ [])).2 = _ :=
          cutAtStructure_blank_append others []
        rwa [List.append_nil, cutAtStructure.eq_def false inString []] at behind
      rw [List.nil_append, cutAtStructure, if_neg quote, if_pos (.inr (by simp [plain])),
        decide_eq_false tick]
      exact congrArg (List.map Prod.fst) nothing
  | case2 afterBacktick inString cs text words cut ih =>
    rw [cut] at ih
    rw [List.cons_append, cutAtStructure, if_pos rfl]
    exact ih
  | case3 afterBacktick inString c cs quote other text words cut ih =>
    rw [cut] at ih
    rw [List.cons_append, cutAtStructure, if_neg quote, if_pos other]
    exact ih
  | case4 afterBacktick inString c cs quote other word _ text words cut found known ih =>
    obtain ⟨taken, dropped⟩ := word_split ends cs
    rw [cut] at ih
    rw [dite_eq_ite] at known
    rw [List.cons_append, cutAtStructure, if_neg quote, if_neg other]
    dsimp only
    rw [taken, dropped, known]
    exact congrArg (found :: ·) ih
  | case5 afterBacktick inString c cs quote other word _ text words cut unknown ih =>
    obtain ⟨taken, dropped⟩ := word_split ends cs
    rw [cut] at ih
    rw [dite_eq_ite] at unknown
    rw [List.cons_append, cutAtStructure, if_neg quote, if_neg other]
    dsimp only
    rw [taken, dropped, unknown]
    exact ih

theorem wordsIn_trim (text : List Char) : wordsIn (Text.trim text) = wordsIn text := by
  obtain ⟨front, back, whole, before, behind⟩ := Text.eq_trim text
  conv => rhs; rw [whole]
  rw [wordsIn, wordsIn, cutAtStructure_blank_append before, cutAtStructure_append_blank behind]

end Trimming

end CellTiming.Source
