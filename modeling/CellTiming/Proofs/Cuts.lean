import CellTiming.Proofs.Fusing
import CellTiming.Proofs.Steering

/-! The structural words of a text in two parts. Where no word goes on from the first part into
the second and no string is open between them, the cuts of the whole are those of its parts. -/
namespace CellTiming.Source

/-- Quotes open and close strings. -/
def quoted (opened : Bool) (line : List Char) : Bool :=
  line.foldl (fun opened c => opened ^^ (c == '"')) opened

/-- More text behind the last structural word. -/
def lengthened (more : List Char) : List (StructureWord × List Char) → List (StructureWord × List Char)
  | [] => []
  | [(word, tail)] => [(word, tail ++ more)]
  | cut :: next :: words => cut :: lengthened more (next :: words)

/-- The cuts of two texts, one behind the other. -/
def appended (first second : Cuts) : Cuts :=
  match first with
  | (lead, []) => (lead ++ second.1, second.2)
  | (lead, words) => (lead, lengthened second.1 words ++ second.2)

section Quotes

variable {opened : Bool} {line : List Char}

theorem quoted_append (opened : Bool) (first second : List Char) :
    quoted opened (first ++ second) = quoted (quoted opened first) second :=
  List.foldl_append

theorem quoted_quote : quoted opened ('"' :: line) = quoted (!opened) line :=
  congrArg (quoted · line) (Bool.xor_true opened)

theorem quoted_cons {c : Char} (other : c ≠ '"') : quoted opened (c :: line) = quoted opened line := by
  have still : (opened ^^ (c == '"')) = opened := by rw [beq_false_of_ne other, Bool.xor_false]
  exact congrArg (quoted · line) still

theorem quoted_plain (plain : '"' ∉ line) : quoted opened line = opened := by
  induction line with
  | nil => rfl
  | cons c line ih =>
    obtain ⟨other, others⟩ := not_or.mp (mt List.mem_cons.mpr plain)
    rw [quoted_cons (Ne.symm other), ih others]

theorem quote_notMem_word {c : Char} {cs : List Char} (wordly : isWordChar c = true) :
    '"' ∉ c :: cs.takeWhile isWordChar := by
  intro member
  rcases List.mem_cons.mp member with rfl | member
  · cases wordly
  · cases List.mem_takeWhile_imp member

theorem quoted_word {c : Char} {cs : List Char} (wordly : isWordChar c = true) :
    quoted opened (c :: cs) = quoted opened (cs.dropWhile isWordChar) := by
  have whole : c :: cs = (c :: cs.takeWhile isWordChar) ++ cs.dropWhile isWordChar :=
    congrArg (c :: ·) List.takeWhile_append_dropWhile.symm
  rw [whole, quoted_append, quoted_plain (quote_notMem_word wordly)]

/-- Strings are closed in the text before the first structural word and behind each. -/
theorem quoted_cutAtStructure {afterBacktick inString : Bool}
    (closed : quoted inString line = false) :
    quoted inString (cutAtStructure afterBacktick inString line).1 = false ∧
      ∀ cut ∈ (cutAtStructure afterBacktick inString line).2, quoted false cut.2 = false := by
  fun_induction cutAtStructure afterBacktick inString line with
  | case1 => exact ⟨closed, List.forall_mem_nil _⟩
  | case2 afterBacktick inString cs text words cut ih =>
    rw [cut] at ih
    rw [quoted_quote] at closed ⊢
    exact ih closed
  | case3 afterBacktick inString c cs quote other text words cut ih =>
    rw [cut] at ih
    rw [quoted_cons quote] at closed ⊢
    exact ih closed
  | case4 afterBacktick inString c cs quote wordly word _ text words cut found known ih =>
    rw [cut] at ih
    have starts : inString = false ∧ isWordChar c = true := by simpa using wordly
    obtain rfl := starts.1
    rw [quoted_word starts.2] at closed
    exact ⟨rfl, List.forall_mem_cons.mpr (ih closed)⟩
  | case5 afterBacktick inString c cs quote wordly word _ text words cut unknown ih =>
    rw [cut] at ih
    have starts : inString = false ∧ isWordChar c = true := by simpa using wordly
    obtain rfl := starts.1
    rw [quoted_word starts.2] at closed
    rw [quoted_append, quoted_plain (quote_notMem_word starts.2)]
    exact ih closed

end Quotes

section Parts

variable {line rest : List Char}

theorem appended_front (front lead : List Char) (words : List (StructureWord × List Char))
    (second : Cuts) : appended (front ++ lead, words) second =
      (front ++ (appended (lead, words) second).1, (appended (lead, words) second).2) := by
  cases words with
  | nil => simp [appended]
  | cons => rfl

theorem appended_cut (lead : List Char) (word : StructureWord) (tail : List Char)
    (words : List (StructureWord × List Char)) (second : Cuts) :
    appended (lead, (word, tail) :: words) second =
      (lead, (word, (appended (tail, words) second).1) :: (appended (tail, words) second).2) := by
  cases words <;> rfl

theorem appended_words (first second : Cuts) :
    (appended first second).2 = lengthened second.1 first.2 ++ second.2 := by
  obtain ⟨lead, words⟩ := first
  cases words <;> rfl

theorem dropWhile_of_takeWhile {cs : List Char}
    (taken : (cs ++ rest).takeWhile isWordChar = cs.takeWhile isWordChar) :
    (cs ++ rest).dropWhile isWordChar = cs.dropWhile isWordChar ++ rest := by
  have joined : cs.takeWhile isWordChar ++ (cs ++ rest).dropWhile isWordChar =
      cs.takeWhile isWordChar ++ (cs.dropWhile isWordChar ++ rest) := by
    rw [← List.append_assoc, List.takeWhile_append_dropWhile]
    conv => lhs; rw [← taken]
    exact List.takeWhile_append_dropWhile
  exact List.append_cancel_left joined

theorem word_ends {c : Char} {cs : List Char} (wordly : isWordChar c = true)
    (severed : Token.Severed (c :: cs) rest) :
    (cs ++ rest).takeWhile isWordChar = cs.takeWhile isWordChar ∧
      (cs ++ rest).dropWhile isWordChar = cs.dropWhile isWordChar ++ rest := by
  have taken : (cs ++ rest).takeWhile isWordChar = cs.takeWhile isWordChar := by
    refine Token.takeWhile_severed (fun _ _ => Token.fuses_name)
      (severed.suffix (List.suffix_cons c cs)) ?_
    rintro rfl v head
    by_contra other
    rw [Bool.not_eq_false] at other
    exact severed.absurd rfl head (Token.fuses_name wordly other)
  exact ⟨taken, dropWhile_of_takeWhile taken⟩

/-- The name of a module does not go on behind what does not. -/
theorem moduleName_severed {text : List Char} (severed : Token.Severed text rest)
    (dark : Text.trimLeft text ≠ []) : moduleName? (text ++ rest) = moduleName? text := by
  have behind := severed.suffix (List.dropWhile_suffix Text.isBlank)
  unfold moduleName? Text.trimLeft at *
  rw [List.dropWhile_append]
  cases trimmed : text.dropWhile Text.isBlank with
  | nil => exact absurd trimmed dark
  | cons c cs =>
    rw [trimmed] at behind
    rw [if_neg (by simp), List.cons_append]
    dsimp only
    split
    next starts =>
      have wordly : isWordChar c = true :=
        Token.isNameChar_of_start (by simpa [Token.isNameStart] using starts)
      rw [(word_ends wordly behind).1]
    next => rfl

/-- A backtick is of no account before what is no word. -/
theorem cutAtStructure_unticked {afterBacktick : Bool}
    (severed : afterBacktick = true → Token.Severed [backtick] rest) :
    cutAtStructure afterBacktick false rest = cutAtStructure false false rest := by
  cases afterBacktick with
  | false => rfl
  | true =>
    cases rest with
    | nil => rw [cutAtStructure, cutAtStructure]
    | cons c rest =>
      rw [cutAtStructure, cutAtStructure]
      split
      · rfl
      · have other : isWordChar c = false := by
          by_contra wordly
          rw [Bool.not_eq_false] at wordly
          have fused : Token.fuses backtick c = true := by
            simp [Token.fuses, show Token.isNameChar c = true from wordly]
          exact (severed rfl).absurd rfl rfl fused
        rw [if_pos (.inr (by simp [other])), if_pos (.inr (by simp [other]))]

theorem cutAtStructure_append {afterBacktick inString : Bool}
    (closed : quoted inString line = false) (severed : Token.Severed line rest)
    (unticked : line = [] → afterBacktick = true → Token.Severed [backtick] rest) :
    cutAtStructure afterBacktick inString (line ++ rest) =
      appended (cutAtStructure afterBacktick inString line) (cutAtStructure false false rest) := by
  fun_induction cutAtStructure afterBacktick inString line with
  | case1 =>
    obtain rfl := closed
    exact cutAtStructure_unticked (unticked rfl)
  | case2 afterBacktick inString cs text words cut ih =>
    rw [List.cons_append, cutAtStructure, if_pos rfl,
      ih (quoted_quote ▸ closed) (severed.suffix (List.suffix_cons '"' cs)) (by simp), cut,
      ← List.singleton_append, appended_front]
    rfl
  | case3 afterBacktick inString c cs quote other text words cut ih =>
    have ticks : cs = [] → decide (c = backtick) = true → Token.Severed [backtick] rest := by
      rintro rfl tick
      exact of_decide_eq_true tick ▸ severed
    rw [List.cons_append, cutAtStructure, if_neg quote, if_pos other,
      ih (quoted_cons quote ▸ closed) (severed.suffix (List.suffix_cons c cs)) ticks, cut,
      ← List.singleton_append, appended_front]
    rfl
  | case4 afterBacktick inString c cs quote wordly word _ text words cut found known ih =>
    have starts : inString = false ∧ isWordChar c = true := by simpa using wordly
    obtain rfl := starts.1
    rw [quoted_word starts.2] at closed
    have behind := severed.suffix
      ((List.dropWhile_suffix isWordChar).trans (List.suffix_cons c cs))
    obtain ⟨taken, dropped⟩ := word_ends starts.2 severed
    rw [List.cons_append, cutAtStructure, if_neg quote, if_neg wordly]
    rw [dite_eq_ite] at known
    dsimp only
    rw [taken, dropped, ih closed behind (by simp), cut, known, appended_cut]
  | case5 afterBacktick inString c cs quote wordly word _ text words cut unknown ih =>
    have starts : inString = false ∧ isWordChar c = true := by simpa using wordly
    obtain rfl := starts.1
    rw [quoted_word starts.2] at closed
    have behind := severed.suffix
      ((List.dropWhile_suffix isWordChar).trans (List.suffix_cons c cs))
    obtain ⟨taken, dropped⟩ := word_ends starts.2 severed
    rw [List.cons_append, cutAtStructure, if_neg quote, if_neg wordly]
    rw [dite_eq_ite] at unknown
    dsimp only
    rw [taken, dropped, ih closed behind (by simp), cut, unknown, appended_front]

theorem cutAtStructure_parts (closed : quoted false line = false)
    (severed : Token.Severed line rest) : cutAtStructure false false (line ++ rest) =
      appended (cutAtStructure false false line) (cutAtStructure false false rest) :=
  cutAtStructure_append closed severed nofun

end Parts

end CellTiming.Source
