import CellTiming.Proofs.SpreadLines

/-! One more space in a text without comments. The lines it is cleaned into are the same, or a
line has one more space between the same texts. -/
namespace CellTiming

namespace Text

variable {cs front back : List Char}

section Squeeze

theorem intercalate_append (separator : List Char) (first : List (List Char))
    {second : List (List Char)} (some_ : second ≠ []) : separator.intercalate (first ++ second) =
      first.flatMap (· ++ separator) ++ separator.intercalate second := by
  induction first with
  | nil => rfl
  | cons word first ih =>
    have more : first ++ second ≠ [] := List.append_ne_nil_of_right_ne_nil _ some_
    obtain ⟨next, others, same⟩ := List.exists_cons_of_ne_nil more
    rw [List.cons_append, same, List.intercalate_cons_cons, ← same, ih, List.flatMap_cons,
      List.append_assoc, List.append_assoc, List.append_assoc]

theorem wordsFrom_dark (dark : ∀ c ∈ front, isBlank c = false) (back : List Char) :
    wordsFrom (front ++ back) = (front ++ (wordsFrom back).1, (wordsFrom back).2) := by
  induction front with
  | nil => rfl
  | cons c front ih =>
    obtain ⟨first, others⟩ := List.forall_mem_cons.mp dark
    rw [List.cons_append, wordsFrom, ih others]
    simp [first]

/-- Text without blanks belongs to the word behind it. -/
theorem words_dark_append (dark : ∀ c ∈ front, isBlank c = false) (some_ : front ≠ [])
    (back : List Char) :
    words (front ++ back) = (front ++ (wordsFrom back).1) :: (wordsFrom back).2 := by
  rw [words, wordsFrom_dark dark]
  dsimp only
  rw [if_neg]
  simp [some_]

theorem intercalate_glue (front word : List Char) (others : List (List Char)) :
    [' '].intercalate ((front ++ word) :: others) = front ++ [' '].intercalate (word :: others) := by
  cases others with
  | nil => simp
  | cons => simp

theorem squeeze_cons {c : Char} (dark : isBlank c = false) (cs : List Char) :
    squeeze (c :: cs) = c :: [' '].intercalate ((wordsFrom cs).1 :: (wordsFrom cs).2) := by
  have single : ∀ d ∈ [c], isBlank d = false := List.forall_mem_singleton.mpr dark
  have whole : words (c :: cs) = (c :: (wordsFrom cs).1) :: (wordsFrom cs).2 :=
    words_dark_append single (List.cons_ne_nil c []) cs
  rw [squeeze, whole]
  exact intercalate_glue [c] _ _

/-- Words without the blanks between them. -/
theorem flatten_words (cs : List Char) : (words cs).flatten = cs.filter (!isBlank ·) := by
  have inner (cs : List Char) : (wordsFrom cs).1 ++ (wordsFrom cs).2.flatten =
      cs.filter (!isBlank ·) := by
    induction cs with
    | nil => rfl
    | cons c cs ih =>
      rw [wordsFrom]
      dsimp only
      split
      next blank =>
        rw [List.filter_cons_of_neg (by simp [blank]), ← ih]
        split
        next none => simp [List.isEmpty_iff.mp none]
        next => rfl
      next dark =>
        rw [List.filter_cons_of_pos (by simpa using dark), ← ih]
        rfl
  rw [words, ← inner]
  dsimp only
  split
  next none => simp [List.isEmpty_iff.mp none]
  next => rfl

theorem filter_squeeze (cs : List Char) :
    (squeeze cs).filter (!isBlank ·) = cs.filter (!isBlank ·) := by
  have inner (texts : List (List Char)) (dark : ∀ text ∈ texts, ∀ c ∈ text, isBlank c = false) :
      ([' '].intercalate texts).filter (!isBlank ·) = texts.flatten := by
    induction texts with
    | nil => rfl
    | cons text texts ih =>
      obtain ⟨first, others⟩ := List.forall_mem_cons.mp dark
      have same : text.filter (!isBlank ·) = text :=
        List.filter_eq_self.mpr fun c member => by simp [first c member]
      cases texts with
      | nil => simp [same]
      | cons next texts =>
        rw [List.intercalate_cons_cons, List.filter_append, List.filter_append, same, ih others,
          show [' '].filter (!isBlank ·) = [] from rfl, List.append_nil]
        rfl
  rw [squeeze, inner _ fun _ => dark_of_words, flatten_words]

end Squeeze

section Cut

/-- There is a blank or nothing on one side of the cut. -/
def AtBlank (front back : List Char) : Prop :=
  (∀ u ∈ front.getLast?, isBlank u = true) ∨ ∀ v ∈ back.head?, isBlank v = true

instance (front back : List Char) : Decidable (AtBlank front back) :=
  decidable_of_iff ((front.getLast?.all isBlank || back.head?.all isBlank) = true) <| by
    simp [AtBlank, Option.all_eq_true]

theorem words_atBlank (blank : AtBlank front back) :
    words (front ++ back) = words front ++ words back := by
  rcases blank with last | head
  · rcases List.eq_nil_or_concat front with rfl | ⟨front, u, rfl⟩
    · rfl
    · have blank := last u (by simp)
      rw [List.concat_eq_append, List.append_assoc, List.singleton_append, words_append_blank blank,
        words_append_blanks (by simpa using blank)]
  · cases back with
    | nil => rw [List.append_nil, show words [] = [] from rfl, List.append_nil]
    | cons v back =>
      have blank := head v rfl
      rw [words_append_blank blank, words_cons_blank blank]

theorem words_space (front back : List Char) :
    words (front ++ ' ' :: back) = words front ++ words back :=
  words_append_blank rfl front back

/-- A text that ends dark is a last word and what stands before it. -/
theorem exists_last_word {u : Char} (last : u ∈ front.getLast?) (dark : isBlank u = false) :
    ∃ before word, front = before ++ word ∧ word ≠ [] ∧ (∀ c ∈ word, isBlank c = false) ∧
      ∀ back, words (before ++ back) = words before ++ words back := by
  obtain ⟨front', rfl⟩ := List.getLast?_eq_some_iff.mp last
  refine ⟨(front' ++ [u]).rdropWhile (!isBlank ·), (front' ++ [u]).rtakeWhile (!isBlank ·),
    List.rdropWhile_append_rtakeWhile.symm, ?_, fun c member => ?_, fun back => ?_⟩
  · rw [List.rtakeWhile_concat_pos _ _ _ (by simp [dark])]
    simp
  · simpa using List.mem_rtakeWhile_imp member
  · refine words_atBlank (.inl fun d same => ?_)
    obtain ⟨front', before⟩ := List.getLast?_eq_some_iff.mp same
    have stops := List.rdropWhile_last_not (!isBlank ·) _ (by rw [before]; simp)
    simpa [before] using stops

/-- Where no blank is, the last word of the one part and the first of the other are one. -/
theorem squeeze_append {u v : Char} (last : u ∈ front.getLast?) (dark : isBlank u = false)
    (head : v ∈ back.head?) (dark' : isBlank v = false) :
    squeeze (front ++ back) = squeeze front ++ squeeze back ∧
      squeeze (front ++ ' ' :: back) = squeeze front ++ ' ' :: squeeze back ∧
      u ∈ (squeeze front).getLast? ∧ v ∈ (squeeze back).head? := by
  obtain ⟨before, word, rfl, some_, within, apart⟩ := exists_last_word last dark
  obtain ⟨back', rfl⟩ := List.head?_eq_some_iff.mp head
  have whole : words word = [word] := by
    have alone := words_dark_append within some_ []
    simpa [wordsFrom] using alone
  have ends : squeeze (before ++ word) = (words before).flatMap (· ++ [' ']) ++ word := by
    rw [squeeze, apart, whole, intercalate_append _ _ (by simp), List.intercalate_singleton]
  have starts : words (v :: back') ≠ [] := by
    intro none
    have begins := squeeze_cons dark' back'
    rw [squeeze, none] at begins
    cases begins
  refine ⟨?_, ?_, ?_, ?_⟩
  · rw [ends, squeeze, List.append_assoc before, apart, words_dark_append within some_,
      intercalate_append _ _ (List.cons_ne_nil _ _), intercalate_glue, List.append_assoc,
      squeeze_cons dark', wordsFrom]
    simp only [dark', Bool.false_eq_true, if_false]
    have glued := intercalate_glue [v] (wordsFrom back').1 (wordsFrom back').2
    rw [List.singleton_append, List.singleton_append] at glued
    rw [glued]
  · rw [ends, squeeze, words_space, apart, whole, intercalate_append _ _ starts]
    simp [squeeze]
  · rw [List.getLast?_append_of_ne_nil _ some_] at last
    rw [ends]
    exact List.mem_getLast?_append_of_mem_getLast? last
  · rw [squeeze_cons dark']
    rfl

end Cut

section Lines

variable {line : List Char}

def lastLine (text : List Char) : List Char := text.rtakeWhile (· != '\n')

theorem feed_notMem_lastLine (text : List Char) : '\n' ∉ lastLine text := fun member =>
  absurd (List.mem_rtakeWhile_imp member) (by decide)

theorem lastLine_suffix (text : List Char) : lastLine text <:+ text :=
  List.rtakeWhile_suffix _ _

theorem lastLine_cut (text : List Char) :
    text = lastLine text ∨ ∃ front, text = front ++ '\n' :: lastLine text := by
  have whole : text.rdropWhile (· != '\n') ++ lastLine text = text :=
    List.rdropWhile_append_rtakeWhile
  rcases List.eq_nil_or_concat (text.rdropWhile (· != '\n')) with none | ⟨front, c, same⟩
  · rw [none] at whole
    exact .inl whole.symm
  · have last := List.rdropWhile_last_not (· != '\n') text (by simp [same])
    obtain rfl : c = '\n' := by simpa [same] using last
    rw [same, List.concat_eq_append, List.append_assoc] at whole
    exact .inr ⟨front, whole.symm⟩

end Lines

end Text

namespace Source

section Continued

variable {cs rest : List Char}

theorem joinContinued_other {c : Char} (other : c ≠ '\\') (cs : List Char) :
    joinContinued (c :: cs) = c :: joinContinued cs := by
  rw [joinContinued, if_neg other]

theorem joinContinued_joins (continued : afterLineBreak? cs = some rest) :
    joinContinued ('\\' :: cs) = joinContinued rest := by
  rw [joinContinued, if_pos rfl]
  split
  next found => rw [continued] at found; cases found; rfl
  next found => rw [continued] at found; cases found

theorem joinContinued_keeps (ends : afterLineBreak? cs = none) :
    joinContinued ('\\' :: cs) = '\\' :: joinContinued cs := by
  rw [joinContinued, if_pos rfl]
  split
  next found => rw [ends] at found; cases found
  next => rfl

/-- Whether a line is continued is seen at the first character that is no blank. -/
theorem afterLineBreak_append (cs rest : List Char) : afterLineBreak? (cs ++ rest) =
    if (cs.dropWhile isLineBlank).isEmpty then afterLineBreak? rest
    else (afterLineBreak? cs).map (· ++ rest) := by
  unfold afterLineBreak?
  rw [List.dropWhile_append]
  cases cs.dropWhile isLineBlank with
  | nil => rfl
  | cons c more =>
    by_cases feed : c = '\n'
    · subst feed
      rfl
    · simp [feed]

theorem afterLineBreak_blank (cs : List Char) : afterLineBreak? (' ' :: cs) = afterLineBreak? cs := by
  unfold afterLineBreak?
  rw [List.dropWhile_cons_of_pos (by decide)]

/-- A space between the backslash and the break of a continued line is dropped with them. -/
theorem joinContinued_space (front back : List Char) :
    joinContinued (front ++ ' ' :: back) = joinContinued (front ++ back) ∨
      joinContinued (front ++ back) = joinContinued front ++ joinContinued back ∧
        joinContinued (front ++ ' ' :: back) = joinContinued front ++ ' ' :: joinContinued back := by
  have step (c : Char) {wide dense front : List Char} (inner : wide = dense ∨
      dense = front ++ joinContinued back ∧ wide = front ++ ' ' :: joinContinued back) :
      c :: wide = c :: dense ∨ c :: dense = c :: front ++ joinContinued back ∧
        c :: wide = c :: front ++ ' ' :: joinContinued back := by
    rcases inner with same | ⟨rfl, rfl⟩
    · exact .inl (congrArg (c :: ·) same)
    · exact .inr ⟨rfl, rfl⟩
  fun_induction joinContinued front with
  | case1 =>
    rw [List.nil_append, List.nil_append, List.nil_append, List.nil_append,
      joinContinued_other (by decide)]
    exact .inr ⟨rfl, rfl⟩
  | case2 cs rest continued shorter ih =>
    have some_ : (cs.dropWhile isLineBlank).isEmpty = false := by
      unfold afterLineBreak? at continued
      split at continued
      next found => rw [found]; rfl
      next => cases continued
    have joins (back : List Char) :
        joinContinued ('\\' :: cs ++ back) = joinContinued (rest ++ back) := by
      have found : afterLineBreak? (cs ++ back) = some (rest ++ back) := by
        rw [afterLineBreak_append, some_, continued]
        rfl
      exact joinContinued_joins found
    rwa [joins, joins]
  | case3 cs ends ih =>
    have blank := afterLineBreak_append cs (' ' :: back)
    have same := afterLineBreak_append cs back
    rw [afterLineBreak_blank, ends] at blank
    rw [ends] at same
    rw [List.cons_append, List.cons_append]
    cases found : afterLineBreak? (cs ++ back) with
    | none =>
      rw [joinContinued_keeps found, joinContinued_keeps (blank.trans (same.symm.trans found))]
      exact step '\\' ih
    | some rest =>
      rw [joinContinued_joins found, joinContinued_joins (blank.trans (same.symm.trans found))]
      exact .inl rfl
  | case4 c cs other ih =>
    rw [List.cons_append, List.cons_append, joinContinued_other other, joinContinued_other other]
    exact step c ih

end Continued

/-- The lines of a text without comments, as they are cleaned. -/
def linesOf (text : List Char) : List String :=
  (Text.lines (joinContinued text)).map fun line => String.ofList (Text.squeeze line)

theorem cleanLines_eq (source : String) :
    cleanLines source = linesOf (withoutComments .code source.toList) := rfl

section Space

variable {front back : List Char}

/-- A space between the texts makes no difference: a blank or the end of a line is beside it, or
nothing goes on over it, strings and the name of a macro behind an `ifdef` included. -/
inductive Separates (front back : List Char) : Prop
  | blank (beside : Text.AtBlank (joinContinued front) (joinContinued back))
  | apart (severed : Token.Severed (joinContinued front) (joinContinued back))
      (outside : Token.inString false (joinContinued front) = false)
      (unnamed : namesMacro (Text.squeeze (Text.lastLine (joinContinued front))) = false)

theorem quoted_filter (opened : Bool) (line : List Char) :
    quoted opened (line.filter (!Text.isBlank ·)) = quoted opened line := by
  induction line generalizing opened with
  | nil => rfl
  | cons c line ih =>
    by_cases blank : Text.isBlank c = true
    · have other : c ≠ '"' := by
        rintro rfl
        cases blank
      rw [List.filter_cons_of_neg (by simp [blank]), ih, quoted_cons other]
    · rw [List.filter_cons_of_pos (by simpa using blank)]
      exact ih _

theorem quoted_squeeze (opened : Bool) (line : List Char) :
    quoted opened (Text.squeeze line) = quoted opened line := by
  rw [← quoted_filter, Text.filter_squeeze, quoted_filter]

theorem quoted_lastLine {text : List Char} (outside : Token.inString false text = false) :
    quoted false (Text.lastLine text) = false := by
  have single := Text.feed_notMem_lastLine text
  rcases Text.lastLine_cut text with same | ⟨front, same⟩
  · rw [← inString_line single, ← same, outside]
  · rw [same, Token.inString_append, Token.inString, List.foldl_cons] at outside
    rw [← inString_line single]
    simpa [Token.inString, Token.quoteStep] using outside

/-- Of all lines the space is in one. -/
theorem lines_space (front back : List Char) : ∃ before rest after,
    Text.lines (front ++ back) = before ++ (Text.lastLine front ++ rest) :: after ∧
      Text.lines (front ++ ' ' :: back) = before ++ (Text.lastLine front ++ ' ' :: rest) :: after ∧
      rest <+: back := by
  obtain ⟨rest, after, cut⟩ := List.exists_cons_of_ne_nil (Text.pieces_ne_nil '\n' back)
  have wide : Text.pieces '\n' (' ' :: back) = (' ' :: rest) :: after := by
    rw [Text.pieces, if_neg (by decide), cut]
  have single := Text.feed_notMem_lastLine front
  have line := Text.pieces_line single cut
  have line' := Text.pieces_line single wide
  have within := Text.pieces_prefix cut
  unfold Text.lines
  rcases Text.lastLine_cut front with same | ⟨first, same⟩
  · exact ⟨[], rest, after, by rwa [← same] at line ⊢, by rwa [← same] at line' ⊢, within⟩
  · refine ⟨Text.pieces '\n' first, rest, after, ?_, ?_, within⟩
    · conv => lhs; rw [same]
      rw [List.append_assoc, List.cons_append, Text.pieces_append, line]
    · conv => lhs; rw [same]
      rw [List.append_assoc, List.cons_append, Text.pieces_append, line']

theorem lineSpread_squeeze {line rest : List Char} (separates : Separates front back)
    (last : line = Text.lastLine (joinContinued front)) (within : rest <+: joinContinued back) :
    LineSpread (Text.squeeze (line ++ rest)) (Text.squeeze (line ++ ' ' :: rest)) := by
  have behind : line <:+ joinContinued front := last ▸ Text.lastLine_suffix _
  have before {v : Char} (head : v ∈ rest.head?) : v ∈ (joinContinued back).head? := by
    obtain ⟨more, same⟩ := within
    rw [← same, List.head?_append, Option.mem_def.mp head]
    rfl
  have after {u : Char} (last : u ∈ line.getLast?) : u ∈ (joinContinued front).getLast? := by
    obtain ⟨more, same⟩ := behind
    exact same ▸ List.mem_getLast?_append_of_mem_getLast? last
  by_cases blank : Text.AtBlank line rest
  · have same : Text.squeeze (line ++ ' ' :: rest) = Text.squeeze (line ++ rest) := by
      rw [Text.squeeze, Text.squeeze, Text.words_space, Text.words_atBlank blank]
    exact same ▸ .same _
  · cases separates with
    | blank beside =>
      exact absurd (beside.imp (fun all u last => all u (after last))
        (fun all v head => all v (before head))) blank
    | apart severed outside unnamed =>
      obtain ⟨ends, starts⟩ := not_or.mp blank
      simp only [not_forall, Bool.not_eq_true] at ends starts
      obtain ⟨u, ends, dark⟩ := ends
      obtain ⟨v, starts, dark'⟩ := starts
      obtain ⟨dense, wide, ends', starts'⟩ := Text.squeeze_append ends dark starts dark'
      rw [dense, wide]
      refine .space ⟨?_, ?_, fun feed => ?_⟩ (last ▸ unnamed)
      · intro c same d same'
        obtain rfl := Option.some_inj.mp (same.symm.trans ends')
        obtain rfl := Option.some_inj.mp (same'.symm.trans starts')
        exact severed c (after ends) d (before starts)
      · rw [quoted_squeeze, last]
        exact quoted_lastLine outside
      · rcases Text.mem_squeeze feed with other | dark
        · cases other
        · cases dark

theorem lineSpread_space (separates : Separates front back) :
    List.Forall₂ (fun line line' => LineSpread line.toList line'.toList) (linesOf (front ++ back))
      (linesOf (front ++ ' ' :: back)) := by
  have same (lines : List String) :
      List.Forall₂ (fun line line' => LineSpread line.toList line'.toList) lines lines :=
    List.forall₂_same.mpr fun line _ => .same line.toList
  unfold linesOf
  rcases joinContinued_space front back with equal | ⟨dense, wide⟩
  · rw [equal]
    exact same _
  · obtain ⟨before, rest, after, lines, lines', within⟩ :=
      lines_space (joinContinued front) (joinContinued back)
    rw [dense, wide, lines, lines', List.map_append, List.map_append]
    refine List.rel_append (same _) (.cons ?_ (same _))
    rw [String.toList_ofList, String.toList_ofList]
    exact lineSpread_squeeze separates rfl within

/-- A space between texts without comments makes no difference to what is read. -/
theorem timings_space (macros : List String) (separates : Separates front back) :
    (timings macros (linesOf (front ++ ' ' :: back))).mapError Failure.kind =
      (timings macros (linesOf (front ++ back))).mapError Failure.kind :=
  timings_of_lines macros (lineSpread_space separates)

end Space

end Source

end CellTiming
