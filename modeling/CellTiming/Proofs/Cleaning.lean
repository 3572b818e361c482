import CellTiming.Proofs.Alphabet
import CellTiming.Proofs.Composition

/-! What cleaning does to each line of a text. Every line break is kept, inside comments too, so
a line of the result has come from the line of the same number, and it holds no comment and no
needless blank: cleaning it again changes nothing. -/
namespace CellTiming

namespace Text

variable {cs kept text : List Char}

theorem words_dark (dark : ∀ c ∈ cs, isBlank c = false) (some_ : cs ≠ []) : words cs = [cs] := by
  have alone := words_dark_append dark some_ []
  simpa [wordsFrom] using alone

theorem wordsFrom_some (cs : List Char) : ∀ word ∈ (wordsFrom cs).2, word ≠ [] := by
  induction cs with
  | nil => exact nofun
  | cons c cs ih =>
    rw [wordsFrom]
    dsimp only
    split
    · split
      · exact ih
      next some_ => exact List.forall_mem_cons.mpr ⟨by simpa using some_, ih⟩
    · exact ih

theorem words_some (cs : List Char) : ∀ word ∈ words cs, word ≠ [] := by
  rw [words]
  dsimp only
  split
  · exact wordsFrom_some cs
  next some_ => exact List.forall_mem_cons.mpr ⟨by simpa using some_, wordsFrom_some cs⟩

/-- Words joined by spaces are found again. -/
theorem words_squeeze (cs : List Char) : words (squeeze cs) = words cs := by
  have inner (texts : List (List Char)) (dark : ∀ text ∈ texts, ∀ c ∈ text, isBlank c = false)
      (some_ : ∀ text ∈ texts, text ≠ []) : words ([' '].intercalate texts) = texts := by
    induction texts with
    | nil => rfl
    | cons text texts ih =>
      obtain ⟨first, others⟩ := List.forall_mem_cons.mp dark
      obtain ⟨first', others'⟩ := List.forall_mem_cons.mp some_
      cases texts with
      | nil => rw [List.intercalate_singleton, words_dark first first']
      | cons next texts =>
        rw [List.intercalate_cons_cons, List.append_assoc, List.singleton_append, words_space,
          words_dark first first', ih others others', List.singleton_append]
  exact inner (words cs) (fun _ => dark_of_words) (words_some cs)

theorem squeeze_squeeze (cs : List Char) : squeeze (squeeze cs) = squeeze cs := by
  rw [squeeze, words_squeeze, squeeze]

/-- Behind a character that is no blank there is what has been behind it, or a space. -/
theorem squeeze_step {c : Char} (dark : isBlank c = false) (cs : List Char) :
    squeeze (c :: cs) = c :: ' ' :: squeeze cs ∨
      squeeze (c :: cs) = c :: squeeze cs ∧ ∀ d ∈ (squeeze cs).head?, d ∈ cs.head? := by
  rw [squeeze_cons dark]
  cases cs with
  | nil => exact .inr ⟨rfl, by simp [squeeze, words, wordsFrom]⟩
  | cons d ds =>
    by_cases blank : isBlank d = true
    · have same : squeeze (d :: ds) = [' '].intercalate (words ds) := by
        rw [squeeze, words_cons_blank blank]
      have cut : wordsFrom (d :: ds) = ([], words ds) := by
        simp [wordsFrom, blank, words]
      rw [same, cut]
      cases words ds with
      | nil => exact .inr ⟨rfl, by simp⟩
      | cons word others => exact .inl (by simp)
    · have same := squeeze_cons (by simpa using blank) ds
      have cut : wordsFrom (d :: ds) = (d :: (wordsFrom ds).1, (wordsFrom ds).2) := by
        simp [wordsFrom, blank]
      rw [same, cut]
      exact .inr ⟨congrArg (c :: ·) (intercalate_glue [d] _ _), fun e begins => begins⟩

/-- The lines joined by line breaks are found again. -/
theorem lines_intercalate {texts : List (List Char)} (some_ : texts ≠ [])
    (single : ∀ text ∈ texts, '\n' ∉ text) : lines (['\n'].intercalate texts) = texts := by
  induction texts with
  | nil => exact absurd rfl some_
  | cons text texts ih =>
    obtain ⟨first, others⟩ := List.forall_mem_cons.mp single
    cases texts with
    | nil => rw [List.intercalate_singleton, lines, pieces_single first]
    | cons next texts =>
      rw [List.intercalate_cons_cons, List.append_assoc, List.singleton_append, lines,
        pieces_append, pieces_single first]
      exact congrArg (text :: ·) (ih (List.cons_ne_nil _ _) others)

/-- What is kept of a text, line by line. -/
def KeptOf (kept text : List Char) : Prop := List.Forall₂ List.Sublist (lines kept) (lines text)

theorem exists_line (text : List Char) : ∃ line others, lines text = line :: others ∧
    ∀ c ≠ '\n', lines (c :: text) = (c :: line) :: others := by
  obtain ⟨line, others, same⟩ := List.exists_cons_of_ne_nil (pieces_ne_nil '\n' text)
  refine ⟨line, others, same, fun c other => ?_⟩
  rw [lines, pieces, if_neg other, same]

theorem lines_feed (text : List Char) : lines ('\n' :: text) = [] :: lines text := by
  rw [lines, pieces, if_pos rfl, lines]

theorem intercalate_lines (text : List Char) : ['\n'].intercalate (lines text) = text := by
  induction text with
  | nil => rfl
  | cons c text ih =>
    obtain ⟨line, others, same, longer⟩ := exists_line text
    rw [same] at ih
    by_cases feed : c = '\n'
    · subst feed
      rw [lines_feed, same, List.intercalate_cons_cons, ih]
      rfl
    · rw [longer c feed]
      cases others with
      | nil => rw [List.intercalate_singleton] at ih ⊢; rw [ih]
      | cons next others =>
        rw [List.intercalate_cons_cons] at ih ⊢
        exact congrArg (c :: ·) ih

theorem KeptOf.keep (c : Char) (keptOf : KeptOf kept text) : KeptOf (c :: kept) (c :: text) := by
  by_cases feed : c = '\n'
  · subst feed
    rw [KeptOf, lines_feed, lines_feed]
    exact .cons List.Sublist.slnil keptOf
  · obtain ⟨line, others, same, longer⟩ := exists_line kept
    obtain ⟨line', others', same', longer'⟩ := exists_line text
    rw [KeptOf, same, same', List.forall₂_cons] at keptOf
    rw [KeptOf, longer c feed, longer' c feed]
    exact .cons (keptOf.1.cons_cons c) keptOf.2

theorem KeptOf.drop {c : Char} (other : c ≠ '\n') (keptOf : KeptOf kept text) :
    KeptOf kept (c :: text) := by
  obtain ⟨line, others, same, longer⟩ := exists_line text
  rw [KeptOf, same] at keptOf
  rw [KeptOf, longer c other]
  obtain ⟨first, behind, within, more, whole⟩ := List.forall₂_cons_right_iff.mp keptOf
  rw [whole]
  exact .cons (within.cons c) more

end Text

namespace Source

variable {context : Context} {c : Char} {cs front back line text : List Char}

/-- Comments go, their line breaks stay. -/
theorem keptOf_withoutComments (context : Context) (text : List Char) :
    Text.KeptOf (withoutComments context text) text := by
  fun_induction withoutComments context text with
  | case1 => exact .cons List.Sublist.slnil .nil
  | case2 cs ih => exact ih.keep '"'
  | case3 cs ih => exact (ih.drop (by decide)).drop (by decide)
  | case4 cs ih => exact (ih.drop (by decide)).drop (by decide)
  | case5 c cs _ _ _ ih => exact ih.keep c
  | case6 c cs ih => exact ih.keep c
  | case7 cs ih => exact ih.keep '\n'
  | case8 c cs other ih => exact ih.drop other
  | case9 afterStar cs ih => exact ih.keep '\n'
  | case10 afterStar c cs other _ ih => exact ih.drop other
  | case11 afterStar c cs other _ ih => exact ih.drop other

/-- No comment begins in the text, which may itself begin inside a string. -/
inductive Bare : Context → List Char → Prop
  | endOfCode : Bare .code []
  | endOfString : Bare .string []
  | code {c : Char} {cs : List Char} (plain : opensComment (c :: cs) = false)
      (others : Bare (if c = '"' then .string else .code) cs) : Bare .code (c :: cs)
  | string {c : Char} {cs : List Char}
      (others : Bare (if c = '"' ∨ c = '\n' then .code else .string) cs) : Bare .string (c :: cs)

theorem Bare.withoutComments (bare : Bare context text) :
    withoutComments context text = text := by
  induction bare with
  | endOfCode => rfl
  | endOfString => rfl
  | code plain _ ih => rw [withoutComments_code plain, ih]
  | string _ ih => rw [Source.withoutComments, ih]

/-- A character behind which no comment opens is followed by what follows it in the source. -/
theorem opensComment_withoutComments (plain : opensComment (c :: cs) = false) :
    opensComment (c :: withoutComments .code cs) = false := by
  by_cases slash : c = '/'
  · cases cs with
    | nil => exact plain
    | cons d cs =>
      have plain' : opensComment (d :: cs) = false := by
        subst slash
        by_cases other : d = '/'
        · subst other
          cases plain
        · simp [opensComment, other]
      rw [withoutComments_code plain']
      rwa [opensComment_pair, ← opensComment_pair c d cs]
  · simp [opensComment, slash]

/-- What is left without comments holds none. -/
theorem bare_withoutComments (context : Context) (text : List Char) :
    Bare (if context = .string then .string else .code) (withoutComments context text) := by
  fun_induction withoutComments context text with
  | case1 context => cases context <;> constructor
  | case2 cs ih => exact .code rfl ih
  | case3 cs ih => exact ih
  | case4 cs ih => exact ih
  | case5 c cs quote line block ih =>
    have plain := plain_of_other line block
    exact .code (opensComment_withoutComments plain) (by rwa [if_neg quote])
  | case6 c cs ih =>
    refine .string ?_
    by_cases ends : c = '"' ∨ c = '\n'
    · rwa [if_pos ends] at ih ⊢
    · rwa [if_neg ends] at ih ⊢
  | case7 cs ih => exact .code rfl ih
  | case8 c cs _ ih => exact ih
  | case9 afterStar cs ih => exact .code rfl ih
  | case10 afterStar c cs _ _ ih => exact ih
  | case11 afterStar c cs _ _ ih => exact ih

section Lines

/-- A string ends with its line, so each line begins outside of one. -/
theorem bare_lines :
    Bare context (front ++ '\n' :: back) ↔ Bare context front ∧ Bare .code back := by
  refine ⟨fun bare => ?_, fun both => ?_⟩
  · induction front generalizing context with
    | nil =>
      cases bare with
      | code _ others => exact ⟨.endOfCode, others⟩
      | string others => exact ⟨.endOfString, others⟩
    | cons c front ih =>
      cases bare with
      | code plain others =>
        obtain ⟨own, others⟩ := ih others
        exact ⟨.code ((opensComment_lines c front back).symm.trans plain) own, others⟩
      | string others =>
        obtain ⟨own, others⟩ := ih others
        exact ⟨.string own, others⟩
  · obtain ⟨bare, bare'⟩ := both
    induction bare with
    | endOfCode => exact .code rfl bare'
    | endOfString => exact .string bare'
    | code plain _ ih => exact .code ((opensComment_lines _ _ back).trans plain) ih
    | string _ ih => exact .string ih

theorem bare_intercalate {texts : List (List Char)} :
    Bare .code (['\n'].intercalate texts) ↔ ∀ text ∈ texts, Bare .code text := by
  induction texts with
  | nil => exact ⟨fun _ => nofun, fun _ => .endOfCode⟩
  | cons text texts ih =>
    cases texts with
    | nil => rw [List.intercalate_singleton, List.forall_mem_singleton]
    | cons next texts =>
      rw [List.intercalate_cons_cons, List.append_assoc, List.singleton_append, bare_lines, ih]
      exact List.forall_mem_cons.symm

theorem opensComment_of_head (plain : opensComment (c :: cs) = false)
    (head : ∀ d ∈ text.head?, d ∈ cs.head? ∨ Text.isBlank d = true) :
    opensComment (c :: text) = false := by
  cases text with
  | nil => simp [opensComment]
  | cons d text =>
    rcases head d rfl with begins | blank
    · obtain ⟨more, rfl⟩ := List.head?_eq_some_iff.mp begins
      rwa [opensComment_pair, ← opensComment_pair c d more]
    · have slash : d ≠ '/' := by
        rintro rfl
        cases blank
      have star : d ≠ '*' := by
        rintro rfl
        cases blank
      simp [opensComment_pair, slash, star]

theorem Bare.tail (bare : Bare context (c :: cs)) (dark : c ≠ '"') (other : c ≠ '\n') :
    Bare context cs := by
  cases bare with
  | code _ others => rwa [if_neg dark] at others
  | string others => rwa [if_neg (not_or.mpr ⟨dark, other⟩)] at others

theorem Bare.exchange (bare : Bare context (c :: cs))
    (head : ∀ d ∈ text.head?, d ∈ cs.head? ∨ Text.isBlank d = true)
    (others : ∀ inner, Bare inner cs → Bare inner text) : Bare context (c :: text) := by
  cases bare with
  | code plain behind => exact .code (opensComment_of_head plain head) (others _ behind)
  | string behind => exact .string (others _ behind)

theorem Bare.space (bare : Bare context line) : Bare context (' ' :: line) := by
  cases bare with
  | endOfCode => exact .code rfl .endOfCode
  | endOfString => exact .string .endOfString
  | code plain others => exact .code rfl (.code plain others)
  | string others => exact .string (.string others)

/-- Characters of a line come together only where they are together, or over blanks that leave a
space. -/
theorem Bare.squeeze (bare : Bare context line) (single : '\n' ∉ line) :
    Bare context (Text.squeeze line) := by
  induction line generalizing context with
  | nil => exact bare
  | cons c cs ih =>
    obtain ⟨other, single⟩ := not_or.mp (mt List.mem_cons.mpr single)
    by_cases blank : Text.isBlank c = true
    · have quote : c ≠ '"' := by
        rintro rfl
        cases blank
      rw [Text.squeeze, Text.words_cons_blank blank]
      exact ih (bare.tail quote (Ne.symm other)) single
    · rcases Text.squeeze_step (by simpa using blank) cs with same | ⟨same, head⟩
      · rw [same]
        refine bare.exchange (fun d begins => .inr ?_) fun inner behind => (ih behind single).space
        cases begins
        rfl
      · rw [same]
        exact bare.exchange (fun d begins => .inl (head d begins)) fun inner behind =>
          ih behind single

end Lines

section Cleaned

variable {source : String}

theorem cleanLines_of_plain (plain : '\\' ∉ source.toList) : cleanLines source =
    (Text.lines (withoutComments .code source.toList)).map fun line =>
      String.ofList (Text.squeeze line) := by
  rw [cleanLines, joinContinued_of_plain (mt mem_withoutComments plain)]

/-- Bare lines without needless blanks are as cleaning leaves them. -/
theorem cleanLines_intercalate {lines : List String} (some_ : lines ≠ [])
    (single : ∀ line ∈ lines, '\n' ∉ line.toList) (plain : ∀ line ∈ lines, '\\' ∉ line.toList)
    (bare : ∀ line ∈ lines, Bare .code line.toList)
    (dense : ∀ line ∈ lines, Text.squeeze line.toList = line.toList) :
    cleanLines ("\n".intercalate lines) = lines := by
  have whole : ("\n".intercalate lines).toList = ['\n'].intercalate (lines.map String.toList) :=
    String.toList_intercalate
  have bare' : Bare .code (['\n'].intercalate (lines.map String.toList)) :=
    bare_intercalate.mpr (List.forall_mem_map.mpr bare)
  rw [cleanLines_of_plain, whole, bare'.withoutComments,
    Text.lines_intercalate (by simpa using some_) (List.forall_mem_map.mpr single), List.map_map]
  · conv => rhs; rw [← List.map_id lines]
    refine List.map_congr_left fun line member => ?_
    rw [Function.comp_apply, dense line member, String.ofList_toList, id]
  · have within : Within (· != '\\') ("\n".intercalate lines) :=
      within_intercalate (by decide) fun line member c inside =>
        bne_iff_ne.mpr fun same => plain line member (same ▸ inside)
    exact fun inside => bne_iff_ne.mp (within '\\' inside) rfl

/-- A text without backslashes is cleaned line by line: what is left of a line is left of the line
of the same number, and nothing is left to clean. -/
theorem cleanLines_lines (text : String) (plain : '\\' ∉ text.toList) :
    List.Forall₂ (fun line cleaned =>
        ∃ kept, List.Sublist kept line ∧ cleaned = String.ofList (Text.squeeze kept))
      (Text.lines text.toList) (cleanLines text) ∧
    cleanLines ("\n".intercalate (cleanLines text)) = cleanLines text := by
  have cleaned := cleanLines_of_plain plain
  refine ⟨?_, ?_⟩
  · rw [cleaned, List.forall₂_map_right_iff]
    exact (keptOf_withoutComments .code text.toList).flip.imp fun line kept within =>
      ⟨kept, within, rfl⟩
  · have bare : Bare .code (withoutComments .code text.toList) := bare_withoutComments .code _
    rw [← Text.intercalate_lines (withoutComments .code text.toList), bare_intercalate] at bare
    refine cleanLines_intercalate ?_ feed_notMem_cleanLines ?_ ?_ ?_
    · simp [cleaned, Text.lines, Text.pieces_ne_nil]
    · exact fun line member inside => plain (mem_cleanLines plain member inside rfl)
    · rw [cleaned]
      refine List.forall_mem_map.mpr fun line member => ?_
      rw [String.toList_ofList]
      exact (bare line member).squeeze fun feed => (Text.mem_pieces member feed).2 rfl
    · rw [cleaned]
      refine List.forall_mem_map.mpr fun line _ => ?_
      rw [String.toList_ofList, Text.squeeze_squeeze]

/-- Comments that only seem to end or to begin, quotes without their pair, and a comment over three
lines. -/
private def untidy : String := "a /*/ b */ /  / c\n\"x  // y\nz //* \"\n\"u\" /**/ /* v\n w\n*/ t"

theorem cleanLines_untidy :
    cleanLines untidy = ["a / / c", "\"x // y", "z", "\"u\"", "", "t"] ∧
    (cleanLines untidy).length = (Text.lines untidy.toList).length ∧
    cleanLines ("\n".intercalate (cleanLines untidy)) = cleanLines untidy := by
  obtain ⟨kept, again⟩ := cleanLines_lines untidy (by decide +kernel)
  exact ⟨by decide +kernel, kept.length_eq.symm, again⟩

end Cleaned

end Source

end CellTiming
