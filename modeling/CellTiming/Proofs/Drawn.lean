import CellTiming.Proofs.Blank
import CellTiming.Proofs.Steering

/-! Blocks are drawn from the lines of a source. No block is empty, and each of its lines is
a piece of the line it is numbered by. -/
namespace CellTiming.Source

def SourceLine.DrawnFrom (lines : List String) (drawn : SourceLine) : Prop :=
  1 ≤ drawn.number ∧ ∃ line, lines[drawn.number - 1]? = some line ∧
    drawn.text.toList <:+: line.toList

def Block.DrawnFrom (lines : List String) (block : Block) : Prop :=
  block.lines ≠ [] ∧ ∀ drawn ∈ block.lines, drawn.DrawnFrom lines

theorem written_cons (lead tail : List Char) (word : StructureWord)
    (words : List (StructureWord × List Char)) :
    written (lead, (word, tail) :: words) =
      lead ++ (word.spelling.toList ++ (tail ++ written ([], words))) := by
  simp [written]

namespace Extraction

structure DrawnFrom (lines : List String) (e : Extraction) : Prop where
  gathered : ∀ drawn ∈ e.gathered, drawn.DrawnFrom lines
  blocks : ∀ block ∈ e.blocks, block.DrawnFrom lines

/-- Something has been gathered as soon as a section is open. -/
def Filled (e : Extraction) : Prop := e.inSpecify = true → e.gathered ≠ []

variable {lines : List String} {e next : Extraction} {number : Nat} {line : String}
  {text : List Char}

section Parts

theorem gather_of_dark {c : Char} (member : c ∈ text) (dark : Text.isBlank c = false) :
    e.gather number text =
      { e with gathered := e.gathered ++ [⟨number, String.ofList (Text.trim text)⟩] } := by
  rw [gather, if_neg (by simpa using Text.trim_ne_nil member dark)]

theorem gathered_prefix : e.gathered <+: (e.gather number text).gathered := by
  unfold gather
  dsimp only
  split
  · exact List.prefix_rfl
  · exact List.prefix_append _ _

theorem DrawnFrom.gather (drawn : e.DrawnFrom lines) (positive : 1 ≤ number)
    (at_ : lines[number - 1]? = some line) (piece : text <:+: line.toList) :
    (e.gather number text).DrawnFrom lines := by
  unfold Extraction.gather
  dsimp only
  split
  · exact drawn
  · refine ⟨List.forall_mem_append.mpr ⟨drawn.gathered, ?_⟩, drawn.blocks⟩
    refine List.forall_mem_singleton.mpr ⟨positive, line, at_, ?_⟩
    rw [String.toList_ofList]
    exact (Text.trim_infix text).trans piece

theorem insertLines_drawn {module : String} {gathered : List SourceLine} {blocks : List Block}
    (some_ : gathered ≠ []) (drawn : ∀ line ∈ gathered, line.DrawnFrom lines)
    (others : ∀ block ∈ blocks, block.DrawnFrom lines) :
    ∀ block ∈ insertLines module gathered blocks, block.DrawnFrom lines := by
  induction blocks with
  | nil => exact List.forall_mem_singleton.mpr ⟨some_, drawn⟩
  | cons block blocks ih =>
    obtain ⟨first, others⟩ := List.forall_mem_cons.mp others
    rw [insertLines]
    split
    · refine List.forall_mem_cons.mpr ⟨⟨?_, List.forall_mem_append.mpr ⟨first.2, drawn⟩⟩, others⟩
      exact List.append_ne_nil_of_left_ne_nil first.1 _
    · exact List.forall_mem_cons.mpr ⟨first, ih others⟩

theorem DrawnFrom.close (drawn : e.DrawnFrom lines) (some_ : e.gathered ≠ []) :
    e.close.DrawnFrom lines := by
  refine ⟨List.forall_mem_nil _, ?_⟩
  unfold Extraction.close
  cases e.module with
  | none => exact drawn.blocks
  | some module => exact insertLines_drawn some_ drawn.gathered drawn.blocks

end Parts

section Steps

/-- In the middle of a line the gathered text stands directly before the words to come. -/
structure Pending (lines : List String) (line : List Char) (e : Extraction) (text : List Char)
    (words : List (StructureWord × List Char)) : Prop where
  drawn : e.DrawnFrom lines
  place : text ++ written ([], words) <:+ line
  outside : e.inSpecify = false → text = []
  inside : e.inSpecify = true → e.gathered ≠ [] ∨ ∃ c ∈ text, Text.isBlank c = false

theorem dark_of_spelling (word : StructureWord) :
    ∃ c ∈ word.spelling.toList, Text.isBlank c = false := by
  cases word
  · exact ⟨'m', by decide, rfl⟩
  · exact ⟨'s', by decide, rfl⟩
  · exact ⟨'e', by decide, rfl⟩
  · exact ⟨'e', by decide, rfl⟩

theorem Pending.step {word : StructureWord} {tail after : List Char}
    {words : List (StructureWord × List Char)} (positive : 1 ≤ number)
    (at_ : lines[number - 1]? = some line)
    (pending : Pending lines line.toList e text ((word, tail) :: words))
    (steers : Steers e number text tail word next after) :
    Pending lines line.toList next after words := by
  obtain ⟨drawn, place, outside, inside⟩ := pending
  rw [written_cons] at place
  have behind : written ([], words) <:+ line.toList :=
    ((List.suffix_append _ _).trans (List.suffix_append _ _)).trans
      ((List.suffix_append _ _).trans ((List.suffix_append _ _).trans place))
  obtain ⟨c, member, dark⟩ := dark_of_spelling word
  cases steers with
  | module free | endmodule free =>
    cases outside free
    exact ⟨⟨drawn.gathered, drawn.blocks⟩, behind, fun _ => rfl, by simp [free]⟩
  | specify free known =>
    cases outside free
    refine ⟨⟨drawn.gathered, drawn.blocks⟩, ?_, by simp, fun _ => .inr ⟨c, ?_, dark⟩⟩
    · simpa using place
    · simp [member]
  | endspecify within =>
    have piece : text ++ StructureWord.endspecify.spelling.toList <:+: line.toList := by
      refine List.IsInfix.trans ?_ place.isInfix
      exact ⟨[], tail ++ written ([], words), by simp⟩
    have some_ : (e.gather number (text ++ StructureWord.endspecify.spelling.toList)).gathered ≠ [] := by
      rw [gather_of_dark (List.mem_append_right _ member) dark]
      simp
    exact ⟨(drawn.gather positive at_ piece).close some_, behind, fun _ => rfl, by simp [close]⟩

theorem Pending.gather (positive : 1 ≤ number) (at_ : lines[number - 1]? = some line)
    (pending : Pending lines line.toList e text []) :
    (e.gather number text).DrawnFrom lines ∧ (e.gather number text).Filled := by
  obtain ⟨drawn, place, outside, inside⟩ := pending
  have piece : text <:+: line.toList := by simpa [written] using place.isInfix
  refine ⟨drawn.gather positive at_ piece, fun opened => ?_⟩
  rw [inSpecify_gather] at opened
  rcases inside opened with some_ | ⟨c, member, dark⟩
  · exact fun empty => some_ (List.prefix_nil.mp (empty ▸ gathered_prefix))
  · rw [gather_of_dark member dark]
    simp

theorem DrawnFrom.after_line {macros : List String} (positive : 1 ≤ number)
    (at_ : lines[number - 1]? = some line) (drawn : e.DrawnFrom lines) (filled : e.Filled)
    (ok : e.line macros number line = .ok next) : next.DrawnFrom lines ∧ next.Filled := by
  have whole := written_cutAtStructure false false line.toList
  rw [Extraction.line] at ok
  split at ok
  next =>
    split at ok
    · cases ok
      exact ⟨⟨drawn.gathered, drawn.blocks⟩, filled⟩
    · cases ok
      split
      · refine Pending.gather positive at_ ⟨drawn, ?_, by simp_all, fun opened => .inl (filled opened)⟩
        simp [written]
      · exact ⟨drawn, filled⟩
  next lead words _ cut =>
    rw [cut] at whole
    split at ok
    next found =>
      cases ok
      rw [words_eq, Option.map_eq_some_iff] at found
      obtain ⟨⟨last, after⟩, steered, rfl⟩ := found
      refine Pending.gather positive at_
        (steered_invariant (Pending lines line.toList) (Pending.step positive at_) ?_ steered)
      refine ⟨drawn, ?_, ?_, fun opened => .inl (filled opened)⟩
      · split
        · rw [← whole]
          simp [written]
        · rw [← whole]
          exact List.suffix_append _ _
      · intro closed
        rw [if_neg (by simp [closed])]
    next => cases ok

/-- Every line leads to a state drawn from the lines. -/
theorem drawn_of_lines {macros cleaned : List String} {last : Extraction}
    (ok : Extraction.lines macros {} 1 cleaned = .ok last) : last.DrawnFrom cleaned ∧ last.Filled :=
  lines_invariant (fun e => e.DrawnFrom cleaned ∧ e.Filled)
    (fun positive at_ held found => held.1.after_line positive at_ held.2 found)
    ⟨⟨by simp, by simp⟩, by simp [Filled]⟩ ok

theorem structural_of_line {macros : List String} {flaw : SourceError}
    (failed : e.line macros number line = .error flaw) : flaw = .structural number line := by
  unfold Extraction.line at failed
  split at failed
  · split at failed <;> cases failed
  · dsimp only at failed
    split at failed <;> cases failed
    rfl

theorem structural_of_lines {macros : List String} {before rest : List String} {flaw : SourceError}
    (failed : Extraction.lines macros e (before.length + 1) rest = .error flaw) :
    ∃ number line, flaw = .structural number line ∧ 1 ≤ number ∧
      (before ++ rest)[number - 1]? = some line := by
  induction rest generalizing e before with
  | nil => cases failed
  | cons line rest ih =>
    rw [Extraction.lines] at failed
    cases found : e.line macros (before.length + 1) line with
    | error flaw' =>
      rw [found] at failed
      cases failed
      exact ⟨_, line, structural_of_line found, Nat.le_add_left 1 _, by simp⟩
    | ok middle =>
      rw [found] at failed
      have shifted : before ++ line :: rest = (before ++ [line]) ++ rest := by simp
      rw [shifted]
      refine ih (e := middle) ?_
      rw [List.length_append, List.length_singleton]
      exact failed

end Steps

end Extraction

section Blocks

variable {macros cleaned : List String}

theorem drawn_of_blocks {blocks : List Block} (ok : blocksOfLines macros cleaned = .ok blocks) :
    ∀ block ∈ blocks, block.DrawnFrom cleaned := by
  obtain ⟨last, found, rfl⟩ := blocksOfLines_ok.mp ok
  obtain ⟨drawn, filled⟩ := Extraction.drawn_of_lines found
  rw [Extraction.finish]
  split
  next opened => exact (drawn.close (filled opened)).blocks
  next => exact drawn.blocks

theorem structural_of_blocks {flaw : SourceError}
    (failed : blocksOfLines macros cleaned = .error flaw) :
    ∃ number line, flaw = .structural number line ∧ 1 ≤ number ∧
      cleaned[number - 1]? = some line := by
  unfold blocksOfLines at failed
  cases found : Extraction.lines macros {} 1 cleaned with
  | ok last => rw [found] at failed; cases failed
  | error flaw' =>
    rw [found] at failed
    cases failed
    have failed' : Extraction.lines macros {} (([] : List String).length + 1) cleaned =
        .error flaw := found
    exact Extraction.structural_of_lines failed'

end Blocks

end CellTiming.Source
