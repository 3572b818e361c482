import CellTiming.Proofs.Blank
import CellTiming.Proofs.Cuts
import CellTiming.Proofs.Rule
import Mathlib.Data.List.Forall2

/-! Where lines break makes no difference to an extraction. Without macros and strings, the
same text on one line gives the same modules with the same words. -/
namespace CellTiming.Source

section Cuts

/-- The cuts of a text with a blank in front of it. -/
def parted (cuts : Cuts) : Cuts := (' ' :: cuts.1, cuts.2)

theorem severed_blank (line rest : List Char) : Token.Severed line (' ' :: rest) := by
  rintro u _ _ ⟨⟩
  exact Token.fuses_blank_right rfl u

theorem cutAtStructure_blank (rest : List Char) :
    cutAtStructure false false (' ' :: rest) = parted (cutAtStructure false false rest) := by
  have unticked : decide (' ' = backtick) = false := by decide
  rw [cutAtStructure, if_neg (by decide), if_pos (by decide), unticked]
  rfl

theorem cutAtStructure_parted {line : List Char} (closed : quoted false line = false)
    (rest : List Char) : cutAtStructure false false (line ++ ' ' :: rest) =
      appended (cutAtStructure false false line) (parted (cutAtStructure false false rest)) := by
  rw [cutAtStructure_parts closed (severed_blank line rest), cutAtStructure_blank]

end Cuts

section Directives

theorem not_directive {line : List Char} (unticked : backtick ∉ line) : isDirective line = false := by
  have ticked : ∀ mark ∈ [ifdefMark, ifndefMark, elseMark, endifMark], backtick ∈ mark := by decide
  refine List.any_eq_false.mpr fun mark member occurs => ?_
  exact unticked ((Text.occursIn_iff.mp occurs).subset (ticked mark member))

end Directives

def wordsOf (lines : List SourceLine) : List (List Char) :=
  lines.flatMap fun line => Text.words line.text.toList

/-- The blocks of the same module with the same words. -/
def Block.Alike (block block' : Block) : Prop :=
  block.module = block'.module ∧ wordsOf block.lines = wordsOf block'.lines

namespace Extraction

variable {e next e' : Extraction} {number : Nat} {text after text' tail : List Char}
  {word : StructureWord} {words : List (StructureWord × List Char)}

section Lengthening

theorem moduleName_append {name : String} (named : moduleName? tail = some name)
    (more : List Char) : moduleName? (tail ++ ' ' :: more) = some name := by
  rw [moduleName_severed (severed_blank tail more), named]
  intro blank
  simp [moduleName?, blank] at named

/-- More text behind a word is gathered where the word opens a section, and has no effect
elsewhere. -/
theorem Steers.lengthened (steers : Steers e number text tail word next after) (more : List Char) :
    Steers e number text (tail ++ ' ' :: more) word next
      (if next.inSpecify then after ++ ' ' :: more else after) := by
  cases steers with
  | module outside named =>
    rw [if_neg (by simp [outside])]
    exact .module outside (moduleName_append named more)
  | specify outside known =>
    rw [if_pos rfl, List.append_assoc]
    exact .specify outside known
  | endspecify inside => exact .endspecify inside
  | endmodule outside =>
    rw [if_neg (by simp [outside])]
    exact .endmodule outside

theorem steered_lengthened (closed : words = [] → e.inSpecify = false)
    (steered : e.steered? number text words = some (next, after)) (more : List Char) :
    e.steered? number text (Source.lengthened (' ' :: more) words) =
      some (next, if next.inSpecify then after ++ ' ' :: more else after) := by
  induction words generalizing e text with
  | nil =>
    cases steered
    rw [if_neg (by simp [closed rfl])]
    rfl
  | cons cut words ih =>
    obtain ⟨word, tail⟩ := cut
    rw [steered?] at steered
    cases found : e.word? number text word tail with
    | none => simp [found] at steered
    | some step =>
      rw [found] at steered
      cases words with
      | nil =>
        cases steered
        have longer := steers_iff.mpr ((steers_iff.mp found).lengthened more)
        rw [Source.lengthened, steered?, longer]
        rfl
      | cons cut' words =>
        rw [Source.lengthened, steered?, found]
        exact ih (by simp) steered

end Lengthening

section Gathering

theorem wordsOf_append (first second : List SourceLine) :
    wordsOf (first ++ second) = wordsOf first ++ wordsOf second :=
  List.flatMap_append

theorem wordsOf_gather : wordsOf (e.gather number text).gathered =
    wordsOf e.gathered ++ Text.words text := by
  unfold gather
  dsimp only
  split
  next empty =>
    rw [← Text.words_trim text, List.isEmpty_iff.mp empty]
    exact (List.append_nil _).symm
  next =>
    rw [wordsOf_append]
    simp [wordsOf, Text.words_trim]

theorem insertLines_alike {module : String} {gathered gathered' : List SourceLine}
    {blocks blocks' : List Block} (same : List.Forall₂ Block.Alike blocks blocks')
    (words : wordsOf gathered = wordsOf gathered') :
    List.Forall₂ Block.Alike (insertLines module gathered blocks)
      (insertLines module gathered' blocks') := by
  induction same with
  | nil => exact .cons ⟨rfl, words⟩ .nil
  | @cons block block' blocks blocks' first others ih =>
    rw [insertLines, insertLines, ← first.1]
    split
    · refine .cons ⟨rfl, ?_⟩ others
      rw [wordsOf_append, wordsOf_append, first.2, words]
    · exact .cons first ih

theorem close_alike (module : e.module = e'.module)
    (blocks : List.Forall₂ Block.Alike e.blocks e'.blocks)
    (words : wordsOf e.gathered = wordsOf e'.gathered) :
    List.Forall₂ Block.Alike e.close.blocks e'.close.blocks := by
  unfold close
  rw [← module]
  cases e.module with
  | none => exact blocks
  | some module => exact insertLines_alike blocks words

end Gathering

section Simulation

/-- No word of a text reaches into what is written behind it. -/
def Closed (before : List Char) : Prop := before = [] ∨ ∃ front, before = front ++ [' ']

theorem Closed.words_append {before : List Char} (closed : Closed before) (text : List Char) :
    Text.words (before ++ text) = Text.words before ++ Text.words text := by
  rcases closed with rfl | ⟨front, rfl⟩
  · rfl
  · rw [List.append_assoc, List.singleton_append, Text.words_append_blank rfl,
      Text.words_append_blank rfl]
    simp [Text.words, Text.wordsFrom]

/-- What the one state has gathered in lines, the other has in its lines and a text. -/
structure Alike (e e' : Extraction) (before : List Char) : Prop where
  excluded : e.excluded = false
  module : e.module = e'.module
  inSpecify : e.inSpecify = e'.inSpecify
  blocks : List.Forall₂ Block.Alike e.blocks e'.blocks
  words : wordsOf e.gathered = wordsOf e'.gathered ++ Text.words before
  outside : e.inSpecify = false → before = [] ∧ e.gathered = []

/-- In the middle of a line that both have begun. -/
structure Beside (e : Extraction) (text : List Char) (e' : Extraction) (text' before : List Char) :
    Prop extends Alike e e' before where
  closed : Closed before
  longer : text' = before ++ text
  quiet : e.inSpecify = false → text = []

theorem Beside.step {before : List Char} (beside : Beside e text e' text' before)
    (steers : Steers e number text tail word next after) (number' : Nat) :
    ∃ next' after' before', Steers e' number' text' tail word next' after' ∧
      Beside next after next' after' before' := by
  obtain ⟨⟨excluded, module, inSpecify, blocks, words, outside⟩, closed, rfl, quiet⟩ := beside
  cases steers with
  | module free named =>
    exact ⟨_, _, before, .module (inSpecify ▸ free) named,
      ⟨excluded, rfl, inSpecify, blocks, words, outside⟩, closed, rfl, quiet⟩
  | specify free known =>
    obtain ⟨rfl, empty⟩ := outside free
    exact ⟨_, _, [], .specify (inSpecify ▸ free) (module ▸ known),
      ⟨excluded, module, rfl, blocks, words, nofun⟩, closed, rfl, nofun⟩
  | endspecify within =>
    refine ⟨_, _, [], .endspecify (inSpecify ▸ within), ⟨?_, ?_, rfl, ?_, rfl, fun _ => ⟨rfl, rfl⟩⟩,
      .inl rfl, rfl, fun _ => rfl⟩
    · simpa [close] using excluded
    · simpa [close] using module
    · refine close_alike (by simpa using module) (by simpa using blocks) ?_
      rw [wordsOf_gather, wordsOf_gather, words, List.append_assoc before, closed.words_append,
        List.append_assoc]
  | endmodule free =>
    exact ⟨_, _, before, .endmodule (inSpecify ▸ free),
      ⟨excluded, rfl, inSpecify, blocks, words, outside⟩, closed, rfl, quiet⟩

theorem Beside.steered {before : List Char} (beside : Beside e text e' text' before)
    (steered : e.steered? number text words = some (next, after)) (number' : Nat) :
    ∃ next' after' before', e'.steered? number' text' words = some (next', after') ∧
      Beside next after next' after' before' := by
  induction words generalizing e text e' text' before with
  | nil =>
    cases steered
    exact ⟨_, _, _, rfl, beside⟩
  | cons cut words ih =>
    rw [steered?] at steered
    cases found : e.word? number text cut.1 cut.2 with
    | none => simp [found] at steered
    | some step =>
      rw [found] at steered
      obtain ⟨middle, between, before', steers, beside'⟩ := beside.step (steers_iff.mp found) number'
      rw [steered?, steers_iff.mpr steers]
      exact ih beside' steered

theorem Beside.gather {before : List Char} (beside : Beside e text e' text' before) :
    Alike (e.gather number text) e' text' := by
  obtain ⟨⟨excluded, module, inSpecify, blocks, words, outside⟩, closed, rfl, quiet⟩ := beside
  refine ⟨by simpa using excluded, by simpa using module, by simpa using inSpecify,
    by simpa using blocks, ?_, fun free => ?_⟩
  · rw [wordsOf_gather, words, closed.words_append, List.append_assoc]
  · rw [inSpecify_gather] at free
    obtain ⟨rfl, empty⟩ := outside free
    rw [quiet free]
    exact ⟨rfl, empty⟩

/-- A line with no directive is gathered word by word. -/
theorem line_eq {macros : List String} {line : String} (excluded : e.excluded = false)
    (unticked : backtick ∉ line.toList) :
    e.line macros number line =
      match e.steered? number (if e.inSpecify then (cutAtStructure false false line.toList).1 else [])
        (cutAtStructure false false line.toList).2 with
      | some (next, text) => .ok (next.gather number text)
      | none => .error (.structural number line) := by
  have whole := written_cutAtStructure false false line.toList
  have plain := not_directive unticked
  rw [Extraction.line, excluded, Bool.not_false, Bool.and_true]
  rcases cut : cutAtStructure false false line.toList with ⟨lead, words⟩
  rw [cut] at whole
  cases words with
  | nil =>
    have lead' : lead = line.toList := by simpa [written] using whole
    dsimp only
    rw [if_neg (by simp [plain]), steered?, lead']
    split
    · rfl
    · rfl
  | cons word words =>
    dsimp only
    rw [words_eq]
    cases e.steered? number (if e.inSpecify = true then lead else []) (word :: words) <;> rfl

theorem Alike.begins (alike : Alike e e' text) (lead : List Char) :
    ∃ before, Beside e (if e.inSpecify then lead else []) e'
      (if e'.inSpecify then text ++ ' ' :: lead else text) before := by
  cases opened : e.inSpecify with
  | false =>
    obtain ⟨rfl, _⟩ := alike.outside opened
    rw [← alike.inSpecify, opened]
    exact ⟨[], alike, .inl rfl, rfl, fun _ => rfl⟩
  | true =>
    rw [← alike.inSpecify, opened]
    refine ⟨text ++ [' '], ⟨alike.excluded, alike.module, alike.inSpecify, alike.blocks, ?_, ?_⟩,
      .inr ⟨text, rfl⟩, by simp, by simp [opened]⟩
    · rw [alike.words, Text.words_append_blanks (by simp [Text.isBlank, Text.blankRanges])]
    · simp [opened]

/-- The state after some lines and that after the same text on one line. -/
def OneLine (e : Extraction) (line : List Char) : Prop :=
  ∃ e' text, ({} : Extraction).steered? 1 [] (cutAtStructure false false line).2 = some (e', text) ∧
    Alike e e' text

theorem OneLine.step {macros : List String} {front : List Char} {line : String}
    (one : OneLine e front) (clean : '"' ∉ front) (unticked : backtick ∉ line.toList)
    (ok : e.line macros number line = .ok next) : OneLine next (front ++ ' ' :: line.toList) := by
  obtain ⟨e', text, found, alike⟩ := one
  rw [line_eq alike.excluded unticked] at ok
  rw [OneLine, cutAtStructure_parted (quoted_plain clean), appended_words, steered_append]
  dsimp only [parted]
  rw [steered_lengthened (fun _ => rfl) found]
  generalize cutAtStructure false false line.toList = cuts at ok ⊢
  obtain ⟨before, beside⟩ := alike.begins cuts.1
  split at ok
  next next text' steered =>
    cases ok
    obtain ⟨next', after', before', steered', beside'⟩ := beside.steered steered 1
    exact ⟨next', after', steered', beside'.gather⟩
  next => cases ok

theorem OneLine.lines {macros : List String} {front : List Char} {lines : List String}
    (one : OneLine e front) (clean : '"' ∉ front)
    (plain : ∀ line ∈ lines, backtick ∉ line.toList ∧ '"' ∉ line.toList)
    (ok : Extraction.lines macros e number lines = .ok next) :
    OneLine next (front ++ lines.flatMap fun line => ' ' :: line.toList) := by
  induction lines generalizing e front number with
  | nil =>
    cases ok
    simpa using one
  | cons line lines ih =>
    obtain ⟨⟨unticked, unquoted⟩, others⟩ := List.forall_mem_cons.mp plain
    obtain ⟨middle, found, rest⟩ := bind_eq_ok.mp ok
    rw [List.flatMap_cons, ← List.append_assoc]
    exact ih (one.step clean unticked found) (by simp [clean, unquoted]) others rest

end Simulation

end Extraction

section Blocks

variable {macros lines : List String} {blocks : List Block}

/-- The blocks are of the same module and their texts have the same words. -/
def Block.SameWords (block block' : Block) : Prop :=
  block.module = block'.module ∧ Text.words block.text.toList = Text.words block'.text.toList

theorem words_intercalate (texts : List (List Char)) :
    Text.words (['\n'].intercalate texts) = texts.flatMap Text.words := by
  induction texts with
  | nil => rfl
  | cons text texts ih =>
    cases texts with
    | nil => simp
    | cons next texts =>
      rw [List.intercalate_cons_cons, List.append_assoc, List.singleton_append,
        Text.words_append_blank rfl, ih]
      rfl

theorem words_text (block : Block) : Text.words block.text.toList = wordsOf block.lines := by
  rw [Block.toList_text, words_intercalate, List.flatMap_map]
  rfl

theorem Block.Alike.sameWords {block block' : Block} (alike : block.Alike block') :
    block.SameWords block' :=
  ⟨alike.1, by rw [words_text, words_text, alike.2]⟩

/-- The same lines joined by blanks, but for a blank before them. -/
theorem toList_joined (line : String) (lines : List String) :
    (" ".intercalate (line :: lines)).toList =
      line.toList ++ lines.flatMap fun line => ' ' :: line.toList := by
  induction lines generalizing line with
  | nil => simp
  | cons next lines ih =>
    rw [String.intercalate_cons_cons, String.toList_append, String.toList_append, ih,
      List.flatMap_cons, List.append_assoc]
    rfl

theorem cuts_joined (lines : List String) :
    (cutAtStructure false false (lines.flatMap fun line => ' ' :: line.toList)).2 =
      (cutAtStructure false false (" ".intercalate lines).toList).2 := by
  cases lines with
  | nil => rfl
  | cons line lines =>
    rw [List.flatMap_cons, List.cons_append, ← toList_joined, cutAtStructure_blank, parted]

theorem notMem_joined {c : Char} (other : c ≠ ' ') (lines : List String)
    (plain : ∀ line ∈ lines, c ∉ line.toList) : c ∉ (" ".intercalate lines).toList := by
  cases lines with
  | nil => simp
  | cons line lines =>
    obtain ⟨first, others⟩ := List.forall_mem_cons.mp plain
    rw [toList_joined]
    simp only [List.mem_append, List.mem_flatMap, List.mem_cons, not_or, not_exists, not_and]
    exact ⟨first, fun line member => ⟨other, others line member⟩⟩

theorem Extraction.Alike.finish {e e' : Extraction} {text : List Char} {number : Nat}
    (alike : Alike e e' text) :
    List.Forall₂ Block.Alike e.finish (e'.gather number text).finish := by
  rw [Extraction.finish, Extraction.finish, inSpecify_gather, ← alike.inSpecify]
  have blocks : List.Forall₂ Block.Alike e.blocks (e'.gather number text).blocks := by
    simpa using alike.blocks
  split
  · refine close_alike (by simpa using alike.module) blocks ?_
    rw [wordsOf_gather, alike.words]
  · exact blocks

/-- Without macros and strings, where the lines of a source break does not matter. -/
theorem blocks_on_one_line (macros lines : List String) (blocks : List Block)
    (plain : ∀ line ∈ lines, backtick ∉ line.toList ∧ '"' ∉ line.toList)
    (ok : blocksOfLines macros lines = .ok blocks) :
    ∃ blocks', blocksOfLines macros [" ".intercalate lines] = .ok blocks' ∧
      List.Forall₂ Block.SameWords blocks blocks' := by
  obtain ⟨last, found, rfl⟩ := blocksOfLines_ok.mp ok
  have start : Extraction.OneLine {} [] := by
    refine ⟨{}, [], by rw [cutAtStructure]; rfl, rfl, rfl, rfl, .nil, rfl, fun _ => ⟨rfl, rfl⟩⟩
  obtain ⟨e', text, steered, alike⟩ := start.lines (List.not_mem_nil) plain found
  rw [List.nil_append, cuts_joined] at steered
  have unticked := notMem_joined (by decide) lines fun line member => (plain line member).1
  have single : ({} : Extraction).line macros 1 (" ".intercalate lines) = .ok (e'.gather 1 text) := by
    rw [Extraction.line_eq rfl unticked, if_neg (by decide), steered]
  refine ⟨(e'.gather 1 text).finish, blocksOfLines_ok.mpr ⟨e'.gather 1 text, ?_, rfl⟩,
    alike.finish.imp fun _ _ => Block.Alike.sameWords⟩
  rw [Extraction.lines, single]
  rfl

private def broken : List String :=
  ["module M(A); specify", "(A => Q) = 1;", "(B => Q) =", "2; endspecify specify endspecify",
    "endmodule", "module N; specify endspecify endmodule"]

private def brokenBlocks : List Block :=
  [⟨"M", [⟨1, "specify"⟩, ⟨2, "(A => Q) = 1;"⟩, ⟨3, "(B => Q) ="⟩, ⟨4, "2; endspecify"⟩,
    ⟨4, "specify endspecify"⟩]⟩, ⟨"N", [⟨6, "specify endspecify"⟩]⟩]

theorem blocks_on_one_line_broken :
    blocksOfLines [] broken = .ok brokenBlocks ∧
      ∃ blocks', blocksOfLines [] [" ".intercalate broken] = .ok blocks' ∧
        List.Forall₂ Block.SameWords brokenBlocks blocks' := by
  have plain : ∀ line ∈ broken, backtick ∉ line.toList ∧ '"' ∉ line.toList := by decide
  have found : blocksOfLines [] broken = .ok brokenBlocks := by decide +kernel
  exact ⟨found, blocks_on_one_line [] broken brokenBlocks plain found⟩

end Blocks

end CellTiming.Source
