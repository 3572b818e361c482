import CellTiming.Proofs.Drawn
import Mathlib.Data.List.Infix

/-! Which lines are directives. A mark stands in a line as a whole word or at the front of a
longer macro name; both make a directive of a line without structural words, and on a line
with structural words neither does. -/
namespace CellTiming

namespace Source

section Marks

def directiveMarks : List (List Char) := [ifdefMark, ifndefMark, elseMark, endifMark]

/-- A mark stands in the text, at the front of a longer macro name or as a whole word. -/
def holdsMark (longer : Bool) (text : List Char) : Bool :=
  text.tails.any fun tail => directiveMarks.any fun mark =>
    mark.isPrefixOf tail && (tail.drop mark.length).head?.any isWordChar == longer

abbrev holdsDirective : List Char → Bool := holdsMark false

abbrev holdsLonger : List Char → Bool := holdsMark true

variable {text line : List Char}

theorem isDirective_iff_inside :
    isDirective text = true ↔ ∃ mark ∈ directiveMarks, mark <:+: text := by
  simp only [isDirective, directiveMarks, List.any_eq_true, Text.occursIn_iff]

theorem holdsMark_iff {longer : Bool} : holdsMark longer text = true ↔
    ∃ mark ∈ directiveMarks, ∃ tail, mark <+: tail ∧ tail <:+ text ∧
      (tail.drop mark.length).head?.any isWordChar = longer := by
  simp only [holdsMark, List.any_eq_true, List.mem_tails, Bool.and_eq_true,
    List.isPrefixOf_iff_prefix, beq_iff_eq]
  constructor
  · rintro ⟨tail, behind, mark, member, begins, next⟩
    exact ⟨mark, member, tail, begins, behind, next⟩
  · rintro ⟨mark, member, tail, begins, behind, next⟩
    exact ⟨tail, behind, mark, member, begins, next⟩

theorem isDirective_iff : isDirective text = true ↔
    holdsDirective text = true ∨ holdsLonger text = true := by
  rw [isDirective_iff_inside, holdsMark_iff, holdsMark_iff]
  constructor
  · rintro ⟨mark, member, piece⟩
    obtain ⟨tail, begins, behind⟩ := List.infix_iff_prefix_suffix.mp piece
    cases next : (tail.drop mark.length).head?.any isWordChar with
    | false => exact .inl ⟨mark, member, tail, begins, behind, next⟩
    | true => exact .inr ⟨mark, member, tail, begins, behind, next⟩
  · rintro (⟨mark, member, tail, begins, behind, _⟩ | ⟨mark, member, tail, begins, behind, _⟩)
    · exact ⟨mark, member, begins.isInfix.trans behind.isInfix⟩
    · exact ⟨mark, member, begins.isInfix.trans behind.isInfix⟩

theorem isDirective_of_inside (piece : text <:+: line) (marked : isDirective text = true) :
    isDirective line = true := by
  obtain ⟨mark, member, inside⟩ := isDirective_iff_inside.mp marked
  exact isDirective_iff_inside.mpr ⟨mark, member, inside.trans piece⟩

theorem trim_ne_nil_of_directive (marked : isDirective text = true) : Text.trim text ≠ [] := by
  have ticked : ∀ mark ∈ directiveMarks, backtick ∈ mark := by decide
  obtain ⟨mark, member, inside⟩ := isDirective_iff_inside.mp marked
  exact Text.trim_ne_nil (inside.subset (ticked mark member)) rfl

end Marks

namespace Extraction

variable {macros : List String} {e next : Extraction} {number : Nat}

section Lines

variable {line : String}

/-- No structural word stands in the line. -/
def Wordless (line : String) : Prop := (cutAtStructure false false line.toList).2 = []

instance (line : String) : Decidable (Wordless line) :=
  inferInstanceAs (Decidable ((cutAtStructure false false line.toList).2 = []))

/-- What a line without structural words may do: steer exclusion if it is a directive, be
collected in an open section that is not excluded if it is none. -/
structure Passes (directive : Bool) (number : Nat) (line : String) (e next : Extraction) : Prop where
  module : next.module = e.module
  inSpecify : next.inSpecify = e.inSpecify
  blocks : next.blocks = e.blocks
  excluded : directive = false → next.excluded = e.excluded
  gathered : next.gathered = e.gathered ++
    if !directive && e.inSpecify && !e.excluded && !(Text.trim line.toList).isEmpty then
      [⟨number, String.ofList (Text.trim line.toList)⟩] else []

theorem line_wordless (wordless : Wordless line) : e.line macros number line =
    .ok (if isDirective line.toList then
        { e with excluded := excludedAfter macros e.excluded line.toList }
      else if e.inSpecify && !e.excluded then e.gather number line.toList else e) := by
  rw [Extraction.line]
  split
  next => split <;> rfl
  next lead words some_ cut =>
    rw [Wordless, cut] at wordless
    exact (some_ wordless).elim

theorem passes_of_line (wordless : Wordless line) (ok : e.line macros number line = .ok next) :
    Passes (isDirective line.toList) number line e next := by
  rw [line_wordless wordless] at ok
  cases ok
  split
  next directive => exact ⟨rfl, rfl, rfl, by simp [directive], by simp [directive]⟩
  next plain =>
    rw [Bool.not_eq_true] at plain
    split
    next opened =>
      rw [Bool.and_eq_true, Bool.not_eq_true'] at opened
      refine ⟨by simp, by simp, by simp, by simp, ?_⟩
      unfold gather
      dsimp only
      split
      next blank => simp [blank]
      next dark => simp [plain, opened.1, opened.2, dark]
    next closed =>
      rw [Bool.not_eq_true] at closed
      exact ⟨rfl, rfl, rfl, fun _ => rfl, by simp [plain, closed]⟩

/-- On a line without structural words a longer name passes for the directive it starts with. -/
theorem passes_as_directive_iff (wordless : Wordless line) :
    (∀ e number next, e.line macros number line = .ok next →
      Passes (holdsDirective line.toList) number line e next) ↔
    (holdsLonger line.toList = true → holdsDirective line.toList = true) := by
  constructor
  · intro passes longer
    have marked := isDirective_iff.mpr (.inr longer)
    have passed := passes { inSpecify := true } 0 _ (line_wordless wordless)
    have gathered := passed.gathered
    by_contra other
    rw [Bool.not_eq_true] at other
    simp [marked, other, trim_ne_nil_of_directive marked] at gathered
  · intro covered e number next ok
    have same : isDirective line.toList = holdsDirective line.toList := by
      rw [Bool.eq_iff_iff, isDirective_iff]
      exact ⟨fun held => held.elim id covered, .inl⟩
    exact same ▸ passes_of_line wordless ok

end Lines

section Collected

/-- Every collected line has the property. -/
def All (P : SourceLine → Prop) (e : Extraction) : Prop :=
  (∀ line ∈ e.gathered, P line) ∧ ∀ block ∈ e.blocks, ∀ line ∈ block.lines, P line

variable {P : SourceLine → Prop} {text : List Char}

theorem All.gather (all : e.All P) (new : P ⟨number, String.ofList (Text.trim text)⟩) :
    (e.gather number text).All P := by
  unfold Extraction.gather
  dsimp only
  split
  · exact all
  · exact ⟨List.forall_mem_append.mpr ⟨all.1, List.forall_mem_singleton.mpr new⟩, all.2⟩

theorem all_insertLines {module : String} {gathered : List SourceLine} {blocks : List Block}
    (new : ∀ line ∈ gathered, P line) (known : ∀ block ∈ blocks, ∀ line ∈ block.lines, P line) :
    ∀ block ∈ insertLines module gathered blocks, ∀ line ∈ block.lines, P line := by
  induction blocks with
  | nil => exact List.forall_mem_singleton.mpr new
  | cons block blocks ih =>
    obtain ⟨first, others⟩ := List.forall_mem_cons.mp known
    rw [insertLines]
    split
    · exact List.forall_mem_cons.mpr ⟨List.forall_mem_append.mpr ⟨first, new⟩, others⟩
    · exact List.forall_mem_cons.mpr ⟨first, ih others⟩

theorem All.close (all : e.All P) : e.close.All P := by
  refine ⟨List.forall_mem_nil _, ?_⟩
  unfold Extraction.close
  cases e.module with
  | none => exact all.2
  | some module => exact all_insertLines all.1 all.2

/-- A property that every piece of a line with structural words has is kept by the line. -/
theorem All.line {written : String} (all : e.All P)
    (piece : ¬Wordless written → ∀ text, P ⟨number, text⟩)
    (whole : Wordless written → isDirective written.toList = false →
      P ⟨number, String.ofList (Text.trim written.toList)⟩)
    (ok : e.line macros number written = .ok next) : next.All P := by
  by_cases wordless : Wordless written
  · rw [line_wordless wordless] at ok
    cases ok
    split
    · exact all
    next plain =>
      split
      · exact all.gather (whole wordless (by simpa using plain))
      · exact all
  · have each := piece wordless
    rw [Extraction.line] at ok
    split at ok
    next cut => exact absurd (by rw [Wordless, cut]) wordless
    next =>
      split at ok
      next found =>
        cases ok
        rw [words_eq, Option.map_eq_some_iff] at found
        obtain ⟨last, steered, rfl⟩ := found
        refine All.gather (steered_invariant (fun e _ _ => e.All P) ?_ all steered) (each _)
        intro e text word tail words next after all steers
        cases steers with
        | module | specify | endmodule => exact all
        | endspecify => exact (all.gather (each _)).close
      next => cases ok

/-- A collected line that holds a mark comes from a line with structural words. -/
def Marked (cleaned : List String) (collected : SourceLine) : Prop :=
  isDirective collected.text.toList = true →
    ∃ line, cleaned[collected.number - 1]? = some line ∧ ¬Wordless line

theorem marked_of_lines {cleaned : List String} {last : Extraction}
    (ok : Extraction.lines macros {} 1 cleaned = .ok last) : last.All (Marked cleaned) := by
  refine lines_invariant (fun e => e.All (Marked cleaned)) (fun {_ _ _ written} _ at_ all found => ?_)
    ⟨List.forall_mem_nil _, List.forall_mem_nil _⟩ ok
  refine all.line (fun worded _ _ => ⟨written, at_, worded⟩) (fun _ plain marked => ?_) found
  have whole := isDirective_of_inside (Text.trim_infix written.toList) (by simpa using marked)
  exact absurd whole (by simp [plain])

end Collected

end Extraction

open Extraction

theorem marked_of_blocks {macros cleaned : List String} {blocks : List Block}
    (ok : blocksOfLines macros cleaned = .ok blocks) :
    ∀ block ∈ blocks, ∀ collected ∈ block.lines, Marked cleaned collected := by
  obtain ⟨last, found, rfl⟩ := blocksOfLines_ok.mp ok
  have all := marked_of_lines found
  rw [Extraction.finish]
  split
  · exact all.close.2
  · exact all.2

/-- A line without structural words is withheld or steers exclusion for a directive or a longer
name that starts with one, and for nothing but a directive exactly where no longer name stands
alone. A line is collected with a mark on it only next to structural words. -/
theorem directives_steer (macros : List String) (source : String) :
    (∀ line ∈ cleanLines source, Wordless line →
      (∀ e number, ∃ next, e.line macros number line = .ok next ∧
        Passes (holdsDirective line.toList || holdsLonger line.toList) number line e next) ∧
      ((∀ e number next, e.line macros number line = .ok next →
          Passes (holdsDirective line.toList) number line e next) ↔
        (holdsLonger line.toList = true → holdsDirective line.toList = true))) ∧
    ∀ blocks, blocksOfLines macros (cleanLines source) = .ok blocks →
      ∀ block ∈ blocks, ∀ collected ∈ block.lines,
        holdsDirective collected.text.toList = true ∨ holdsLonger collected.text.toList = true →
        ∃ line, (cleanLines source)[collected.number - 1]? = some line ∧ ¬Wordless line ∧
          (holdsDirective line.toList = true ∨ holdsLonger line.toList = true) := by
  refine ⟨fun line _ wordless => ⟨fun e number => ?_, passes_as_directive_iff wordless⟩, ?_⟩
  · refine ⟨_, line_wordless wordless, ?_⟩
    have same : isDirective line.toList =
        (holdsDirective line.toList || holdsLonger line.toList) := by
      rw [Bool.eq_iff_iff, isDirective_iff, Bool.or_eq_true]
    exact same ▸ passes_of_line wordless (line_wordless wordless)
  · intro blocks ok block member collected own held
    have marked := isDirective_iff.mpr held
    obtain ⟨line, at_, worded⟩ := marked_of_blocks ok block member collected own marked
    obtain ⟨_, line', at_', piece⟩ := (drawn_of_blocks ok block member).2 collected own
    rw [at_] at at_'
    cases at_'
    exact ⟨line, at_, worded, isDirective_iff.mp (isDirective_of_inside piece marked)⟩

private def delayed : String :=
  "module M;\nspecify\n(A => Y) = \x60TPD;\n\x60ifdef FAST\n(B => Y) = 2;\nendspecify"

private def macroUse : String := "(A => Y) = \x60TPD;"

theorem directives_steer_macro :
    macroUse ∈ cleanLines delayed ∧ Wordless macroUse ∧
    (holdsDirective macroUse.toList || holdsLonger macroUse.toList) = false ∧
    (∀ e number, ∃ next, e.line [] number macroUse = .ok next ∧
      Passes false number macroUse e next) ∧
    (blocks [] delayed).toOption =
      some [⟨"M", [⟨2, "specify"⟩, ⟨3, macroUse⟩, ⟨6, "endspecify"⟩]⟩] := by
  have among : macroUse ∈ cleanLines delayed := by decide +kernel
  have wordless : Wordless macroUse := by decide +kernel
  have none : (holdsDirective macroUse.toList || holdsLonger macroUse.toList) = false := by
    decide +kernel
  have passes := ((directives_steer [] delayed).1 macroUse among wordless).1
  exact ⟨among, wordless, none, none ▸ passes, by decide +kernel⟩

/-- A use of a macro whose name starts like a directive is withheld, and a directive beside a
structural word is collected. -/
theorem longer_name_withheld :
    (blocks [] "module M;\nspecify\n(A => Y) = \x60else_delay;\nendspecify\nendmodule").toOption =
      some [⟨"M", [⟨2, "specify"⟩, ⟨4, "endspecify"⟩]⟩] ∧
    Wordless "(A => Y) = \x60else_delay;" ∧
    holdsDirective "(A => Y) = \x60else_delay;".toList = false ∧
    (blocks [] "module M;\nspecify \x60ifdef FAST\nendspecify\nendmodule").toOption =
      some [⟨"M", [⟨2, "specify \x60ifdef FAST"⟩, ⟨3, "endspecify"⟩]⟩] ∧
    holdsDirective "specify \x60ifdef FAST".toList = true := by
  refine ⟨?_, ?_, ?_, ?_, ?_⟩ <;> decide +kernel

end Source

end CellTiming
