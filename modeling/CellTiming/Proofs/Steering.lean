import CellTiming.Source.Extract

/-! How structural words steer an extraction. A line is made up of its cuts; each word leads
from one state to the next, and the text gathered after the last of them is what the line
adds. -/
namespace CellTiming.Source

section Cuts

abbrev Cuts := List Char × List (StructureWord × List Char)

def written (cuts : Cuts) : List Char :=
  cuts.1 ++ cuts.2.flatMap fun cut => cut.1.spelling.toList ++ cut.2

theorem spelling_of_ofChars {word : List Char} {found : StructureWord}
    (known : StructureWord.ofChars? word = some found) : found.spelling.toList = word := by
  have same := List.find?_some known
  exact eq_of_beq same

theorem written_cutAtStructure (afterBacktick inString : Bool) (line : List Char) :
    written (cutAtStructure afterBacktick inString line) = line := by
  fun_induction cutAtStructure afterBacktick inString line with
  | case1 => rfl
  | case2 afterBacktick inString cs text words cut ih =>
    rw [cut] at ih
    exact congrArg ('"' :: ·) ih
  | case3 afterBacktick inString c cs _ _ text words cut ih =>
    rw [cut] at ih
    exact congrArg (c :: ·) ih
  | case4 afterBacktick inString c cs _ _ word _ text words cut found known ih =>
    rw [cut] at ih
    split at known
    · cases known
    · have whole : word ++ cs.dropWhile isWordChar = c :: cs :=
        congrArg (c :: ·) List.takeWhile_append_dropWhile
      rw [← whole, ← ih, ← spelling_of_ofChars known]
      simp [written]
  | case5 afterBacktick inString c cs _ _ word _ text words cut _ ih =>
    rw [cut] at ih
    have whole : word ++ cs.dropWhile isWordChar = c :: cs :=
      congrArg (c :: ·) List.takeWhile_append_dropWhile
    rw [← whole, ← ih]
    simp [written]

end Cuts

namespace Extraction

section Gathering

variable {e : Extraction} {number : Nat} {text : List Char}

theorem gather_eq : e.gather number text =
    { e with gathered := (e.gather number text).gathered } := by
  unfold gather
  dsimp only
  split <;> rfl

@[simp] theorem inSpecify_gather : (e.gather number text).inSpecify = e.inSpecify := by
  rw [gather_eq]

@[simp] theorem module_gather : (e.gather number text).module = e.module := by
  rw [gather_eq]

@[simp] theorem excluded_gather : (e.gather number text).excluded = e.excluded := by
  rw [gather_eq]

@[simp] theorem blocks_gather : (e.gather number text).blocks = e.blocks := by
  rw [gather_eq]

end Gathering

section Steps

variable {e next : Extraction} {number : Nat} {text after tail : List Char} {word : StructureWord}

/-- What a structural word makes of a state and the text gathered so far. -/
inductive Steers (e : Extraction) (number : Nat) (text tail : List Char) :
    StructureWord → Extraction → List Char → Prop
  | module {name} (outside : e.inSpecify = false) (named : moduleName? tail = some name) :
      Steers e number text tail .module { e with module := some name } text
  | specify {name} (outside : e.inSpecify = false) (known : e.module = some name) :
      Steers e number text tail .specify { e with inSpecify := true }
        (text ++ StructureWord.specify.spelling.toList ++ tail)
  | endspecify (inside : e.inSpecify = true) :
      Steers e number text tail .endspecify
        (e.gather number (text ++ StructureWord.endspecify.spelling.toList)).close []
  | endmodule (outside : e.inSpecify = false) :
      Steers e number text tail .endmodule { e with module := none } text

theorem steers_iff : e.word? number text word tail = some (next, after) ↔
    Steers e number text tail word next after := by
  constructor
  · intro steered
    cases word with
    | module =>
      cases outside : e.inSpecify with
      | true => simp [word?, outside] at steered
      | false =>
        cases named : moduleName? tail with
        | none => simp [word?, outside, named] at steered
        | some name =>
          have same : ({ e with module := some name }, text) = (next, after) := by
            simpa [word?, outside, named] using steered
          cases same
          exact .module outside named
    | specify =>
      simp only [word?] at steered
      split at steered
      next => cases steered
      next ready =>
        rw [Bool.or_eq_true, not_or, Bool.not_eq_true, Bool.not_eq_true, Option.isNone_eq_false_iff]
          at ready
        obtain ⟨name, known⟩ := Option.isSome_iff_exists.mp ready.1
        cases steered
        exact .specify ready.2 known
    | endspecify =>
      simp only [word?] at steered
      split at steered
      next inside =>
        cases steered
        exact .endspecify inside
      next => cases steered
    | endmodule =>
      simp only [word?] at steered
      split at steered
      next => cases steered
      next outside =>
        cases steered
        exact .endmodule (by simpa using outside)
  · intro steers
    cases steers with
    | module outside named => simp [word?, outside, named]
    | specify outside known => simp [word?, outside, known]
    | endspecify inside => simp [word?, inside]
    | endmodule outside => simp [word?, outside]

/-- The state after the last of several words, and the text gathered by then. -/
def steered? (e : Extraction) (number : Nat) (text : List Char) :
    List (StructureWord × List Char) → Option (Extraction × List Char)
  | [] => some (e, text)
  | (word, tail) :: words => do
    let (next, text) ← e.word? number text word tail
    next.steered? number text words

theorem words_eq (e : Extraction) (number : Nat) (text : List Char)
    (words : List (StructureWord × List Char)) :
    e.words? number text words =
      (e.steered? number text words).map fun step => step.1.gather number step.2 := by
  induction words generalizing e text with
  | nil => rfl
  | cons cut words ih =>
    rw [words?, steered?]
    cases e.word? number text cut.1 cut.2 with
    | none => rfl
    | some step => exact ih step.1 step.2

theorem steered_append (e : Extraction) (number : Nat) (text : List Char)
    (first second : List (StructureWord × List Char)) :
    e.steered? number text (first ++ second) = (e.steered? number text first).bind fun step =>
      step.1.steered? number step.2 second := by
  induction first generalizing e text with
  | nil => rfl
  | cons cut first ih =>
    rw [List.cons_append, steered?, steered?]
    cases e.word? number text cut.1 cut.2 with
    | none => rfl
    | some step => exact ih step.1 step.2

/-- What holds of a state and its text after each word holds after all of them. -/
theorem steered_invariant (P : Extraction → List Char → List (StructureWord × List Char) → Prop)
    (step : ∀ {e text word tail words next after}, P e text ((word, tail) :: words) →
      Steers e number text tail word next after → P next after words)
    {words : List (StructureWord × List Char)} (holds : P e text words)
    (steered : e.steered? number text words = some (next, after)) : P next after [] := by
  induction words generalizing e text with
  | nil =>
    cases steered
    exact holds
  | cons cut words ih =>
    rw [steered?] at steered
    cases found : e.word? number text cut.1 cut.2 with
    | none => simp [found] at steered
    | some step' =>
      rw [found] at steered
      exact ih (step holds (steers_iff.mp found)) steered

end Steps

section Lines

variable {macros cleaned : List String} {last : Extraction}

private theorem lines_invariant_behind (P : Extraction → Prop)
    (step : ∀ {e next number line}, 1 ≤ number → cleaned[number - 1]? = some line → P e →
      e.line macros number line = .ok next → P next)
    {before rest : List String} (whole : cleaned = before ++ rest) {e : Extraction} (holds : P e)
    (ok : lines macros e (before.length + 1) rest = .ok last) : P last := by
  induction rest generalizing e before with
  | nil =>
    cases ok
    exact holds
  | cons line rest ih =>
    rw [lines] at ok
    cases found : e.line macros (before.length + 1) line with
    | error flaw => rw [found] at ok; cases ok
    | ok next =>
      rw [found] at ok
      have at_ : cleaned[before.length + 1 - 1]? = some line := by simp [whole]
      have whole : cleaned = (before ++ [line]) ++ rest := by simp [whole]
      refine ih whole (step (Nat.le_add_left 1 _) at_ holds found) ?_
      rw [List.length_append, List.length_singleton]
      exact ok

/-- What holds of a state after each line of a source holds after all of them. -/
theorem lines_invariant (P : Extraction → Prop)
    (step : ∀ {e next number line}, 1 ≤ number → cleaned[number - 1]? = some line → P e →
      e.line macros number line = .ok next → P next)
    (start : P {}) (ok : lines macros {} 1 cleaned = .ok last) : P last :=
  lines_invariant_behind P step (List.nil_append cleaned).symm start ok

end Lines

end Extraction

theorem blocksOfLines_ok {macros lines : List String} {blocks : List Block} :
    blocksOfLines macros lines = .ok blocks ↔
      ∃ last, Extraction.lines macros {} 1 lines = .ok last ∧ last.finish = blocks := by
  rw [blocksOfLines]
  cases Extraction.lines macros {} 1 lines with
  | error flaw => exact ⟨nofun, nofun⟩
  | ok last => exact ⟨fun same => ⟨last, rfl, Except.ok.inj same⟩, fun ⟨_, rfl, same⟩ => same ▸ rfl⟩

theorem Block.toList_text (block : Block) : block.text.toList =
    ['\n'].intercalate (block.lines.map fun line => line.text.toList) := by
  rw [text, String.toList_intercalate, List.map_map]
  rfl

end CellTiming.Source
