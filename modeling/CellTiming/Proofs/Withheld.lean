import CellTiming.Source.Extract

/-! Lines withheld by a conditional. They are as good as absent, whatever stands around
them, if and only if they have no structural word. -/
namespace CellTiming.Source

def structureWords (line : String) : List (StructureWord × List Char) :=
  (cutAtStructure false false line.toList).2

/-- A line with an `ifdef` of a macro outside the list. -/
def opens (macros : List String) (line : String) : Bool :=
  match Text.afterFirst? ifdefMark line.toList with
  | some rest =>
    match (Text.words rest).head? with
    | some name => !macros.contains (String.ofList name)
    | none => false
  | none => false

def ends (line : String) : Bool :=
  Text.occursIn elseMark line.toList || Text.occursIn endifMark line.toList

/-- The lines without those between an opening line and the next ending one. -/
def remaining (macros : List String) (withheld : Bool) : List String → List String
  | [] => []
  | line :: others =>
    if withheld && !ends line then remaining macros true others
    else line :: remaining macros (opens macros line) others

/-- The opening lines and those left out after them. -/
def withholding (macros : List String) (withheld : Bool) : List String → List String
  | [] => []
  | line :: others =>
    if withheld && !ends line then line :: withholding macros true others
    else if opens macros line then line :: withholding macros true others
    else withholding macros false others

section Numbers

def SourceLine.unnumbered (line : SourceLine) : SourceLine := { line with number := 0 }

def Block.unnumbered (block : Block) : Block :=
  { block with lines := block.lines.map SourceLine.unnumbered }

def Extraction.unnumbered (e : Extraction) : Extraction :=
  { e with
    gathered := e.gathered.map SourceLine.unnumbered
    blocks := e.blocks.map Block.unnumbered }

/-- An error of the structure without its line; an extraction has no others. -/
def unnumberedError : SourceError → SourceError
  | .structural _ text => .structural 0 text
  | e => e

def unnumbered {α : Type} (forget : α → α) : Except SourceError α → Except SourceError α
  | .ok value => .ok (forget value)
  | .error e => .error (unnumberedError e)

/-- The modules in their order with the texts of their lines, or what is wrong. -/
def outcome (macros : List String) (lines : List String) : Except SourceError (List Block) :=
  unnumbered (List.map Block.unnumbered) (blocksOfLines macros lines)

namespace Extraction

theorem gather_unnumbered (e : Extraction) (number : Nat) (text : List Char) :
    (e.gather number text).unnumbered = e.unnumbered.gather 0 text := by
  unfold gather
  dsimp only
  split
  · rfl
  · simp [unnumbered, SourceLine.unnumbered]

theorem insertLines_unnumbered (module : String) (lines : List SourceLine) (blocks : List Block) :
    (insertLines module lines blocks).map Block.unnumbered =
      insertLines module (lines.map SourceLine.unnumbered) (blocks.map Block.unnumbered) := by
  induction blocks with
  | nil => rfl
  | cons block blocks ih =>
    have kept : block.unnumbered.module = block.module := rfl
    simp only [insertLines, List.map_cons, kept]
    split
    · simp [Block.unnumbered]
    · simp [ih]

theorem close_unnumbered (e : Extraction) : e.close.unnumbered = e.unnumbered.close := by
  obtain ⟨module, inSpecify, excluded, gathered, blocks⟩ := e
  cases module with
  | none => rfl
  | some module => simp [close, unnumbered, insertLines_unnumbered]

theorem word_unnumbered (e : Extraction) (number : Nat) (text : List Char) (word : StructureWord)
    (tail : List Char) :
    (e.word? number text word tail).map (Prod.map unnumbered id) =
      e.unnumbered.word? 0 text word tail := by
  have inside : e.unnumbered.inSpecify = e.inSpecify := rfl
  have named : e.unnumbered.module = e.module := rfl
  cases word with
  | module =>
    cases found : e.inSpecify with
    | true => simp [word?, inside, found]
    | false =>
      simp only [word?, inside, found]
      cases moduleName? tail with
      | none => rfl
      | some name => rfl
  | specify =>
    simp only [word?, inside, named]
    split
    · rfl
    · rfl
  | endspecify =>
    simp only [word?, inside]
    split
    · simp [close_unnumbered, gather_unnumbered]
    · rfl
  | endmodule =>
    simp only [word?, inside]
    split
    · rfl
    · rfl

theorem words_unnumbered (number : Nat) (words : List (StructureWord × List Char))
    (e : Extraction) (text : List Char) :
    (e.words? number text words).map unnumbered = e.unnumbered.words? 0 text words := by
  induction words generalizing e text with
  | nil => simp [words?, gather_unnumbered]
  | cons found words ih =>
    obtain ⟨word, tail⟩ := found
    have step := word_unnumbered e number text word tail
    cases next : e.word? number text word tail with
    | none =>
      rw [next] at step
      simp [words?, next, ← step]
    | some pair =>
      rw [next] at step
      simp [words?, next, ← step, ih]

/-- Forgetting the numbers of lines commutes with the step. -/
theorem line_unnumbered (macros : List String) (e : Extraction) (number : Nat) (text : String) :
    Source.unnumbered unnumbered (e.line macros number text) = e.unnumbered.line macros 0 text := by
  have inside : e.unnumbered.inSpecify = e.inSpecify := rfl
  have kept : e.unnumbered.excluded = e.excluded := rfl
  unfold line
  simp only [inside, kept]
  rcases cutAtStructure false false text.toList with ⟨lead, words⟩
  cases words with
  | nil =>
    dsimp only
    split
    · rfl
    · split
      · exact congrArg Except.ok (gather_unnumbered e number text.toList)
      · rfl
  | cons word words =>
    dsimp only
    have step := words_unnumbered number (word :: words) e
      (if (e.inSpecify && !e.excluded) = true then lead else [])
    rw [← step]
    cases e.words? number _ (word :: words) with
    | none => rfl
    | some next => rfl

theorem finish_unnumbered (e : Extraction) :
    e.finish.map Block.unnumbered = e.unnumbered.finish := by
  have inside : e.unnumbered.inSpecify = e.inSpecify := rfl
  unfold finish
  rw [inside]
  split
  · exact congrArg blocks (close_unnumbered e)
  · rfl

end Extraction

/-- From states that differ in numbers only, a line leads to such states or is wrong in both. -/
theorem line_agrees (macros : List String) {e e' : Extraction}
    (same : e.unnumbered = e'.unnumbered) (number number' : Nat) (text : String) :
    (∃ flaw flaw', e.line macros number text = .error flaw ∧
      e'.line macros number' text = .error flaw' ∧
      unnumberedError flaw = unnumberedError flaw') ∨
    (∃ next next', e.line macros number text = .ok next ∧
      e'.line macros number' text = .ok next' ∧ next.unnumbered = next'.unnumbered) := by
  have left := Extraction.line_unnumbered macros e number text
  have right := Extraction.line_unnumbered macros e' number' text
  rw [same, ← right] at left
  cases found : e.line macros number text with
  | error flaw =>
    cases found' : e'.line macros number' text with
    | error flaw' =>
      rw [found, found'] at left
      exact .inl ⟨flaw, flaw', rfl, rfl, Except.error.inj left⟩
    | ok next' =>
      rw [found, found'] at left
      cases left
  | ok next =>
    cases found' : e'.line macros number' text with
    | error flaw' =>
      rw [found, found'] at left
      cases left
    | ok next' =>
      rw [found, found'] at left
      exact .inr ⟨next, next', rfl, rfl, Except.ok.inj left⟩

theorem lines_unnumbered (macros : List String) (texts : List String) {e e' : Extraction}
    (same : e.unnumbered = e'.unnumbered) (number number' : Nat) :
    unnumbered Extraction.unnumbered (Extraction.lines macros e number texts) =
      unnumbered Extraction.unnumbered (Extraction.lines macros e' number' texts) := by
  induction texts generalizing e e' number number' with
  | nil => exact congrArg Except.ok same
  | cons text texts ih =>
    unfold Extraction.lines
    rcases line_agrees macros same number number' text with
      ⟨flaw, flaw', found, found', alike⟩ | ⟨next, next', found, found', alike⟩
    · rw [found, found']
      exact congrArg Except.error alike
    · rw [found, found']
      exact ih alike (number + 1) (number' + 1)

theorem lines_append (macros : List String) (before after : List String) (e : Extraction)
    (number : Nat) :
    Extraction.lines macros e number (before ++ after) =
      Extraction.lines macros e number before >>= fun next =>
        Extraction.lines macros next (number + before.length) after := by
  induction before generalizing e number with
  | nil => rfl
  | cons text before ih =>
    simp only [List.cons_append, Extraction.lines, List.length_cons]
    cases e.line macros number text with
    | error flaw => rfl
    | ok next =>
      have shifted : number + (before.length + 1) = number + 1 + before.length := by omega
      rw [shifted]
      exact ih next (number + 1)

end Numbers

section Regions

variable (macros : List String)

/-- A plain opening line withholds what comes after it. -/
theorem line_of_opens {line : String} (opened : opens macros line = true)
    (plain : structureWords line = []) (e : Extraction) (number : Nat) :
    e.line macros number line = .ok { e with excluded := true } := by
  unfold opens at opened
  unfold structureWords at plain
  cases after : Text.afterFirst? ifdefMark line.toList with
  | none => simp [after] at opened
  | some rest =>
    cases word : (Text.words rest).head? with
    | none => simp [after, word] at opened
    | some name =>
      have directive : isDirective line.toList = true := by
        simp [isDirective, Text.occursIn, after]
      have unlisted : String.ofList name ∉ macros := by
        simpa [after, word] using opened
      rcases cut : cutAtStructure false false line.toList with ⟨lead, words⟩
      rw [cut] at plain
      cases plain
      simp [Extraction.line, cut, directive, excludedAfter, after, word, unlisted]

/-- A plain line is dropped where lines are withheld, unless it ends that. -/
theorem line_of_withheld {e : Extraction} {line : String} (excluded : e.excluded = true)
    (inner : ends line = false) (plain : structureWords line = []) (number : Nat) :
    e.line macros number line = .ok e := by
  unfold structureWords at plain
  have still : excludedAfter macros true line.toList = true := by
    unfold excludedAfter
    unfold ends at inner
    split
    · split
      · rfl
      · rfl
    · simp [inner]
  have same : { e with excluded := true } = e := by rw [← excluded]
  rcases cut : cutAtStructure false false line.toList with ⟨lead, words⟩
  rw [cut] at plain
  cases plain
  simp only [Extraction.line, cut, excluded, still, same]
  split
  · rfl
  · simp

theorem lines_of_withheld {e : Extraction} {region : List String} (excluded : e.excluded = true)
    (inner : ∀ line ∈ region, ends line = false)
    (plain : ∀ line ∈ region, structureWords line = []) (number : Nat) :
    Extraction.lines macros e number region = .ok e := by
  induction region generalizing number with
  | nil => rfl
  | cons line region ih =>
    have dropped := line_of_withheld macros excluded
      (inner line List.mem_cons_self) (plain line List.mem_cons_self) number
    simp only [Extraction.lines, dropped]
    exact ih (fun other member => inner other (List.mem_cons_of_mem _ member))
      (fun other member => plain other (List.mem_cons_of_mem _ member)) (number + 1)

/-- The outcome is read off the states a run reaches, whatever their numbers. -/
theorem outcome_eq (lines : List String) :
    outcome macros lines =
      (unnumbered Extraction.unnumbered (Extraction.lines macros {} 1 lines)).map
        Extraction.finish := by
  unfold outcome blocksOfLines
  cases Extraction.lines macros {} 1 lines with
  | error flaw => rfl
  | ok e => exact congrArg Except.ok (Extraction.finish_unnumbered e)

/-- Runs with and without the lines left out reach states that differ in numbers only,
since the lines are being withheld wherever one is left out. -/
theorem lines_remaining (texts : List String) {e e' : Extraction}
    (same : e.unnumbered = e'.unnumbered) {withheld : Bool}
    (excluded : withheld = true → e.excluded = true)
    (plain : ∀ line ∈ withholding macros withheld texts, structureWords line = [])
    (number number' : Nat) :
    unnumbered Extraction.unnumbered (Extraction.lines macros e number texts) =
      unnumbered Extraction.unnumbered
        (Extraction.lines macros e' number' (remaining macros withheld texts)) := by
  induction texts generalizing e e' withheld number number' with
  | nil => exact congrArg Except.ok same
  | cons text texts ih =>
    unfold withholding at plain
    unfold remaining
    cases inner : withheld && !ends text with
    | true =>
      rw [inner] at plain
      have ⟨on, going⟩ : withheld = true ∧ ends text = false := by simpa using inner
      have dropped := line_of_withheld macros (excluded on) going
        (plain text List.mem_cons_self) number
      simp only [Extraction.lines, dropped]
      exact ih same (fun _ => excluded on)
        (fun line member => plain line (List.mem_cons_of_mem _ member)) (number + 1) number'
    | false =>
      rw [inner] at plain
      simp only [Bool.false_eq_true, if_false] at plain ⊢
      unfold Extraction.lines
      rcases line_agrees macros same number number' text with
        ⟨flaw, flaw', found, found', alike⟩ | ⟨next, next', found, found', alike⟩
      · rw [found, found']
        exact congrArg Except.error alike
      · rw [found, found']
        have others : ∀ line ∈ withholding macros (opens macros text) texts,
            structureWords line = [] := by
          cases opened : opens macros text with
          | true =>
            rw [opened] at plain
            exact fun line member => plain line (List.mem_cons_of_mem _ member)
          | false =>
            rw [opened] at plain
            exact plain
        have withholds (opened : opens macros text = true) : next.excluded = true := by
          rw [opened] at plain
          have step := line_of_opens macros opened (plain text List.mem_cons_self) e number
          rw [found] at step
          rw [Except.ok.inj step]
        exact ih alike withholds others (number + 1) (number' + 1)

theorem lines_of_opens {opener : String} (opened : opens macros opener = true)
    (bare : structureWords opener = []) (e : Extraction) (number : Nat) (texts : List String) :
    Extraction.lines macros e number (opener :: texts) =
      Extraction.lines macros { e with excluded := true } (number + 1) texts := by
  rw [Extraction.lines, line_of_opens macros opened bare e number]
  rfl

/-- What follows an opening line may be dropped, up to where the withholding ends. -/
theorem outcome_of_region {opener : String} {region : List String}
    (opened : opens macros opener = true) (bare : structureWords opener = [])
    (inner : ∀ line ∈ region, ends line = false)
    (plain : ∀ line ∈ region, structureWords line = []) (before after : List String) :
    outcome macros (before ++ opener :: (region ++ after)) =
      outcome macros (before ++ opener :: after) := by
  rw [outcome_eq, outcome_eq, lines_append, lines_append]
  cases Extraction.lines macros {} 1 before with
  | error flaw => rfl
  | ok e =>
    have dropped := lines_of_withheld macros (e := { e with excluded := true }) rfl inner plain
      (1 + before.length + 1)
    change (unnumbered _ (Extraction.lines macros e _ _)).map _ =
      (unnumbered _ (Extraction.lines macros e _ _)).map _
    rw [lines_of_opens macros opened bare, lines_of_opens macros opened bare, lines_append,
      dropped]
    exact congrArg (Except.map Extraction.finish) (lines_unnumbered macros after rfl _ _)

/-- A structural word that is out of place is wrong even where lines are withheld. -/
theorem lines_of_stray {e : Extraction} (excluded : e.excluded = true) {line : String}
    {word : StructureWord} {tail : List Char} {words : List (StructureWord × List Char)}
    (found : structureWords line = (word, tail) :: words)
    (stray : ∀ number, e.word? number [] word tail = none) (number : Nat) (rest : List String) :
    Extraction.lines macros e number (line :: rest) = .error (.structural number line) := by
  unfold structureWords at found
  rcases cut : cutAtStructure false false line.toList with ⟨lead, cuts⟩
  rw [cut] at found
  cases found
  have wrong : e.line macros number line = .error (.structural number line) := by
    simp [Extraction.line, cut, Extraction.words?, excluded, stray]
  rw [Extraction.lines, wrong]
  rfl

theorem outcome_of_stray {opener line : String} {before quiet rest : List String} {e : Extraction}
    (opened : opens macros opener = true) (bare : structureWords opener = [])
    (inner : ∀ other ∈ quiet, ends other = false)
    (plain : ∀ other ∈ quiet, structureWords other = [])
    {word : StructureWord} {tail : List Char} {words : List (StructureWord × List Char)}
    (found : structureWords line = (word, tail) :: words)
    (reached : Extraction.lines macros {} 1 before = .ok e)
    (stray : ∀ number, { e with excluded := true }.word? number [] word tail = none) :
    outcome macros (before ++ opener :: (quiet ++ line :: rest)) ≠
      outcome macros (before ++ [opener]) := by
  have dropped := lines_of_withheld macros (e := { e with excluded := true }) rfl inner plain
    (1 + before.length + 1)
  rw [outcome_eq, outcome_eq, lines_append, lines_append, reached]
  change (unnumbered _ (Extraction.lines macros e _ _)).map _ ≠
    (unnumbered _ (Extraction.lines macros e _ _)).map _
  rw [lines_of_opens macros opened bare, lines_of_opens macros opened bare, lines_append, dropped]
  change (unnumbered _ (Extraction.lines macros _ _ _)).map _ ≠ _
  rw [lines_of_stray macros rfl found stray]
  exact nofun

/-- A source that leaves a specify section open. -/
private def openSection : List String := ["module M;", "specify"]

private theorem lines_openSection :
    ∃ e, Extraction.lines macros {} 1 openSection = .ok e ∧ e.inSpecify = true := by
  have module : cutAtStructure false false "module M;".toList = ([], [(.module, " M;".toList)]) := by
    decide +kernel
  have specify : cutAtStructure false false "specify".toList = ([], [(.specify, [])]) := by
    decide +kernel
  refine ⟨{ module := some "M", inSpecify := true, gathered := [⟨2, "specify"⟩] }, ?_, rfl⟩
  simp only [openSection, Extraction.lines, Extraction.line, module, specify]
  rfl

/-- Where a structural word stands withheld, it is out of place in some source. -/
theorem exists_stray (word : StructureWord) (tail : List Char) :
    ∃ before e, Extraction.lines macros {} 1 before = .ok e ∧
      ∀ number, { e with excluded := true }.word? number [] word tail = none := by
  obtain ⟨inside, reached, opened⟩ := lines_openSection macros
  cases word with
  | module => exact ⟨openSection, inside, reached, fun number => by simp [Extraction.word?, opened]⟩
  | specify => exact ⟨[], {}, rfl, fun number => rfl⟩
  | endspecify => exact ⟨[], {}, rfl, fun number => rfl⟩
  | endmodule =>
    exact ⟨openSection, inside, reached, fun number => by simp [Extraction.word?, opened]⟩

theorem region_invisible_iff {opener : String} {region : List String}
    (opened : opens macros opener = true) (bare : structureWords opener = [])
    (inner : ∀ line ∈ region, ends line = false) :
    (∀ before after, outcome macros (before ++ opener :: (region ++ after)) =
        outcome macros (before ++ opener :: after)) ↔
      ∀ line ∈ region, structureWords line = [] := by
  constructor
  · intro invisible line member
    refine Classical.byContradiction fun structured => ?_
    cases first : region.find? (fun line => !(structureWords line).isEmpty) with
    | none =>
      have none := List.find?_eq_none.mp first line member
      simp [structured] at none
    | some other =>
      obtain ⟨holds, quiet, rest, rfl, plain⟩ := List.find?_eq_some_iff_append.mp first
      obtain ⟨⟨word, tail⟩, words, found⟩ : ∃ first words, structureWords other = first :: words :=
        List.exists_cons_of_ne_nil (by simpa using holds)
      obtain ⟨before, e, reached, stray⟩ := exists_stray macros word tail
      have same := invisible before []
      rw [List.append_nil] at same
      refine outcome_of_stray macros opened bare ?_ ?_ found reached stray same
      · exact fun line member => inner line (List.mem_append_left _ member)
      · exact fun line member => by simpa using plain line member
  · intro plain before after
    exact outcome_of_region macros opened bare inner plain before after

theorem word_excluded {e next : Extraction} {number : Nat} {text left tail : List Char}
    {word : StructureWord} (found : e.word? number text word tail = some (next, left)) :
    next.excluded = e.excluded := by
  cases word with
  | module =>
    unfold Extraction.word? at found
    cases inside : e.inSpecify with
    | true => simp [inside] at found
    | false =>
      cases name : moduleName? tail with
      | none => simp [inside, name] at found
      | some name' =>
        simp only [inside, name] at found
        cases found
        rfl
  | specify =>
    simp only [Extraction.word?] at found
    split at found
    · cases found
    · cases found
      rfl
  | endspecify =>
    simp only [Extraction.word?, Extraction.close, Extraction.gather] at found
    split at found
    · cases found
      dsimp only
      split
      · rfl
      · rfl
    · cases found
  | endmodule =>
    simp only [Extraction.word?] at found
    split at found
    · cases found
    · cases found
      rfl

theorem words_excluded {words : List (StructureWord × List Char)} {e next : Extraction}
    {number : Nat} {text : List Char} (found : e.words? number text words = some next) :
    next.excluded = e.excluded := by
  induction words generalizing e text with
  | nil =>
    simp only [Extraction.words?, Extraction.gather] at found
    cases found
    split
    · rfl
    · rfl
  | cons first words ih =>
    obtain ⟨word, tail⟩ := first
    cases step : e.word? number text word tail with
    | none => simp [Extraction.words?, step] at found
    | some pair =>
      obtain ⟨middle, left⟩ := pair
      simp only [Extraction.words?, step] at found
      rw [ih found, word_excluded step]

/-- A line with structural words is no conditional, whatever else is on it. -/
theorem line_excluded {e next : Extraction} {number : Nat} {line : String}
    (structured : structureWords line ≠ []) (found : e.line macros number line = .ok next) :
    next.excluded = e.excluded := by
  unfold structureWords at structured
  unfold Extraction.line at found
  rcases cut : cutAtStructure false false line.toList with ⟨lead, words⟩
  rw [cut] at structured
  cases words with
  | nil => exact absurd rfl structured
  | cons first words =>
    simp only [cut] at found
    cases reached : e.words? number (if (e.inSpecify && !e.excluded) = true then lead else [])
        (first :: words) with
    | none =>
      rw [reached] at found
      cases found
    | some state =>
      rw [reached] at found
      cases found
      exact words_excluded reached

end Regions

/-- Withheld lines are as good as absent where no line that is withheld, or withholds
others, has a structural word. Withheld lines with one show in some source, and lines
with one withhold nothing. -/
theorem withheld_invisible (macros : List String) :
    (∀ text, (∀ line ∈ withholding macros false (cleanLines text), structureWords line = []) →
      outcome macros (remaining macros false (cleanLines text)) =
        outcome macros (cleanLines text)) ∧
    (∀ opener region, opens macros opener = true → structureWords opener = [] →
      (∀ line ∈ region, ends line = false) →
      ((∀ before after, outcome macros (before ++ opener :: (region ++ after)) =
          outcome macros (before ++ opener :: after)) ↔
        ∀ line ∈ region, structureWords line = [])) ∧
    ∀ (e next : Extraction) number line, structureWords line ≠ [] →
      e.line macros number line = .ok next → next.excluded = e.excluded := by
  refine ⟨fun text plain => ?_, fun opener region opened bare inner => ?_, ?_⟩
  · rw [outcome_eq, outcome_eq,
      lines_remaining macros (cleanLines text) rfl (fun on : false = true => nomatch on) plain 1 1]
  · exact region_invisible_iff macros opened bare inner
  · exact fun e next number line => line_excluded macros

theorem withheld_invisible_path :
    let lines := cleanLines "module M;
specify
`ifdef FAST
(A => Y) = 1;
`else
(A => Y) = 2;
`endif
endspecify
endmodule"
    remaining [] false lines ≠ lines ∧
      outcome [] (remaining [] false lines) = outcome [] lines ∧
      ¬∀ before after, outcome [] (before ++ "`ifdef FAST" :: (["endspecify"] ++ after)) =
        outcome [] (before ++ "`ifdef FAST" :: after) := by
  refine ⟨by decide +kernel, (withheld_invisible []).1 _ (by decide +kernel), fun invisible => ?_⟩
  have plain := ((withheld_invisible []).2.1 "`ifdef FAST" ["endspecify"] (by decide +kernel)
    (by decide +kernel) (by decide +kernel)).mp invisible "endspecify" (by simp)
  exact absurd plain (by decide +kernel)

/-- The end of a section counts even where it is withheld. -/
theorem withheld_endspecify_visible :
    let lines := cleanLines "module M;
specify
`ifdef FAST
endspecify
`endif
endspecify
endmodule"
    outcome [] (remaining [] false lines) ≠ outcome [] lines ∧
      (outcome [] (remaining [] false lines)).toOption =
        some [⟨"M", [⟨0, "specify"⟩, ⟨0, "endspecify"⟩]⟩] := by
  intro lines
  have left : (outcome [] (remaining [] false lines)).toOption =
      some [⟨"M", [⟨0, "specify"⟩, ⟨0, "endspecify"⟩]⟩] := by
    decide +kernel
  have right : (outcome [] lines).toOption = none := by
    decide +kernel
  refine ⟨fun same => ?_, left⟩
  rw [same, right] at left
  cases left

end CellTiming.Source
