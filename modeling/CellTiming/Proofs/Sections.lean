import CellTiming.Proofs.Directives
import CellTiming.Proofs.Drawn
import CellTiming.Proofs.Grouping
import CellTiming.Proofs.Recut
import CellTiming.Proofs.SpreadLines

/-! Sections. All that is gathered from a source is stored once, for the module it stands in. In
the lines of a module the words `specify` and `endspecify` take turns, but for the section that
the source leaves open. -/
namespace CellTiming.Source

/-- A gathered line and the module it is gathered for. -/
abbrev Entry := Option String × SourceLine

def sections (count : Nat) : List StructureWord :=
  (List.replicate count [.specify, .endspecify]).flatten

def moduleWords (module : String) (log : List Entry) : List StructureWord :=
  (log.filter (·.1 = some module)).flatMap fun entry => wordsIn entry.2.text.toList

/-- The line is not empty and has no blank at either end. -/
def SourceLine.Trimmed (line : SourceLine) : Prop :=
  line.text ≠ "" ∧ Text.trim line.text.toList = line.text.toList

/-- The lines of a block are trimmed pieces of those of the source in their order. The words
`specify` and `endspecify` take turns in them, and all sections but the one left open are ended. -/
structure Block.Bracketed (cleaned : List String) (leftOpen : Option String) (block : Block) :
    Prop where
  drawn : ∀ line ∈ block.lines, line.DrawnFrom cleaned ∧ line.Trimmed
  ordered : block.lines.Pairwise (·.number ≤ ·.number)
  turns : ∃ count, (block.lines.flatMap fun line => wordsIn line.text.toList) =
    if leftOpen = some block.module then sections count ++ [.specify] else sections (count + 1)

namespace Extraction

/-- The module whose section is open. -/
def leftOpen (e : Extraction) : Option String := if e.inSpecify then e.module else none

/-- What is gathered of a text. -/
def piece (number : Nat) (text : List Char) : List SourceLine :=
  if (Text.trim text).isEmpty then [] else [⟨number, String.ofList (Text.trim text)⟩]

/-- What is gathered where a structural word is met. -/
def collectedAt (e : Extraction) (number : Nat) (text : List Char) (word : StructureWord) :
    List Entry :=
  if word = .endspecify then (piece number (text ++ word.spelling.toList)).map (e.module, ·) else []

def collectedWords (e : Extraction) (number : Nat) (text : List Char) : Words → List Entry
  | [] => (piece number text).map (e.module, ·)
  | (word, tail) :: words => e.collectedAt number text word ++
    match e.word? number text word tail with
    | some (next, after) => next.collectedWords number after words
    | none => []

def collectedLine (e : Extraction) (number : Nat) (text : String) : List Entry :=
  let gathering := e.inSpecify && !e.excluded
  match cutAtStructure false false text.toList with
  | (_, []) =>
    if isDirective text.toList || !gathering then []
    else (piece number text.toList).map (e.module, ·)
  | (lead, words) => e.collectedWords number (if gathering then lead else []) words

/-- All that is gathered on the way through the lines, in its order. -/
def collected (macros : List String) (e : Extraction) (number : Nat) : List String → List Entry
  | [] => []
  | text :: others => e.collectedLine number text ++
    match e.line macros number text with
    | .ok next => next.collected macros (number + 1) others
    | .error _ => []

end Extraction

section Words

theorem sections_succ (count : Nat) :
    sections count ++ [.specify, .endspecify] = sections (count + 1) := by
  rw [sections, sections, List.replicate_succ', List.flatten_append, List.flatten_singleton]

theorem moduleWords_append (module : String) (log more : List Entry) :
    moduleWords module (log ++ more) = moduleWords module log ++ moduleWords module more := by
  rw [moduleWords, List.filter_append, List.flatMap_append]
  rfl

/-- Each module for which something is gathered has a section. -/
def Begun (log : List Entry) : Prop :=
  ∀ entry ∈ log, ∀ module, entry.1 = some module → .specify ∈ moduleWords module log

theorem Begun.append {log more : List Entry} (begun : Begun log)
    (new : ∀ entry ∈ more, ∀ module, entry.1 = some module →
      .specify ∈ moduleWords module (log ++ more)) : Begun (log ++ more) := by
  intro entry member module own
  rcases List.mem_append.mp member with earlier | later
  · rw [moduleWords_append]
    exact List.mem_append_left _ (begun entry earlier module own)
  · exact new entry later module own

theorem moduleWords_piece (module : String) (known : Option String) (number : Nat)
    (text : List Char) :
    moduleWords module ((Extraction.piece number text).map (known, ·)) =
      if known = some module then wordsIn text else [] := by
  unfold Extraction.piece
  split
  next blank =>
    have none : wordsIn text = [] := by
      rw [← wordsIn_trim, List.isEmpty_iff.mp blank, wordsIn, cutAtStructure]
      rfl
    simp [moduleWords, none]
  next =>
    by_cases own : known = some module <;> simp [moduleWords, own, wordsIn_trim]

end Words

namespace Extraction

variable {macros : List String} {e next : Extraction} {number : Nat} {log : List Entry}
  {text after tail : List Char} {word : StructureWord} {words : Words}
  {pending : List StructureWord}

theorem gather_piece : e.gather number text =
    { e with gathered := e.gathered ++ piece number text } := by
  unfold gather piece
  dsimp only
  split <;> simp

def blockOf (module : String) (entries : List (String × SourceLine)) : Block :=
  ⟨module, entries.map Prod.snd⟩

section Storing

theorem insertLines_append (module : String) (first second : List SourceLine)
    (blocks : List Block) : insertLines module (first ++ second) blocks =
      insertLines module second (insertLines module first blocks) := by
  induction blocks with
  | nil => simp [insertLines]
  | cons block blocks ih =>
    by_cases own : block.module = module
    · simp [insertLines, own]
    · simp [insertLines, own, ih]

theorem files_insertLines : Files Prod.fst blockOf fun blocks entry =>
    insertLines entry.1 [entry.2] blocks where
  fresh _ := rfl
  found entries blocks entry := by simp [blockOf, insertLines]
  other module entries blocks entry different := by
    rw [insertLines, if_neg (show (blockOf module entries).module ≠ entry.1 from different)]

theorem insertLines_eq_foldl (module : String) {lines : List SourceLine} (some_ : lines ≠ [])
    (blocks : List Block) : insertLines module lines blocks =
      (lines.map (module, ·)).foldl (fun blocks entry => insertLines entry.1 [entry.2] blocks)
        blocks := by
  induction lines generalizing blocks with
  | nil => exact absurd rfl some_
  | cons line lines ih =>
    cases lines with
    | nil => rfl
    | cons second lines =>
      rw [← List.singleton_append, insertLines_append, ih (List.cons_ne_nil _ _)]
      rfl

theorem insertLines_grouped (module : String) {lines : List SourceLine} (some_ : lines ≠ [])
    (entries : List (String × SourceLine)) :
    insertLines module lines (grouped Prod.fst blockOf entries) =
      grouped Prod.fst blockOf (entries ++ lines.map (module, ·)) := by
  rw [insertLines_eq_foldl module some_, ← files_insertLines.foldl, ← files_insertLines.foldl,
    List.foldl_append]

end Storing

/-- What has been stored and is still to be stored is all that has been gathered, and with the
pending words of the text at hand the words of each module are whole sections up to the open one. -/
structure Told (e : Extraction) (log : List Entry) (pending : List StructureWord) : Prop where
  stored : ∃ closed : List (String × SourceLine), e.blocks = grouped Prod.fst blockOf closed ∧
    log = closed.map (Prod.map some id) ++ e.gathered.map (e.module, ·)
  quiet : e.inSpecify = false → e.gathered = []
  known : e.inSpecify = true → e.module ≠ none
  begun : Begun log
  turns : ∀ module, ∃ count,
    moduleWords module log ++ (if e.module = some module then pending else []) =
      sections count ++ if e.leftOpen = some module then [.specify] else []

/-- In the middle of a line the text at hand has the pending words, and so has the whole of what
is left of the line, before the words to come. -/
structure Midway (e : Extraction) (log : List Entry) (text : List Char) (words : Words) : Prop where
  quiet : e.inSpecify = false → text = []
  told : ∃ lead first, text = written (lead, first) ∧
    cutAtStructure false false (text ++ written ([], words)) = (lead, first ++ words) ∧
    Told e log (first.map Prod.fst)

section Steps

theorem written_eq_nil {lead : List Char} {first : Words} (none : [] = written (lead, first)) :
    lead = [] ∧ first = [] := by
  cases first with
  | nil => exact ⟨by simpa [written] using none.symm, rfl⟩
  | cons cut first =>
    obtain ⟨c, member, _⟩ := dark_of_spelling cut.1
    have inside : c ∈ written (lead, cut :: first) := by simp [written, member]
    simp [← none] at inside

/-- Outside a section it makes no difference which module stands there. -/
theorem Told.outside (told : Told e log pending) (outside : e.inSpecify = false)
    (module : Option String) (none : pending = []) :
    Told { e with module := module } log [] := by
  obtain ⟨⟨closed, blocks, same⟩, quiet, _, begun, turns⟩ := told
  subst none
  refine ⟨⟨closed, blocks, ?_⟩, quiet, ?_, begun, fun name => ?_⟩
  · rw [same]
    simp [quiet outside]
  · simp [outside]
  · obtain ⟨count, words⟩ := turns name
    refine ⟨count, ?_⟩
    simpa [leftOpen, outside] using words

theorem Told.opened (told : Told e log []) (outside : e.inSpecify = false)
    (known : e.module ≠ none) : Told { e with inSpecify := true } log [.specify] := by
  obtain ⟨stored, _, _, begun, turns⟩ := told
  refine ⟨stored, by simp, fun _ => known, begun, fun name => ?_⟩
  obtain ⟨count, words⟩ := turns name
  refine ⟨count, ?_⟩
  have before : moduleWords name log = sections count := by simpa [leftOpen, outside] using words
  rw [before]
  rfl

/-- What is gathered in an open section, up to its end or not, has the pending words. -/
theorem Told.gathered (told : Told e log pending) (inside : e.inSpecify = true)
    (found : wordsIn text = pending) :
    Told (e.gather number text) (log ++ (piece number text).map (e.module, ·)) [] := by
  obtain ⟨⟨closed, blocks, same⟩, _, known, begun, turns⟩ := told
  rw [gather_piece]
  have turns' (name : String) : ∃ count,
      moduleWords name (log ++ (piece number text).map (e.module, ·)) =
        sections count ++ if e.leftOpen = some name then [.specify] else [] := by
    obtain ⟨count, words⟩ := turns name
    exact ⟨count, by rw [moduleWords_append, moduleWords_piece, found, words]⟩
  refine ⟨⟨closed, blocks, ?_⟩, by simp [inside], known, begun.append fun entry new name own => ?_,
    fun name => ?_⟩
  · rw [same, List.append_assoc, List.map_append]
  · obtain ⟨count, words⟩ := turns' name
    obtain ⟨_, _, rfl⟩ := List.mem_map.mp new
    have opened : e.leftOpen = some name := by rw [leftOpen, inside]; exact own
    rw [words, if_pos opened]
    exact List.mem_append_right _ (List.mem_singleton_self _)
  · rw [ite_self, List.append_nil]
    exact turns' name

theorem Told.closed (told : Told e log pending) (inside : e.inSpecify = true)
    (found : wordsIn text = pending ++ [.endspecify]) {c : Char} (member : c ∈ text)
    (dark : Text.isBlank c = false) :
    Told (e.gather number text).close (log ++ (piece number text).map (e.module, ·)) [] := by
  obtain ⟨⟨closed, blocks, same⟩, _, known, begun, turns⟩ := told
  obtain ⟨name, own⟩ := Option.ne_none_iff_exists'.mp (known inside)
  have some_ : e.gathered ++ piece number text ≠ [] := by
    simp [piece, Text.trim_ne_nil member dark]
  have turns' (module : String) : ∃ count,
      moduleWords module (log ++ (piece number text).map (e.module, ·)) = sections count ∧
        (e.module = some module → .specify ∈ sections count) := by
    obtain ⟨count, words⟩ := turns module
    rw [leftOpen, inside, if_pos rfl] at words
    by_cases here : e.module = some module
    · rw [if_pos here, if_pos here] at words
      refine ⟨count + 1, ?_, fun _ => by simp [sections, List.replicate_succ]⟩
      rw [moduleWords_append, moduleWords_piece, if_pos here, found, ← List.append_assoc, words,
        List.append_assoc, ← sections_succ]
      rfl
    · rw [if_neg here, if_neg here, List.append_nil, List.append_nil] at words
      refine ⟨count, ?_, fun here' => absurd here' here⟩
      rw [moduleWords_append, moduleWords_piece, if_neg here, List.append_nil, words]
  rw [gather_piece]
  refine ⟨⟨closed ++ (e.gathered ++ piece number text).map (name, ·), ?_, ?_⟩, fun _ => rfl,
    nofun, begun.append fun entry new module own' => ?_, fun module => ?_⟩
  · simp only [close, own]
    rw [blocks]
    exact insertLines_grouped name some_ closed
  · simp [same, own, close, Function.comp_def]
  · obtain ⟨count, words, here⟩ := turns' module
    obtain ⟨_, _, rfl⟩ := List.mem_map.mp new
    exact words ▸ here own'
  · obtain ⟨count, words, _⟩ := turns' module
    refine ⟨count, ?_⟩
    rw [ite_self, List.append_nil, words]
    simp [leftOpen, close]

theorem Midway.step (midway : Midway e log text ((word, tail) :: words))
    (steers : Steers e number text tail word next after) :
    Midway next (log ++ e.collectedAt number text word) after words := by
  obtain ⟨quiet, lead, first, shape, cut, told⟩ := midway
  have behind : cutAtStructure false false (written ([], words)) = ([], words) := by
    rw [← List.singleton_append, ← List.append_assoc] at cut
    exact cutAtStructure_behind cut
  cases steers with
  | module outside | endmodule outside =>
    obtain rfl := quiet outside
    obtain ⟨rfl, rfl⟩ := written_eq_nil shape
    rw [collectedAt, if_neg (by decide), List.append_nil]
    exact ⟨fun _ => rfl, [], [], rfl, behind, told.outside outside _ rfl⟩
  | specify outside known =>
    obtain rfl := quiet outside
    obtain ⟨rfl, rfl⟩ := written_eq_nil shape
    rw [collectedAt, if_neg (by decide), List.append_nil]
    refine ⟨by simp, [], [(.specify, tail)], ?_, ?_, told.opened outside (by simp [known])⟩
    · simp [written]
    · have whole : [] ++ StructureWord.specify.spelling.toList ++ tail ++ written ([], words) =
          [] ++ written ([], (.specify, tail) :: words) := by
        simp [written]
      rw [whole, cut]
      rfl
  | endspecify inside =>
    rw [collectedAt, if_pos rfl]
    have again := cutAtStructure_begins cut (Begins.concat .endspecify tail words)
    have whole : written (lead, first ++ [(.endspecify, [])]) =
        text ++ StructureWord.endspecify.spelling.toList := by
      rw [shape]
      simp [written]
    have found : wordsIn (text ++ StructureWord.endspecify.spelling.toList) =
        first.map Prod.fst ++ [.endspecify] := by
      rw [wordsIn, ← whole, again]
      simp
    obtain ⟨c, member, dark⟩ := dark_of_spelling .endspecify
    exact ⟨fun _ => rfl, [], [], rfl, behind,
      told.closed inside found (List.mem_append_right _ member) dark⟩

theorem Midway.gather (midway : Midway e log text []) :
    Told (e.gather number text) (log ++ (piece number text).map (e.module, ·)) [] := by
  obtain ⟨quiet, lead, first, shape, cut, told⟩ := midway
  have found : wordsIn text = first.map Prod.fst := by
    rw [show written (([], []) : Cuts) = [] from rfl, List.append_nil, List.append_nil] at cut
    rw [wordsIn, cut]
  cases inside : e.inSpecify with
  | true => exact told.gathered inside found
  | false =>
    obtain rfl := quiet inside
    obtain ⟨rfl, rfl⟩ := written_eq_nil shape
    have nothing : piece number [] = [] := rfl
    rw [gather_piece, nothing, List.map_nil, List.append_nil, List.append_nil]
    exact told

theorem Midway.after_words (midway : Midway e log text words)
    (found : e.words? number text words = some next) :
    Told next (log ++ e.collectedWords number text words) [] := by
  induction words generalizing e log text with
  | nil =>
    cases found
    exact midway.gather
  | cons cut words ih =>
    obtain ⟨word, tail⟩ := cut
    rw [words?] at found
    cases step : e.word? number text word tail with
    | none => simp [step] at found
    | some pair =>
      obtain ⟨middle, after⟩ := pair
      rw [step] at found
      rw [collectedWords, step, ← List.append_assoc]
      exact ih (midway.step (steers_iff.mp step)) found

theorem Told.line {line : String} (told : Told e log [])
    (ok : e.line macros number line = .ok next) :
    Told next (log ++ e.collectedLine number line) [] := by
  have whole := written_cutAtStructure false false line.toList
  rcases cut : cutAtStructure false false line.toList with ⟨lead, words⟩
  rw [cut] at whole
  have begins : Midway e log (if e.inSpecify && !e.excluded then lead else []) words := by
    split
    next gathering =>
      have front : lead ++ written ([], words) = line.toList := by simpa [written] using whole
      refine ⟨by simp_all, lead, [], by simp [written], ?_, told⟩
      rw [front, cut]
      rfl
    next =>
      have behind : cutAtStructure false false line.toList = (lead, [] ++ words) := cut
      exact ⟨fun _ => rfl, [], [], rfl, cutAtStructure_behind behind, told⟩
  rw [Extraction.line, cut] at ok
  rw [collectedLine, cut]
  cases words with
  | nil =>
    have entire : lead = line.toList := by simpa [written] using whole
    by_cases directive : isDirective line.toList = true
    · rw [if_pos directive] at ok
      cases ok
      simp only [directive, Bool.true_or, if_true, List.append_nil]
      obtain ⟨stored, quiet, known, begun, turns⟩ := told
      exact ⟨stored, quiet, known, begun, turns⟩
    · rw [if_neg directive] at ok
      cases ok
      by_cases gathering : (e.inSpecify && !e.excluded) = true
      · rw [if_pos gathering, entire] at begins
        simp only [directive, gathering]
        exact begins.gather
      · rw [Bool.not_eq_true] at directive gathering
        simpa [directive, gathering] using told
  | cons word words =>
    dsimp only at ok
    split at ok
    next found =>
      cases ok
      exact begins.after_words found
    next => cases ok

theorem Told.lines {lines : List String} (told : Told e log [])
    (ok : Extraction.lines macros e number lines = .ok next) :
    Told next (log ++ e.collected macros number lines) [] := by
  induction lines generalizing e log number with
  | nil =>
    cases ok
    rwa [collected, List.append_nil]
  | cons line lines ih =>
    rw [Extraction.lines] at ok
    obtain ⟨middle, found, ok⟩ := bind_eq_ok.mp ok
    rw [collected, found, ← List.append_assoc]
    exact ih (told.line found) ok

end Steps

section Finish

theorem told_start : Told {} [] [] := by
  refine ⟨⟨[], rfl, rfl⟩, fun _ => rfl, nofun, nofun, fun name => ⟨0, ?_⟩⟩
  simp [moduleWords, sections, leftOpen]

/-- All that has been gathered is stored, even if the source leaves a section open. -/
theorem Told.finish (told : Told e log []) (filled : e.Filled) :
    ∃ closed : List (String × SourceLine), e.finish = grouped Prod.fst blockOf closed ∧
      log = closed.map (Prod.map some id) := by
  obtain ⟨⟨closed, blocks, same⟩, quiet, known, _, _⟩ := told
  rw [Extraction.finish]
  split
  next inside =>
    obtain ⟨name, own⟩ := Option.ne_none_iff_exists'.mp (known inside)
    refine ⟨closed ++ e.gathered.map (name, ·), ?_, ?_⟩
    · simp only [close, own]
      rw [blocks]
      exact insertLines_grouped name (filled inside) closed
    · simp [same, own, Function.comp_def]
  next outside =>
    refine ⟨closed, blocks, ?_⟩
    rw [same, quiet (by simpa using outside), List.map_nil, List.append_nil]

end Finish

section Numbers

variable {entry : Entry}

theorem mem_piece {line : SourceLine} (member : line ∈ piece number text) :
    line.number = number ∧ line.Trimmed := by
  unfold piece at member
  split at member
  next => cases member
  next dark =>
    obtain rfl := List.mem_singleton.mp member
    refine ⟨rfl, fun empty => dark ?_, ?_⟩
    · rw [List.isEmpty_iff, ← String.toList_ofList (l := Text.trim text)]
      exact congrArg String.toList empty
    · rw [String.toList_ofList, Text.trim_trim]

theorem mem_collectedAt (member : entry ∈ e.collectedAt number text word) :
    entry.2.number = number ∧ entry.2.Trimmed := by
  unfold collectedAt at member
  split at member
  · obtain ⟨line, inside, rfl⟩ := List.mem_map.mp member
    exact mem_piece inside
  · cases member

theorem mem_collectedWords (member : entry ∈ e.collectedWords number text words) :
    entry.2.number = number ∧ entry.2.Trimmed := by
  induction words generalizing e text with
  | nil =>
    obtain ⟨line, inside, rfl⟩ := List.mem_map.mp member
    exact mem_piece inside
  | cons cut words ih =>
    rw [collectedWords] at member
    rcases List.mem_append.mp member with here | later
    · exact mem_collectedAt here
    · split at later
      · exact ih later
      · cases later

theorem mem_collectedLine {line : String} (member : entry ∈ e.collectedLine number line) :
    entry.2.number = number ∧ entry.2.Trimmed := by
  unfold collectedLine at member
  dsimp only at member
  split at member
  · split at member
    · cases member
    · obtain ⟨line, inside, rfl⟩ := List.mem_map.mp member
      exact mem_piece inside
  · exact mem_collectedWords member

theorem mem_collected {lines : List String} (member : entry ∈ e.collected macros number lines) :
    number ≤ entry.2.number ∧ entry.2.Trimmed := by
  induction lines generalizing e number with
  | nil => cases member
  | cons line lines ih =>
    rw [collected] at member
    rcases List.mem_append.mp member with here | later
    · obtain ⟨own, trimmed⟩ := mem_collectedLine here
      exact ⟨own.ge, trimmed⟩
    · split at later
      · exact ⟨Nat.le_of_succ_le (ih later).1, (ih later).2⟩
      · cases later

theorem collected_ordered (macros : List String) (e : Extraction) (number : Nat) (lines : List String) :
    (e.collected macros number lines).Pairwise fun first second =>
      first.2.number ≤ second.2.number := by
  induction lines generalizing e number with
  | nil => exact .nil
  | cons line lines ih =>
    rw [collected, List.pairwise_append]
    refine ⟨?_, ?_, fun first here second later => ?_⟩
    · refine List.pairwise_of_forall_mem_list fun first here second there => ?_
      rw [(mem_collectedLine here).1, (mem_collectedLine there).1]
    · split
      · exact ih _ _
      · exact .nil
    · rw [(mem_collectedLine here).1]
      split at later
      · exact Nat.le_of_succ_le (mem_collected later).1
      · cases later

end Numbers

end Extraction

open Extraction

section Blocks

variable {module : String} {entries : List (String × SourceLine)}

theorem modules_grouped (entries : List (String × SourceLine)) :
    (grouped Prod.fst blockOf entries).map (·.module) = (entries.map Prod.fst).eraseDups := by
  rw [grouped, List.map_map]
  exact List.map_id _

theorem entries_grouped (entries : List (String × SourceLine)) :
    ((grouped Prod.fst blockOf entries).flatMap fun block =>
      block.lines.map (some block.module, ·)).Perm (entries.map (Prod.map some id)) := by
  have rows : ((grouped Prod.fst blockOf entries).flatMap fun block =>
      block.lines.map (some block.module, ·)) =
      ((entries.map Prod.fst).eraseDups.flatMap fun module =>
        entries.filter (·.1 = module)).map (Prod.map some id) := by
    rw [grouped, List.flatMap_map, List.map_flatMap]
    refine List.flatMap_congr fun module _ => ?_
    rw [blockOf, List.map_map]
    refine List.map_congr_left fun entry member => ?_
    obtain rfl : entry.1 = module := by simpa using (List.mem_filter.mp member).2
    rfl
  rw [rows]
  exact (rows_perm Prod.fst entries).map _

theorem moduleWords_stored (module : String) (entries : List (String × SourceLine)) :
    moduleWords module (entries.map (Prod.map some id)) =
      (blockOf module (entries.filter (·.1 = module))).lines.flatMap
        fun line => wordsIn line.text.toList := by
  simp [moduleWords, blockOf, List.filter_map, List.flatMap_map, Function.comp_def]

/-- The blocks of a source are made of all that is gathered from it. -/
theorem told_of_blocks {macros : List String} {source : String} {found : List Block}
    (ok : blocks macros source = .ok found) :
    ∃ last closed, Extraction.lines macros {} 1 (cleanLines source) = .ok last ∧
      found = grouped Prod.fst blockOf closed ∧
      collected macros {} 1 (cleanLines source) = closed.map (Prod.map some id) ∧
      Told last (closed.map (Prod.map some id)) [] := by
  obtain ⟨last, reached, rfl⟩ := blocksOfLines_ok.mp ok
  have told := told_start.lines reached
  rw [List.nil_append] at told
  obtain ⟨closed, rows, same⟩ := told.finish (drawn_of_lines reached).2
  exact ⟨last, closed, reached, rows, same, same ▸ told⟩

theorem trimmed_of_blocks {macros : List String} {source : String} {found : List Block}
    (ok : blocks macros source = .ok found) :
    ∀ block ∈ found, ∀ line ∈ block.lines, line.Trimmed := by
  obtain ⟨last, closed, _, rfl, same, _⟩ := told_of_blocks ok
  intro block member line inside
  obtain ⟨module, _, rfl⟩ := List.mem_map.mp member
  obtain ⟨entry, stored, rfl⟩ := List.mem_map.mp inside
  have gathered : (some entry.1, entry.2) ∈ collected macros {} 1 (cleanLines source) :=
    same ▸ List.mem_map_of_mem (List.mem_of_mem_filter stored)
  exact (mem_collected gathered).2

theorem Extraction.Told.words {last : Extraction}
    (told : Told last (entries.map (Prod.map some id)) []) (module : String) :
    ∃ count, ((blockOf module (entries.filter (·.1 = module))).lines.flatMap
      fun line => wordsIn line.text.toList) =
        sections count ++ if last.leftOpen = some module then [.specify] else [] := by
  obtain ⟨count, words⟩ := told.turns module
  rw [ite_self, List.append_nil, moduleWords_stored] at words
  exact ⟨count, words⟩

theorem Extraction.Told.specify {last : Extraction}
    (told : Told last (entries.map (Prod.map some id)) []) (member : module ∈ entries.map Prod.fst) :
    .specify ∈ (blockOf module (entries.filter (·.1 = module))).lines.flatMap
      fun line => wordsIn line.text.toList := by
  obtain ⟨entry, stored, rfl⟩ := List.mem_map.mp member
  have begun := told.begun (some entry.1, entry.2) (List.mem_map_of_mem stored) _ rfl
  rwa [moduleWords_stored] at begun

/-- The blocks are those of distinct modules, and the words of each are well bracketed. All that
is gathered of the source is in the block of its module, and nothing else is in a block. -/
theorem blocks_bracketed (macros : List String) (source : String) (found : List Block)
    (ok : blocks macros source = .ok found) :
    ∃ last, Extraction.lines macros {} 1 (cleanLines source) = .ok last ∧
      (found.map (·.module)).Nodup ∧
      (∀ block ∈ found, block.Bracketed (cleanLines source) last.leftOpen) ∧
      (found.flatMap fun block => block.lines.map (some block.module, ·)).Perm
        (Extraction.collected macros {} 1 (cleanLines source)) := by
  have drawn := drawn_of_blocks ok
  have trimmed := trimmed_of_blocks ok
  obtain ⟨last, closed, reached, rfl, same, told⟩ := told_of_blocks ok
  refine ⟨last, reached, modules_grouped closed ▸ nodup_eraseDups _, fun block member => ?_,
    same ▸ entries_grouped closed⟩
  refine ⟨fun line inside => ?drawn, ?ordered, ?turns⟩
  case drawn => exact ⟨(drawn block member).2 line inside, trimmed block member line inside⟩
  all_goals obtain ⟨module, mentioned, rfl⟩ := List.mem_map.mp member
  case ordered =>
    have ordered := collected_ordered macros {} 1 (cleanLines source)
    rw [same, List.pairwise_map] at ordered
    exact List.pairwise_map.mpr (ordered.sublist List.filter_sublist)
  case turns =>
    obtain ⟨count, words⟩ := told.words module
    have begun := told.specify (List.mem_eraseDups.mp mentioned)
    change ∃ count, _ = if last.leftOpen = some module then _ else _
    split
    next opened => exact ⟨count, by rw [words, if_pos opened]⟩
    next ended =>
      rw [if_neg ended, List.append_nil] at words
      cases count with
      | zero => rw [words] at begun; cases begun
      | succ count => exact ⟨count, words⟩

/-- Two sections on a line, a module defined twice and left open, and a word in a string. -/
private def reopened : String := "module M;
specify (A=>Y)=1; endspecify specify
endspecify endmodule
module N; specify \"endspecify\"
endspecify
module M; specify (B=>"

theorem blocks_bracketed_reopened :
    ∃ found, blocks [] reopened = .ok found ∧
      found.map (·.module) = ["M", "N"] ∧
      (found.map fun block => block.lines.flatMap fun line => wordsIn line.text.toList) =
        [sections 2 ++ [.specify], sections 1] ∧
      ∃ last : Extraction, last.leftOpen = some "M" ∧
        (∀ block ∈ found, block.Bracketed (cleanLines reopened) last.leftOpen) ∧
        (found.flatMap fun block => block.lines.map (some block.module, ·)).Perm
          (Extraction.collected [] {} 1 (cleanLines reopened)) := by
  have read : (Extraction.lines [] {} 1 (cleanLines reopened)).toOption.map (fun last =>
      (last.leftOpen, last.finish.map (·.module),
        last.finish.map fun block => block.lines.flatMap fun line => wordsIn line.text.toList)) =
      some (some "M", ["M", "N"], [sections 2 ++ [.specify], sections 1]) := by
    decide +kernel
  obtain ⟨last, reached, facts⟩ := exists_ok_of_toOption read
  simp only [Prod.mk.injEq] at facts
  obtain ⟨left, names, words⟩ := facts
  have ok : blocks [] reopened = .ok last.finish := by
    rw [blocks, blocksOfLines, reached]
    rfl
  obtain ⟨last', reached', _, bracketed, whole⟩ := blocks_bracketed [] reopened last.finish ok
  obtain rfl : last = last' := Except.ok.inj (reached.symm.trans reached')
  exact ⟨last.finish, ok, names, words, last, left, bracketed, whole⟩

end Blocks

end CellTiming.Source
