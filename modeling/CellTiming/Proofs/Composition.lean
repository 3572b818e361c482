import CellTiming.Proofs.Comments
import CellTiming.Proofs.LastWord
import CellTiming.Proofs.PlainTexts
import CellTiming.Proofs.Withheld

/-! Sources put one behind the other. What the first leaves behind it, be it a module that it
never ends, is of no account to a source that can be read alone, so the modules of both are read
as they are read apart. -/
namespace CellTiming.Source

/-- What the characters behind a text stand in. -/
def contextAfter : Context → List Char → Context
  | context, [] => context
  | .code, '"' :: cs => contextAfter .string cs
  | .code, '/' :: '/' :: cs => contextAfter .lineComment cs
  | .code, '/' :: '*' :: cs => contextAfter (.blockComment false) cs
  | .code, _ :: cs => contextAfter .code cs
  | .string, c :: cs => contextAfter (if c = '"' ∨ c = '\n' then .code else .string) cs
  | .lineComment, c :: cs => contextAfter (if c = '\n' then .code else .lineComment) cs
  | .blockComment afterStar, c :: cs =>
    if c = '\n' then contextAfter (.blockComment false) cs
    else if afterStar ∧ c = '/' then contextAfter .code cs
    else contextAfter (.blockComment (c = '*')) cs

/-- No block comment is left open at the end of the text. -/
def EndsOutsideComment (text : String) : Prop :=
  ∀ afterStar, contextAfter .code text.toList ≠ .blockComment afterStar

instance (text : String) : Decidable (EndsOutsideComment text) :=
  inferInstanceAs <| Decidable <|
    ∀ afterStar, contextAfter .code text.toList ≠ .blockComment afterStar

section Cleaning

variable {context : Context} {front back : List Char}

/-- Two characters tell whether a comment is opened. -/
theorem opensComment_pair (c d : Char) (cs : List Char) :
    opensComment (c :: d :: cs) = (c == '/' && (d == '/' || d == '*')) := by
  unfold opensComment
  split <;> simp_all

theorem plain_of_other {c : Char} {cs : List Char}
    (line : ∀ tail, c = '/' → cs = '/' :: tail → False)
    (block : ∀ tail, c = '/' → cs = '*' :: tail → False) : opensComment (c :: cs) = false := by
  rw [opensComment]
  · exact fun tail same => line tail (List.cons.inj same).1 (List.cons.inj same).2
  · exact fun tail same => block tail (List.cons.inj same).1 (List.cons.inj same).2

theorem opensComment_lines (c : Char) (cs back : List Char) :
    opensComment (c :: (cs ++ '\n' :: back)) = opensComment (c :: cs) := by
  cases cs with
  | nil => simp [opensComment]
  | cons d cs => rw [List.cons_append, opensComment_pair, ← opensComment_pair c d cs]

/-- A line break ends whatever the text before it stands in, if that is no block comment. -/
theorem withoutComments_lines
    (outside : ∀ afterStar, contextAfter context front ≠ .blockComment afterStar) :
    withoutComments context (front ++ '\n' :: back) =
      withoutComments context front ++ '\n' :: withoutComments .code back := by
  fun_induction contextAfter context front with
  | case1 context =>
    cases context with
    | code => rfl
    | string => rfl
    | lineComment => rfl
    | blockComment afterStar => exact absurd rfl (outside afterStar)
  | case2 cs ih => exact congrArg ('"' :: ·) (ih outside)
  | case3 cs ih => exact ih outside
  | case4 cs ih => exact ih outside
  | case5 c cs quote line block ih =>
    have plain := plain_of_other line block
    rw [List.cons_append, withoutComments_code ((opensComment_lines c cs back).trans plain),
      withoutComments_code plain, if_neg quote, ih outside, List.cons_append]
  | case6 c cs ih =>
    rw [List.cons_append, withoutComments, withoutComments, ih outside, List.cons_append]
  | case7 c cs ih =>
    rw [List.cons_append, withoutComments, withoutComments]
    by_cases feed : c = '\n'
    · rw [if_pos feed] at outside ih ⊢
      rw [if_pos feed, ih outside, List.cons_append]
    · rw [if_neg feed] at outside ih ⊢
      rw [if_neg feed, ih outside]
  | case8 afterStar cs ih =>
    rw [List.cons_append, withoutComments, withoutComments, if_pos rfl, if_pos rfl, ih outside,
      List.cons_append]
  | case9 afterStar c cs single ends ih =>
    rw [List.cons_append, withoutComments, withoutComments, if_neg single, if_neg single,
      if_pos ends, if_pos ends, ih outside]
  | case10 afterStar c cs single open_ ih =>
    rw [List.cons_append, withoutComments, withoutComments, if_neg single, if_neg single,
      if_neg open_, if_neg open_, ih outside]

theorem mem_withoutComments {c : Char} (member : c ∈ withoutComments context front) :
    c ∈ front := by
  fun_induction withoutComments context front with
  | _ => grind

theorem joinContinued_plain (plain : '\\' ∉ front) (rest : List Char) :
    joinContinued (front ++ rest) = front ++ joinContinued rest := by
  induction front with
  | nil => rfl
  | cons c front ih =>
    obtain ⟨other, others⟩ := not_or.mp (mt List.mem_cons.mpr plain)
    rw [List.cons_append, joinContinued_other (Ne.symm other), ih others, List.cons_append]

theorem joinContinued_of_plain (plain : '\\' ∉ front) : joinContinued front = front := by
  have joined := joinContinued_plain plain []
  rwa [List.append_nil, joinContinued, List.append_nil] at joined

theorem cleanLines_append {first second : String} (plain : '\\' ∉ first.toList)
    (outside : EndsOutsideComment first) :
    cleanLines (first ++ "\n" ++ second) = cleanLines first ++ cleanLines second := by
  have unbroken : '\\' ∉ withoutComments .code first.toList := mt mem_withoutComments plain
  have whole : (first ++ "\n" ++ second).toList = first.toList ++ '\n' :: second.toList := by
    simp
  rw [cleanLines_eq, cleanLines_eq, cleanLines_eq, whole, withoutComments_lines outside, linesOf,
    linesOf, linesOf, joinContinued_plain unbroken, joinContinued_other (by decide),
    joinContinued_of_plain unbroken, Text.lines, Text.pieces_append, List.map_append]
  rfl

end Cleaning

section Unticked

variable {macros : List String} {source line : String} {lines : List String}
  {e next : Extraction} {number : Nat}

/-- Cleaning brings in nothing but spaces. -/
theorem mem_cleanLines {c : Char} (plain : '\\' ∉ source.toList) (member : line ∈ cleanLines source)
    (inside : c ∈ line.toList) (dark : Text.isBlank c = false) : c ∈ source.toList := by
  rw [cleanLines_eq, linesOf, joinContinued_of_plain (mt mem_withoutComments plain)] at member
  obtain ⟨raw, piece, rfl⟩ := List.mem_map.mp member
  rw [String.toList_ofList] at inside
  have kept : c ∈ (Text.squeeze raw).filter (!Text.isBlank ·) :=
    List.mem_filter.mpr ⟨inside, by simp [dark]⟩
  rw [Text.filter_squeeze] at kept
  exact mem_withoutComments (Text.mem_pieces piece (List.mem_of_mem_filter kept)).1

theorem excluded_of_line (unticked : backtick ∉ line.toList)
    (ok : e.line macros number line = .ok next) : next.excluded = e.excluded := by
  by_cases wordless : Extraction.Wordless line
  · exact (Extraction.passes_of_line wordless ok).excluded (not_directive unticked)
  · exact line_excluded macros wordless ok

theorem excluded_of_lines (unticked : ∀ line ∈ lines, backtick ∉ line.toList)
    (ok : Extraction.lines macros e number lines = .ok next) : next.excluded = e.excluded := by
  induction lines generalizing e number with
  | nil =>
    cases ok
    rfl
  | cons line lines ih =>
    obtain ⟨first, others⟩ := List.forall_mem_cons.mp unticked
    rw [Extraction.lines] at ok
    obtain ⟨middle, found, ok⟩ := bind_eq_ok.mp ok
    rw [ih others ok, excluded_of_line first found]

end Unticked

namespace Extraction

/-- The second state is like the first one but may know of a module where the first does not. -/
structure Alongside (e e' : Extraction) : Prop where
  inSpecify : e'.inSpecify = e.inSpecify
  excluded : e'.excluded = e.excluded
  module : e.module ≠ none → e'.module = e.module
  known : e.inSpecify = true → e.module ≠ none

/-- Entries without the numbers of their lines. -/
def unnumberedLog (log : List Entry) : List Entry := log.map (Prod.map id SourceLine.unnumbered)

variable {macros : List String} {e e' next : Extraction} {number number' : Nat}
  {text after tail : List Char} {word : StructureWord} {words : Words}

section Steps

theorem piece_unnumbered (module : Option String) (number : Nat) (text : List Char) :
    unnumberedLog ((piece number text).map (module, ·)) = (piece 0 text).map (module, ·) := by
  unfold piece
  split
  · rfl
  · rfl

theorem Alongside.steers (alongside : Alongside e e')
    (steers : Steers e number text tail word next after) :
    ∃ next', Steers e' number' text tail word next' after ∧ Alongside next next' ∧
      unnumberedLog (e'.collectedAt number' text word) =
        unnumberedLog (e.collectedAt number text word) := by
  obtain ⟨inSpecify, excluded, module, known⟩ := alongside
  cases steers with
  | module outside named =>
    exact ⟨_, .module (inSpecify.trans outside) named,
      ⟨inSpecify, excluded, fun _ => rfl, by simp [outside]⟩, rfl⟩
  | specify outside named =>
    have some_ : e.module ≠ none := by simp [named]
    exact ⟨_, .specify (inSpecify.trans outside) ((module some_).trans named),
      ⟨rfl, excluded, module, fun _ => some_⟩, rfl⟩
  | endspecify inside =>
    refine ⟨_, .endspecify (inSpecify.trans inside), ⟨rfl, ?_, ?_, nofun⟩, ?_⟩
    · simpa [close] using excluded
    · simpa [close] using module
    · rw [collectedAt, collectedAt, if_pos rfl, if_pos rfl, piece_unnumbered, piece_unnumbered,
        module (known inside)]
  | endmodule outside =>
    exact ⟨_, .endmodule (inSpecify.trans outside),
      ⟨inSpecify, excluded, fun some_ => absurd rfl some_, by simp [outside]⟩, rfl⟩

theorem Alongside.gather (alongside : Alongside e e') (quiet : e.inSpecify = false → text = []) :
    Alongside (e.gather number text) (e'.gather number' text) ∧
      unnumberedLog ((piece number' text).map (e'.module, ·)) =
        unnumberedLog ((piece number text).map (e.module, ·)) := by
  obtain ⟨inSpecify, excluded, module, known⟩ := alongside
  refine ⟨⟨by simpa, by simpa, by simpa, by simpa⟩, ?_⟩
  rw [piece_unnumbered, piece_unnumbered]
  cases inside : e.inSpecify with
  | true => rw [module (known inside)]
  | false =>
    rw [quiet inside]
    rfl

theorem Alongside.after_words (alongside : Alongside e e') (quiet : e.inSpecify = false → text = [])
    (found : e.words? number text words = some next) :
    ∃ next', e'.words? number' text words = some next' ∧ Alongside next next' ∧
      unnumberedLog (e'.collectedWords number' text words) =
        unnumberedLog (e.collectedWords number text words) := by
  induction words generalizing e e' text with
  | nil =>
    cases found
    exact ⟨_, rfl, alongside.gather quiet⟩
  | cons cut words ih =>
    obtain ⟨word, tail⟩ := cut
    rw [words?] at found
    obtain ⟨⟨middle, after⟩, step, found⟩ := Option.bind_eq_some_iff.mp found
    have steers := steers_iff.mp step
    obtain ⟨middle', steers', alongside', same⟩ := alongside.steers steers
    have step' := steers_iff.mpr steers'
    obtain ⟨next', found', last, others⟩ := ih alongside' (steers.quiet quiet) found
    refine ⟨next', ?_, last, ?_⟩
    · rw [words?, step']
      exact found'
    · rw [collectedWords, collectedWords, step, step']
      simp only [unnumberedLog, List.map_append] at same others ⊢
      rw [same, others]

theorem Alongside.line {line : String} (alongside : Alongside e e')
    (ok : e.line macros number line = .ok next) (number' : Nat) :
    ∃ next', e'.line macros number' line = .ok next' ∧ Alongside next next' ∧
      unnumberedLog (e'.collectedLine number' line) =
        unnumberedLog (e.collectedLine number line) := by
  have gathering : (e'.inSpecify && !e'.excluded) = (e.inSpecify && !e.excluded) := by
    rw [alongside.inSpecify, alongside.excluded]
  rw [Extraction.line] at ok
  rw [Extraction.line, collectedLine, collectedLine, gathering]
  rcases cut : cutAtStructure false false line.toList with ⟨lead, words⟩
  rw [cut] at ok
  cases words with
  | nil =>
    dsimp only at ok ⊢
    by_cases directive : isDirective line.toList = true
    · rw [if_pos directive] at ok
      cases ok
      rw [directive, alongside.excluded]
      obtain ⟨inSpecify, _, module, known⟩ := alongside
      exact ⟨_, rfl, ⟨inSpecify, rfl, module, known⟩, rfl⟩
    · rw [if_neg directive] at ok
      cases ok
      rw [if_neg directive]
      refine ⟨_, rfl, ?_⟩
      by_cases inside : (e.inSpecify && !e.excluded) = true
      · have opened : e.inSpecify = true := (Bool.and_eq_true_iff.mp inside).1
        simpa [directive, inside] using alongside.gather (by simp [opened])
      · simpa [inside] using alongside
  | cons word words =>
    dsimp only at ok ⊢
    split at ok
    next found =>
      cases ok
      obtain ⟨next', found', last, same⟩ := alongside.after_words (quiet_lead lead) found
      exact ⟨next', by rw [found'], last, same⟩
    next => cases ok

theorem Alongside.lines {lines : List String} (alongside : Alongside e e')
    (ok : Extraction.lines macros e number lines = .ok next) (number' : Nat) :
    ∃ next', Extraction.lines macros e' number' lines = .ok next' ∧
      unnumberedLog (e'.collected macros number' lines) =
        unnumberedLog (e.collected macros number lines) := by
  induction lines generalizing e e' number number' with
  | nil => exact ⟨e', rfl, rfl⟩
  | cons line lines ih =>
    rw [Extraction.lines] at ok
    obtain ⟨middle, found, ok⟩ := bind_eq_ok.mp ok
    obtain ⟨middle', found', behind, same⟩ := alongside.line found number'
    obtain ⟨next', reached, others⟩ := ih behind ok (number' + 1)
    refine ⟨next', ?_, ?_⟩
    · rw [Extraction.lines, found']
      exact reached
    · rw [collected, collected, found, found']
      simp only [unnumberedLog, List.map_append] at same others ⊢
      rw [same, others]

theorem collected_append {first : List String}
    (ok : Extraction.lines macros e number first = .ok next) (second : List String) : e.collected macros number (first ++ second) =
      e.collected macros number first ++ next.collected macros (number + first.length) second := by
  induction first generalizing e number with
  | nil =>
    cases ok
    rfl
  | cons line first ih =>
    rw [Extraction.lines] at ok
    obtain ⟨middle, found, ok⟩ := bind_eq_ok.mp ok
    have shifted : number + (first.length + 1) = number + 1 + first.length := by omega
    rw [List.cons_append, collected, collected, found, List.append_assoc, List.length_cons, shifted,
      ← ih ok]

end Steps

end Extraction

open Extraction

section Modules

variable {macros : List String} {block : Block} {found : List NamedTiming}

/-- The timing of a block has nothing to do with the numbers of its lines. -/
theorem timing_unnumbered {m : NamedTiming} :
    block.unnumbered.timing = .ok m ↔ block.timing = .ok m := by
  have text : block.unnumbered.text = block.text := by
    simp [Block.text, Block.unnumbered, SourceLine.unnumbered, Function.comp_def]
  rw [Block.timing, Block.timing, text]
  cases ModuleTiming.ofBlock block.text with
  | ok timing => exact Iff.rfl
  | error flaw => simp

theorem timings_unnumbered (gathered : List Block) :
    (gathered.map Block.unnumbered).mapM Block.timing = .ok found ↔
      gathered.mapM Block.timing = .ok found := by
  induction gathered generalizing found with
  | nil => exact Iff.rfl
  | cons block gathered ih =>
    simp only [List.map_cons, List.mapM_cons, bind_eq_ok, timing_unnumbered, ih]

theorem timing_of_block {gathered : List Block} (read : gathered.mapM Block.timing = .ok found) :
    ∀ block ∈ gathered, ∃ m ∈ found, block.module = m.name ∧
      ModuleTiming.ofBlock block.text = .ok m.timing := by
  intro block member
  obtain ⟨m, known, ok⟩ := exists_of_forall₂ (mapM_eq_ok.mp read) block member
  exact ⟨m, known, timing_eq_ok.mp ok⟩

theorem timing_of_entry {closed : List (String × SourceLine)}
    (read : (grouped Prod.fst blockOf closed).mapM Block.timing = .ok found) :
    ∀ entry ∈ closed, ∃ m ∈ found, m.name = entry.1 := by
  intro entry member
  have mentioned := List.mem_eraseDups.mpr (List.mem_map_of_mem (f := Prod.fst) member)
  obtain ⟨m, known, named, _⟩ := timing_of_block read _ (List.mem_map_of_mem mentioned)
  exact ⟨m, known, named.symm⟩

theorem unnumberedLog_append (log more : List Entry) :
    unnumberedLog (log ++ more) = unnumberedLog log ++ unnumberedLog more :=
  List.map_append

theorem unnumberedLog_stored (entries : List (String × SourceLine)) :
    unnumberedLog (entries.map (Prod.map some id)) =
      (entries.map (Prod.map id SourceLine.unnumbered)).map (Prod.map some id) := by
  rw [unnumberedLog, List.map_map, List.map_map]
  rfl

theorem blocks_unnumbered (entries : List (String × SourceLine)) :
    (grouped Prod.fst blockOf entries).map Block.unnumbered =
      grouped Prod.fst blockOf (entries.map (Prod.map id SourceLine.unnumbered)) := by
  have keeps (entry : String × SourceLine) :
      (Prod.map id SourceLine.unnumbered entry).1 = entry.1 := rfl
  have rows (module : String) (entries : List (String × SourceLine)) :
      (blockOf module entries).unnumbered =
        blockOf module (entries.map (Prod.map id SourceLine.unnumbered)) := by
    simp [Block.unnumbered, blockOf, Function.comp_def]
  exact grouped_map keeps rows entries

/-- Two sources that can be read apart can be read one behind the other. -/
theorem modules_append (macros : List String) (first second : String)
    (found found' : List NamedTiming) (read : modules macros first = .ok found)
    (read' : modules macros second = .ok found') (unticked : backtick ∉ first.toList)
    (plain : '\\' ∉ first.toList) (outside : EndsOutsideComment first)
    (apart : ∀ m ∈ found, ∀ m' ∈ found', m.name ≠ m'.name) :
    modules macros (first ++ "\n" ++ second) = .ok (found ++ found') := by
  obtain ⟨gathered, ok, timed⟩ := modules_eq_ok.mp read
  obtain ⟨gathered', ok', timed'⟩ := modules_eq_ok.mp read'
  have readable : ∀ block ∈ gathered, ∃ timing, ModuleTiming.ofBlock block.text = .ok timing := by
    intro block member
    obtain ⟨m, _, _, ok⟩ := timing_of_block timed block member
    exact ⟨m.timing, ok⟩
  obtain ⟨last, closed, reached, ended, rfl, log⟩ := outside_of_readable ok readable
  obtain ⟨last', closed', reached', rfl, log', _⟩ := told_of_blocks ok'
  have disjoint : ∀ entry ∈ closed, ∀ entry' ∈ closed', entry.1 ≠ entry'.1 := by
    intro entry member entry' member' same
    obtain ⟨m, known, named⟩ := timing_of_entry timed entry member
    obtain ⟨m', known', named'⟩ := timing_of_entry timed' entry' member'
    exact apart m known m' known' (named.trans (same.trans named'.symm))
  have excluded : last.excluded = false :=
    excluded_of_lines (fun line member inside =>
      unticked (mem_cleanLines plain member inside rfl)) reached
  -- no section is open and no line withheld where the first source ends
  have alongside : Alongside {} last := ⟨ended, excluded, fun none => absurd rfl none, nofun⟩
  obtain ⟨final, run, same⟩ := alongside.lines reached' (1 + (cleanLines first).length)
  have whole : Extraction.lines macros {} 1 (cleanLines (first ++ "\n" ++ second)) = .ok final := by
    rw [cleanLines_append plain outside, lines_append, reached]
    exact run
  have ok'' : blocks macros (first ++ "\n" ++ second) = .ok final.finish :=
    blocksOfLines_ok.mpr ⟨final, whole, rfl⟩
  obtain ⟨_, stored, _, rows, log'', _⟩ := told_of_blocks ok''
  -- only the numbers of the lines tell what is gathered from both from what is gathered apart
  have alike : stored.map (Prod.map id SourceLine.unnumbered) =
      (closed ++ closed').map (Prod.map id SourceLine.unnumbered) := by
    rw [cleanLines_append plain outside, collected_append reached, log] at log''
    have entries := congrArg unnumberedLog log''
    rw [unnumberedLog_append, same, log', unnumberedLog_stored, unnumberedLog_stored,
      unnumberedLog_stored, ← List.map_append, ← List.map_append] at entries
    have known : (Prod.map some id : String × SourceLine → Entry).Injective :=
      (Option.some_injective String).prodMap Function.injective_id
    exact (List.map_injective_iff.mpr known entries).symm
  have rows' : final.finish.map Block.unnumbered = (grouped Prod.fst blockOf closed ++
      grouped Prod.fst blockOf closed').map Block.unnumbered := by
    rw [rows, ← grouped_append disjoint, blocks_unnumbered, alike, blocks_unnumbered]
  refine modules_eq_ok.mpr ⟨final.finish, ok'', ?_⟩
  rw [← timings_unnumbered, rows', timings_unnumbered, List.mapM_append, timed, timed']
  rfl

/-- A module is left open, and the text ends in a comment. -/
private def unended : String := "module M; specify (A => Y) = 1; endspecify // open"

private def following : String := "endmodule module N;\nspecify (B => Y) = 2; endspecify"

theorem modules_append_unended :
    ∃ found found', modules [] unended = .ok found ∧ modules [] following = .ok found' ∧
      found.map (·.name) = ["M"] ∧ found'.map (·.name) = ["N"] ∧
      modules [] (unended ++ "\n" ++ following) = .ok (found ++ found') := by
  have read : (modules [] unended).toOption.map (·.map (·.name)) = some ["M"] := by
    decide +kernel
  have read' : (modules [] following).toOption.map (·.map (·.name)) = some ["N"] := by
    decide +kernel
  obtain ⟨found, ok, names⟩ := exists_ok_of_toOption read
  obtain ⟨found', ok', names'⟩ := exists_ok_of_toOption read'
  have apart : ∀ m ∈ found, ∀ m' ∈ found', m.name ≠ m'.name := by
    intro m member m' member'
    have named : m.name ∈ ["M"] := names ▸ List.mem_map_of_mem member
    have named' : m'.name ∈ ["N"] := names' ▸ List.mem_map_of_mem member'
    simp_all
  have whole := modules_append [] unended following found found' ok ok'
    (by decide +kernel) (by decide +kernel) (by decide +kernel) apart
  exact ⟨found, found', ok, ok', names, names', whole⟩

end Modules

end CellTiming.Source
