import CellTiming.Proofs.Directives
import CellTiming.Proofs.Layout
import CellTiming.Proofs.Spread
import Mathlib.Data.List.DropRight

/-! Lines with more spaces. An extraction from lines with a space more, where nothing goes on over
it and it does not cut the name of a macro, gathers the same lines for the same modules, with
more spaces in some. -/
namespace CellTiming

namespace Text

section Trim

variable {front back : List Char}

theorem rdropWhile_append (dark : back.rdropWhile isBlank ≠ []) (front : List Char) :
    (front ++ back).rdropWhile isBlank = front ++ back.rdropWhile isBlank := by
  unfold List.rdropWhile at *
  rw [List.reverse_append, List.dropWhile_append, if_neg (by simpa using dark), List.reverse_append,
    List.reverse_reverse]

/-- What is trimmed off is in front of the one part and behind the other. -/
theorem trim_append (dark : trimLeft front ≠ []) (dark' : back.rdropWhile isBlank ≠ []) :
    trim (front ++ back) = trimLeft front ++ back.rdropWhile isBlank := by
  rw [← rdropWhile_append dark', trim, List.dropWhile_append,
    if_neg (by simpa [trimLeft] using dark)]
  rfl

end Trim

end Text

namespace Source

section Marks

variable {front back mark : List Char}

theorem afterFirst_severed (run : mark.IsChain fun u v => Token.fuses u v = true) (some_ : mark ≠ [])
    (severed : Token.Severed front back) : Text.afterFirst? mark (front ++ back) =
      match Text.afterFirst? mark front with
      | some rest => some (rest ++ back)
      | none => Text.afterFirst? mark back := by
  induction front with
  | nil => simp [Text.afterFirst?, some_]
  | cons c front ih =>
    have begins := Token.prefix_severed run severed (List.cons_ne_nil c front)
    rw [← List.isPrefixOf_iff_prefix, ← List.isPrefixOf_iff_prefix, ← Bool.eq_iff_iff] at begins
    rw [List.cons_append, Text.afterFirst?, ← List.cons_append, begins, Text.afterFirst?]
    split
    next found =>
      have within := (List.isPrefixOf_iff_prefix.mp found).length_le
      rw [List.drop_append_of_le_length within]
    next => exact ih (severed.suffix (List.suffix_cons c front))

/-- A directive's mark is a backtick and letters. -/
theorem mark_runs (member : mark ∈ directiveMarks) :
    (mark.IsChain fun u v => Token.fuses u v = true) ∧ mark ≠ [] ∧ mark.head? = some backtick := by
  have all : ∀ mark ∈ directiveMarks, (mark.IsChain fun u v => Token.fuses u v = true) ∧
      mark ≠ [] ∧ mark.head? = some backtick := by decide
  exact all mark member

theorem afterFirst_blank (member : mark ∈ directiveMarks) :
    Text.afterFirst? mark (' ' :: back) = Text.afterFirst? mark back := by
  obtain ⟨_, _, head⟩ := mark_runs member
  obtain ⟨letters, rfl⟩ := List.head?_eq_some_iff.mp head
  rw [Text.afterFirst?, if_neg]
  simp [backtick]

theorem afterFirst_space (member : mark ∈ directiveMarks) (severed : Token.Severed front back) :
    (∃ rest, Text.afterFirst? mark front = some rest ∧
      Text.afterFirst? mark (front ++ back) = some (rest ++ back) ∧
      Text.afterFirst? mark (front ++ ' ' :: back) = some (rest ++ ' ' :: back)) ∨
    Text.afterFirst? mark (front ++ ' ' :: back) = Text.afterFirst? mark (front ++ back) := by
  obtain ⟨run, some_, _⟩ := mark_runs member
  rw [afterFirst_severed run some_ severed, afterFirst_severed run some_ (severed_blank front back),
    afterFirst_blank member]
  cases Text.afterFirst? mark front with
  | some rest => exact .inl ⟨rest, rfl, rfl, rfl⟩
  | none => exact .inr rfl

theorem occursIn_space (member : mark ∈ directiveMarks) (severed : Token.Severed front back) :
    Text.occursIn mark (front ++ ' ' :: back) = Text.occursIn mark (front ++ back) := by
  unfold Text.occursIn
  rcases afterFirst_space member severed with ⟨rest, _, dense, wide⟩ | same
  · rw [dense, wide]
    rfl
  · rw [same]

theorem isDirective_space (severed : Token.Severed front back) :
    isDirective (front ++ ' ' :: back) = isDirective (front ++ back) := by
  rw [Bool.eq_iff_iff, isDirective, isDirective, List.any_eq_true, List.any_eq_true]
  exact exists_congr fun mark => and_congr_right fun member => by rw [occursIn_space member severed]

/-- The text ends in the first word behind an `ifdef`, which names the macro. -/
def namesMacro (line : List Char) : Bool :=
  match Text.afterFirst? ifdefMark line with
  | some rest => !(Text.trimLeft rest).isEmpty && (Text.trimLeft rest).all (!Text.isBlank ·)
  | none => false

theorem head_words {rest : List Char}
    (unnamed : (!(Text.trimLeft rest).isEmpty && (Text.trimLeft rest).all (!Text.isBlank ·)) = false)
    (back : List Char) :
    (Text.words (rest ++ ' ' :: back)).head? = (Text.words (rest ++ back)).head? := by
  have gap : ∀ c ∈ rest.takeWhile Text.isBlank, Text.isBlank c = true := fun _ =>
    List.mem_takeWhile_imp
  have whole : rest = rest.takeWhile Text.isBlank ++ Text.trimLeft rest :=
    List.takeWhile_append_dropWhile.symm
  rw [whole, List.append_assoc, List.append_assoc, Text.words_blank_append gap,
    Text.words_blank_append gap]
  cases dark : Text.trimLeft rest with
  | nil => rw [List.nil_append, List.nil_append, Text.words_cons_blank rfl]
  | cons c cs =>
    have first : Text.isBlank c = false := by
      have head := List.head?_dropWhile_not Text.isBlank rest
      rw [show rest.dropWhile Text.isBlank = c :: cs from dark] at head
      simpa using head
    -- the first word ends at a blank in front of the rest
    obtain ⟨d, member, blank⟩ : ∃ d ∈ c :: cs, Text.isBlank d = true := by
      simpa [dark, first] using unnamed
    obtain ⟨name, more, same⟩ := List.append_of_mem member
    have named : Text.words name ≠ [] := by
      intro none
      cases name with
      | nil =>
        obtain ⟨rfl, rfl⟩ := List.cons.inj same
        simp [blank] at first
      | cons u name =>
        obtain ⟨rfl, -⟩ := List.cons.inj same
        simp [Text.words, Text.wordsFrom, first] at none
    rw [same, List.append_assoc, List.append_assoc, List.cons_append, List.cons_append,
      Text.words_append_blank blank, Text.words_append_blank blank, List.head?_append_of_ne_nil _ named,
      List.head?_append_of_ne_nil _ named]

theorem excludedAfter_space (macros : List String) (excluded : Bool)
    (severed : Token.Severed front back) (unnamed : namesMacro front = false) :
    excludedAfter macros excluded (front ++ ' ' :: back) =
      excludedAfter macros excluded (front ++ back) := by
  have ifdef : ifdefMark ∈ directiveMarks := by decide
  have ifndef : ifndefMark ∈ directiveMarks := by decide
  have else_ : elseMark ∈ directiveMarks := by decide
  have endif : endifMark ∈ directiveMarks := by decide
  rw [excludedAfter, excludedAfter, occursIn_space ifndef severed, occursIn_space else_ severed,
    occursIn_space endif severed]
  rcases afterFirst_space ifdef severed with ⟨rest, found, dense, wide⟩ | same
  · rw [namesMacro, found] at unnamed
    rw [dense, wide]
    dsimp only
    rw [head_words unnamed back]
  · rw [same]

end Marks

section Trimming

variable {front back text text' : List Char}

theorem Loose.trim (loose : Loose front back) :
    Loose (Text.trimLeft front) (back.rdropWhile Text.isBlank) := by
  have behind : Text.trimLeft front <:+ front := List.dropWhile_suffix Text.isBlank
  refine ⟨?_, ?_, fun member => loose.single (behind.subset member)⟩
  · intro u last v head
    obtain ⟨rest, whole⟩ := List.rdropWhile_prefix Text.isBlank (l := back)
    refine loose.severed.suffix behind u last v ?_
    rw [← whole, List.head?_append, Option.mem_def.mp head]
    rfl
  · have plain : '"' ∉ front.takeWhile Text.isBlank := fun member =>
      absurd (List.mem_takeWhile_imp member) (by decide)
    have closed := loose.closed
    rw [← List.takeWhile_append_dropWhile (p := Text.isBlank) (l := front), quoted_append,
      quoted_plain plain] at closed
    exact closed

/-- A space more is trimmed off or stays between the same texts. -/
theorem Spread.trim (spread : Spread text text') : Spread (Text.trim text) (Text.trim text') ∧
    (Text.trim text').isEmpty = (Text.trim text).isEmpty := by
  have alike {text text' : List Char} (same : text' = text) :
      Spread text text' ∧ text'.isEmpty = text.isEmpty := by
    subst same
    exact ⟨.same text', rfl⟩
  cases spread with
  | same => exact ⟨.same _, rfl⟩
  | @space front back loose =>
    by_cases dark : Text.trimLeft front = []
    · have blank := List.dropWhile_eq_nil_iff.mp dark
      have single : ∀ c ∈ [' '], Text.isBlank c = true := List.forall_mem_singleton.mpr rfl
      refine alike ?_
      rw [Text.trim_blank_append blank, Text.trim_blank_append blank, ← List.singleton_append,
        Text.trim_blank_append single]
    · by_cases dark' : back.rdropWhile Text.isBlank = []
      · have blank := List.rdropWhile_eq_nil_iff.mp dark'
        have blank' : ∀ c ∈ ' ' :: back, Text.isBlank c = true :=
          List.forall_mem_cons.mpr ⟨rfl, blank⟩
        refine alike ?_
        rw [Text.trim_append_blank blank, Text.trim_append_blank blank']
      · have wide : (' ' :: back).rdropWhile Text.isBlank = ' ' :: back.rdropWhile Text.isBlank :=
          Text.rdropWhile_append dark' [' ']
        rw [Text.trim_append dark dark', Text.trim_append dark (by simp [wide]), wide]
        refine ⟨.space loose.trim, ?_⟩
        cases left : Text.trimLeft front with
        | nil => exact absurd left dark
        | cons => rfl

theorem moduleName_space (severed : Token.Severed front back) :
    moduleName? (front ++ ' ' :: back) = moduleName? (front ++ back) := by
  by_cases dark : Text.trimLeft front = []
  · have blank := List.dropWhile_eq_nil_iff.mp dark
    unfold moduleName? Text.trimLeft
    rw [List.dropWhile_append_of_pos blank, List.dropWhile_append_of_pos blank,
      List.dropWhile_cons_of_pos (by decide)]
  · rw [moduleName_severed severed dark, moduleName_severed (severed_blank front back) dark]

end Trimming

/-- A line with at most one more space, which does not end the name of a macro. -/
inductive LineSpread : List Char → List Char → Prop
  | same (text : List Char) : LineSpread text text
  | space {front back : List Char} (loose : Loose front back) (unnamed : namesMacro front = false) :
      LineSpread (front ++ back) (front ++ ' ' :: back)

namespace Extraction

/-- The same state but for spaces in the lines. -/
structure Spread (e e' : Extraction) : Prop where
  module : e.module = e'.module
  inSpecify : e.inSpecify = e'.inSpecify
  excluded : e.excluded = e'.excluded
  gathered : List.Forall₂ SourceLine.Spread e.gathered e'.gathered
  blocks : List.Forall₂ Block.Spread e.blocks e'.blocks

variable {e e' : Extraction} {number : Nat} {text text' : List Char}

section Gathering

theorem Spread.gather (spread : e.Spread e') (texts : Source.Spread text text') :
    (e.gather number text).Spread (e'.gather number text') := by
  obtain ⟨trimmed, empty⟩ := texts.trim
  unfold Extraction.gather
  dsimp only
  rw [empty]
  split
  · exact spread
  · have line : SourceLine.Spread ⟨number, String.ofList (Text.trim text)⟩
        ⟨number, String.ofList (Text.trim text')⟩ :=
      ⟨rfl, by rwa [String.toList_ofList, String.toList_ofList]⟩
    exact { spread with gathered := List.rel_append spread.gathered (.cons line .nil) }

theorem insertLines_spread {module : String} {gathered gathered' : List SourceLine}
    {blocks blocks' : List Block} (lines : List.Forall₂ SourceLine.Spread gathered gathered')
    (same : List.Forall₂ Block.Spread blocks blocks') :
    List.Forall₂ Block.Spread (insertLines module gathered blocks)
      (insertLines module gathered' blocks') := by
  induction same with
  | nil => exact .cons ⟨rfl, lines⟩ .nil
  | @cons block block' blocks blocks' first others ih =>
    rw [insertLines, insertLines, ← first.1]
    split
    · exact .cons ⟨rfl, List.rel_append first.2 lines⟩ others
    · exact .cons first ih

theorem Spread.close (spread : e.Spread e') : e.close.Spread e'.close := by
  refine ⟨spread.module, rfl, spread.excluded, .nil, ?_⟩
  unfold Extraction.close
  rw [← spread.module]
  cases e.module with
  | none => exact spread.blocks
  | some module => exact insertLines_spread spread.gathered spread.blocks

end Gathering

section Words

/-- The same state but for spaces, and the same text gathered so far. -/
def StepSpread (step step' : Extraction × List Char) : Prop :=
  step.1.Spread step'.1 ∧ step.2 = step'.2

theorem Spread.word (spread : e.Spread e') (number : Nat) (text : List Char) (word : StructureWord)
    (tail : List Char) :
    Option.Rel StepSpread (e.word? number text word tail) (e'.word? number text word tail) := by
  have opened := spread.inSpecify
  have known := spread.module
  cases word with
  | module =>
    cases inside : e.inSpecify with
    | true =>
      rw [inside] at opened
      simp only [word?, inside, ← opened, if_true]
      exact .none
    | false =>
      rw [inside] at opened
      simp only [word?, inside, ← opened]
      cases moduleName? tail with
      | none => exact .none
      | some name => exact .some ⟨⟨rfl, rfl, spread.excluded, spread.gathered, spread.blocks⟩, rfl⟩
  | specify =>
    simp only [word?, ← opened, ← known]
    split
    · exact .none
    · exact .some ⟨⟨rfl, rfl, spread.excluded, spread.gathered, spread.blocks⟩, rfl⟩
  | endspecify =>
    simp only [word?, ← opened]
    split
    · exact .some ⟨(spread.gather (.same _)).close, rfl⟩
    · exact .none
  | endmodule =>
    simp only [word?, ← opened]
    split
    · exact .none
    · exact .some ⟨⟨rfl, rfl, spread.excluded, spread.gathered, spread.blocks⟩, rfl⟩

theorem Spread.steered (spread : e.Spread e') (number : Nat) (text : List Char)
    (words : List (StructureWord × List Char)) :
    Option.Rel StepSpread (e.steered? number text words) (e'.steered? number text words) := by
  induction words generalizing e e' text with
  | nil => exact .some ⟨spread, rfl⟩
  | cons cut words ih =>
    rw [steered?, steered?]
    have step := spread.word number text cut.1 cut.2
    generalize e.word? number text cut.1 cut.2 = found at step ⊢
    generalize e'.word? number text cut.1 cut.2 = found' at step ⊢
    cases step with
    | none => exact .none
    | @some first second same =>
      obtain ⟨next, after⟩ := first
      obtain ⟨next', after'⟩ := second
      obtain ⟨spread, rfl⟩ := same
      exact ih spread after

theorem Spread.words (spread : e.Spread e') (number : Nat) (text : List Char)
    (words : List (StructureWord × List Char)) :
    Option.Rel Spread (e.words? number text words) (e'.words? number text words) := by
  rw [words_eq, words_eq]
  have steps := spread.steered number text words
  generalize e.steered? number text words = found at steps ⊢
  generalize e'.steered? number text words = found' at steps ⊢
  cases steps with
  | none => exact .none
  | some same => exact .some (same.1.gather (same.2 ▸ .same _))

/-- In an open section a space may be pending in the text gathered so far. -/
theorem Spread.words_pending {front back : List Char} {words : List (StructureWord × List Char)}
    (spread : e.Spread e') (opened : e.inSpecify = true)
    (loose : Loose front (written (back, words))) :
    Option.Rel Spread (e.words? number (front ++ back) words)
      (e'.words? number (front ++ ' ' :: back) words) := by
  have opened' : e'.inSpecify = true := spread.inSpecify ▸ opened
  cases words with
  | nil =>
    have loose : Loose front back := by simpa [written] using loose
    exact .some (spread.gather (.space loose))
  | cons cut words =>
    obtain ⟨word, tail⟩ := cut
    cases word with
    | module | specify | endmodule =>
      simp [words?, word?, opened, opened']
    | endspecify =>
      have loose : Loose front (back ++ StructureWord.endspecify.spelling.toList) := by
        have severed := loose.severed
        rw [written_cons, ← List.append_assoc] at severed
        exact ⟨severed.before, loose.closed, loose.single⟩
      have closes {e : Extraction} (opened : e.inSpecify = true) (text : List Char) :
          e.words? number text ((.endspecify, tail) :: words) =
            (e.gather number (text ++ StructureWord.endspecify.spelling.toList)).close.words?
              number [] words := by
        rw [words?, steers_iff.mpr (.endspecify opened)]
        rfl
      rw [closes opened, closes opened', List.append_assoc, List.append_assoc, List.cons_append]
      exact (spread.gather (.space loose)).close.words number [] words

end Words

section LastCut

variable {front back tail : List Char} {word : StructureWord}
  {words : List (StructureWord × List Char)}

/-- What follows a word is of account where it names a module or opens a section. -/
theorem word_tail (other : word ≠ .specify) (named : moduleName? tail = moduleName? front) :
    e.word? number text word tail = e.word? number text word front := by
  cases word with
  | module => simp only [word?, named]
  | specify => exact absurd rfl other
  | endspecify | endmodule => rfl

/-- A space behind a structural word is pending only if the word opens a section. -/
theorem Spread.words_last (spread : e.Spread e') (quiet : e.inSpecify = false → text = [])
    (loose : Loose (word.spelling.toList ++ tail) (written (back, words))) :
    Option.Rel Spread (e.words? number text ((word, tail ++ back) :: words))
      (e'.words? number text ((word, tail ++ ' ' :: back) :: words)) := by
  by_cases opens : word = .specify
  · subst opens
    cases ready : (e.module.isNone || e.inSpecify) with
    | true =>
      have ready' := ready
      rw [spread.module, spread.inSpecify] at ready'
      rw [words?, words?, word?, word?, ready, ready']
      exact .none
    | false =>
      have ready' := ready
      rw [spread.module, spread.inSpecify] at ready'
      obtain rfl := quiet (by simpa using (Bool.or_eq_false_iff.mp ready).2)
      have opened :
          ({ e with inSpecify := true } : Extraction).Spread { e' with inSpecify := true } :=
        ⟨spread.module, rfl, spread.excluded, spread.gathered, spread.blocks⟩
      rw [words?, words?, word?, word?, ready, ready']
      simpa using opened.words_pending rfl loose
  · have severed : Token.Severed tail back :=
      (loose.severed.suffix (List.suffix_append _ tail)).before
    have ignored : e'.words? number text ((word, tail ++ ' ' :: back) :: words) =
        e'.words? number text ((word, tail ++ back) :: words) := by
      rw [words?, words?, word_tail opens (moduleName_space severed)]
    rw [ignored]
    exact spread.words number text _

end LastCut

section Lines

variable {macros : List String} {front back lead : List Char} {line line' : String}
  {words : List (StructureWord × List Char)}

/-- Results that are related, or errors of the same kind. -/
inductive Agrees {α : Type} (r : α → α → Prop) : Except SourceError α → Except SourceError α → Prop
  | ok {a a' : α} (related : r a a') : Agrees r (.ok a) (.ok a')
  | error {flaw flaw' : SourceError} (kind : flaw.kind = flaw'.kind) :
      Agrees r (.error flaw) (.error flaw')

theorem line_worded (cut : cutAtStructure false false line.toList = (lead, words))
    (some_ : words ≠ []) :
    e.line macros number line =
      match e.words? number (if e.inSpecify && !e.excluded then lead else []) words with
      | some next => .ok next
      | none => .error (.structural number line) := by
  rw [Extraction.line, cut]
  cases words with
  | nil => exact absurd rfl some_
  | cons => rfl

theorem agrees_worded {words' : List (StructureWord × List Char)} {lead' : List Char}
    (cut : cutAtStructure false false line.toList = (lead, words)) (some_ : words ≠ [])
    (cut' : cutAtStructure false false line'.toList = (lead', words')) (some' : words' ≠ [])
    (related : Option.Rel Spread
      (e.words? number (if e.inSpecify && !e.excluded then lead else []) words)
      (e'.words? number (if e'.inSpecify && !e'.excluded then lead' else []) words')) :
    Agrees Spread (e.line macros number line) (e'.line macros number line') := by
  rw [line_worded cut some_, line_worded cut' some']
  generalize e.words? number _ words = found at related ⊢
  generalize e'.words? number _ words' = found' at related ⊢
  cases related with
  | none => exact .error rfl
  | some next => exact .ok next

theorem Spread.line_wordless (spread : e.Spread e') (wordless : Wordless line)
    (wordless' : Wordless line') (directive : isDirective line'.toList = isDirective line.toList)
    (excluded : excludedAfter macros e.excluded line'.toList =
      excludedAfter macros e.excluded line.toList)
    (texts : Source.Spread line.toList line'.toList) (number : Nat) :
    Agrees Spread (e.line macros number line) (e'.line macros number line') := by
  rw [Extraction.line_wordless wordless, Extraction.line_wordless wordless', directive,
    ← spread.excluded, excluded, ← show e.inSpecify = e'.inSpecify from spread.inSpecify]
  split
  · exact .ok ⟨spread.module, rfl, rfl, spread.gathered, spread.blocks⟩
  · split
    · exact .ok (spread.gather texts)
    · exact .ok spread

theorem Spread.line_same (spread : e.Spread e') (number : Nat) :
    Agrees Spread (e.line macros number line) (e'.line macros number line) := by
  rcases cut : cutAtStructure false false line.toList with ⟨lead, words⟩
  by_cases some_ : words = []
  · have wordless : Wordless line := by rw [Wordless, cut, some_]
    exact spread.line_wordless wordless wordless rfl rfl (.same _) number
  · refine agrees_worded cut some_ cut some_ ?_
    rw [← spread.inSpecify, ← spread.excluded]
    exact spread.words number _ words

theorem lengthened_concat (more tail : List Char) (word : StructureWord)
    (words : List (StructureWord × List Char)) :
    lengthened more (words ++ [(word, tail)]) = words ++ [(word, tail ++ more)] := by
  induction words with
  | nil => rfl
  | cons cut words ih =>
    cases words with
    | nil => rfl
    | cons next words => exact congrArg (cut :: ·) ih

/-- The second text stands behind the last structural word of the first. -/
theorem appended_concat (tail : List Char) (word : StructureWord)
    (first : List (StructureWord × List Char)) (second : Cuts) :
    appended (lead, first ++ [(word, tail)]) second =
      (lead, first ++ (word, tail ++ second.1) :: second.2) := by
  refine Prod.ext ?_ ?_
  · cases first <;> rfl
  · rw [appended_words, lengthened_concat, List.append_assoc]
    rfl

theorem words_append (first second : List (StructureWord × List Char)) (text : List Char) :
    e.words? number text (first ++ second) = (e.steered? number text first).bind fun step =>
      step.1.words? number step.2 second := by
  rw [words_eq, steered_append]
  cases e.steered? number text first with
  | none => rfl
  | some step => exact (words_eq step.1 number step.2 second).symm

/-- Outside a section nothing is gathered. -/
theorem Steers.quiet {e next : Extraction} {text after : List Char}
    (steers : Steers e number text tail word next after) (quiet : e.inSpecify = false → text = []) :
    next.inSpecify = false → after = [] := by
  cases steers with
  | module | endmodule => exact quiet
  | specify => exact nofun
  | endspecify => exact fun _ => rfl

theorem quiet_steered {next : Extraction} {text after : List Char}
    (quiet : e.inSpecify = false → text = [])
    (steered : e.steered? number text words = some (next, after)) :
    next.inSpecify = false → after = [] :=
  steered_invariant (fun e text _ => e.inSpecify = false → text = [])
    (fun quiet steers => steers.quiet quiet) quiet steered

theorem quiet_lead (lead : List Char) : e.inSpecify = false →
    (if e.inSpecify && !e.excluded then lead else []) = [] := by
  intro outside
  rw [outside]
  rfl

/-- The words before the one with the space behind it are taken alike. -/
theorem Spread.words_concat {word : StructureWord} {tail : List Char} (spread : e.Spread e')
    (quiet : e.inSpecify = false → text = []) (first : List (StructureWord × List Char))
    (loose : Loose (word.spelling.toList ++ tail) (written (back, words))) :
    Option.Rel Spread (e.words? number text (first ++ (word, tail ++ back) :: words))
      (e'.words? number text (first ++ (word, tail ++ ' ' :: back) :: words)) := by
  rw [words_append, words_append]
  have steps := spread.steered number text first
  cases found : e.steered? number text first with
  | none =>
    rw [found] at steps
    generalize e'.steered? number _ first = found' at steps ⊢
    cases steps
    exact .none
  | some step =>
    obtain ⟨next, after⟩ := step
    have quiet := quiet_steered quiet found
    rw [found] at steps
    generalize e'.steered? number _ first = found' at steps ⊢
    cases steps with
    | @some _ step' same =>
      obtain ⟨next', after'⟩ := step'
      obtain ⟨spread, rfl⟩ := same
      exact spread.words_last quiet loose

theorem Spread.line_space (spread : e.Spread e') (dense : line.toList = front ++ back)
    (wide : line'.toList = front ++ ' ' :: back) (loose : Loose front back)
    (unnamed : namesMacro front = false) (number : Nat) :
    Agrees Spread (e.line macros number line) (e'.line macros number line') := by
  have whole := written_cutAtStructure false false front
  have whole' := written_cutAtStructure false false back
  have closed : ∀ cut ∈ (cutAtStructure false false front).2, quoted false cut.2 = false :=
    (quoted_cutAtStructure loose.closed).2
  have cut := cutAtStructure_parts loose.closed loose.severed
  have cut' := cutAtStructure_parted loose.closed back
  rw [← dense] at cut
  rw [← wide] at cut'
  generalize cutAtStructure false false back = second at whole' cut cut'
  generalize cutAtStructure false false front = first at whole closed cut cut'
  obtain ⟨between, words⟩ := second
  obtain ⟨lead, first⟩ := first
  rcases List.eq_nil_or_concat first with rfl | ⟨first, ⟨word, tail⟩, rfl⟩
  · -- no structural word stands before the space
    obtain rfl : lead = front := by simpa [written] using whole
    dsimp only [appended, parted] at cut cut'
    cases words with
    | nil =>
      refine spread.line_wordless (congrArg Prod.snd cut) (congrArg Prod.snd cut') ?_ ?_ ?_ number
      · rw [dense, wide, isDirective_space loose.severed]
      · rw [dense, wide, excludedAfter_space macros e.excluded loose.severed unnamed]
      · rw [dense, wide]
        exact .space loose
    | cons next words =>
      refine agrees_worded cut (List.cons_ne_nil _ _) cut' (List.cons_ne_nil _ _) ?_
      rw [← spread.inSpecify, ← spread.excluded]
      split
      next gathering =>
        exact spread.words_pending (Bool.and_eq_true_iff.mp gathering).1 (whole'.symm ▸ loose)
      next => exact spread.words number [] (next :: words)
  · rw [List.concat_eq_append] at whole closed cut cut'
    rw [appended_concat] at cut cut'
    have plain : '"' ∉ word.spelling.toList := by cases word <;> decide
    have behind : word.spelling.toList ++ tail <:+ front := by
      rw [← whole]
      exact ⟨lead ++ first.flatMap fun cut => cut.1.spelling.toList ++ cut.2, by simp [written]⟩
    have last : Loose (word.spelling.toList ++ tail) (written (between, words)) := by
      have ends : quoted false (word.spelling.toList ++ tail) = false := by
        rw [quoted_append, quoted_plain plain]
        exact closed (word, tail) (by simp)
      exact whole'.symm ▸
        ⟨loose.severed.suffix behind, ends, fun member => loose.single (behind.subset member)⟩
    refine agrees_worded cut (by simp) cut' (by simp) ?_
    rw [← spread.inSpecify, ← spread.excluded]
    exact spread.words_concat (quiet_lead lead) first last

theorem Spread.line_spread (spread : e.Spread e') (lines : LineSpread line.toList line'.toList)
    (number : Nat) : Agrees Spread (e.line macros number line) (e'.line macros number line') := by
  generalize dense : line.toList = text at lines
  generalize wide : line'.toList = text' at lines
  cases lines with
  | same =>
    obtain rfl : line = line' := String.toList_inj.mp (dense.trans wide.symm)
    exact spread.line_same number
  | space loose unnamed => exact spread.line_space dense wide loose unnamed number

theorem Spread.lines_spread {lines lines' : List String} (spread : e.Spread e')
    (each : List.Forall₂ (fun line line' => LineSpread line.toList line'.toList) lines lines')
    (number : Nat) :
    Agrees Spread (Extraction.lines macros e number lines)
      (Extraction.lines macros e' number lines') := by
  induction each generalizing e e' number with
  | nil => exact .ok spread
  | @cons line line' lines lines' first _ ih =>
    rw [Extraction.lines, Extraction.lines]
    have step : Agrees Spread (e.line macros number line) (e'.line macros number line') :=
      spread.line_spread first number
    generalize e.line macros number line = found at step ⊢
    generalize e'.line macros number line' = found' at step ⊢
    cases step with
    | ok next => exact ih next (number + 1)
    | error kind => exact .error kind

theorem Spread.finish (spread : e.Spread e') : List.Forall₂ Block.Spread e.finish e'.finish := by
  rw [Extraction.finish, Extraction.finish, ← spread.inSpecify]
  split
  · exact spread.close.blocks
  · exact spread.blocks

end Lines

end Extraction

/-- What is read from cleaned lines. -/
def timings (macros lines : List String) : Except Failure (List NamedTiming) :=
  match blocksOfLines macros lines with
  | .ok blocks => blocks.mapM Block.timing
  | .error error => .error (structuralFailure lines error)

theorem modules_eq (macros : List String) (text : String) :
    modules macros text = timings macros (cleanLines text) := rfl

theorem timings_of_lines (macros : List String) {lines lines' : List String}
    (each : List.Forall₂ (fun line line' => LineSpread line.toList line'.toList) lines lines') :
    (timings macros lines').mapError Failure.kind = (timings macros lines).mapError Failure.kind := by
  have start : ({} : Extraction).Spread {} := ⟨rfl, rfl, rfl, .nil, .nil⟩
  have last : Extraction.Agrees Extraction.Spread (Extraction.lines macros {} 1 lines)
      (Extraction.lines macros {} 1 lines') := start.lines_spread each 1
  rw [timings, timings, blocksOfLines, blocksOfLines]
  generalize Extraction.lines macros {} 1 lines = found at last ⊢
  generalize Extraction.lines macros {} 1 lines' = found' at last ⊢
  cases last with
  | ok last => exact timings_of_spread last.finish
  | error kind => exact congrArg Except.error kind.symm

end Source

end CellTiming
