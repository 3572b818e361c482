import CellTiming.Proofs.CallPlace
import CellTiming.Proofs.CallText

/-! Combined checks and their parts. The calls of a combined check and those of its parts are
read from the same arguments wherever they stand, and they make the same cell. -/
namespace CellTiming

namespace Grammar

/-- No string stands before the semicolon of a call. -/
theorem call_noString {table : Specparams} {task : CheckTask} {t : Token}
    {used rest after : List Token} {check : TimingCheck}
    (plain : ∀ u ∈ used, u.kind ≠ .symbol .semicolon)
    (ok : (timingCheck table task).run (symbolToken .leftParen :: (used ++ t :: rest)) =
      .ok (check, after)) : t.kind ≠ .string := by
  intro string
  obtain ⟨opening, arguments, closing, semicolon, same, _, closes, ends, balanced, _⟩ :=
    timingCheck_run.mp ok
  obtain ⟨-, same⟩ := List.cons.inj same
  have known := balanced.forall_mem (p := fun kind => kind ≠ .string) (by decide)
  have known' : ∀ u ∈ arguments ++ [closing], u.kind ≠ .string :=
    List.forall_mem_append.mpr ⟨known, by simp [closes]⟩
  have split : used ++ t :: rest = (arguments ++ [closing]) ++ semicolon :: after := by
    simpa using same
  rcases List.append_eq_append_iff.mp split with ⟨more, whole, tail⟩ | ⟨more, whole, tail⟩
  · cases more with
    | nil =>
      cases tail
      cases ends.symm.trans string
    | cons u more =>
      cases tail
      exact known' t (by simp [whole]) string
  · cases more with
    | nil =>
      cases tail
      cases ends.symm.trans string
    | cons u more =>
      cases tail
      exact plain semicolon (by simp [whole]) ends

end Grammar

section Blocks

open Token

variable {task : CheckTask} {table : Specparams} {check : TimingCheck} {text rest : List Char}
  {after : List Token} {ws : List Word} {timing : ModuleTiming}

theorem unquoted (separate : ';' ∉ text) (ok : lexed true (text ++ rest) = .ok ws)
    (read : (Grammar.timingCheck table task).run (ofWords (symbolWord .leftParen :: ws)) =
      .ok (check, after)) : '"' ∉ text := by
  intro quoted
  obtain ⟨front, back, rfl, plain⟩ := List.eq_append_cons_of_mem quoted
  rw [List.append_assoc, List.cons_append] at ok
  have severed : Severed front ('"' :: (back ++ rest)) := (follows_cons rfl _).severed front
  obtain ⟨between, stop, part⟩ := part_of_lexed severed (inString_plain plain) ok
  obtain ⟨_, ok', rfl⟩ := (part.leads _ severed).behind ok
  obtain ⟨word, more, rfl, string⟩ := string_first ok'
  have absent : ';' ∉ front := fun member => separate (List.mem_append_left _ member)
  have split : ofWords (symbolWord .leftParen :: (between ++ word :: more)) =
      symbolToken .leftParen :: (ofWords between ++ ofWord word :: ofWords more) :=
    congrArg (symbolToken .leftParen :: ·) (ofWords_append between (word :: more))
  rw [split] at read
  exact Grammar.call_noString (part.absent rfl absent) read string

/-- The words of an accepted text, and the end of its groups. -/
theorem words_of_ofBlock {text : String} (ok : ModuleTiming.ofBlock text = .ok timing) :
    ∃ ws, lexed true text.toList = .ok ws ∧ ModuleTiming.ofTokens (ofWords ws) = .ok timing ∧
      EndsOnce (ofWords ws) := by
  obtain ⟨ts, tokens, _, once⟩ := groupsRun_of_ofBlock ok
  rw [ModuleTiming.ofBlock, tokens] at ok
  have tokens' : tokensFrom 1 0 true text.toList = .ok ts := tokens
  refine ⟨words ts, by rw [lexed, tokens']; rfl, ?_, fun used left same ends => ?_⟩
  · rw [ModuleTiming.ofTokens_ofWords]
    exact congrArg (Except.mapError SourceError.placeless) ok
  · rw [ofWords_words] at same
    obtain ⟨used, left, rfl, rfl, rfl⟩ := List.map_eq_append_iff.mp same
    rw [Grammar.atEnd_placeless] at ends
    exact List.forall_mem_map.mpr (once used left rfl ends)

theorem ofBlock_of_words {text : String} (cut : lexed true text.toList = .ok ws)
    (ok : ModuleTiming.ofTokens (ofWords ws) = .ok timing) :
    ModuleTiming.ofBlock text = .ok timing := by
  rw [lexed, outcome] at cut
  cases tokens : tokensFrom 1 0 true text.toList with
  | error flaw =>
    rw [tokens] at cut
    cases cut
  | ok ts =>
    rw [tokens] at cut
    cases cut
    rw [ModuleTiming.ofBlock, ofString, tokens]
    exact ModuleTiming.ok_of_words (words_ofWords (words ts)) ok

end Blocks

/-- Commas separate arguments, and a semicolon ends them. -/
def Separate (argument : String) : Prop := ',' ∉ argument.toList ∧ ';' ∉ argument.toList

/-- Where the one block is read, so is the other, and it makes the same cell. -/
def SameCell (text text' : String) : Prop :=
  ∀ timing, ModuleTiming.ofBlock text = .ok timing →
    ∃ timing', ModuleTiming.ofBlock text' = .ok timing' ∧
      ∀ name, Liberty.cellOf? name timing' = Liberty.cellOf? name timing

/-- The text is read as the checks wherever a call may stand. -/
def WrittenChecks (table : Specparams) (text : String) (checks : List TimingCheck) : Prop :=
  text.toList.head? = some '$' ∧ ∃ between,
    (∀ start rest, Token.Leads start (text.toList ++ rest) between true rest) ∧
      Grammar.ReadsChecks table (ofWords between) checks

section Exchange

open Token

variable {task : CheckTask} {table : Specparams} {check : TimingCheck}
  {front back gap gap' text text' : String} {arguments : List String} {pieces : List (List Word)}
  {checks checks' : List TimingCheck}

theorem WrittenChecks.append (written : WrittenChecks table text checks)
    (more : WrittenChecks table text' checks') :
    WrittenChecks table (text ++ " " ++ text') (checks ++ checks') := by
  obtain ⟨starts, between, leads, reads⟩ := written
  obtain ⟨_, between', leads', reads'⟩ := more
  refine ⟨?_, between ++ between', fun start rest => ?_, ?_⟩
  · simp [List.head?_append, starts]
  · have gap : Leads true ([' '] ++ (text'.toList ++ rest)) [] true (text'.toList ++ rest) :=
      leads_gap (by simp [isBlank]) true _
    simpa using (leads start _).trans (gap.trans (leads' true rest))
  · rw [ofWords_append]
    exact reads.append reads'

theorem writtenChecks_call (blank : ∀ c ∈ gap.toList, isBlank c = true)
    (blank' : ∀ c ∈ gap'.toList, isBlank c = true)
    (parts : List.Forall₂ Argued (arguments.map String.toList) pieces)
    (reads : Grammar.ReadsCall table task (pieces.map ofWords) check) :
    WrittenChecks table (task.call gap arguments gap') [check] := by
  refine ⟨head_call, callWords task pieces, leads_call blank blank' parts, ?_⟩
  rw [ofWords_callWords]
  exact reads.checks

theorem semicolon_listed (separate : ∀ argument ∈ arguments, Separate argument) :
    ';' ∉ listed ',' (arguments.map String.toList) := by
  intro member
  rcases of_mem_listed member with comma | ⟨text, known, member⟩
  · cases comma
  · obtain ⟨argument, given, rfl⟩ := List.mem_map.mp known
    exact (separate argument given).2 member

theorem pieces_of_argued (separate : ∀ argument ∈ arguments, Separate argument)
    (parts : List.Forall₂ Argued (arguments.map String.toList) pieces) :
    ∀ piece ∈ pieces.map ofWords, Piece piece := by
  rw [List.forall₂_map_left_iff] at parts
  induction parts with
  | nil => simp
  | cons part _ ih =>
    obtain ⟨⟨comma, semicolon⟩, others⟩ := List.forall_mem_cons.mp separate
    exact List.forall_mem_cons.mpr ⟨part.piece comma semicolon, ih others⟩

theorem CallPlace.severed (place : CallPlace front) (starts : text.toList.head? = some '$')
    (rest : List Char) : Severed front.toList (text.toList ++ rest) := by
  intro u last v head
  rw [List.head?_append, starts] at head
  exact place.apart u last v head

/-- The words of a block around a call and in its arguments, and the state the call is read in. -/
theorem call_of_ofBlock {timing : ModuleTiming} (place : CallPlace front)
    (blank : ∀ c ∈ gap.toList, isBlank c = true) (blank' : ∀ c ∈ gap'.toList, isBlank c = true)
    (separate : ∀ argument ∈ arguments, Separate argument)
    (ok : ModuleTiming.ofBlock (front ++ task.call gap arguments gap' ++ back) = .ok timing) :
    ∃ ahead stop behind pieces found state, Part true front.toList ahead stop ∧
      lexed true back.toList = .ok behind ∧
      List.Forall₂ Argued (arguments.map String.toList) pieces ∧
      ModuleTiming.ofTokens (ofWords ahead ++
        (Grammar.callTokens task (pieces.map ofWords) ++ ofWords behind)) = .ok timing ∧
      Grammar.Reached (ofWords ahead ++
        (Grammar.callTokens task (pieces.map ofWords) ++ ofWords behind)) found state
          (Grammar.callTokens task (pieces.map ofWords) ++ ofWords behind) := by
  obtain ⟨ws, cut, read, once⟩ := words_of_ofBlock ok
  rw [String.toList_append, String.toList_append, List.append_assoc] at cut
  have severed : Severed front.toList ((task.call gap arguments gap').toList ++ back.toList) :=
    place.severed head_call back.toList
  obtain ⟨ahead, stop, part⟩ := part_of_lexed severed place.outside cut
  obtain ⟨called, cut', rfl⟩ := (part.leads _ severed).behind cut
  have opened := cut'
  rw [call_append] at opened
  obtain ⟨inner, opened, same⟩ := (leads_opening task blank stop _).behind opened
  have tokens : ofWords called =
      ofWord (taskWord task) :: ofWords (symbolWord .leftParen :: inner) := by
    rw [same]
    rfl
  rw [ofWords_append] at read once
  -- the call heads an item, so there is no string in it and its arguments are cut one by one
  obtain ⟨found, state, reached⟩ := Grammar.task_reached read once rfl
    (congrArg (ofWords ahead ++ ·) tokens)
  obtain ⟨check, after, run⟩ := Grammar.call_of_continued rfl (reached.continues.symm.trans read)
  have plain := unquoted (semicolon_listed separate) opened run
  obtain ⟨pieces, parts⟩ := argued_listed
    (fun text member quoted => plain (subset_listed member quoted)) opened
  obtain ⟨behind, rest, whole⟩ := (leads_call blank blank' parts stop back.toList).behind cut'
  rw [← tokens, whole, ofWords_append, ofWords_callWords] at reached
  rw [whole, ofWords_append, ofWords_callWords] at read
  exact ⟨ahead, stop, behind, pieces, found, state, part, rest, parts, read, reached⟩

/-- A call of a block may be exchanged for calls that add up to the same in a cell. -/
theorem sameCell_of_call (blank : ∀ c ∈ gap.toList, isBlank c = true)
    (blank' : ∀ c ∈ gap'.toList, isBlank c = true)
    (separate : ∀ argument ∈ arguments, Separate argument)
    (called : CallAt (front ++ task.call gap arguments gap' ++ back) front task)
    (exchange : ∀ table pieces, List.Forall₂ Argued (arguments.map String.toList) pieces →
      (∀ piece ∈ pieces.map ofWords, Piece piece) →
      ∀ back check after, (Grammar.timingCheck table task).run
        (Grammar.callBody (pieces.map ofWords) ++ back) = .ok (check, after) →
      ∃ check checks, Grammar.ReadsCall table task (pieces.map ofWords) check ∧
        WrittenChecks table text checks ∧
        ∀ cell, checks.foldl Liberty.addCheck cell = Liberty.addCheck cell check) :
    SameCell (front ++ task.call gap arguments gap' ++ back) (front ++ text ++ back) := by
  intro timing ok
  have place : CallPlace front := by
    rw [String.append_assoc] at ok called
    exact callPlace_of_ofBlock ok called (by simp [List.head?_append, head_call])
  obtain ⟨ahead, stop, behind, pieces, found, state, part, rest, parts, read, reached⟩ :=
    call_of_ofBlock place blank blank' separate ok
  obtain ⟨check, after, run⟩ := Grammar.call_of_continued rfl (reached.continues.symm.trans read)
  obtain ⟨check, checks, reads, ⟨starts, between, leads, reads'⟩, alike⟩ :=
    exchange state.specparams pieces parts (pieces_of_argued separate parts) _ _ _ run
  obtain ⟨timing', ok', cells⟩ := Grammar.exchange reached reads.checks reads' alike read
  have cut : lexed true (front ++ text ++ back).toList = .ok (ahead ++ (between ++ behind)) := by
    rw [String.toList_append, String.toList_append, List.append_assoc,
      lexed_of_leads (part.leads _ (place.severed starts _)), lexed_of_leads (leads stop _), rest]
    rfl
  refine ⟨timing', ofBlock_of_words cut ?_, cells⟩
  rw [ofWords_append, ofWords_append]
  exact ok'

variable (blank : ∀ c ∈ gap.toList, isBlank c = true)
  (blank' : ∀ c ∈ gap'.toList, isBlank c = true) {r d s h n : String} {more : List String}

include blank blank'

theorem sameCell_setuphold (separate : ∀ argument ∈ r :: d :: s :: h :: more, Separate argument)
    (called : CallAt (front ++ CheckTask.setuphold.call gap (r :: d :: s :: h :: more) gap' ++ back)
      front .setuphold) :
    SameCell (front ++ CheckTask.setuphold.call gap (r :: d :: s :: h :: more) gap' ++ back)
      (front ++ (CheckTask.setup.call gap [d, r, s] gap' ++ " " ++
        CheckTask.hold.call gap [r, d, h] gap') ++ back) := by
  refine sameCell_of_call blank blank' separate called
    fun table pieces parts plain back check after run => ?_
  rcases parts with _ | ⟨partR, _ | ⟨partD, _ | ⟨partS, _ | ⟨partH, _⟩⟩⟩⟩
  obtain ⟨reference, data, setup, hold, notifier, conditions, whole, first, second⟩ :=
    Grammar.setuphold_parts plain run
  have setups : WrittenChecks table (CheckTask.setup.call gap [d, r, s] gap') _ :=
    writtenChecks_call blank blank' (.cons partD (.cons partR (.cons partS .nil))) first
  have holds : WrittenChecks table (CheckTask.hold.call gap [r, d, h] gap') _ :=
    writtenChecks_call blank blank' (.cons partR (.cons partD (.cons partH .nil))) second
  exact ⟨_, _, whole, setups.append holds, fun cell => rfl⟩

theorem sameCell_recovery
    (separate : ∀ argument ∈ r :: d :: s :: h :: n :: more, Separate argument)
    (called : CallAt (front ++
      CheckTask.recovery.call gap (r :: d :: s :: h :: n :: more) gap' ++ back) front .recovery) :
    SameCell (front ++ CheckTask.recovery.call gap (r :: d :: s :: h :: n :: more) gap' ++ back)
      (front ++ CheckTask.recrem.call gap (r :: d :: h :: s :: n :: more) gap' ++ back) := by
  refine sameCell_of_call blank blank' separate called
    fun table pieces parts plain back check after run => ?_
  rcases parts with _ | ⟨partR, _ | ⟨partD, _ | ⟨partS, _ | ⟨partH, _ | ⟨partN, parts⟩⟩⟩⟩⟩
  obtain ⟨reference, data, recovery, removal, notifier, conditions, extended, reordered⟩ :=
    Grammar.recovery_reordered plain (List.cons_ne_nil _ _) run
  exact ⟨_, _, extended, writtenChecks_call blank blank'
    (.cons partR (.cons partD (.cons partH (.cons partS (.cons partN parts))))) reordered,
    fun cell => rfl⟩

end Exchange

private def opening : String := "specify (C => Q) = 1; "

private def closing : String := " endspecify"

private def pinsOf (timing : ModuleTiming) : Option (List String) :=
  (Liberty.cellOf? "register" timing).map fun cell => cell.pins.map (·.1)

/-- A check for setup and hold makes the cell of its two parts, and the long form of a recovery
check makes that of a check for recovery and removal with the limits the other way round. -/
theorem sameCell_combined (front back gap gap' : String)
    (blank : ∀ c ∈ gap.toList, Token.isBlank c = true)
    (blank' : ∀ c ∈ gap'.toList, Token.isBlank c = true) :
    (∀ r d s h more, (∀ argument ∈ r :: d :: s :: h :: more, Separate argument) →
      CallAt (front ++ CheckTask.setuphold.call gap (r :: d :: s :: h :: more) gap' ++ back)
        front .setuphold →
      SameCell (front ++ CheckTask.setuphold.call gap (r :: d :: s :: h :: more) gap' ++ back)
        (front ++ (CheckTask.setup.call gap [d, r, s] gap' ++ " " ++
          CheckTask.hold.call gap [r, d, h] gap') ++ back)) ∧
    (∀ r d l l' n c c' p p',
      (∀ argument ∈ [r, d, l, l', n, c, c', p, p'], Separate argument) →
      CallAt (front ++ CheckTask.recovery.call gap [r, d, l, l', n, c, c', p, p'] gap' ++ back)
        front .recovery →
      SameCell (front ++ CheckTask.recovery.call gap [r, d, l, l', n, c, c', p, p'] gap' ++ back)
        (front ++ CheckTask.recrem.call gap [r, d, l', l, n, c, c', p, p'] gap' ++ back)) := by
  constructor
  · intro r d s h more separate called
    exact sameCell_setuphold blank blank' separate called
  · intro r d l l' n c c' p p' separate called
    exact sameCell_recovery blank blank' separate called

theorem sameCell_combined_register :
    (∃ timing timing',
      ModuleTiming.ofBlock (opening ++
        CheckTask.setuphold.call " " ["posedge C", "D &&& E", "2", "(1:2:3)", "N"] "" ++ closing) =
          .ok timing ∧
      ModuleTiming.ofBlock (opening ++
        (CheckTask.setup.call " " ["D &&& E", "posedge C", "2"] "" ++ " " ++
          CheckTask.hold.call " " ["posedge C", "D &&& E", "(1:2:3)"] "") ++ closing) =
            .ok timing' ∧
      Liberty.cellOf? "register" timing' = Liberty.cellOf? "register" timing ∧
      pinsOf timing = some ["Q", "D"]) ∧
    (∃ timing timing',
      ModuleTiming.ofBlock (opening ++
        CheckTask.recovery.call " " ["R", "C", "2", "1", "N", "", "E", "", "D"] "" ++ closing) =
          .ok timing ∧
      ModuleTiming.ofBlock (opening ++
        CheckTask.recrem.call " " ["R", "C", "1", "2", "N", "", "E", "", "D"] "" ++ closing) =
            .ok timing' ∧
      Liberty.cellOf? "register" timing' = Liberty.cellOf? "register" timing ∧
      pinsOf timing = some ["Q", "C"]) := by
  have same := sameCell_combined opening closing " " "" (by simp [Token.isBlank]) (by simp)
  constructor
  · have read : (ModuleTiming.ofBlock (opening ++
        CheckTask.setuphold.call " " ["posedge C", "D &&& E", "2", "(1:2:3)", "N"] "" ++
          closing)).toOption.map pinsOf = some (some ["Q", "D"]) := by
      decide +kernel
    have called : CallAt (opening ++
        CheckTask.setuphold.call " " ["posedge C", "D &&& E", "2", "(1:2:3)", "N"] "" ++ closing)
          opening .setuphold := by
      decide +kernel
    obtain ⟨timing, ok, pins⟩ := exists_ok_of_toOption read
    obtain ⟨timing', ok', cells⟩ := same.1 _ _ _ _ _ (by simp [Separate]) called timing ok
    exact ⟨timing, timing', ok, ok', cells "register", pins⟩
  · have read : (ModuleTiming.ofBlock (opening ++
        CheckTask.recovery.call " " ["R", "C", "2", "1", "N", "", "E", "", "D"] "" ++
          closing)).toOption.map pinsOf = some (some ["Q", "C"]) := by
      decide +kernel
    have called : CallAt (opening ++
        CheckTask.recovery.call " " ["R", "C", "2", "1", "N", "", "E", "", "D"] "" ++ closing)
          opening .recovery := by
      decide +kernel
    obtain ⟨timing, ok, pins⟩ := exists_ok_of_toOption read
    obtain ⟨timing', ok', cells⟩ :=
      same.2 _ _ _ _ _ _ _ _ _ (by simp [Separate]) called timing ok
    exact ⟨timing, timing', ok, ok', cells "register", pins⟩

end CellTiming
