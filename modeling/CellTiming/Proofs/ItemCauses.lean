import CellTiming.Proofs.Block
import CellTiming.Proofs.Causes
import CellTiming.Proofs.Parts

/-! Every error in a block has its cause among the tokens of the block, be it a token out of
place, a name declared twice or not at all, or an `ifnone` that nothing comes before. -/
namespace CellTiming.Grammar

open TokenRule

variable {α : Type} {all : List Token} (table : Specparams)

section Rules

theorem composed_traces : Composed fun _ => Traces all where
  unit := traces_pure
  bind first second := first.bind fun value _ => second value

theorem traces_constant : Traces all (constant table) := (inner_constants table).expression

theorem traces_condition : Traces all (condition table) := (inner_conditions table).expression

theorem traces_valueParts : ValueParts table fun _ => Traces all where
  toComposed := composed_traces
  rising := traces_eatKeyword _
  falling := traces_eatKeyword _
  eventTerm := inner_eventTerms.expression
  terms := traces_following inner_eventTerms.expression
  constant := traces_constant table
  triple := traces_eat _
  colon := traces_expect _
  opening := traces_eat _
  closing := traces_expect _
  continuing := (inner_constants table).continuing

theorem traces_edge : Traces all edge? := (traces_valueParts []).edge

theorem traces_event : Traces all event := (traces_valueParts []).event

theorem traces_delayValue : Traces all (delayValue table) := (traces_valueParts table).delayValue

theorem traces_listParts : ListParts table fun _ => Traces all where
  toComposed := composed_traces
  kind := traces_ahead
  opening := traces_eat _
  closing := traces_eat _
  constant := traces_constant table
  continuing := (inner_constants table).continuing
  valueFrom := (traces_valueParts table).valueFrom
  delayValue := traces_delayValue table
  others := traces_following (traces_delayValue table)
  ending delays := by
    refine traced_blame.bind fun _ caused => (traces_expect _).bind fun _ _ => ?_
    cases delays with
    | some => exact traces_pure
    | none => exact traced_fail caused

theorem traces_delayList : Traces all (delayList table) := (traces_listParts table).delayList

theorem traces_checkParts : CheckParts table fun _ => Traces all where
  toComposed := composed_traces
  kind := traces_ahead
  name := traces_name
  more := traces_eat _
  comma := traces_expect _
  event := traces_event
  condition := traces_condition table
  delayValue := traces_delayValue table

theorem traces_itemParts : ItemParts table fun _ => Traces all where
  toComposed := composed_traces
  kind := traces_ahead
  signed _ := traces_ahead
  minus := traces_eat _
  plus := traces_expect _
  colon := traces_expect _
  closed := traces_eat _
  closing := traces_expect _
  assign := traces_expect _
  name := traces_name
  number := traces_number
  misplaced := traced_unexpected
  delayList := traces_delayList table
  edge := traces_edge
  parallel := traces_eat _
  full := traces_expect _
  grouped := traces_eat _
  opening := traces_expect _
  semicolon := traces_expect _
  count := traces_ahead
  checkArguments := (traces_checkParts table).checkArguments

end Rules

section Items

/-- What an item carries for an error comes from a token. -/
def Carried (all : List Token) : TimingItem → Prop
  | .specparam line name _ => ∃ t ∈ all, t.kind = .name ∧ t.line = line ∧ t.text = name
  | .ifnone line _ => ∃ t ∈ all, t.kind = .keyword .ifnone ∧ t.line = line
  | _ => True

theorem traced_specparam : Traced all (specparam table) (Carried all) := by
  refine (traced_take Token.Kind.noConfusion).bind fun name taken =>
    (traces_expect _).bind fun _ _ => (traced_take? Token.Kind.noConfusion).bind fun string _ => ?_
  have carried : ∃ t ∈ all, t.kind = .name ∧ t.line = name.line ∧ t.text = name.text :=
    ⟨name, taken.1, taken.2, rfl, rfl⟩
  refine .ite ?_ ?_
  · exact (traces_expect _).bind fun _ _ => traced_pure carried
  · exact (traces_constant table).bind fun _ _ => (traces_expect _).bind fun _ _ =>
      traced_pure carried

theorem traced_conditionedPath : Traced all (conditionedPath table) (Carried all) :=
  (traces_expect _).bind fun _ _ => (traces_condition table).bind fun _ _ =>
    (traces_expect _).bind fun _ _ => (traces_itemParts table).path.bind fun _ _ => traced_pure trivial

theorem traced_itemAfter {t : Token} (member : t ∈ all) :
    Traced all (itemAfter table t) (Carried all) := by
  unfold itemAfter
  split
  · exact traced_specparam table
  · exact traced_conditionedPath table
  next opens => exact (traces_itemParts table).path.bind fun _ _ => traced_pure ⟨t, member, opens, rfl⟩
  · exact (traces_itemParts table).pathBody.bind fun _ _ => traced_pure trivial
  · exact ((traces_itemParts table).timingCheck _).bind fun _ _ => traced_pure trivial
  · exact traced_fail ⟨t, member, causes_unexpected t []⟩

theorem causedIn_of_add {timing : ModuleTiming} {item : TimingItem} {e : SourceError}
    (carried : Carried all item) (failed : timing.add item = .error e) : CausedIn all e := by
  unfold ModuleTiming.add at failed
  split at failed
  case h_1 | h_3 | h_4 | h_5 => cases failed
  case h_2 =>
    obtain ⟨t, member, kind, rfl, rfl⟩ := carried
    split at failed <;> cases failed
    exact ⟨t, member, .redefined kind⟩
  case h_6 =>
    obtain ⟨t, member, kind, rfl⟩ := carried
    split at failed <;> cases failed
    exact ⟨t, member, .uncovered kind⟩

theorem inner_of_read {t : Token} {rest after : List Token} {item : TimingItem}
    (read : (itemAfter table t).run rest = .ok (item, after)) : t.kind ≠ .endOfInput := by
  obtain ⟨_, _, opens⟩ := itemAfter_opens table t rest item after read
  intro ending
  cases item <;> simp [OpensItem, ending] at opens

theorem causedIn_of_itemAfter {t : Token} {rest : List Token} {e : SourceError}
    (within : t :: rest <:+ all) (ended : Ended (t :: rest))
    (failed : (itemAfter table t).run rest = .error e) : CausedIn all e := by
  have member := within.subset List.mem_cons_self
  by_cases ending : t.kind = .endOfInput
  · have alone : (itemAfter table t).run rest = .error (unexpectedAt [t]) := by
      rw [itemAfter, ending]
      rfl
    rw [alone] at failed
    cases failed
    exact ⟨t, member, causes_unexpected t []⟩
  · have found := traced_itemAfter table member rest ((List.suffix_cons t rest).trans within)
      (ended.tail ending)
    rwa [failed] at found

theorem explained_items (timing : ModuleTiming) (ts : List Token) (within : ts <:+ all)
    (ended : Ended ts) : Explained all (fun _ => True) ((items timing ts).map (·.val)) := by
  induction timing, ts using items.induct with
  | case1 => simp [Ended] at ended
  | case2 timing t rest ends =>
    rw [items_ending ends]
    exact ⟨ended.tail (by simp [ends]), trivial⟩
  | case3 timing t rest starts e failed =>
    rw [items_failed starts failed]
    exact causedIn_of_itemAfter _ within ended failed
  | case4 timing t rest starts item after read suffix _ ih =>
    have behind := (List.suffix_cons t rest).trans within
    have found := traced_itemAfter timing.specparams (within.subset List.mem_cons_self) rest behind
      (ended.tail (inner_of_read _ read))
    rw [read] at found
    rw [items_item starts read]
    cases added : timing.add item with
    | error e => exact causedIn_of_add found.2 added
    | ok extended => exact ih extended (suffix.trans behind) found.1

theorem causedIn_of_groups {timing : ModuleTiming} {ts : List Token} {e : SourceError}
    (within : ts <:+ all) (ended : Ended ts) (failed : groups timing ts = .error e) :
    CausedIn all e := by
  induction timing, ts using groups.induct with
  | case1 => simp [Ended] at ended
  | case2 timing t rest opens ih =>
    have behind := (List.suffix_cons t rest).trans within
    have found := explained_items timing rest behind (ended.tail (by simp [opens]))
    rw [groups_specify opens, continued] at failed
    cases read : items timing rest with
    | error e' =>
      rw [read] at failed found
      cases failed
      exact found
    | ok step =>
      obtain ⟨⟨gathered, after⟩, suffix⟩ := step
      rw [read] at failed found
      change (if atEnd after = true then pure gathered else groups gathered after) = _ at failed
      split at failed
      · cases failed
      · exact ih gathered after suffix (suffix.trans ((List.tail_suffix rest).trans behind)) found.1
          failed
  | case3 timing t rest other =>
    rw [groups_other other] at failed
    cases failed
    exact ended.causedIn within

/-- What is wrong with a text that has tokens is wrong with one of them. -/
theorem causedIn_of_ofTokens {ts : List Token} {e : SourceError} (ended : Ended ts)
    (failed : ModuleTiming.ofTokens ts = .error e) : CausedIn ts e :=
  causedIn_of_groups List.suffix_rfl ended failed

end Items

end CellTiming.Grammar
