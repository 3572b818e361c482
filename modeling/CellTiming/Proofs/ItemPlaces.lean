import CellTiming.Proofs.Block
import CellTiming.Proofs.Parts
import CellTiming.Proofs.Places

/-! No rule of the grammar looks at where tokens stand, so the timing of a block depends on
the words of its text alone. Items carry the lines that errors may have to name. -/
namespace CellTiming

def TimingItem.placeless : TimingItem → TimingItem
  | .specparam _ name value => .specparam 1 name value
  | .ifnone _ written => .ifnone 1 written
  | item => item

namespace Grammar

open TokenRule

variable {α : Type} (table : Specparams)

section Rules

theorem composed_blind : Composed fun _ => Blind where
  unit := blind_pure
  bind := Blind.bind

theorem blind_constant : Blind (constant table) := (placeless_constants table).expression

theorem blind_condition : Blind (condition table) := (placeless_conditions table).expression

theorem blind_valueParts : ValueParts table fun _ => Blind where
  toComposed := composed_blind
  rising := blind_eatKeyword _
  falling := blind_eatKeyword _
  eventTerm := placeless_eventTerms.expression
  terms := blind_following placeless_eventTerms.expression
  constant := blind_constant table
  triple := blind_eat _
  colon := blind_expect _
  opening := blind_eat _
  closing := blind_expect _
  continuing := (placeless_constants table).continuing

theorem blind_delayValue : Blind (delayValue table) := (blind_valueParts table).delayValue

theorem blind_listParts : ListParts table fun _ => Blind where
  toComposed := composed_blind
  kind := blind_kind
  opening := blind_eat _
  closing := blind_eat _
  constant := blind_constant table
  continuing := (placeless_constants table).continuing
  valueFrom := (blind_valueParts table).valueFrom
  delayValue := blind_delayValue table
  others := blind_following (blind_delayValue table)
  ending delays := by
    refine placeless_blame.bind fun _ => (blind_expect _).bind fun _ => ?_
    cases delays with
    | some => exact blind_pure
    | none => exact placeless_fail

theorem blind_checkParts : CheckParts table fun _ => Blind where
  toComposed := composed_blind
  kind := blind_kind
  name := blind_name
  more := blind_eat _
  comma := blind_expect _
  event := (blind_valueParts table).event
  condition := blind_condition table
  delayValue := blind_delayValue table

theorem countArguments_placeless (depth count : Nat) (ts : List Token) :
    countArguments depth count (ts.map Token.placeless) = countArguments depth count ts := by
  fun_induction countArguments depth count ts <;>
    simp only [List.map_nil, List.map_cons, countArguments, Token.placeless_kind, *, if_true, if_false]

theorem blind_signed (test : Token.Kind → Token.Kind → Bool) : Blind (Rule.ahead fun
    | sign :: next :: _ => test sign.kind next.kind
    | _ => false) := by
  refine blind_ahead fun ts => ?_
  match ts with
  | [] => rfl
  | [_] => rfl
  | _ :: _ :: _ => rfl

theorem blind_itemParts : ItemParts table fun _ => Blind where
  toComposed := composed_blind
  kind := blind_kind
  signed := blind_signed
  minus := blind_eat _
  plus := blind_expect _
  colon := blind_expect _
  closed := blind_eat _
  closing := blind_expect _
  assign := blind_expect _
  name := blind_name
  number := blind_number
  misplaced := placeless_unexpected
  delayList := (blind_listParts table).delayList
  edge := (blind_valueParts table).edge
  parallel := blind_eat _
  full := blind_expect _
  grouped := blind_eat _
  opening := blind_expect _
  semicolon := blind_expect _
  count := blind_ahead (countArguments_placeless 0 1)
  checkArguments := (blind_checkParts table).checkArguments

theorem blind_path : Blind (path table) := (blind_itemParts table).path

end Rules

section Items

theorem placeless_specparam :
    Placeless TimingItem.placeless (specparam table) (specparam table) := by
  refine (placeless_take _).bind fun name => (blind_expect _).bind fun _ =>
    (placeless_take? _).bind fun string => ?_
  rw [Option.isSome_map]
  refine .ite ?_ ?_
  · exact (blind_expect _).bind fun _ => placeless_pure
  · exact (blind_constant table).bind fun _ => (blind_expect _).bind fun _ => placeless_pure

theorem placeless_conditionedPath :
    Placeless TimingItem.placeless (conditionedPath table) (conditionedPath table) :=
  (blind_expect _).bind fun _ => (blind_condition table).bind fun _ => (blind_expect _).bind fun _ =>
    (blind_path table).bind fun _ => placeless_pure

theorem placeless_itemAfter (t : Token) :
    Placeless TimingItem.placeless (itemAfter table t) (itemAfter table t.placeless) := by
  simp only [itemAfter, Token.placeless_kind]
  split
  · exact placeless_specparam table
  · exact placeless_conditionedPath table
  · exact (blind_path table).bind fun _ => placeless_pure
  · exact (blind_itemParts table).pathBody.bind fun _ => placeless_pure
  · exact ((blind_itemParts table).timingCheck _).bind fun _ => placeless_pure
  · exact placeless_fail

theorem add_placeless (timing : ModuleTiming) (item : TimingItem) :
    timing.add item.placeless = (timing.add item).mapError SourceError.placeless := by
  cases item with
  | specparam line name value =>
    cases value with
    | none => rfl
    | some value =>
      rw [TimingItem.placeless, ModuleTiming.add, ModuleTiming.add]
      split <;> rfl
  | check | path | conditioned => rfl
  | ifnone line path =>
    rw [TimingItem.placeless, ModuleTiming.add, ModuleTiming.add]
    split <;> rfl

theorem items_placeless (timing : ModuleTiming) (ts : List Token) :
    (items timing (ts.map Token.placeless)).map (·.val) =
      withoutPlaces id ((items timing ts).map (·.val)) := by
  induction timing, ts using items.induct with
  | case1 timing =>
    rw [List.map_nil, items]
    rfl
  | case2 timing t rest ends =>
    rw [List.map_cons, items_ending (t := t.placeless) ends, items_ending ends]
    rfl
  | case3 timing t rest starts e failed =>
    have failed' : (itemAfter timing.specparams t.placeless).run (rest.map Token.placeless) =
        .error e.placeless := by
      rw [placeless_itemAfter, failed]
      rfl
    rw [List.map_cons, items_failed (t := t.placeless) starts failed', items_failed starts failed]
    rfl
  | case4 timing t rest starts item after read suffix _ ih =>
    have read' : (itemAfter timing.specparams t.placeless).run (rest.map Token.placeless) =
        .ok (item.placeless, after.map Token.placeless) := by
      rw [placeless_itemAfter, read]
      rfl
    rw [List.map_cons, items_item (t := t.placeless) starts read', add_placeless,
      items_item starts read]
    cases added : timing.add item with
    | error e => rfl
    | ok extended => exact ih extended

theorem atEnd_placeless (ts : List Token) : atEnd (ts.map Token.placeless) = atEnd ts := by
  cases ts <;> rfl

theorem groups_placeless (timing : ModuleTiming) (ts : List Token) :
    groups timing (ts.map Token.placeless) =
      (groups timing ts).mapError SourceError.placeless := by
  induction timing, ts using groups.induct with
  | case1 timing =>
    rw [List.map_nil, groups]
    rfl
  | case2 timing t rest opens ih =>
    rw [List.map_cons, groups_specify (t := t.placeless) opens, groups_specify opens,
      continued, continued, items_placeless]
    cases items timing rest with
    | error e => rfl
    | ok step =>
      obtain ⟨⟨gathered, after⟩, suffix⟩ := step
      change (if atEnd (after.map Token.placeless) = true then pure gathered
          else groups gathered (after.map Token.placeless)) =
        (if atEnd after = true then pure gathered else groups gathered after).mapError _
      rw [atEnd_placeless]
      split
      · rfl
      · exact ih gathered after suffix
  | case3 timing t rest other =>
    rw [List.map_cons, groups_other (t := t.placeless) other, groups_other other]
    rfl

end Items

end Grammar

/-- Tokens with the same words make the same timing, or errors that differ in the line only. -/
theorem ModuleTiming.ofTokens_ofWords (ts : List Token) :
    ofTokens (ofWords (words ts)) = (ofTokens ts).mapError SourceError.placeless := by
  rw [ofWords_words]
  exact Grammar.groups_placeless {} ts

theorem ModuleTiming.ofTokens_of_words {ts ts' : List Token} (same : words ts = words ts') :
    (ofTokens ts).mapError SourceError.placeless = (ofTokens ts').mapError SourceError.placeless := by
  rw [← ofTokens_ofWords, ← ofTokens_ofWords, same]

theorem ModuleTiming.ok_of_words {ts ts' : List Token} {timing : ModuleTiming}
    (same : words ts = words ts') (ok : ofTokens ts = .ok timing) : ofTokens ts' = .ok timing := by
  have alike := ofTokens_of_words same
  rw [ok] at alike
  cases found : ofTokens ts' with
  | error flaw =>
    rw [found] at alike
    cases alike
  | ok other =>
    rw [found] at alike
    exact congrArg Except.ok (Except.ok.inj alike).symm

end CellTiming
