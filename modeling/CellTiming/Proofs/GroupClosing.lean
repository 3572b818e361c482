import CellTiming.Proofs.DelayForms
import CellTiming.Proofs.ItemPlaces

/-! A path to a group may be closed before its delays or behind them. Delays are read in the same
way before every token that does not carry them on, so the parenthesis makes no difference to them,
and the path is the same. -/
namespace CellTiming

namespace TokenRule

theorem run_of_words {α : Type} {rule : TokenRule α} {ts ts' : List Token} {value : α}
    (blind : Blind rule) (ok : rule.run ts = .ok (value, [])) (same : words ts' = words ts) :
    rule.run ts' = .ok (value, []) := by
  have alike : ts'.map Token.placeless = ts.map Token.placeless := by
    rw [← ofWords_words, same, ofWords_words]
  have run := (blind ts').symm.trans (alike ▸ blind ts)
  rw [ok] at run
  cases found : rule.run ts' with
  | error e =>
    rw [found] at run
    cases run
  | ok step =>
    obtain ⟨value', rest⟩ := step
    rw [found] at run
    obtain ⟨rfl, none⟩ := Prod.mk.inj (Except.ok.inj run)
    rw [List.map_eq_nil_iff.mp none]
    rfl

end TokenRule

namespace Grammar

open Operators TokenRule

variable {table : Specparams}

section Lists

/-- One delay, which a single parenthesis may begin, or delays in parentheses, as many of them as a
list may have. -/
inductive WritesList (table : Specparams) : List Token → Transitions → Prop
  | delay {used value} (writes : WritesDelay table used value) (flat : ¬Nested used) :
      WritesList table used (.uniform value)
  | list {opening used closing values delays} (opens : opening.kind = .symbol .leftParen)
      (writes : WritesDelays table used values) (closes : closing.kind = .symbol .rightParen)
      (counted : Transitions.ofValues? values = some delays) :
      WritesList table (opening :: (used ++ [closing])) delays

theorem WritesDelays.single {used : List Token} {value : Triple}
    (writes : WritesDelay table used value) : WritesDelays table used [value] := by
  simpa using WritesDelays.row writes .nil

theorem list_of_listFrom {opening : Token} {first ts rest : List Token} {value : Triple}
    {delays : Transitions} (opens : opening.kind = .symbol .leftParen)
    (head : WritesDelay table first value)
    (ok : (delayListFrom table value).run ts = .ok (delays, rest)) :
    ∃ used, ts = used ++ rest ∧ WritesList table (opening :: (first ++ used)) delays := by
  obtain ⟨values, _, read, tail⟩ := Rule.run_bind_ok.mp ok
  obtain ⟨others, rfl, row⟩ := following_takes delayValue_takes _ _ _ read
  obtain ⟨_, _, blamed, tail⟩ := Rule.run_bind_ok.mp tail
  cases blamed
  obtain ⟨_, _, closed, last⟩ := Rule.run_bind_ok.mp tail
  obtain ⟨closing, rfl, closes⟩ := expect_run.mp closed
  cases counted : Transitions.ofValues? (value :: values) with
  | none =>
    rw [counted] at last
    cases last
  | some found =>
    rw [counted] at last
    cases last
    refine ⟨others ++ [closing], by simp, ?_⟩
    rw [← List.append_assoc]
    exact .list opens (.row head row) closes counted

/-- What is read as a list of delays is written in one of the ways. -/
theorem delayList_takes : (delayList table).Takes (WritesList table) := by
  intro ts delays rest ok
  obtain ⟨_, _, eaten, tail⟩ := Rule.run_bind_ok.mp ok
  rcases eat_run.mp eaten with ⟨rfl, opening, rfl, opens⟩ | ⟨rfl, rfl, other⟩
  · obtain ⟨_, _, ahead, branch⟩ := Rule.run_bind_ok.mp tail
    cases ahead
    split at branch
    · obtain ⟨value, _, read, behind⟩ := Rule.run_bind_ok.mp branch
      obtain ⟨first, rfl, head⟩ := delayValue_takes _ _ _ read
      obtain ⟨used, rfl, writes⟩ := list_of_listFrom opens head behind
      exact ⟨opening :: (first ++ used), by simp, writes⟩
    next flat =>
      obtain ⟨least, _, read, behind⟩ := Rule.run_bind_ok.mp branch
      obtain ⟨inner, rfl, head⟩ := writes_of_constant read
      obtain ⟨_, _, second, after⟩ := Rule.run_bind_ok.mp behind
      rcases eat_run.mp second with ⟨rfl, closing, rfl, closes⟩ | ⟨rfl, rfl, _⟩
      · obtain ⟨_, _, further, goesOn⟩ := Rule.run_bind_ok.mp after
        obtain ⟨more, rfl, extension, _⟩ := continuing_run.mp further
        obtain ⟨value, _, last, made⟩ := Rule.run_bind_ok.mp goesOn
        cases made
        obtain ⟨used, rfl, writes⟩ :=
          delay_of_valueFrom (writes_group opens head closes extension) last
        refine ⟨_, by simp, .delay writes ?_⟩
        rintro ⟨_, second, _, same, _, opens'⟩
        obtain ⟨t, others, rfl⟩ := List.exists_cons_of_ne_nil head.operation_ne_nil
        obtain ⟨_, same⟩ := List.cons.inj same
        obtain ⟨rfl, _⟩ := List.cons.inj same
        exact flat opens'
      · obtain ⟨value, _, triple, last⟩ := Rule.run_bind_ok.mp after
        obtain ⟨used, rfl, writes⟩ := delay_of_valueFrom head triple
        obtain ⟨others, rfl, list⟩ := list_of_listFrom opens writes last
        exact ⟨opening :: (inner ++ used ++ others), by simp, list⟩
  · obtain ⟨value, _, read, made⟩ := Rule.run_bind_ok.mp tail
    cases made
    obtain ⟨used, rfl, writes⟩ := delayValue_takes _ _ _ read
    refine ⟨used, rfl, .delay writes ?_⟩
    rintro ⟨first, _, _, rfl, opens, _⟩
    exact other first _ rfl opens

/-- However it is written, a list is read before all that does not carry it on. -/
theorem delayList_writes {used rest : List Token} {delays : Transitions}
    (writes : WritesList table used delays) (ends : EndsDelay table rest) :
    (delayList table).run (used ++ rest) = .ok (delays, rest) := by
  cases writes with
  | list opens writes closes counted =>
    rw [List.cons_append, List.append_assoc, List.singleton_append,
      delayList_written opens writes closes ends, delaysAt, counted]
  | delay writes flat =>
    cases writes with
    | single reads =>
      rw [delayList_constant reads flat ends.1, Rule.run_then (valueFrom_run ends.2 _)]
      rfl
    | triple writes =>
      obtain ⟨head, sign, middle, sign', last⟩ := writes
      have stop := constants_stops table sign (by decide) (by decide)
      rw [List.append_assoc, List.cons_append, List.append_assoc, List.cons_append,
        delayList_constant head (fun nested => flat (nested.append _)) (stop _), valueFrom,
        bind_assoc, eat_then sign, if_pos rfl, Rule.run_then (tripleFrom_run middle sign' last ends.1 _)]
      rfl
    | group opens writes closes =>
      rw [List.cons_append, List.append_assoc, List.singleton_append,
        delayList_written opens (.single (.triple writes)) closes ends]
      rfl

end Lists

section Items

/-- What stands before the path of an item, and what the item is then. -/
inductive ItemLead (table : Specparams) : List Token → (Path → TimingItem) → Prop
  | plain : ItemLead table [] .path
  | conditioned {word opening closing : Token} {guard : List Token} {meaning : Condition}
      (kind : word.kind = .keyword .conditional) (opens : opening.kind = .symbol .leftParen)
      (reads : (condition table).run (guard ++ [closing]) = .ok (meaning, [closing]))
      (closes : closing.kind = .symbol .rightParen) :
      ItemLead table (word :: opening :: (guard ++ [closing])) (.conditioned meaning)
  | ifnone {word : Token} (kind : word.kind = .keyword .ifnone) :
      ItemLead table [word] (.ifnone word.line)

theorem ItemLead.run {front used rest : List Token} {make : Path → TimingItem} {p : Path}
    (lead : ItemLead table front make) (ok : (path table).run (used ++ rest) = .ok (p, rest)) :
    item table (front ++ (used ++ rest)) = .ok (make p, rest) := by
  cases lead with
  | plain =>
    obtain ⟨_, body, head, tail⟩ := Rule.run_bind_ok.mp ok
    obtain ⟨opening, same, opens⟩ := expect_run.mp head
    rw [List.nil_append, same, item, itemAfter, opens]
    exact Rule.run_then tail
  | @conditioned word opening closing guard meaning kind opens reads closes =>
    obtain ⟨guard', same, again⟩ := local_next (local_condition table) _ _ _ reads
    obtain rfl := List.append_cancel_right same
    have reads' := again (closing :: (used ++ rest)) rfl
    rw [List.cons_append, List.cons_append, List.append_assoc, List.singleton_append, item,
      itemAfter, kind]
    dsimp only
    rw [conditionedPath, expect_then opens, Rule.run_then reads', expect_then closes,
      Rule.run_then ok]
    rfl
  | ifnone kind =>
    rw [List.singleton_append, item, itemAfter, kind]
    exact Rule.run_then ok

theorem PathHead.reads (head : PathHead) (ending : List Token) {delays : List Token}
    {value : Transitions} (writes : WritesList table delays value)
    (closes : ending.map (·.kind) = head.ending.map Token.Kind.symbol) {written : List Token}
    (same : words written = words (head.tokens ++ (delays ++ ending))) (rest : List Token) :
    (path table).run (written ++ rest) = .ok (head.toPath value, rest) := by
  have form (rest : List Token) : (path table).run (head.tokens ++ (delays ++ ending) ++ rest) =
      .ok (head.toPath value, rest) :=
    path_forms_run.mpr ⟨⟨head, delays, ending, value, closes, fun rest' =>
      delayList_writes writes (head.ends closes rest')⟩, rfl, rfl⟩
  have ok := form []
  rw [List.append_nil] at ok
  obtain ⟨used, all, _, again⟩ := closed_path table _ _ _ (run_of_words (blind_path table) ok same)
  rw [List.append_nil] at all
  exact all ▸ again rest

/-- Delays that are read as a list before anything at all may stand behind the parenthesis that
closes the path or before it. Wherever the words stand, the path is the same, on its own and behind
a condition or an `ifnone`. -/
theorem path_closed_either (lead : PathLead) (opening : TokenOf (.symbol .leftParen))
    (group : OutputGroup) (closing : TokenOf (.symbol .rightParen))
    (assign : TokenOf (.symbol .assign)) (semicolon : TokenOf (.symbol .semicolon))
    {delays after : List Token} {value : Transitions}
    (accepted : (delayList table).run (delays ++ after) = .ok (value, after))
    {early late : List Token}
    (before : words early =
      words ((PathHead.closed lead opening group closing assign).tokens ++
        (delays ++ [semicolon.val])))
    (behind : words late =
      words ((PathHead.open lead opening group assign).tokens ++
        (delays ++ [closing.val, semicolon.val]))) (rest : List Token) :
    ∃ p : Path, p = (PathHead.closed lead opening group closing assign).toPath value ∧
      (path table).run (early ++ rest) = .ok (p, rest) ∧
      (path table).run (late ++ rest) = .ok (p, rest) ∧
      ∀ front make, ItemLead table front make →
        item table (front ++ (early ++ rest)) = .ok (make p, rest) ∧
        item table (front ++ (late ++ rest)) = .ok (make p, rest) := by
  obtain ⟨used, same, writes⟩ := delayList_takes _ _ _ accepted
  obtain rfl := List.append_cancel_right same
  have first := (PathHead.closed lead opening group closing assign).reads [semicolon.val] writes
    (by simp [PathHead.ending, semicolon.property]) before rest
  have second := (PathHead.open lead opening group assign).reads [closing.val, semicolon.val] writes
    (by simp [PathHead.ending, closing.property, semicolon.property]) behind rest
  exact ⟨_, rfl, first, second, fun front make leads => ⟨leads.run first, leads.run second⟩⟩

private def symbolOf (symbol : Symbol) : TokenOf (.symbol symbol) := ⟨symbolToken symbol, rfl⟩

private def nameOf (name : String) : TokenOf .name := ⟨.ofWord (nameWord name), rfl⟩

/-- `( negedge C =>` -/
private def fallingLead : PathLead :=
  ⟨symbolOf .leftParen, some ⟨.ofWord (.keyword .negedge, "negedge"), rfl⟩, nameOf "C", none,
    ⟨symbolToken .parallelPath, rfl⟩⟩

/-- `Q -: D )` -/
private def invertedGroup : OutputGroup :=
  ⟨nameOf "Q",
    some ⟨some ⟨symbolToken .minus, rfl⟩, symbolOf .colon, .ofWord (nameWord "D"), "D", rfl⟩,
    symbolOf .rightParen⟩

private def declaredDelay : Specparams := [("T", Number.ofInt 2)]

private def delayName : Token := .ofWord (nameWord "T")

/-- `(T)` -/
private def groupedName : List Token :=
  symbolToken .leftParen :: ([delayName] ++ [symbolToken .rightParen])

private theorem writes_groupedName :
    WritesDelay declaredDelay groupedName (.uniform (Number.ofInt 2).toFloat) := by
  have name : WritesConstant declaredDelay [delayName] (Number.ofInt 2) :=
    Reads.operation (.atom rfl rfl rfl) .stop
  exact .single (writes_group rfl name rfl .stop)

/-- `((T), (T))`, which parentheses begin and end -/
private def pairedDelays : List Token :=
  symbolToken .leftParen :: ((groupedName ++ symbolToken .comma :: (groupedName ++ [])) ++
    [symbolToken .rightParen])

private theorem writes_pairedDelays : ∃ value, WritesList declaredDelay pairedDelays value :=
  ⟨_, .list rfl (.row writes_groupedName (.cons ⟨rfl, writes_groupedName⟩ .nil)) rfl rfl⟩

/-- `if ( E )` -/
private def guardTokens : List Token :=
  .ofWord (.keyword .conditional, "if") :: symbolToken .leftParen ::
    ([.ofWord (nameWord "E")] ++ [symbolToken .rightParen])

private theorem guardTokens_lead :
    ItemLead declaredDelay guardTokens (.conditioned (.literal "E")) := by
  have stops : Stops (conditions declaredDelay) 0 [symbolToken .rightParen] :=
    stops_cons _ 0 _ _ rfl
  exact .conditioned rfl rfl
    (expression_run.mpr ⟨_, rfl, .operation (.atom rfl rfl rfl) .stop, stops⟩) rfl

private def closedEarly : List Token :=
  fallingLead.tokens ++ symbolToken .leftParen :: (invertedGroup.tokens ++
    [symbolToken .rightParen, symbolToken .assign]) ++ (pairedDelays ++ [symbolToken .semicolon])

private def closedLate : List Token :=
  fallingLead.tokens ++ symbolToken .leftParen :: (invertedGroup.tokens ++ [symbolToken .assign]) ++
    (pairedDelays ++ [symbolToken .rightParen, symbolToken .semicolon])

theorem path_closed_either_paired : ∃ p : Path,
    p.edge = some .falling ∧ p.source = some "D" ∧ p.inverted = true ∧
      item declaredDelay (guardTokens ++ (closedEarly ++ [])) =
        .ok (.conditioned (.literal "E") p, []) ∧
      item declaredDelay (guardTokens ++ (closedLate ++ [])) =
        .ok (.conditioned (.literal "E") p, []) := by
  obtain ⟨value, writes⟩ := writes_pairedDelays
  have accepted := delayList_writes writes
    (endsDelay_symbol declaredDelay (symbolToken_kind .semicolon) (by decide) [])
  obtain ⟨p, rfl, _, _, items⟩ := path_closed_either fallingLead (symbolOf .leftParen) invertedGroup
    (symbolOf .rightParen) (symbolOf .assign) (symbolOf .semicolon) accepted rfl rfl []
  exact ⟨_, rfl, rfl, rfl, items guardTokens _ guardTokens_lead⟩

end Items

end Grammar

end CellTiming
