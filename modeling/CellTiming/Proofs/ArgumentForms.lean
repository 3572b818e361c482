import CellTiming.Proofs.Arguments
import CellTiming.Proofs.DelayForms

/-! The arguments of a call as they are written. The commas outside of parentheses cut a call into
its arguments. Each argument that is well formed is read to its end, wherever it stands, and what a
rule reads as an argument is well formed. -/
namespace CellTiming

open Grammar

section Cuts

/-- The number of parentheses that are open behind a token. -/
def depthAfter (depth : Nat) (t : Token) : Nat :=
  if t.kind = .symbol .leftParen then depth + 1
  else if t.kind = .symbol .rightParen then depth - 1
  else depth

/-- The pieces between the commas that stand outside of parentheses. -/
def topLevel (depth : Nat) : List Token → List (List Token)
  | [] => [[]]
  | t :: rest =>
    if t.kind = .symbol .comma ∧ depth = 0 then [] :: topLevel depth rest
    else (topLevel (depthAfter depth t) rest).modifyHead (t :: ·)

/-- Pieces that each follow a comma. -/
inductive Followed : List (List Token) → List Token → Prop
  | nil : Followed [] []
  | cons {comma piece pieces used} (kind : comma.kind = .symbol .comma)
      (tail : Followed pieces used) : Followed (piece :: pieces) (comma :: (piece ++ used))

/-- Pieces with commas between them. -/
inductive Joined : List (List Token) → List Token → Prop
  | pieces {piece pieces used} (tail : Followed pieces used) :
      Joined (piece :: pieces) (piece ++ used)

theorem Followed.continues {pieces : List (List Token)} {used : List Token}
    (followed : Followed pieces used) : Continues used := by
  cases followed with
  | nil => exact nofun
  | cons kind _ =>
    rintro _ _ ⟨⟩
    exact kind

theorem joined_topLevel (depth : Nat) (used : List Token) : Joined (topLevel depth used) used := by
  induction used generalizing depth with
  | nil => exact .pieces .nil
  | cons t rest ih =>
    rw [topLevel]
    split
    next comma =>
      have cut := ih depth
      generalize topLevel depth rest = pieces at cut
      obtain ⟨tail⟩ := cut
      exact .pieces (.cons comma.1 tail)
    next =>
      have cut := ih (depthAfter depth t)
      generalize topLevel (depthAfter depth t) rest = pieces at cut
      obtain ⟨tail⟩ := cut
      exact .pieces tail

variable {piece used : List Token} {pieces : List (List Token)}

/-- Inside of a balanced piece no comma cuts. -/
theorem Balanced.topLevel_append (balanced : Balanced argumentKinds piece) (depth : Nat)
    (rest : List Token) :
    topLevel depth (piece ++ rest) = (topLevel depth rest).modifyHead (piece ++ ·) := by
  induction balanced generalizing depth rest with
  | nil =>
    change topLevel depth rest = (topLevel depth rest).modifyHead id
    rw [List.modifyHead_id, id]
  | @token t known =>
    have plain : ∀ kind ∈ argumentKinds, kind ≠ .symbol .comma ∧ kind ≠ .symbol .leftParen ∧
      kind ≠ .symbol .rightParen := by decide
    obtain ⟨comma, left, right⟩ := plain _ known
    simp [topLevel, depthAfter, comma, left, right]
  | append _ _ left right =>
    rw [List.append_assoc, left, right]
    simp [Function.comp_def]
  | @group opening inner closing opens closes _ within =>
    simp [topLevel, depthAfter, opens, closes, within, Function.comp_def]

theorem Balanced.countArguments_append (balanced : Balanced argumentKinds piece)
    (depth count : Nat) (rest : List Token) :
    countArguments (depth + 1) count (piece ++ rest) = countArguments (depth + 1) count rest := by
  induction balanced generalizing depth rest with
  | nil => rfl
  | @token t known =>
    rw [List.singleton_append, countArguments]
    simp only [argumentKinds, List.mem_cons, List.not_mem_nil, or_false] at known
    rcases known with kind | kind | kind | kind | kind | kind | kind | kind | kind | kind | kind |
      kind | kind | kind <;> simp [kind]
  | append _ _ left right => rw [List.append_assoc, left, right]
  | @group opening inner closing opens closes _ within =>
    rw [List.cons_append, countArguments, opens]
    simp [within, countArguments, closes]

section Followed

variable (each : ∀ piece ∈ pieces, Balanced argumentKinds piece)

include each

theorem Followed.topLevel (followed : Followed pieces used) : topLevel 0 used = [] :: pieces := by
  induction followed with
  | nil => rfl
  | cons kind _ ih =>
    obtain ⟨first, others⟩ := List.forall_mem_cons.mp each
    rw [CellTiming.topLevel, if_pos ⟨kind, rfl⟩, first.topLevel_append, ih others]
    simp

theorem Followed.countArguments (followed : Followed pieces used) (count : Nat) :
    countArguments 1 count used = count + pieces.length := by
  induction followed generalizing count with
  | nil => rfl
  | cons kind _ ih =>
    obtain ⟨first, others⟩ := List.forall_mem_cons.mp each
    rw [Grammar.countArguments, kind]
    dsimp only
    rw [if_pos rfl, first.countArguments_append, ih others, List.length_cons]
    omega

theorem Followed.balanced (followed : Followed pieces used) : Balanced listKinds used := by
  induction followed with
  | nil => exact .nil
  | @cons comma _ _ _ kind _ ih =>
    obtain ⟨first, others⟩ := List.forall_mem_cons.mp each
    exact .append (.token (by simp [kind, listKinds]) : Balanced listKinds [comma])
      (.append first.list (ih others))

theorem Joined.topLevel (joined : Joined pieces used) : topLevel 0 used = pieces := by
  obtain ⟨followed⟩ := joined
  obtain ⟨first, others⟩ := List.forall_mem_cons.mp each
  rw [first.topLevel_append, followed.topLevel others]
  simp

theorem Joined.argumentCount (joined : Joined pieces used) : argumentCount used = pieces.length := by
  obtain ⟨followed⟩ := joined
  obtain ⟨first, others⟩ := List.forall_mem_cons.mp each
  rw [CellTiming.argumentCount, first.countArguments_append, followed.countArguments others,
    List.length_cons, Nat.add_comm]

theorem Joined.balanced (joined : Joined pieces used) : Balanced listKinds used := by
  obtain ⟨followed⟩ := joined
  obtain ⟨first, others⟩ := List.forall_mem_cons.mp each
  exact .append first.list (followed.balanced others)

end Followed

end Cuts

namespace Grammar

open Operators TokenRule

section Forms

variable {α β γ : Type}

/-- What the rule reads as an argument is written in the form, and what is written in the form it
reads wherever the argument ends. -/
structure ArgumentOf (rule : TokenRule α) (P : List Token → α → Prop) : Prop where
  takes : rule.Takes P
  argument : ∀ {used value}, P used value → Argument rule used value

/-- The same of a rule for several arguments that the closing parenthesis ends. -/
structure ListOf (cut : List (List Token) → List Token → Prop) (rule : TokenRule α)
    (F : List (List Token) → α → Prop) : Prop where
  takes : rule.Takes fun used value => ∃ pieces, cut pieces used ∧ F pieces value
  reads : ∀ {pieces used value closing}, F pieces value → cut pieces used →
    closing.kind = .symbol .rightParen → ∀ rest,
    rule.run (used ++ closing :: rest) = .ok (value, closing :: rest)
  balanced : ∀ {pieces value}, F pieces value → ∀ piece ∈ pieces, Balanced argumentKinds piece

/-- An argument in front of others. -/
inductive Before (P : List Token → α → Prop) (F : α → List (List Token) → β → Prop) :
    List (List Token) → β → Prop
  | piece {first others value result} (head : P first value) (tail : F value others result) :
      Before P F (first :: others) result

/-- Further arguments, or none of them and a value in their place. -/
inductive OrNone (F : List (List Token) → α → Prop) (value : α) : List (List Token) → α → Prop
  | none : OrNone F value [] value
  | some {pieces result} (form : F pieces result) : OrNone F value pieces result

/-- No argument at all. -/
inductive NoneLeft (value : α) : List (List Token) → α → Prop
  | none : NoneLeft value [] value

theorem ListOf.iff {cut : List (List Token) → List Token → Prop} {rule : TokenRule α}
    {F G : List (List Token) → α → Prop} (list : ListOf cut rule F)
    (same : ∀ pieces value, F pieces value ↔ G pieces value) : ListOf cut rule G := by
  have equal : F = G := funext fun pieces => funext fun value => propext (same pieces value)
  exact equal ▸ list

theorem ListOf.map {cut : List (List Token) → List Token → Prop} {rule : TokenRule α}
    {F : List (List Token) → α → Prop} (list : ListOf cut rule F) (make : α → β) :
    ListOf cut (rule >>= fun value => pure (make value))
      fun pieces result => ∃ value, F pieces value ∧ result = make value where
  takes := by
    intro ts result rest ok
    obtain ⟨value, _, read, made⟩ := Rule.run_bind_ok.mp ok
    cases made
    obtain ⟨used, rfl, pieces, cut, form⟩ := list.takes _ _ _ read
    exact ⟨used, rfl, pieces, cut, value, form, rfl⟩
  reads := by
    rintro _ _ _ closing ⟨value, form, rfl⟩ cut closes rest
    rw [Rule.run_then (list.reads form cut closes rest)]
    rfl
  balanced := by
    rintro _ _ ⟨value, form, rfl⟩
    exact list.balanced form

theorem listOf_pure (value : α) : ListOf Followed (pure value) (NoneLeft value) where
  takes := Rule.takes_pure ⟨[], .nil, .none⟩
  reads := by
    rintro _ _ _ closing ⟨⟩ ⟨⟩ _ rest
    rfl
  balanced := by
    rintro _ _ ⟨⟩
    simp

section Argument

variable {rule : TokenRule α} {next : α → TokenRule β} {P : List Token → α → Prop}
  {F : α → List (List Token) → β → Prop}

theorem ArgumentOf.list (form : ArgumentOf rule P) (tail : ∀ value, ListOf Followed (next value) (F value)) :
    ListOf Joined (rule >>= next) (Before P F) where
  takes := by
    intro ts result rest ok
    obtain ⟨value, middle, head, others⟩ := Rule.run_bind_ok.mp ok
    obtain ⟨first, rfl, writes⟩ := form.takes _ _ _ head
    obtain ⟨more, rfl, pieces, followed, behind⟩ := (tail value).takes _ _ _ others
    exact ⟨first ++ more, by simp, first :: pieces, .pieces followed, .piece writes behind⟩
  reads := by
    rintro _ _ _ closing ⟨writes, behind⟩ ⟨followed⟩ closes rest
    rw [List.append_assoc,
      Rule.run_then ((form.argument writes).before_tail followed.continues closes rest)]
    exact (tail _).reads behind followed closes rest
  balanced := by
    rintro _ _ ⟨writes, behind⟩
    exact List.forall_mem_cons.mpr ⟨(form.argument writes).balanced, (tail _).balanced behind⟩

/-- Behind a comma there is another argument. -/
theorem ArgumentOf.further (form : ArgumentOf rule P)
    (tail : ∀ value, ListOf Followed (next value) (F value)) :
    ListOf Followed (expect .comma >>= fun _ => rule >>= next) (Before P F) where
  takes := by
    intro ts result rest ok
    obtain ⟨_, _, first, others⟩ := Rule.run_bind_ok.mp ok
    obtain ⟨comma, rfl, kind⟩ := expect_run.mp first
    obtain ⟨used, rfl, _, ⟨followed⟩, before⟩ := (form.list tail).takes _ _ _ others
    exact ⟨_, rfl, _, .cons kind followed, before⟩
  reads := by
    rintro _ _ _ closing ⟨writes, behind⟩ followed closes rest
    cases followed with
    | cons kind followed =>
      rw [List.cons_append, expect_then kind]
      exact (form.list tail).reads (.piece writes behind) (.pieces followed) closes rest
  balanced := (form.list tail).balanced

/-- Behind a comma there is another argument, if there is a comma. -/
theorem ArgumentOf.perhaps (form : ArgumentOf rule P)
    (tail : ∀ value, ListOf Followed (next value) (F value)) (value : β) :
    ListOf Followed (eat .comma >>= fun more => if more = true then rule >>= next else pure value)
      (OrNone (Before P F) value) where
  takes := by
    intro ts result rest ok
    obtain ⟨_, _, first, branch⟩ := Rule.run_bind_ok.mp ok
    rcases eat_run.mp first with ⟨rfl, comma, rfl, kind⟩ | ⟨rfl, rfl, _⟩
    · obtain ⟨used, rfl, _, ⟨followed⟩, before⟩ := (form.list tail).takes _ _ _ branch
      exact ⟨_, rfl, _, .cons kind followed, .some before⟩
    · cases branch
      exact ⟨[], rfl, [], .nil, .none⟩
  reads := by
    rintro _ _ _ closing (⟨⟩ | ⟨⟨writes, behind⟩⟩) followed closes rest
    · cases followed
      exact eat_skip (notAhead_cons (by simp [closes]))
    · cases followed with
      | cons kind followed =>
        rw [List.cons_append, eat_then kind]
        exact (form.list tail).reads (.piece writes behind) (.pieces followed) closes rest
  balanced := by
    rintro _ _ (⟨⟩ | ⟨before⟩)
    · simp
    · exact (form.list tail).balanced before

end Argument

end Forms

section Events

/-- `[edge] term &&& … &&& term` -/
inductive WritesEvent : List Token → Event → Prop
  | terms {first others signal conditions} (edge : Option { t : Token // t.isEdge = true })
      (named : Reads eventTerms (.operation 0) first signal) (row : TermRow others conditions) :
      WritesEvent (optionalToken edge ++ (first ++ others))
        ⟨(edge.map fun t => edgeOf t.val).getD .rising, signal, conditions⟩

theorem event_written {used : List Token} {found : Event} {t : Token}
    (writes : WritesEvent used found) (ends : endsArgument t = true) (rest : List Token) :
    event.run (used ++ t :: rest) = .ok (found, t :: rest) := by
  obtain ⟨edge, named, row⟩ := writes
  rename_i first others signal conditions
  have stop : Stops eventTerms 0 (t :: rest) := stops_cons _ 0 t rest (eventTerms_ends t ends)
  have join {u : Token} (kind : u.kind = .symbol .tripleAmp) (rest : List Token) :
      Stops eventTerms 0 (u :: rest) := stops_cons _ 0 u rest (by simp [eventTerms, kind])
  have alone : NotAhead (.symbol .tripleAmp) (t :: rest) := by
    refine notAhead_cons fun kind => ?_
    simp [endsArgument, Token.isSymbol, kind] at ends
  have terms : (following .tripleAmp eventTerm).run (others ++ t :: rest) = .ok (conditions, t :: rest) :=
    following_row (fun reads stops => expression_run.mpr ⟨_, rfl, reads, stops⟩) join row stop alone
  have stops : Stops eventTerms 0 (others ++ t :: rest) := by
    cases row with
    | nil => exact stop
    | cons head _ => exact join head.1 _
  have signal : eventTerm.run (first ++ (others ++ t :: rest)) = .ok (signal, others ++ t :: rest) :=
    expression_run.mpr ⟨first, rfl, named, stops⟩
  have plain : ∀ u ∈ (first ++ (others ++ t :: rest)).head?, u.isEdge = false := by
    obtain ⟨u, tail, rfl⟩ := List.exists_cons_of_ne_nil named.operation_ne_nil
    have known : ∀ kind ∈ termKinds, kind ≠ .keyword .posedge ∧ kind ≠ .keyword .negedge := by
      decide
    simpa [Token.isEdge] using known _ (kind_of_reads named u List.mem_cons_self)
  have edged : edge?.run (optionalToken edge ++ (first ++ (others ++ t :: rest))) =
      .ok (edge.map (fun t => edgeOf t.val), first ++ (others ++ t :: rest)) :=
    edge_run.mpr ⟨edge, rfl, rfl, fun _ => plain⟩
  rw [List.append_assoc, List.append_assoc, event, Rule.run_then edged, Rule.run_then signal,
    Rule.run_then terms]
  rfl

theorem event_takes : event.Takes WritesEvent := by
  have term : eventTerm.Takes (Reads eventTerms (.operation 0)) := by
    intro ts text rest ok
    obtain ⟨used, same, reads, _⟩ := expression_run.mp ok
    exact ⟨used, same, reads⟩
  intro ts found rest ok
  obtain ⟨_, _, edged, tail⟩ := Rule.run_bind_ok.mp ok
  obtain ⟨edge, rfl, rfl, _⟩ := edge_run.mp edged
  obtain ⟨_, _, signal, behind⟩ := Rule.run_bind_ok.mp tail
  obtain ⟨first, rfl, named⟩ := term _ _ _ signal
  obtain ⟨_, _, terms, made⟩ := Rule.run_bind_ok.mp behind
  cases made
  obtain ⟨others, rfl, row⟩ := following_takes term _ _ _ terms
  exact ⟨_, by simp, .terms edge named row⟩

end Events

section Arguments

variable {α : Type} {rule : TokenRule α} {P : List Token → α → Prop}

theorem argumentOf (takes : rule.Takes P) (bracketed : Bracketed argumentKinds rule)
    (reads : ∀ {used value t}, P used value → endsArgument t = true → ∀ rest,
      rule.run (used ++ t :: rest) = .ok (value, t :: rest)) : ArgumentOf rule P where
  takes
  argument := by
    intro used value writes
    refine ⟨?_, fun t rest ends => reads writes ends rest⟩
    have ok := reads writes (t := ⟨.symbol .comma, ",", 1, 0⟩) rfl []
    obtain ⟨used', same, balanced⟩ := bracketed _ _ _ ok
    cases List.append_cancel_right same
    exact balanced

theorem argumentOf_event : ArgumentOf event WritesEvent :=
  argumentOf event_takes bracketed_event event_written

theorem argumentOf_delay (table : Specparams) : ArgumentOf (delayValue table) (WritesDelay table) := by
  refine argumentOf delayValue_takes (bracketed_delayValue table) fun writes ends rest => ?_
  refine delayValue_written writes ⟨stops_cons _ 0 _ rest (constants_ends table _ ends), ?_⟩
  refine notAhead_cons fun kind => ?_
  simp [endsArgument, Token.isSymbol, kind] at ends

/-- A name alone. -/
inductive WritesName : List Token → String → Prop
  | name {t} (named : t.kind = .name) : WritesName [t] t.text

theorem argumentOf_name : ArgumentOf name WritesName := by
  refine argumentOf ?_ (bracketed_name (by decide)) ?_
  · intro ts text rest ok
    obtain ⟨t, rfl, named, rfl⟩ := name_run.mp ok
    exact ⟨[t], rfl, .name named⟩
  · rintro _ _ t ⟨named⟩ _ rest
    exact name_run.mpr ⟨_, rfl, named, rfl⟩

abbrev WritesCondition (table : Specparams) := Reads (conditions table) (.operation 0)

theorem argumentOf_condition (table : Specparams) :
    ArgumentOf (condition table) (WritesCondition table) := by
  refine argumentOf ?_ (bracketed_condition table) fun {_ _ t} reads ends rest => ?_
  · intro ts value rest ok
    obtain ⟨used, same, reads, _⟩ := expression_run.mp ok
    exact ⟨used, same, reads⟩
  · exact expression_run.mpr ⟨_, rfl, reads, stops_cons _ 0 t rest (conditions_ends table t ends)⟩

/-- An argument that may be left empty. -/
inductive WritesSlot (P : List Token → α → Prop) : List Token → Option α → Prop
  | empty : WritesSlot P [] none
  | written {used value} (writes : P used value) : WritesSlot P used (some value)

theorem optional_none {t : Token} (ends : endsArgument t = true) (rest : List Token) :
    (optional rule).run (t :: rest) = .ok (none, t :: rest) := by
  have ahead : TokenRule.kind.run (t :: rest) = .ok (t.kind, t :: rest) := rfl
  have kinds : t.kind = .symbol .comma ∨ t.kind = .symbol .rightParen := by
    simpa [endsArgument, Token.isSymbol] using ends
  rw [optional, Rule.run_then ahead]
  rcases kinds with kind | kind <;> rw [kind] <;> rfl

theorem optional_some {t : Token} (other : endsArgument t = false) (rest : List Token) :
    (optional rule).run (t :: rest) =
      (do return some (← rule) : TokenRule (Option α)).run (t :: rest) := by
  have ahead : TokenRule.kind.run (t :: rest) = .ok (t.kind, t :: rest) := rfl
  have kinds : t.kind ≠ .symbol .comma ∧ t.kind ≠ .symbol .rightParen := by
    simpa [endsArgument, Token.isSymbol] using other
  rw [optional, Rule.run_then ahead]
  split
  next kind => exact absurd kind kinds.1
  next kind => exact absurd kind kinds.2
  next => rfl

theorem starts_of_balanced {used tail : List Token} {t : Token}
    (balanced : Balanced argumentKinds used) (begins : used = t :: tail) : endsArgument t = false := by
  induction balanced generalizing tail with
  | nil => cases begins
  | token known =>
    cases begins
    have plain : ∀ kind ∈ argumentKinds, kind ≠ .symbol .comma ∧ kind ≠ .symbol .rightParen := by
      decide
    simpa [endsArgument, Token.isSymbol] using plain _ known
  | @append first _ _ _ left right =>
    cases first with
    | nil => exact right begins
    | cons u first =>
      cases begins
      exact left rfl
  | group opens =>
    cases begins
    simp [endsArgument, Token.isSymbol, opens]

theorem ArgumentOf.slot (form : ArgumentOf rule P) (some_ : ∀ {used value}, P used value → used ≠ []) :
    ArgumentOf (optional rule) (WritesSlot P) := by
  refine argumentOf ?_ (bracketed_optional (form.takes.mono fun _ _ writes =>
    (form.argument writes).balanced)) ?_
  · intro ts value rest ok
    obtain ⟨_, _, ahead, branch⟩ := Rule.run_bind_ok.mp ok
    cases ahead
    split at branch
    · cases branch
      exact ⟨[], rfl, .empty⟩
    · cases branch
      exact ⟨[], rfl, .empty⟩
    · obtain ⟨_, _, read, made⟩ := Rule.run_bind_ok.mp branch
      cases made
      obtain ⟨used, rfl, writes⟩ := form.takes _ _ _ read
      exact ⟨used, rfl, .written writes⟩
  · rintro _ _ t (_ | writes) ends rest
    · exact optional_none ends rest
    · obtain ⟨u, tail, rfl⟩ := List.exists_cons_of_ne_nil (some_ writes)
      have argument := form.argument writes
      rw [List.cons_append, optional_some (starts_of_balanced argument.balanced rfl),
        ← List.cons_append, Rule.run_then (argument.reads t rest ends)]
      rfl

theorem argumentOf_notifier : ArgumentOf (optional name) (WritesSlot WritesName) :=
  argumentOf_name.slot fun writes => by
    cases writes
    simp

theorem argumentOf_optionalCondition (table : Specparams) :
    ArgumentOf (optional (condition table)) (WritesSlot (WritesCondition table)) :=
  (argumentOf_condition table).slot fun reads => reads.operation_ne_nil

end Arguments

end Grammar

end CellTiming
