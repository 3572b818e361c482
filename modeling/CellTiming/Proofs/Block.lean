import CellTiming.Grammar.Block
import CellTiming.Proofs.Rule

/-! The reading of a block as a run: item after item is read with the specparams declared
so far and added to the timing, group after group, up to the end of the input. -/
namespace CellTiming.Grammar

section Items

/-- The kind of the token that opens the item. -/
def OpensItem (kind : Token.Kind) : TimingItem → Prop
  | .specparam .. => kind = .keyword .specparam
  | .check _ => ∃ task, kind = .task task
  | .path _ => kind = .symbol .leftParen
  | .conditioned .. => kind = .keyword .conditional
  | .ifnone .. => kind = .keyword .ifnone

theorem itemAfter_opens (table : Specparams) (t : Token) :
    (itemAfter table t).Takes fun _ item => OpensItem t.kind item := by
  unfold itemAfter
  split
  next opens =>
    refine Rule.takes_last fun _ => Rule.takes_last fun _ => Rule.takes_last fun _ => ?_
    split
    · exact Rule.takes_last fun _ => Rule.takes_pure opens
    · exact Rule.takes_last fun _ => Rule.takes_last fun _ => Rule.takes_pure opens
  next opens =>
    exact Rule.takes_last fun _ => Rule.takes_last fun _ => Rule.takes_last fun _ =>
      Rule.takes_last fun _ => Rule.takes_pure opens
  next opens => exact Rule.takes_last fun _ => Rule.takes_pure opens
  next opens => exact Rule.takes_last fun _ => Rule.takes_pure opens
  next task opens => exact Rule.takes_last fun _ => Rule.takes_pure ⟨task, opens⟩
  next => exact Rule.takes_fail

theorem unconditioned_pathBody (table : Specparams) :
    (pathBody table).Takes fun _ path => path.condition = none := by
  refine Rule.takes_last fun _ => Rule.takes_last fun _ => Rule.takes_last fun _ =>
    Rule.takes_last fun _ => Rule.takes_last fun _ => ?_
  split
  · exact Rule.takes_last fun _ => Rule.takes_last fun _ => Rule.takes_last fun _ =>
      Rule.takes_last fun _ => Rule.takes_last fun _ => Rule.takes_pure rfl
  · exact Rule.takes_last fun _ => Rule.takes_last fun _ => Rule.takes_last fun _ =>
      Rule.takes_last fun _ => Rule.takes_last fun _ => Rule.takes_pure rfl

/-- A path without a word before it has no condition. -/
theorem itemAfter_path {table : Specparams} {t : Token} {ts rest : List Token} {path : Path}
    (read : (itemAfter table t).run ts = .ok (.path path, rest)) : path.condition = none := by
  obtain ⟨_, _, opens⟩ := itemAfter_opens table t _ _ _ read
  have opens : t.kind = .symbol .leftParen := opens
  simp only [itemAfter, opens] at read
  obtain ⟨body, _, head, tail⟩ := Rule.run_bind_ok.mp read
  cases tail
  obtain ⟨_, _, none_⟩ := unconditioned_pathBody table _ _ _ head
  exact none_

/-- What a timing becomes by an item that can be added to it. -/
inductive Adds (timing : ModuleTiming) : TimingItem → ModuleTiming → Prop
  | string {line name} : Adds timing (.specparam line name none) timing
  | value {line name value} (fresh : (timing.specparams.lookup name).isSome ≠ true) :
      Adds timing (.specparam line name (some value))
        { timing with specparams := timing.specparams ++ [(name, value)] }
  | check {check} : Adds timing (.check check) { timing with checks := timing.checks ++ [check] }
  | path {path} : Adds timing (.path path) { timing with paths := timing.paths ++ [path] }
  | conditioned {condition path} : Adds timing (.conditioned condition path)
      { timing with
        conditioned := timing.conditioned.push { path with condition := some condition } }
  | ifnone {line path condition} (made : timing.ifnoneCondition path.key = some condition) :
      Adds timing (.ifnone line path)
        { timing with
          conditioned := timing.conditioned.push { path with condition := some condition } }

theorem adds_of_ok {timing extended : ModuleTiming} {item : TimingItem}
    (added : timing.add item = .ok extended) : Adds timing item extended := by
  unfold ModuleTiming.add at added
  split at added
  case h_1 | h_3 | h_4 | h_5 =>
    cases added
    constructor
  case h_2 =>
    split at added
    next => cases added
    next fresh =>
      cases added
      exact .value fresh
  case h_6 =>
    split at added
    next made =>
      cases added
      exact .ifnone made
    next => cases added

end Items

section Equations

variable {timing : ModuleTiming} {t : Token} {rest : List Token}

theorem items_ending (ends : t.kind = .keyword .endspecify) :
    (items timing (t :: rest)).map (·.val) = .ok (timing, rest) := by
  rw [items, if_pos ends]
  rfl

theorem items_failed {e : SourceError} (starts : t.kind ≠ .keyword .endspecify)
    (failed : (itemAfter timing.specparams t).run rest = .error e) :
    (items timing (t :: rest)).map (·.val) = .error e := by
  rw [items, if_neg starts]
  split
  next e' found =>
    rw [failed] at found
    cases found
    rfl
  next found =>
    rw [failed] at found
    cases found

theorem items_item {item : TimingItem} {after : List Token}
    (starts : t.kind ≠ .keyword .endspecify)
    (read : (itemAfter timing.specparams t).run rest = .ok (item, after)) :
    (items timing (t :: rest)).map (·.val) =
      timing.add item >>= fun extended => (items extended after).map (·.val) := by
  rw [items, if_neg starts]
  split
  next failed =>
    rw [read] at failed
    cases failed
  next item' after' again =>
    rw [read] at again
    cases again
    cases timing.add item with
    | error e => rfl
    | ok extended =>
      simp only [bind, Except.bind]
      cases items extended after <;> rfl

/-- What becomes of a block from an item or the end of a group on. -/
def continued (timing : ModuleTiming) (ts : List Token) : Except SourceError ModuleTiming :=
  (items timing ts).map (·.val) >>= fun step =>
    if atEnd step.2 = true then pure step.1 else groups step.1 step.2

theorem groups_specify (opens : t.kind = .keyword .specify) :
    groups timing (t :: rest) = continued timing rest := by
  rw [groups, if_pos opens, continued]
  cases items timing rest <;> rfl

theorem groups_other (other : t.kind ≠ .keyword .specify) :
    groups timing (t :: rest) = .error (unexpectedAt (t :: rest)) := by
  rw [groups, if_neg other]

end Equations

section Runs

/-- A run through the items of a group, from a timing and the tokens ahead of it. -/
inductive ItemsRun : ModuleTiming → List Token → ModuleTiming → List Token → Prop
  | ending {timing t rest} (ends : t.kind = .keyword .endspecify) :
      ItemsRun timing (t :: rest) timing rest
  | item {timing t rest item after extended final left} (starts : t.kind ≠ .keyword .endspecify)
      (read : (itemAfter timing.specparams t).run rest = .ok (item, after))
      (added : timing.add item = .ok extended) (others : ItemsRun extended after final left) :
      ItemsRun timing (t :: rest) final left

inductive GroupsRun : ModuleTiming → List Token → ModuleTiming → Prop
  | last {timing t rest gathered after} (opens : t.kind = .keyword .specify)
      (items : ItemsRun timing rest gathered after) (ends : atEnd after = true) :
      GroupsRun timing (t :: rest) gathered
  | more {timing t rest gathered after final} (opens : t.kind = .keyword .specify)
      (items : ItemsRun timing rest gathered after) (continues : atEnd after = false)
      (others : GroupsRun gathered after final) : GroupsRun timing (t :: rest) final

theorem itemsRun_of_ok {timing final : ModuleTiming} {ts left : List Token}
    (ok : (items timing ts).map (·.val) = .ok (final, left)) : ItemsRun timing ts final left := by
  induction timing, ts using items.induct with
  | case1 timing =>
    rw [items] at ok
    cases ok
  | case2 timing t rest ends =>
    rw [items_ending ends] at ok
    cases ok
    exact .ending ends
  | case3 timing t rest starts e failed =>
    rw [items_failed starts failed] at ok
    cases ok
  | case4 timing t rest starts item after read _ _ ih =>
    rw [items_item starts read] at ok
    cases added : timing.add item with
    | error e =>
      rw [added] at ok
      cases ok
    | ok extended =>
      rw [added] at ok
      exact .item starts read added (ih extended ok)

theorem ok_of_itemsRun {timing final : ModuleTiming} {ts left : List Token}
    (run : ItemsRun timing ts final left) : (items timing ts).map (·.val) = .ok (final, left) := by
  induction run with
  | ending ends => exact items_ending ends
  | item starts read added _ ih =>
    rw [items_item starts read, added]
    exact ih

theorem groupsRun_of_ok {timing final : ModuleTiming} {ts : List Token}
    (ok : groups timing ts = .ok final) : GroupsRun timing ts final := by
  induction timing, ts using groups.induct with
  | case1 timing =>
    rw [groups] at ok
    cases ok
  | case2 timing t rest opens ih =>
    rw [groups_specify opens, continued] at ok
    cases found : items timing rest with
    | error e =>
      rw [found] at ok
      cases ok
    | ok step =>
      obtain ⟨⟨gathered, after⟩, suffix⟩ := step
      have run := itemsRun_of_ok (congrArg (Except.map (·.val)) found)
      rw [found] at ok
      change (if atEnd after = true then pure gathered else groups gathered after) = _ at ok
      split at ok
      next ends =>
        cases ok
        exact .last opens run ends
      next continues =>
        exact .more opens run (by simpa using continues) (ih gathered after suffix ok)
  | case3 timing t rest other =>
    rw [groups_other other] at ok
    cases ok

theorem ok_of_groupsRun {timing final : ModuleTiming} {ts : List Token}
    (run : GroupsRun timing ts final) : groups timing ts = .ok final := by
  induction run with
  | last opens items ends =>
    rw [groups_specify opens, continued, ok_of_itemsRun items]
    exact if_pos ends
  | more opens items continues _ ih =>
    rw [groups_specify opens, continued, ok_of_itemsRun items]
    exact (if_neg (by simp [continues])).trans ih

end Runs

end CellTiming.Grammar
