import CellTiming.Liberty.Mapping
import CellTiming.Proofs.Arguments
import CellTiming.Proofs.Calls
import CellTiming.Proofs.Reached

/-! Calls in place of others. What stands before a call of a block is read as it was, and what
stands behind it does not depend on the checks gathered so far. Calls that add up to the same
in a cell may be exchanged. -/
namespace CellTiming

/-- The timing with more checks in front of its own. -/
def ModuleTiming.behind (earlier : List TimingCheck) (timing : ModuleTiming) : ModuleTiming :=
  { timing with checks := earlier ++ timing.checks }

def ModuleTiming.withChecks (timing : ModuleTiming) (more : List TimingCheck) : ModuleTiming :=
  { timing with checks := timing.checks ++ more }

namespace Grammar

section Behind

variable {timing : ModuleTiming} {earlier : List TimingCheck}

theorem add_behind (item : TimingItem) :
    (timing.behind earlier).add item = (timing.add item).map (·.behind earlier) := by
  cases item with
  | specparam line name value =>
    cases value with
    | none => rfl
    | some value =>
      have same : (timing.behind earlier).specparams = timing.specparams := rfl
      rw [ModuleTiming.add, ModuleTiming.add, same]
      split <;> rfl
  | check check => exact congrArg Except.ok (by simp [ModuleTiming.behind])
  | path | conditioned => rfl
  | ifnone line path =>
    have same : (timing.behind earlier).ifnoneCondition path.key =
        timing.ifnoneCondition path.key := rfl
    rw [ModuleTiming.add, ModuleTiming.add, same]
    cases timing.ifnoneCondition path.key <;> rfl

theorem items_behind (earlier : List TimingCheck) (timing : ModuleTiming) (ts : List Token) :
    (items (timing.behind earlier) ts).map (·.val) =
      ((items timing ts).map (·.val)).map fun step => (step.1.behind earlier, step.2) := by
  induction timing, ts using items.induct with
  | case1 timing =>
    rw [items, items]
    rfl
  | case2 timing t rest ends =>
    rw [items_ending ends, items_ending ends]
    rfl
  | case3 timing t rest starts e failed =>
    have failed' : (itemAfter (timing.behind earlier).specparams t).run rest = .error e := failed
    rw [items_failed starts failed', items_failed starts failed]
    rfl
  | case4 timing t rest starts item after read suffix _ ih =>
    have read' : (itemAfter (timing.behind earlier).specparams t).run rest = .ok (item, after) := read
    rw [items_item starts read', add_behind, items_item starts read]
    cases added : timing.add item with
    | error e => rfl
    | ok extended => exact ih extended

theorem groups_behind (earlier : List TimingCheck) (timing : ModuleTiming) (ts : List Token) :
    groups (timing.behind earlier) ts = (groups timing ts).map (·.behind earlier) := by
  induction timing, ts using groups.induct with
  | case1 timing =>
    rw [groups, groups]
    rfl
  | case2 timing t rest opens ih =>
    rw [groups_specify opens, groups_specify opens, continued, continued, items_behind]
    cases items timing rest with
    | error e => rfl
    | ok step =>
      obtain ⟨⟨gathered, after⟩, suffix⟩ := step
      change (if atEnd after = true then pure _ else groups (gathered.behind earlier) after) =
        (if atEnd after = true then pure gathered else groups gathered after).map _
      split
      · rfl
      · exact ih gathered after suffix
  | case3 timing t rest other => rw [groups_other other, groups_other other]; rfl

/-- What becomes of a block does not depend on the checks it has so far. -/
theorem continued_behind (earlier : List TimingCheck) (timing : ModuleTiming) (ts : List Token) :
    continued (timing.behind earlier) ts = (continued timing ts).map (·.behind earlier) := by
  rw [continued, continued, items_behind]
  cases items timing ts with
  | error e => rfl
  | ok step =>
    obtain ⟨⟨gathered, after⟩, suffix⟩ := step
    change (if atEnd after = true then pure _ else groups (gathered.behind earlier) after) =
      (if atEnd after = true then pure gathered else groups gathered after).map _
    rw [groups_behind]
    split <;> rfl

end Behind

section States

variable {ts left : List Token} {found : List TimingItem} {timing final : ModuleTiming}

/-- What is read leads to the same state before any other tokens. -/
theorem Reached.elsewhere (reached : Reached ts found timing left) :
    ∃ front, ts = front ++ left ∧ ∀ left', Reached (front ++ left') found timing left' := by
  induction reached with
  | @start t rest whole opens => exact ⟨[t], whole, fun _ => .start rfl opens⟩
  | @item _ timing t _ _ _ _ _ starts read added ih =>
    obtain ⟨front, whole, again⟩ := ih
    obtain ⟨used, rfl, _, read'⟩ := closed_itemAfter timing.specparams t _ _ _ read
    refine ⟨front ++ t :: used, by simp [whole], fun left' => ?_⟩
    rw [List.append_assoc]
    exact .item (again (t :: (used ++ left'))) starts (read' left') added
  | @group _ _ t next _ _ ends opens ih =>
    obtain ⟨front, whole, again⟩ := ih
    refine ⟨front ++ [t, next], by simp [whole], fun left' => ?_⟩
    rw [List.append_assoc]
    exact .group (again (t :: next :: left')) ends opens

/-- Behind some tokens, the token stands at the front of every item that has it. -/
def Heads (behind : Token → Prop) (t : Token) : Prop :=
  ∀ table first, (itemAfter table first).Takes fun used _ => ∀ front more,
    first :: used = front ++ t :: more → (∀ w ∈ front.getLast?, behind w) → front = []

variable {t : Token} {behind : Token → Prop} {front rest : List Token}

/-- A token of a kind that no statement has stands nowhere inside an item. -/
theorem heads_of_kind (outer : t.kind ∉ .symbol .semicolon :: statementKinds) :
    Heads (fun _ => True) t := by
  intro table first
  obtain ⟨other, plain⟩ := not_or.mp (mt List.mem_cons.mpr outer)
  refine (takesStatement_itemAfter table first).mono ?_
  rintro _ _ ⟨body, stop, rfl, known, ends⟩ front more same _
  cases front with
  | nil => rfl
  | cons w front =>
    obtain ⟨rfl, tail⟩ := List.cons.inj same
    have member : t ∈ body ++ [stop] := tail ▸ List.mem_append_right _ List.mem_cons_self
    rcases List.mem_append.mp member with inner | last
    · exact absurd (known t inner) plain
    · cases List.mem_singleton.mp last
      exact absurd ends other

theorem follows_tail {more : List Token} (first : List Token)
    (follows : ∀ w ∈ (first ++ more).getLast?, behind w) : ∀ w ∈ more.getLast?, behind w :=
  fun w last => follows w (List.mem_getLast?_append_of_mem_getLast? last)

theorem ItemsRun.head_reached {ahead : List Token} (run : ItemsRun timing ahead final left)
    (before : Reached ts found timing ahead) (heads : Heads behind t)
    (follows : ∀ w ∈ front.getLast?, behind w)
    (split : ahead = front ++ t :: rest) :
    (∃ found' state, Reached ts found' state (t :: rest)) ∨
      ∃ front', left = front' ++ t :: rest ∧ ∀ w ∈ front'.getLast?, behind w := by
  induction run generalizing found front with
  | @ending _ first _ ends =>
    cases front with
    | nil =>
      cases split
      exact .inl ⟨_, _, before⟩
    | cons _ front =>
      cases split
      exact .inr ⟨front, rfl, follows_tail [first] follows⟩
  | @item timing first _ _ _ _ _ _ starts read added _ ih =>
    obtain ⟨used, rfl, head⟩ := heads timing.specparams first _ _ _ read
    have inside (front : List Token) (follows : ∀ w ∈ front.getLast?, behind w)
        (same : _ = front ++ t :: rest) := ih (.item before starts read added) follows same
    rw [← List.cons_append] at split
    rcases List.append_eq_append_iff.mp split with ⟨more, rfl, tail⟩ | ⟨more, whole, tail⟩
    · exact inside more (follows_tail _ follows) tail
    · cases more with
      | nil => exact inside [] (by simp) tail.symm
      | cons u more =>
        obtain ⟨rfl, -⟩ := List.cons.inj tail
        cases head front more whole follows
        have first_ : first :: (used ++ _) = t :: rest := split
        exact .inl ⟨_, _, first_ ▸ before⟩

theorem GroupsRun.head_reached {ahead : List Token} (run : GroupsRun timing ahead final)
    (before : ∀ t rest, ahead = t :: rest → t.kind = .keyword .specify →
      Reached ts found timing rest)
    (once : EndsOnce ahead) (heads : Heads behind t) (other : t.kind ≠ .keyword .specify)
    (early : t.kind ≠ .endOfInput) (follows : ∀ w ∈ front.getLast?, behind w)
    (split : ahead = front ++ t :: rest) :
    ∃ found' state, Reached ts found' state (t :: rest) := by
  induction run generalizing found front with
  | @last timing first _ gathered after specify items ends =>
    cases front with
    | nil =>
      cases split
      exact absurd specify other
    | cons _ front =>
      obtain ⟨rfl, tail⟩ := List.cons.inj split
      rcases items.head_reached (before _ _ rfl specify) heads (follows_tail [_] follows) tail
        with reached | ⟨front', rfl, _⟩
      · exact reached
      · obtain ⟨used, rfl, _⟩ := items.grows
        have member : t ∈ front' ++ t :: rest := List.mem_append_right _ List.mem_cons_self
        exact absurd (once.suffix (first :: used) [] _ rfl ends t member) early
  | @more timing first _ gathered after _ specify items _ others ih =>
    cases front with
    | nil =>
      cases split
      exact absurd specify other
    | cons _ front =>
      obtain ⟨rfl, tail⟩ := List.cons.inj split
      have inside := before _ _ rfl specify
      rcases items.head_reached inside heads (follows_tail [_] follows) tail with
        reached | ⟨front', same, follows'⟩
      · exact reached
      · obtain ⟨more, last, reached, closes⟩ := items.reached inside
        obtain ⟨used, rfl, _⟩ := items.grows
        have before' : ∀ next rest, after = next :: rest → next.kind = .keyword .specify →
            Reached ts (found ++ more) gathered rest := by
          rintro next rest rfl specify'
          exact .group reached closes specify'
        exact ih before' (once.suffix (first :: used)) follows' same

theorem head_reached (ok : ModuleTiming.ofTokens ts = .ok timing) (once : EndsOnce ts)
    (heads : Heads behind t) (other : t.kind ≠ .keyword .specify) (early : t.kind ≠ .endOfInput)
    (follows : ∀ w ∈ front.getLast?, behind w) (split : ts = front ++ t :: rest) :
    ∃ found state, Reached ts found state (t :: rest) :=
  (groupsRun_of_ok ok).head_reached (fun _ _ same specify => .start same specify) once heads other
    early follows split

/-- Every task of a block heads an item. -/
theorem task_reached {task : CheckTask} (ok : ModuleTiming.ofTokens ts = .ok timing)
    (once : EndsOnce ts) (named : t.kind = .task task) (split : ts = front ++ t :: rest) :
    ∃ found state, Reached ts found state (t :: rest) := by
  have outer : t.kind ∉ .symbol .semicolon :: statementKinds := by
    simp [named, statementKinds, innerKinds, listKinds, argumentKinds]
  exact head_reached ok once (heads_of_kind outer) (by simp [named]) (by simp [named])
    (fun _ _ => trivial) split

end States

section Calls

variable {timing final : ModuleTiming} {t : Token} {task : CheckTask} {rest after : List Token}
  {check : TimingCheck}

theorem itemAfter_call (table : Specparams) (named : t.kind = .task task) :
    itemAfter table t = do return .check (← timingCheck table task) := by
  rw [itemAfter, named]

theorem continued_call (named : t.kind = .task task)
    (read : (timingCheck timing.specparams task).run rest = .ok (check, after)) :
    continued timing (t :: rest) = continued (timing.withChecks [check]) after := by
  have item : (itemAfter timing.specparams t).run rest = .ok (.check check, after) := by
    rw [itemAfter_call _ named, Rule.run_then read]
    rfl
  rw [continued_item (by simp [named]) item]
  rfl

theorem call_of_continued (named : t.kind = .task task)
    (ok : continued timing (t :: rest) = .ok final) :
    ∃ check after, (timingCheck timing.specparams task).run rest = .ok (check, after) := by
  cases read : (timingCheck timing.specparams task).run rest with
  | ok step => exact ⟨step.1, step.2, rfl⟩
  | error e =>
    have failed : (itemAfter timing.specparams t).run rest = .error e := by
      rw [itemAfter_call _ named, Rule.run_bind, read]
    rw [continued_failed (by simp [named]) failed] at ok
    cases ok

/-- The tokens are read as the checks, whatever follows them. -/
def ReadsChecks (table : Specparams) (tokens : List Token) (checks : List TimingCheck) : Prop :=
  ∀ timing back, timing.specparams = table →
    continued timing (tokens ++ back) = continued (timing.withChecks checks) back

theorem ReadsCall.checks {table : Specparams} {arguments : List (List Token)}
    (reads : ReadsCall table task arguments check) :
    ReadsChecks table (callTokens task arguments) [check] := by
  rintro timing back rfl
  exact continued_call rfl (reads back)

theorem ReadsChecks.append {table : Specparams} {first second : List Token}
    {checks others : List TimingCheck} (reads : ReadsChecks table first checks)
    (more : ReadsChecks table second others) :
    ReadsChecks table (first ++ second) (checks ++ others) := by
  rintro timing back rfl
  rw [List.append_assoc, reads timing _ rfl, more (timing.withChecks checks) back rfl]
  simp [ModuleTiming.withChecks]

end Calls

/-- Calls whose checks add up to the same in any cell make the same cell of a block. -/
theorem exchange {front tokens tokens' back : List Token} {checks checks' : List TimingCheck}
    {found : List TimingItem} {state final : ModuleTiming}
    (reached : Reached (front ++ (tokens ++ back)) found state (tokens ++ back))
    (reads : ReadsChecks state.specparams tokens checks)
    (reads' : ReadsChecks state.specparams tokens' checks')
    (same : ∀ cell, checks'.foldl Liberty.addCheck cell = checks.foldl Liberty.addCheck cell)
    (ok : ModuleTiming.ofTokens (front ++ (tokens ++ back)) = .ok final) :
    ∃ final', ModuleTiming.ofTokens (front ++ (tokens' ++ back)) = .ok final' ∧
      ∀ name, Liberty.cellOf? name final' = Liberty.cellOf? name final := by
  obtain ⟨front', whole, elsewhere⟩ := reached.elsewhere
  cases List.append_cancel_right whole
  have behind (more : List TimingCheck) : state.withChecks more =
      { state with checks := [] }.behind (state.checks ++ more) := by
    simp [ModuleTiming.withChecks, ModuleTiming.behind]
  rw [reached.continues, reads state back rfl, behind, continued_behind] at ok
  have ok' := (elsewhere (tokens' ++ back)).continues
  rw [reads' state back rfl, behind, continued_behind] at ok'
  cases rest : continued { state with checks := [] } back with
  | error e =>
    rw [rest] at ok
    cases ok
  | ok rest' =>
    rw [rest] at ok ok'
    cases ok
    refine ⟨_, ok', fun name => ?_⟩
    simp only [Liberty.cellOf?, ModuleTiming.behind, List.foldl_append, same]

end Grammar

end CellTiming
