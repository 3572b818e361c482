import CellTiming.Proofs.Conservation

/-! The calls of tasks in a block and the checks they are read as. The checks of a timing
are those of the calls of its text, one for each and in the same order. -/
namespace CellTiming

/-- The tasks, each with all the tokens after its name. -/
def calls : List Token → List (CheckTask × List Token)
  | [] => []
  | t :: rest =>
    match t.task? with
    | some task => (task, rest) :: calls rest
    | none => calls rest

theorem calls_append {used : List Token} (none : used.filterMap Token.task? = [])
    (more : List Token) : calls (used ++ more) = calls more := by
  induction used with
  | nil => rfl
  | cons t used ih =>
    cases task : t.task? with
    | some task => simp [task] at none
    | none =>
      rw [List.cons_append, calls, task]
      exact ih (by simpa [task] using none)

theorem calls_quiet {used : List Token} (quiet : marks used = []) (more : List Token) :
    calls (used ++ more) = calls more := by
  refine calls_append ?_ more
  rw [filterMap_marks, quiet]
  rfl

theorem mem_of_calls {ts : List Token} {call : CheckTask × List Token} (member : call ∈ calls ts) :
    ∀ t ∈ call.2, t ∈ ts := by
  induction ts with
  | nil => cases member
  | cons first rest ih =>
    intro t inside
    rw [calls] at member
    split at member
    · rcases List.mem_cons.mp member with rfl | member
      · exact List.mem_cons_of_mem first inside
      · exact List.mem_cons_of_mem first (ih member t inside)
    · exact List.mem_cons_of_mem first (ih member t inside)

theorem ItemMarks.no_task {found : List Token} {item : TimingItem} (marks : ItemMarks found item)
    (other : ∀ check, item ≠ .check check) : found.filterMap Token.task? = [] := by
  have arrow {leading : Token} (leads : leading.kind.isPath = true) : leading.task? = none := by
    rw [Token.task?]
    split
    next kind => simp [kind, Token.Kind.isPath] at leads
    next => rfl
  have word {t : Token} {keyword : Keyword} (opens : t.kind = .keyword keyword) :
      t.task? = none := by
    simp [Token.task?, opens]
  cases marks with
  | @check _ _ check => exact absurd rfl (other check)
  | path leads => simp [arrow leads]
  | conditioned opens leads => simp [word opens, arrow leads]
  | ifnone opens leads => simp [word opens, arrow leads]
  | string opens quoted => simp [Token.task?, opens, quoted]
  | value opens => simp [word opens]

namespace Grammar

/-- The check is read from the call. -/
def CallReads (call : CheckTask × List Token) (check : TimingCheck) : Prop :=
  ∃ table rest, (timingCheck table call.1).run call.2 = .ok (check, rest)

/-- Checks are read behind tasks alone. -/
theorem itemAfter_check {table : Specparams} {t : Token} {ts rest : List Token}
    {check : TimingCheck} (read : (itemAfter table t).run ts = .ok (.check check, rest)) :
    ∃ task, t.task? = some task ∧ (timingCheck table task).run ts = .ok (check, rest) := by
  obtain ⟨_, _, task, opens⟩ := itemAfter_opens table t _ _ _ read
  simp only [itemAfter, opens] at read
  obtain ⟨found, middle, head, tail⟩ := Rule.run_bind_ok.mp read
  cases tail
  exact ⟨task, by simp [Token.task?, opens], head⟩

theorem add_checks {timing extended : ModuleTiming} {item : TimingItem}
    (other : ∀ check, item ≠ .check check) (added : timing.add item = .ok extended) :
    extended.checks = timing.checks := by
  cases adds_of_ok added with
  | check => exact absurd rfl (other _)
  | string | value | path | conditioned | ifnone => rfl

/-- One item adds the check of its call, if it is one. -/
theorem calls_of_item {timing extended : ModuleTiming} {t : Token} {rest after : List Token}
    {item : TimingItem} (read : (itemAfter timing.specparams t).run rest = .ok (item, after))
    (added : timing.add item = .ok extended) :
    ∃ more, extended.checks = timing.checks ++ more ∧
      ∀ others, List.Forall₂ CallReads (calls after) others →
        List.Forall₂ CallReads (calls (t :: rest)) (more ++ others) := by
  by_cases checked : ∃ check, item = .check check
  · obtain ⟨check, rfl⟩ := checked
    obtain ⟨task, named, ok⟩ := itemAfter_check read
    cases added
    obtain ⟨used, rfl, quiet⟩ := quiet_timingCheck timing.specparams task _ _ _ ok
    refine ⟨[check], rfl, fun others reads => ?_⟩
    rw [calls, named]
    refine .cons ⟨_, _, ok⟩ ?_
    rw [calls_quiet quiet]
    exact reads
  · have other (check : TimingCheck) : item ≠ .check check := fun same => checked ⟨check, same⟩
    obtain ⟨used, rfl, tokens⟩ := itemAfter_tokens _ _ _ _ _ read
    refine ⟨[], by rw [add_checks other added, List.append_nil], fun others reads => ?_⟩
    have none : (t :: used).filterMap Token.task? = [] := by
      rw [filterMap_marks]
      exact tokens.marks.no_task other
    rw [← List.cons_append, calls_append none]
    exact reads

theorem ItemsRun.calls {timing final : ModuleTiming} {ts left : List Token}
    (run : ItemsRun timing ts final left) :
    ∃ more, final.checks = timing.checks ++ more ∧
      ∀ others, List.Forall₂ CallReads (calls left) others →
        List.Forall₂ CallReads (calls ts) (more ++ others) := by
  induction run with
  | @ending timing t rest ends =>
    refine ⟨[], by simp, fun others reads => ?_⟩
    have quiet : marks [t] = [] := by simp [marks_cons, ends, Token.Kind.isMark]
    rw [← List.singleton_append, calls_quiet quiet]
    exact reads
  | item _ read added _ ih =>
    obtain ⟨first, same, step⟩ := calls_of_item read added
    obtain ⟨more, same', others⟩ := ih
    refine ⟨first ++ more, by rw [same', same, List.append_assoc], fun last reads => ?_⟩
    rw [List.append_assoc]
    exact step _ (others last reads)

theorem GroupsRun.calls {timing final : ModuleTiming} {ts : List Token}
    (run : GroupsRun timing ts final) (once : EndsOnce ts) :
    ∃ more, final.checks = timing.checks ++ more ∧ List.Forall₂ CallReads (calls ts) more := by
  have opening {t : Token} (opens : t.kind = .keyword .specify) (rest : List Token) :
      CellTiming.calls (t :: rest) = CellTiming.calls rest := by
    rw [← List.singleton_append, calls_quiet (by simp [marks_cons, opens, Token.Kind.isMark])]
  induction run with
  | @last timing t rest gathered after opens items ends =>
    obtain ⟨more, same, reads⟩ := items.calls
    obtain ⟨used, rfl, _⟩ := items.grows
    have behind : EndsOnce after := once.suffix (t :: used)
    have none : CellTiming.calls after = [] := by
      rw [← List.append_nil after, calls_quiet (behind.marks ends)]
      rfl
    refine ⟨more, same, ?_⟩
    rw [opening opens, ← List.append_nil more]
    exact reads [] (none ▸ .nil)
  | @more timing t rest gathered after final opens items _ _ ih =>
    obtain ⟨first, same, reads⟩ := items.calls
    obtain ⟨used, rfl, _⟩ := items.grows
    obtain ⟨others, same', reads'⟩ := ih (once.suffix (t :: used))
    refine ⟨first ++ others, by rw [same', same, List.append_assoc], ?_⟩
    rw [opening opens]
    exact reads others reads'

end Grammar

/-- The checks of a text are read from its calls. -/
theorem ofBlock_calls {text : String} {timing : ModuleTiming}
    (ok : ModuleTiming.ofBlock text = .ok timing) :
    ∃ ts, Token.ofString text = .ok ts ∧
      List.Forall₂ Grammar.CallReads (calls ts) timing.checks := by
  obtain ⟨ts, tokens, run, once⟩ := groupsRun_of_ofBlock ok
  obtain ⟨more, same, reads⟩ := run.calls once
  refine ⟨ts, tokens, ?_⟩
  rw [same]
  exact reads

end CellTiming
