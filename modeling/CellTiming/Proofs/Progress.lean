import CellTiming.Proofs.DelayForms
import CellTiming.Proofs.ItemCauses
import CellTiming.Proofs.Nesting
import CellTiming.Proofs.Reached

/-! The reading of a block comes to an end. Every rule that succeeds has taken a token and has
left the end of the input ahead, so no more items are tried than there are tokens. -/
namespace CellTiming.Grammar

variable {α β : Type}

/-- Where the reading succeeds it takes a token, and it takes no end of the input. -/
def Advances (read : List Token → Except SourceError (α × List Token)) : Prop :=
  ∀ ts value rest, read ts = .ok (value, rest) →
    ∃ used, ts = used ++ rest ∧ used ≠ [] ∧ ∀ t ∈ used, t.kind ≠ .endOfInput

section Rules

/-- The rule takes a token wherever it succeeds. -/
def Moves (rule : TokenRule α) : Prop := rule.Takes fun used _ => used ≠ []

variable {rule : TokenRule α} {next : α → TokenRule β}

theorem Moves.bind (first : Moves rule) : Moves (rule >>= next) := by
  intro ts result rest ok
  obtain ⟨value, middle, head, tail⟩ := Rule.run_bind_ok.mp ok
  obtain ⟨front, rfl, some⟩ := first ts value middle head
  obtain ⟨back, rfl⟩ := (next value).suffix tail
  exact ⟨front ++ back, by rw [List.append_assoc], List.append_ne_nil_of_left_ne_nil some back⟩

theorem moves_then (second : ∀ value, Moves (next value)) : Moves (rule >>= next) := by
  intro ts result rest ok
  obtain ⟨value, middle, head, tail⟩ := Rule.run_bind_ok.mp ok
  obtain ⟨front, rfl⟩ := rule.suffix head
  obtain ⟨back, rfl, some⟩ := second value middle result rest tail
  exact ⟨front ++ back, by rw [List.append_assoc], List.append_ne_nil_of_right_ne_nil front some⟩

theorem Moves.ite {condition : Prop} [Decidable condition] {other : TokenRule α}
    (left : Moves rule) (right : Moves other) : Moves (if condition then rule else other) := by
  split
  · exact left
  · exact right

theorem moves_expression {g : Operators α} : Moves g.expression := by
  intro ts value rest ok
  obtain ⟨used, same, reads, _⟩ := Operators.expression_run.mp ok
  exact ⟨used, same, reads.operation_ne_nil⟩

theorem Moves.advances (moves : Moves rule) (inner : TakesOf innerKinds rule) :
    Advances rule.run := by
  have known : Token.Kind.endOfInput ∉ innerKinds := by decide
  intro ts value rest ok
  obtain ⟨used, same, some, kinds⟩ := Rule.Takes.and moves inner ts value rest ok
  exact ⟨used, same, some, fun t member ending => known (ending ▸ kinds t member)⟩

theorem TakesStatement.advances (takes : TakesStatement rule) : Advances rule.run := by
  have known : Token.Kind.endOfInput ∉ statementKinds := by decide
  intro ts value rest ok
  obtain ⟨_, same, body, stop, rfl, kinds, semicolon⟩ := takes ts value rest ok
  refine ⟨body ++ [stop], same, by simp, List.forall_mem_append.mpr ⟨fun t member ending => ?_, ?_⟩⟩
  · exact known (ending ▸ kinds t member)
  · exact List.forall_mem_singleton.mpr (by simp [semicolon])

variable (table : Specparams)

theorem moves_event : Moves event := moves_then fun _ => moves_expression.bind

theorem moves_delayValue : Moves (delayValue table) :=
  delayValue_takes.mono fun _ _ writes => writes.ne_nil

theorem moves_delayList : Moves (delayList table) :=
  moves_then fun _ => .ite (moves_then fun _ => .ite (moves_delayValue table).bind moves_expression.bind)
    (moves_delayValue table).bind

theorem advances_item : Advances (item table) := by
  intro ts found rest ok
  cases ts with
  | nil => cases ok
  | cons t tail =>
    obtain ⟨used, rfl, _, inner⟩ := (takesStatement_itemAfter table t).advances tail found rest ok
    exact ⟨t :: used, rfl, List.cons_ne_nil t used,
      List.forall_mem_cons.mpr ⟨inner_of_read table ok, inner⟩⟩

/-- The rules of a block that cannot succeed on nothing. -/
structure Progress (table : Specparams) : Prop where
  constant : Advances (constant table).run
  condition : Advances (condition table).run
  eventTerm : Advances eventTerm.run
  event : Advances event.run
  delayValue : Advances (delayValue table).run
  delayList : Advances (delayList table).run
  timingCheck : ∀ task, Advances (timingCheck table task).run
  path : Advances (path table).run
  conditionedPath : Advances (conditionedPath table).run
  specparam : Advances (specparam table).run
  item : Advances (item table)

theorem progress : Progress table where
  constant := moves_expression.advances (takesOf_constant table)
  condition := moves_expression.advances (bracketed_condition table).list.inner
  eventTerm := moves_expression.advances bracketed_eventTerm.list.inner
  event := moves_event.advances bracketed_event.list.inner
  delayValue := (moves_delayValue table).advances (takesOf_delayValue table)
  delayList := (moves_delayList table).advances (takesOf_delayList table)
  timingCheck task := (takesStatement_timingCheck table task).advances
  path := (takesStatement_path table).advances
  conditionedPath := (takesStatement_conditionedPath table).advances
  specparam := (takesStatement_specparam table).advances
  item := advances_item table

end Rules

section Attempts

/-- The rest of a block, if no more than a number of items are tried. -/
def continuedWithin (attempts : Nat) (timing : ModuleTiming) (ts : List Token) :
    Option (Except SourceError ModuleTiming) :=
  match ts with
  | [] => some (.error (unexpectedAt []))
  | t :: rest =>
    if t.kind = .keyword .endspecify then
      match rest with
      | [] => some (.ok timing)
      | next :: more =>
        if next.kind = .endOfInput then some (.ok timing)
        else if next.kind = .keyword .specify then continuedWithin attempts timing more
        else some (.error (unexpectedAt (next :: more)))
    else
      match attempts with
      | 0 => none
      | attempts + 1 =>
        match (itemAfter timing.specparams t).run rest with
        | .error e => some (.error e)
        | .ok (item, after) =>
          match timing.add item with
          | .error e => some (.error e)
          | .ok extended => continuedWithin attempts extended after
termination_by (attempts, ts.length)

/-- A block, if no more than a number of items are tried. -/
def ofTokensWithin (attempts : Nat) (ts : List Token) : Option (Except SourceError ModuleTiming) :=
  match ts with
  | [] => some (.error (unexpectedAt []))
  | t :: rest =>
    if t.kind = .keyword .specify then continuedWithin attempts {} rest
    else some (.error (unexpectedAt (t :: rest)))

/-- No more items are tried than tokens are ahead. -/
theorem continuedWithin_length (attempts : Nat) (timing : ModuleTiming) (ts : List Token)
    (le : ts.length ≤ attempts) : continuedWithin attempts timing ts = some (continued timing ts) := by
  fun_induction continuedWithin attempts timing ts with
  | case1 =>
    rw [continued, items]
    rfl
  | case2 attempts timing t ends => rw [continued_last ends rfl]
  | case3 attempts timing t ends next more last =>
    rw [continued_last ends (by simp [atEnd, last])]
  | case4 attempts timing t ends next more _ opens ih =>
    rw [List.length_cons, List.length_cons] at le
    rw [continued_group ends opens]
    exact ih (by omega)
  | case5 attempts timing t ends next more inner other => rw [continued_other ends inner other]
  | case6 => cases le
  | case7 timing t rest starts attempts e failed => rw [continued_failed starts failed]
  | case8 timing t rest starts attempts item after read e refused =>
    rw [continued_item starts read, refused]
    rfl
  | case9 timing t rest starts attempts item after read extended added ih =>
    have shorter := ((itemAfter timing.specparams t).suffix read).length_le
    rw [continued_item starts read, added]
    exact ih (Nat.le_trans shorter (Nat.le_of_succ_le_succ le))

theorem ofTokensWithin_length (ts : List Token) :
    ofTokensWithin ts.length ts = some (ModuleTiming.ofTokens ts) := by
  cases ts with
  | nil =>
    rw [ofTokensWithin, ModuleTiming.ofTokens, groups]
  | cons t rest =>
    rw [ofTokensWithin, ModuleTiming.ofTokens]
    split
    next opens =>
      rw [groups_specify opens]
      exact continuedWithin_length _ {} rest (Nat.le_succ _)
    next other => rw [groups_other other]

end Attempts

/-- The rules that call themselves need no more levels than given. -/
structure Nests (levels : Nat) (table : Specparams) (ts : List Token) : Prop where
  constant : (Operators.operationWithin (constants table) 0 levels ts).run =
    some ((constant table).run ts)
  continuing : ∀ left, (Operators.extendWithin (constants table) 0 left levels ts).run =
    some (((constants table).continuing left).run ts)
  condition : (Operators.operationWithin (conditions table) 0 levels ts).run =
    some ((condition table).run ts)
  eventTerm : (Operators.operationWithin eventTerms 0 levels ts).run = some (eventTerm.run ts)

theorem nests_length {levels : Nat} {ts : List Token} (le : ts.length ≤ levels)
    (table : Specparams) : Nests levels table ts where
  constant := Operators.expression_within le
  continuing := Operators.continuing_within le
  condition := Operators.expression_within le
  eventTerm := Operators.expression_within le

/-- The reading of a block comes to an end, be the block well formed or not: its rules take tokens
and leave the end of the input, nest no deeper than there are tokens and are tried on no more
items, and there is a timing or an error that one of the tokens causes. -/
theorem ofTokens_terminates (ts : List Token) (ended : Ended ts) :
    (∀ table, Progress table) ∧
    (∀ table here, here <:+ ts → Nests ts.length table here) ∧
    ofTokensWithin ts.length ts = some (ModuleTiming.ofTokens ts) ∧
    ((∃ timing, ModuleTiming.ofTokens ts = .ok timing) ∨
      ∃ e, ModuleTiming.ofTokens ts = .error e ∧ CausedIn ts e) := by
  refine ⟨progress, fun table here within => nests_length within.length_le table,
    ofTokensWithin_length ts, ?_⟩
  cases read : ModuleTiming.ofTokens ts with
  | ok timing => exact .inl ⟨timing, rfl⟩
  | error e => exact .inr ⟨e, rfl, causedIn_of_ofTokens ended read⟩

/-- A check and a group that have no end. -/
private def unended : List Token :=
  (Token.ofString "specify specparam t = - -((1));\n$width(posedge !(A), -(t").toOption.getD []

theorem ofTokens_terminates_unended :
    Ended unended ∧ unended.length = 24 ∧
      Nests 24 [] (unended.drop 4) ∧
      ofTokensWithin 24 unended = some (.error (.unexpected 2 none)) ∧
      CausedIn unended (.unexpected 2 none) := by
  have ended : Ended unended := by
    unfold Ended
    decide +kernel
  have length : unended.length = 24 := by decide +kernel
  have failed : (ModuleTiming.ofTokens unended).map (fun _ => ()) = .error (.unexpected 2 none) := by
    decide +kernel
  obtain ⟨_, nests, attempts, made⟩ := ofTokens_terminates unended ended
  rw [length] at nests attempts
  cases read : ModuleTiming.ofTokens unended with
  | ok timing =>
    rw [read] at failed
    cases failed
  | error e =>
    rw [read] at failed attempts made
    cases failed
    refine ⟨ended, length, nests [] _ (List.drop_suffix 4 unended), attempts, ?_⟩
    rcases made with ⟨_, same⟩ | ⟨_, same, caused⟩
    · cases same
    · cases same
      exact caused

end CellTiming.Grammar
