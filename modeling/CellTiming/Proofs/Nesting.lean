import CellTiming.Proofs.Operators

/-! How deep the rules for expressions call one another. The same rules are run with a number of
levels: a call that has a token ahead takes one, for itself and for all that it calls, and there
is no result where none is left. As many levels as there are tokens are enough. -/
namespace CellTiming.Operators

variable {α β : Type}

/-- A result of rules that may run out of levels. -/
abbrev Levelled (α : Type) := ExceptT SourceError Option α

/-- No level is left. -/
def exhausted : Levelled α := ExceptT.mk none

mutual

def operandWithin (g : Operators α) (levels : Nat) (ts : List Token) : Levelled (α × List Token) :=
  match levels, ts with
  | _, [] => throw (unexpectedAt [])
  | 0, _ :: _ => exhausted
  | levels + 1, t :: rest =>
    match g.before t with
    | some apply => do
      let (value, after) ← operandWithin g levels rest
      return (apply value, after)
    | none =>
      if t.isSymbol .leftParen then do
        let (value, inner) ← operationWithin g 0 levels rest
        liftExcept ((TokenRule.expect .rightParen >>= fun _ => pure (g.group value)).run inner)
      else liftExcept ((g.atom t).map (·, rest))
termination_by (levels, 0)

def operationWithin (g : Operators α) (level levels : Nat) (ts : List Token) :
    Levelled (α × List Token) := do
  let (value, after) ← operandWithin g levels ts
  extendWithin g level value levels after
termination_by (levels, 1)

def extendWithin (g : Operators α) (level : Nat) (left : α) (levels : Nat) (ts : List Token) :
    Levelled (α × List Token) :=
  match levels, ts with
  | _, [] => return (left, [])
  | 0, _ :: _ => exhausted
  | levels + 1, t :: rest =>
    match g.between t with
    | some (own, apply) =>
      if level ≤ own then do
        let (right, after) ← operationWithin g (own + 1) levels rest
        extendWithin g level (apply left right) levels after
      else return (left, t :: rest)
    | none => return (left, t :: rest)
termination_by (levels, 0)

end

section Agreement

variable {g : Operators α}

theorem run_bind_some {first : Levelled α} {result : Except SourceError α}
    {next : α → Levelled β} {next' : α → Except SourceError β} (same : first.run = some result)
    (same' : ∀ value, result = .ok value → (next value).run = some (next' value)) :
    (first >>= next).run = some (result >>= next') := by
  rw [ExceptT.run_bind, same]
  cases result with
  | error e => rfl
  | ok value => exact same' value rfl

private theorem succ_of_cons {t : Token} {rest : List Token} {levels : Nat}
    (le : (t :: rest).length ≤ levels) : ∃ others, levels = others + 1 ∧ rest.length ≤ others := by
  cases levels with
  | zero => cases le
  | succ others => exact ⟨others, rfl, Nat.le_of_succ_le_succ le⟩

theorem run_liftExcept (result : Except SourceError α) :
    (liftExcept result : Levelled α).run = some result := by
  cases result <;> rfl

theorem extendWithin_stop {level : Nat} {ts : List Token} (stops : Stops g level ts) (left : α)
    {levels : Nat} (le : ts.length ≤ levels) :
    (extendWithin g level left levels ts).run = some (.ok (left, ts)) := by
  cases ts with
  | nil =>
    rw [extendWithin]
    rfl
  | cons t rest =>
    obtain ⟨levels, rfl, _⟩ := succ_of_cons le
    rw [extendWithin]
    split
    next own apply sign =>
      rw [if_neg (Nat.not_le_of_lt (stops t rest own apply rfl sign))]
      rfl
    next => rfl

/-- The rules for expressions never run out of as many levels as there are tokens. -/
theorem within_length (g : Operators α) :
    (∀ ts levels, ts.length ≤ levels →
      (operandWithin g levels ts).run = some (bare (operand g ts))) ∧
    (∀ level ts levels, ts.length ≤ levels →
      (operationWithin g level levels ts).run = some (bare (operation g level ts))) ∧
    (∀ level left ts levels, ts.length ≤ levels →
      (extendWithin g level left levels ts).run = some (bare (extend g level left ts))) := by
  have enough {rest after : List Token} {levels : Nat} (suffix : after <:+ rest.tail)
      (le : rest.length ≤ levels) : after.length ≤ levels :=
    Nat.le_trans (suffix.trans (List.tail_suffix rest)).length_le le
  -- a call behind a token has a level less and a token less, whatever has been read in between
  apply rules_induction (g := g)
  case nil =>
    intro levels _
    rw [operandWithin, operand]
    rfl
  case before =>
    intro t rest apply sign ih levels le
    obtain ⟨levels, rfl, fewer⟩ := succ_of_cons le
    rw [operandWithin, sign, operand_before sign]
    exact run_bind_some (ih levels fewer) fun _ _ => rfl
  case group =>
    intro t rest plain opens ih levels le
    obtain ⟨levels, rfl, fewer⟩ := succ_of_cons le
    rw [operandWithin, plain, operand_group plain opens]
    dsimp only
    rw [if_pos opens]
    exact run_bind_some (ih levels fewer) fun _ _ => run_liftExcept _
  case atom =>
    intro t rest plain single levels le
    obtain ⟨levels, rfl, _⟩ := succ_of_cons le
    rw [operandWithin, plain, operand_atom plain single]
    dsimp only
    rw [if_neg single]
    exact run_liftExcept _
  case operation =>
    intro level ts ihHead ihTail levels le
    rw [operationWithin, operation_eq]
    exact run_bind_some (ihHead levels le) fun step found =>
      ihTail step.1 step.2 found levels (enough (suffix_of_bare found) le)
  case stop =>
    intro level left ts stops levels le
    rw [extendWithin_stop stops left le, extend_stop stops]
  case join =>
    intro level left t rest own apply sign binds ihHead ihTail levels le
    obtain ⟨levels, rfl, fewer⟩ := succ_of_cons le
    rw [extendWithin, sign, extend_join sign binds]
    dsimp only
    rw [if_pos binds]
    exact run_bind_some (ihHead levels fewer) fun step found =>
      ihTail step.1 step.2 found levels (enough (suffix_of_bare found) fewer)

theorem expression_within {levels : Nat} {ts : List Token} (le : ts.length ≤ levels) :
    (operationWithin g 0 levels ts).run = some (g.expression.run ts) :=
  (within_length g).2.1 0 ts levels le

theorem continuing_within {levels : Nat} {ts : List Token} (le : ts.length ≤ levels) (left : α) :
    (extendWithin g 0 left levels ts).run = some ((g.continuing left).run ts) :=
  (within_length g).2.2 0 left ts levels le

/-- Fewer levels need not be enough: in a row of signs each takes one. -/
theorem exhausted_of_signs {t : Token} {apply : α → α} (sign : g.before t = some apply)
    {levels signs : Nat} (fewer : levels < signs) :
    (operandWithin g levels (List.replicate signs t)).run = none := by
  obtain ⟨signs, rfl⟩ := Nat.exists_eq_add_one_of_ne_zero (Nat.ne_zero_of_lt fewer)
  induction levels generalizing signs with
  | zero =>
    rw [List.replicate_succ, operandWithin]
    rfl
  | succ levels ih =>
    obtain ⟨signs, rfl⟩ := Nat.exists_eq_add_one_of_ne_zero
      (Nat.ne_zero_of_lt (Nat.lt_of_succ_lt_succ fewer))
    rw [List.replicate_succ, operandWithin, sign]
    dsimp only
    rw [ExceptT.run_bind, ih signs (Nat.lt_of_succ_lt_succ fewer)]
    rfl

end Agreement

end CellTiming.Operators
