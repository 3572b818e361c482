import CellTiming.Grammar.Rule

/-! Expressions over operators: operands are atoms, groups in parentheses or operands
behind an operator, and binary operators of the levels 0, 1, … stand between them, all
grouping to the left, those of a higher level binding tighter. One set of rules reads
them for any choice of atoms, operators and what they stand for. -/
namespace CellTiming

structure Operators (α : Type) where
  /-- The operator written before an operand. -/
  before : Token → Option (α → α)
  /-- The operator written between operands, with its level. -/
  between : Token → Option (Nat × (α → α → α))
  group : α → α
  /-- Every other token, which is an atom or an error. -/
  atom : Token → Except SourceError α

namespace Operators

variable {α : Type}

/-- A value and the suffix of the tokens left after it. -/
abbrev Step (α : Type) (ts : List Token) := { step : α × List Token // step.2 <:+ ts }

/-- Takes the parenthesis that closes a group. -/
def close (ts : List Token) : Except SourceError { rest : List Token // rest <:+ ts } :=
  match ts with
  | [] => .error (unexpectedAt [])
  | t :: rest =>
    if t.isSymbol .rightParen then .ok ⟨rest, List.suffix_cons t rest⟩
    else .error (unexpectedAt (t :: rest))

mutual

def operand (g : Operators α) (ts : List Token) : Except SourceError (Step α ts.tail) :=
  match ts with
  | [] => .error (unexpectedAt [])
  | t :: rest =>
    match g.before t with
    | some apply => do
      let ⟨(value, after), h⟩ ← operand g rest
      return ⟨(apply value, after), h.trans (List.tail_suffix rest)⟩
    | none =>
      if t.isSymbol .leftParen then do
        let ⟨(value, inner), h⟩ ← operation g 0 rest
        let ⟨after, h'⟩ ← close inner
        return ⟨(g.group value, after), h'.trans (h.trans (List.tail_suffix rest))⟩
      else do
        let value ← g.atom t
        return ⟨(value, rest), List.suffix_rfl⟩
termination_by 2 * ts.length
decreasing_by all_goals simp <;> omega

/-- Operands joined by operators of at least the given level. -/
def operation (g : Operators α) (level : Nat) (ts : List Token) :
    Except SourceError (Step α ts.tail) := do
  let ⟨(value, after), h⟩ ← operand g ts
  let ⟨step, h'⟩ ← extend g level value after
  return ⟨step, h'.trans h⟩
termination_by 2 * ts.length + 1
decreasing_by
  · omega
  · have := h.length_le
    simp at this; omega

/-- Joins a value with the operands that follow it. -/
def extend (g : Operators α) (level : Nat) (left : α) (ts : List Token) :
    Except SourceError (Step α ts) :=
  match ts with
  | [] => .ok ⟨(left, []), List.suffix_rfl⟩
  | t :: rest =>
    match g.between t with
    | some (own, apply) =>
      if level ≤ own then do
        let ⟨(right, after), h⟩ ← operation g (own + 1) rest
        let ⟨step, h'⟩ ← extend g level (apply left right) after
        return ⟨step, h'.trans (h.trans ((List.tail_suffix rest).trans (List.suffix_cons t rest)))⟩
      else .ok ⟨(left, t :: rest), List.suffix_rfl⟩
    | none => .ok ⟨(left, t :: rest), List.suffix_rfl⟩
termination_by 2 * ts.length
decreasing_by
  · simp; omega
  · have := h.length_le
    simp at this ⊢; omega

end

/-- A whole expression. -/
def expression (g : Operators α) : TokenRule α where
  run ts := (operation g 0 ts).map (·.val)
  suffix {ts value rest} h := by
    cases hs : operation g 0 ts with
    | error e => rw [hs] at h; cases h
    | ok step =>
      obtain ⟨step, hstep⟩ := step
      rw [hs] at h; cases h; exact hstep.trans (List.tail_suffix ts)

/-- The rest of an expression whose first operand has been read. -/
def continuing (g : Operators α) (left : α) : TokenRule α where
  run ts := (extend g 0 left ts).map (·.val)
  suffix {ts value rest} h := by
    cases hs : extend g 0 left ts with
    | error e => rw [hs] at h; cases h
    | ok step =>
      obtain ⟨step, hstep⟩ := step
      rw [hs] at h; cases h; exact hstep

end Operators

end CellTiming
