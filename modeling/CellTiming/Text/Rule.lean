import CellTiming.Rule

/-! Rules over the characters of a text. They fail without a reason. -/
namespace CellTiming

abbrev CharRule := Rule Char Unit

namespace CharRule

variable {α : Type}

def fail : CharRule α := Rule.fail ()

def next? : CharRule (Option Char) := Rule.takeIf fun _ => true

def next : CharRule Char := do
  match ← next? with
  | some c => return c
  | none => fail

def peek? : CharRule (Option Char) := Rule.ahead List.head?

def eat (c : Char) : CharRule Bool := do return (← Rule.takeIf (· == c)).isSome

def expect (c : Char) : CharRule Unit := do
  if ← eat c then return () else fail

def literal : List Char → CharRule Unit
  | [] => return ()
  | c :: cs => do
    expect c
    literal cs

def hexValue? (c : Char) : Option Nat :=
  if c.isDigit then some (c.toNat - '0'.toNat)
  else if 'a' ≤ c ∧ c ≤ 'f' then some (c.toNat - 'a'.toNat + 10)
  else if 'A' ≤ c ∧ c ≤ 'F' then some (c.toNat - 'A'.toNat + 10)
  else none

/-- The number written in the given count of hexadecimal digits, behind a value that
counts as the digits before them. -/
def hexAfter (value : Nat) : Nat → CharRule Nat
  | 0 => return value
  | count + 1 => do
    match hexValue? (← next) with
    | some digit => hexAfter (16 * value + digit) count
    | none => fail

def hex (count : Nat) : CharRule Nat := hexAfter 0 count

/-- Reads a text that the rule takes as a whole. -/
def read? (rule : CharRule α) (text : String) : Option α :=
  match rule.run text.toList with
  | .ok (value, []) => some value
  | _ => none

end CharRule

end CellTiming
