import CellTiming.Grammar.Operators
import CellTiming.Timing.Module

/-! Conditions and events. In a condition equality binds tighter than conjunction and
a specparam stands for its value. The terms of an event join their operands to a text
that drops parentheses. -/
namespace CellTiming.Grammar

def conditions (table : Specparams) : Operators Condition where
  before t :=
    match t.kind with
    | .symbol .bang => some (.not .bang)
    | .symbol .tilde => some (.not .tilde)
    | _ => none
  between t :=
    match t.kind with
    | .symbol .amp => some (0, .and .single)
    | .symbol .ampAmp => some (0, .and .double)
    | .symbol .eqEq => some (1, .equals .logical)
    | .symbol .eqEqEq => some (1, .equals .cases)
    | _ => none
  group := .group
  atom t :=
    match t.kind with
    | .number => (TokenRule.numberOf t).map fun n => .literal n.text
    | .name => .ok (.literal (((table.lookup t.text).map Number.text).getD t.text))
    | _ => .error (unexpectedAt [t])

def condition (table : Specparams) : TokenRule Condition := (conditions table).expression

def eventTerms : Operators String where
  before t :=
    match t.kind with
    | .symbol .bang | .symbol .tilde => some (t.text ++ ·)
    | _ => none
  between t :=
    match t.kind with
    | .symbol .amp | .symbol .ampAmp | .symbol .eqEq | .symbol .eqEqEq =>
      some (0, fun left right => left ++ t.text ++ right)
    | _ => none
  group := id
  atom t :=
    match t.kind with
    | .number => (TokenRule.numberOf t).map Number.text
    | .name => .ok t.text
    | _ => .error (unexpectedAt [t])

def eventTerm : TokenRule String := eventTerms.expression

def edge? : TokenRule (Option Edge) := do
  if ← TokenRule.eatKeyword .posedge then return some .rising
  else if ← TokenRule.eatKeyword .negedge then return some .falling
  else return none

/-- An event without an edge is a rising one. -/
def event : TokenRule Event := do
  let edge := (← edge?).getD .rising
  let signal ← eventTerm
  let conditions ← TokenRule.following .tripleAmp eventTerm
  return { edge, signal, conditions }

end CellTiming.Grammar
