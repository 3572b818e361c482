import CellTiming.Grammar.Operators
import CellTiming.Timing.Module

/-! Constant expressions, evaluated as they are read: numbers and declared specparams
under signs, sums and differences. -/
namespace CellTiming.Grammar

/-- A name that stands for zero unless it is declared. -/
def placeholder : String := "DELAY"

def specparamValue (table : Specparams) (t : Token) : Except SourceError Number :=
  match table.lookup t.text with
  | some value => .ok value
  | none =>
    if t.text = placeholder then .ok (Number.ofInt 0)
    else .error (.specparamUndeclared t.line t.text)

def constants (table : Specparams) : Operators Number where
  before t :=
    match t.kind with
    | .symbol .plus => some id
    | .symbol .minus => some Number.neg
    | _ => none
  between t :=
    match t.kind with
    | .symbol .plus => some (0, Number.add)
    | .symbol .minus => some (0, Number.sub)
    | _ => none
  group := id
  atom t :=
    match t.kind with
    | .number => TokenRule.numberOf t
    | .name => specparamValue table t
    | _ => .error (unexpectedAt [t])

def constant (table : Specparams) : TokenRule Number := (constants table).expression

end CellTiming.Grammar
