/-! Conditions on paths and checks: names and numbers joined by negation, conjunction
and equality. Each operator remembers its spelling and parentheses are kept, so a
condition is written back without blanks exactly as it was read. -/
namespace CellTiming

inductive Negation
  | bang
  | tilde
deriving DecidableEq, Repr

inductive Conjunction
  | single
  | double
deriving DecidableEq, Repr

inductive Equality
  | logical
  | cases
deriving DecidableEq, Repr

def Negation.spelling : Negation → String
  | bang => "!"
  | tilde => "~"

def Conjunction.spelling : Conjunction → String
  | single => "&"
  | double => "&&"

def Equality.spelling : Equality → String
  | logical => "=="
  | cases => "==="

inductive Condition
  | literal (text : String)
  | not (op : Negation) (operand : Condition)
  | and (op : Conjunction) (left right : Condition)
  | equals (op : Equality) (left right : Condition)
  | group (inner : Condition)
deriving DecidableEq, Repr

namespace Condition

def text : Condition → String
  | literal text => text
  | not op operand => op.spelling ++ operand.text
  | and op left right => left.text ++ op.spelling ++ right.text
  | equals op left right => left.text ++ op.spelling ++ right.text
  | group inner => "(" ++ inner.text ++ ")"

/-- The negation of a whole condition. -/
def negated (condition : Condition) : Condition := not .bang (group condition)

/-- `!(c₁)&!(c₂)&…`, true when none of the conditions holds. -/
def noneOf : List Condition → Option Condition
  | [] => none
  | first :: others =>
    some ((others.map negated).foldl (and .single) first.negated)

end Condition

end CellTiming
