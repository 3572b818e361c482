import CellTiming.Condition.Basic
import CellTiming.Json.Value

/-! Conditions as JSON: an object whose only key names the form, with the operands in
a nested object. Fields that are not known are passed over. -/
namespace CellTiming

namespace Negation

def name : Negation → String
  | bang => "Bang"
  | tilde => "Tilde"

def all : List Negation := [bang, tilde]

end Negation

namespace Conjunction

def name : Conjunction → String
  | single => "Single"
  | double => "Double"

def all : List Conjunction := [single, double]

end Conjunction

namespace Equality

def name : Equality → String
  | logical => "Logical"
  | cases => "Case"

def all : List Equality := [logical, cases]

end Equality

namespace Condition

def toJson : Condition → Json
  | literal text => .object [("Literal", .string text)]
  | not op operand =>
    .object [("Not", .object [("op", .string op.name), ("operand", operand.toJson)])]
  | and op left right =>
    .object [("And", .object
      [("op", .string op.name), ("lhs", left.toJson), ("rhs", right.toJson)])]
  | equals op left right =>
    .object [("Equals", .object
      [("op", .string op.name), ("lhs", left.toJson), ("rhs", right.toJson)])]
  | group inner => .object [("Group", inner.toJson)]

/-- One of several named alternatives: its name, or an object with the name as its only
key and nothing under it. -/
def named? {α : Type} (name : α → String) (all : List α) : Json → Option α
  | .string text => all.find? (name · == text)
  | .object [(text, .null)] => all.find? (name · == text)
  | _ => none

mutual

def ofJson? : Json → Option Condition
  | .object [(form, payload)] =>
    match form, payload with
    | "Literal", .string text => some (literal text)
    | "Group", inner => (ofJson? inner).map group
    | "Not", .object fields => do
      let op ← named? Negation.name Negation.all (← fields.lookup "op")
      return not op (← (← (operands fields).lookup "operand"))
    | "And", .object fields => do
      let op ← named? Conjunction.name Conjunction.all (← fields.lookup "op")
      return and op (← (← (operands fields).lookup "lhs")) (← (← (operands fields).lookup "rhs"))
    | "Equals", .object fields => do
      let op ← named? Equality.name Equality.all (← fields.lookup "op")
      return equals op (← (← (operands fields).lookup "lhs"))
        (← (← (operands fields).lookup "rhs"))
    | _, _ => none
  | _ => none

/-- Every field read as a condition where it is one. -/
def operands : List (String × Json) → List (String × Option Condition)
  | [] => []
  | (key, value) :: fields => (key, ofJson? value) :: operands fields

end

end Condition

end CellTiming
