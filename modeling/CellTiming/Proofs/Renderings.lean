import CellTiming.Liberty.Format
import Mathlib.Data.List.Forall2

/-! The two renderings of a library side by side. Liberty text and JSON list cells, pins and
groups in one order and state the same attributes in each of them. Only the lists of groups
of a pin are there in JSON when they are empty. -/
namespace CellTiming.Liberty

open Statement

section Numbers

def Intrinsic.numbers : Intrinsic → List Float
  | single value => [value]
  | range least nominal greatest => [least, nominal, greatest]

def TimingGroup.numbers (g : TimingGroup) : List Float :=
  (g.rise.toList ++ g.fall.toList).flatMap Intrinsic.numbers

def MinimumPeriod.numbers (p : MinimumPeriod) : List Float := [p.least, p.typical, p.greatest]

def Pin.numbers (pin : Pin) : List Float :=
  pin.timing.flatMap TimingGroup.numbers ++ pin.minimumPeriod.flatMap MinimumPeriod.numbers ++
    pin.pulseWidthLow.toList ++ pin.pulseWidthHigh.toList

def Cell.numbers (cell : Cell) : List Float := cell.pins.flatMap (·.2.numbers)

def Library.numbers (library : Library) : List Float := library.cells.flatMap Cell.numbers

end Numbers

section Agreement

variable (indent depth : Nat)

/-- The line of an attribute and the field that states it. -/
inductive SameAttribute : String → String × Json → Prop
  | string (name value : String) :
    SameAttribute (indented (depth * indent) (name ++ " : \"" ++ value ++ "\" ;"))
      (name, .string value)
  | timingType (kind : TimingType) :
    SameAttribute (indented (depth * indent) ("timing_type : " ++ kind.spelling ++ " ;"))
      ("timing_type", .string kind.spelling)
  | number (name : String) {x : Float} (finite : x.isFinite = true) :
    SameAttribute (indented (depth * indent) (name ++ " : " ++ Decimal.plain x ++ " ;"))
      (name, .real x)

/-- The parts of a group between the lines that open and close it. -/
def enclosed (kind name : String) (parts : List String) : String :=
  indented (depth * indent) (kind ++ " (" ++ name ++ ") \x7b") ++ String.join parts ++
    indented (depth * indent) "\x7d"

inductive SameGroup (kind : String) : String → Json → Prop
  | attributes {lines : List String} {fields : List (String × Json)}
      (same : List.Forall₂ (SameAttribute indent (depth + 1)) lines fields) :
    SameGroup kind (enclosed indent depth kind "" lines) (.object fields)

inductive SamePin : String → String × Json → Prop
  | groups (name : String) {timing periods lines : List String} {arcs minima : List Json}
      {fields : List (String × Json)}
      (sameTiming : List.Forall₂ (SameGroup indent (depth + 1) "timing") timing arcs)
      (samePeriods : List.Forall₂ (SameGroup indent (depth + 1) "minimum_period") periods minima)
      (sameWidths : List.Forall₂ (SameAttribute indent (depth + 1)) lines fields) :
    SamePin (enclosed indent depth "pin" name (timing ++ periods ++ lines))
      (name, .object ([("timing", .array arcs), ("minimum_period", .array minima)] ++ fields))

inductive SameCell : String → Json → Prop
  | pins (name : String) {pins : List String} {fields : List (String × Json)}
      (same : List.Forall₂ (SamePin indent (depth + 1)) pins fields) :
    SameCell (enclosed indent depth "cell" name pins)
      (.object [("name", .string name), ("pins", .object fields)])

end Agreement

section Attributes

variable {indent depth : Nat}

/-- Statements whose lines state the given fields. -/
def SameAttributes (indent depth : Nat) (statements : List Statement)
    (fields : List (String × Json)) : Prop :=
  List.Forall₂ (SameAttribute indent depth) (statements.map (text indent depth)) fields

theorem SameAttributes.append {first second : List Statement} {fields more : List (String × Json)}
    (same : SameAttributes indent depth first fields)
    (also : SameAttributes indent depth second more) :
    SameAttributes indent depth (first ++ second) (fields ++ more) := by
  rw [SameAttributes, List.map_append]
  exact List.rel_append same also

variable (indent depth)

end Attributes

section Groups

variable {indent depth : Nat}

variable (indent depth)

end Groups

end CellTiming.Liberty
