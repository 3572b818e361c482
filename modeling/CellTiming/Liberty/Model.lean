import CellTiming.Timing.Event

/-! The part of a Liberty library that carries timing: cells with pins, and on each pin
timing groups, minimum periods and pulse widths. Everything keeps its order. -/
namespace CellTiming.Liberty

inductive Intrinsic
  | single (value : Float)
  | range (least nominal greatest : Float)

namespace Intrinsic

def ofTriple (t : Triple) : Intrinsic :=
  if t.isSingle then single t.min else range t.min t.nominal t.max

/-- The attributes that state the value, under the given name. -/
def attributes (name : String) : Intrinsic → List (String × Float)
  | single value => [(name, value)]
  | range least nominal greatest =>
    [(name ++ "_min", least), (name, nominal), (name ++ "_max", greatest)]

end Intrinsic

inductive ConstraintArc
  | setup
  | hold
  | skew
  | recovery
  | removal
deriving DecidableEq, Repr

namespace ConstraintArc

def all : List ConstraintArc := [setup, hold, skew, recovery, removal]

def spelling : ConstraintArc → String
  | setup => "setup"
  | hold => "hold"
  | skew => "skew"
  | recovery => "recovery"
  | removal => "removal"

end ConstraintArc

/-- A delay launched by an edge, or a constraint against an edge of its reference. -/
inductive TimingType
  | delay (edge : Edge)
  | constraint (arc : ConstraintArc) (edge : Edge)
deriving DecidableEq, Repr

def edgeWord : Edge → String
  | .rising => "rising"
  | .falling => "falling"

def TimingType.spelling : TimingType → String
  | delay edge => edgeWord edge ++ "_edge"
  | constraint arc edge => arc.spelling ++ "_" ++ edgeWord edge

structure TimingGroup where
  /-- The names of the related pins, separated by blanks. -/
  relatedPin : String
  when : Option String
  timingType : Option TimingType
  rise : Option Intrinsic
  fall : Option Intrinsic

structure MinimumPeriod where
  when : Option String
  least : Float
  typical : Float
  greatest : Float

structure Pin where
  timing : List TimingGroup := []
  minimumPeriod : List MinimumPeriod := []
  pulseWidthLow : Option Float := none
  pulseWidthHigh : Option Float := none

structure Cell where
  name : String
  pins : List (String × Pin) := []

/-- Changes the pin of a name, which is added at the end if it is new. -/
def updatePin (name : String) (change : Pin → Pin) : List (String × Pin) → List (String × Pin)
  | [] => [(name, change {})]
  | (known, pin) :: pins =>
    if known = name then (known, change pin) :: pins
    else (known, pin) :: updatePin name change pins

def Cell.update (cell : Cell) (name : String) (change : Pin → Pin) : Cell :=
  { cell with pins := updatePin name change cell.pins }

namespace Pin

def addTiming (group : TimingGroup) (pin : Pin) : Pin :=
  { pin with timing := pin.timing ++ [group] }

def addPeriod (period : MinimumPeriod) (pin : Pin) : Pin :=
  { pin with minimumPeriod := pin.minimumPeriod ++ [period] }

end Pin

structure Library where
  name : String
  cells : List Cell

end CellTiming.Liberty
