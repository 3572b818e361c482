import CellTiming.Delay.Transitions
import CellTiming.Timing.Event

/-! Delay paths from an input to an output signal, and the paths under a condition,
grouped by their signals. Groups stand in the order in which their signals were first
seen, paths within a group in the order in which they were added. -/
namespace CellTiming

structure Path where
  input : String
  output : String
  /-- None for a path written without an edge and without a group. -/
  edge : Option Edge
  parallel : Bool
  inverted : Bool
  source : Option String
  condition : Option Condition
  delays : Transitions

structure PathKey where
  input : String
  output : String
deriving DecidableEq, Repr

def Path.key (p : Path) : PathKey := ⟨p.input, p.output⟩

structure PathGroup where
  key : PathKey
  paths : List Path

structure PathIndex where
  groups : List PathGroup := []

namespace PathIndex

def insert (path : Path) : List PathGroup → List PathGroup
  | [] => [⟨path.key, [path]⟩]
  | group :: groups =>
    if group.key = path.key then { group with paths := group.paths ++ [path] } :: groups
    else group :: insert path groups

def push (index : PathIndex) (path : Path) : PathIndex := ⟨insert path index.groups⟩

def get? (index : PathIndex) (key : PathKey) : Option (List Path) :=
  (index.groups.find? (·.key = key)).map (·.paths)

/-- Every path, group by group. -/
def paths (index : PathIndex) : List Path := index.groups.flatMap (·.paths)

def size (index : PathIndex) : Nat := index.groups.length

def isEmpty (index : PathIndex) : Bool := index.groups.isEmpty

end PathIndex

end CellTiming
