import CellTiming.Condition.Basic
import CellTiming.Delay.Triple

/-! Signal edges and the events of timing checks. An event is an edge of a signal,
possibly under conditions, which are kept as rendered terms. -/
namespace CellTiming

inductive Edge
  | rising
  | falling
deriving DecidableEq, Repr

namespace Edge

def all : List Edge := [rising, falling]

def spelling : Edge → String
  | rising => "posedge"
  | falling => "negedge"

end Edge

structure Event where
  edge : Edge
  signal : String
  conditions : List String
deriving DecidableEq, Repr

end CellTiming
