import CellTiming.Delay.Triple

/-! The delays of an output for its twelve transitions between the levels zero, one,
unknown and high impedance. They are given by 1, 2, 3, 6 or 12 values; a transition
to or from the unknown level takes the earlier or later of its neighbours. -/
namespace CellTiming

structure Transitions where
  rise : Triple
  fall : Triple
  zeroToZ : Triple
  zToOne : Triple
  oneToZ : Triple
  zToZero : Triple
  zeroToX : Triple
  xToOne : Triple
  oneToX : Triple
  xToZero : Triple
  xToZ : Triple
  zToX : Triple

namespace Transitions

def uniform (value : Triple) : Transitions :=
  ⟨value, value, value, value, value, value, value, value, value, value, value, value⟩

def ofValues? : List Triple → Option Transitions
  | [value] => some (uniform value)
  | [rise, fall] => some {
      rise, fall
      zeroToZ := rise, zToOne := rise, oneToZ := fall, zToZero := fall
      zeroToX := rise, xToOne := rise, oneToX := fall, xToZero := fall
      xToZ := rise.greater fall, zToX := rise.lesser fall }
  | [rise, fall, off] => some {
      rise, fall
      zeroToZ := off, zToOne := rise, oneToZ := off, zToZero := fall
      zeroToX := rise.lesser off, xToOne := rise, oneToX := fall.lesser off, xToZero := fall
      xToZ := off, zToX := rise.lesser fall }
  | [rise, fall, zeroToZ, zToOne, oneToZ, zToZero] => some {
      rise, fall, zeroToZ, zToOne, oneToZ, zToZero
      zeroToX := rise.lesser zeroToZ, xToOne := rise.greater zToOne
      oneToX := fall.lesser oneToZ, xToZero := fall.greater zToZero
      xToZ := zeroToZ.greater oneToZ, zToX := zToOne.lesser zToZero }
  | [rise, fall, zeroToZ, zToOne, oneToZ, zToZero, zeroToX, xToOne, oneToX, xToZero, xToZ, zToX] =>
    some { rise, fall, zeroToZ, zToOne, oneToZ, zToZero,
           zeroToX, xToOne, oneToX, xToZero, xToZ, zToX }
  | _ => none

end Transitions

end CellTiming
