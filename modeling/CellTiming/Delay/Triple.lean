import CellTiming.Decimal.Notation

/-! A delay as a minimum, typical and maximum value. Triples are compared field by
field, the first difference deciding; a NaN is neither below nor above anything. -/
namespace CellTiming

structure Triple where
  min : Float
  typ : Float
  max : Float

namespace Triple

def uniform (value : Float) : Triple := ⟨value, value, value⟩

def below (a b : Triple) : Bool :=
  if a.min == b.min then
    if a.typ == b.typ then a.max < b.max else a.typ < b.typ
  else a.min < b.min

/-- The first of the two unless the other is below it. -/
def lesser (a b : Triple) : Triple := if b.below a then b else a

/-- The first of the two unless it is below the other. -/
def greater (a b : Triple) : Triple := if a.below b then b else a

def isSingle (t : Triple) : Bool := t.min == t.max

/-- The typical value, but never less than the minimum. -/
def nominal (t : Triple) : Float := if t.min < t.typ then t.typ else t.min

def text (t : Triple) : String :=
  s!"{Decimal.plain t.min}:{Decimal.plain t.typ}:{Decimal.plain t.max}"

end Triple

end CellTiming
