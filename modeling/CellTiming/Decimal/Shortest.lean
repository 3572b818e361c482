/-! Decimal forms of binary floating point numbers. A finite number is an integer
times a power of two, and every real between the two half-way points to its
neighbours reads back as that number. The shortest form is the coarsest decimal
grid with a point in that interval and, on it, the point nearest to the number. -/
namespace CellTiming.Decimal

/-- The number `digits * 10 ^ exponent`. -/
structure Scientific where
  digits : Nat
  exponent : Int
deriving DecidableEq, Repr

/-- Which of two equally near points is taken. -/
inductive Tie
  | even
  | up
deriving DecidableEq, Repr

/-- The reals that read back as one number, in quarters of its last binary place:
`(4 * mantissa ± …) * 2 ^ (exponent - 2)`. Below a power of two the neighbour is
half as far away. -/
structure Neighbourhood where
  low : Nat
  value : Nat
  high : Nat
  closed : Bool
  exponent : Int
deriving DecidableEq, Repr

def neighbourhood (mantissa : Nat) (exponent : Int) (narrowBelow : Bool) : Neighbourhood where
  low := if narrowBelow then 4 * mantissa - 1 else 4 * mantissa - 2
  value := 4 * mantissa
  high := 4 * mantissa + 2
  closed := mantissa % 2 == 0
  exponent := exponent - 2

/-- The last binary place of the smallest numbers. -/
@[irreducible] def finestPlace : Nat := 1074

/-- The magnitude of a finite number. -/
def magnitude (x : Float) : Neighbourhood :=
  let bits := x.toBits.toNat
  let field : Nat := bits / Nat.pow 2 52 % Nat.pow 2 11
  let fraction := bits % Nat.pow 2 52
  if field = 0 then neighbourhood fraction (-finestPlace) false
  else
    neighbourhood (Nat.pow 2 52 + fraction) ((field : Int) - 1 - finestPlace)
      (fraction == 0 && field > 1)

/-- A finite number without a fraction. -/
def isWhole (x : Float) : Bool :=
  let n := magnitude x
  n.value % Nat.pow 2 (-n.exponent).toNat == 0

def isNegative (x : Float) : Bool := Nat.pow 2 63 ≤ x.toBits.toNat

/-- A quotient of natural numbers equal to `base ^ exponent`. -/
def power (base : Nat) (exponent : Int) : Nat × Nat :=
  (base.pow exponent.toNat, base.pow (-exponent).toNat)

/-- The quotient is a point of the neighbourhood. -/
def Neighbourhood.contains (n : Neighbourhood) (num den : Nat) : Bool :=
  let (unit, parts) := power 2 n.exponent
  let low := n.low * (unit * den)
  let high := n.high * (unit * den)
  if n.closed then low ≤ num * parts && num * parts ≤ high
  else low < num * parts && num * parts < high

def digitCount (n : Nat) : Nat := (Nat.toDigits 10 n).length

/-- The exponent of the leading digit of `num / den`, for positive arguments. -/
def leadingExponent (num den : Nat) : Int :=
  if den ≤ num then digitCount (num / den) - 1
  else -digitCount ((den + num - 1) / num - 1)

/-- The point of the grid `10 ^ exponent` that lies in the interval and is nearest
to the number, if one of the two neighbouring points does lie in it. -/
def nearestOnGrid (tie : Tie) (n : Neighbourhood) (exponent : Int) : Option Scientific :=
  let (unit, unitParts) := power 2 n.exponent
  let (grid, gridParts) := power 10 exponent
  let scale := unit * gridParts
  let step := grid * unitParts
  let floor := n.value * scale / step
  let inside (d : Nat) : Bool := n.contains (d * grid) gridParts
  let below := n.value * scale - floor * step
  let above := (floor + 1) * step - n.value * scale
  let preferBelow := below < above ||
    (below == above && tie == Tie.even && floor % 2 == 0)
  match inside floor, inside (floor + 1) with
  | true, true => some ⟨if preferBelow then floor else floor + 1, exponent⟩
  | true, false => some ⟨floor, exponent⟩
  | false, true => some ⟨floor + 1, exponent⟩
  | false, false => none

/-- Tries ever finer grids. -/
def coarsest (tie : Tie) (n : Neighbourhood) : Nat → Int → Scientific
  | 0, exponent => (nearestOnGrid tie n exponent).getD ⟨0, exponent⟩
  | finer + 1, exponent =>
    match nearestOnGrid tie n exponent with
    | some found => found
    | none => coarsest tie n finer (exponent - 1)

/-- Seventeen digits always tell a double apart from its neighbours. -/
def mostDigits : Nat := 17

/-- The fewest digits that read back as the magnitude of a finite number. The first
grid is one place above the leading digit, so that `99…9` can become `10…0` and no
result ends in a zero. -/
def shortest (tie : Tie) (x : Float) : Scientific :=
  let n := magnitude x
  if n.value = 0 then ⟨0, 0⟩
  else
    let (unit, unitParts) := power 2 n.exponent
    let lead := leadingExponent (n.value * unit) unitParts
    coarsest tie n mostDigits (lead + 1)

end CellTiming.Decimal
