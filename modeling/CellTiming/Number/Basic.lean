import CellTiming.Number.Base

/-! Numbers of the timing language: a width, the base they were written in and a
value, which is a 128 bit integer or a real. Arithmetic keeps the left operand's
width and base, saturates at the ends of the integer range, and turns to reals as
soon as one operand is real. -/
namespace CellTiming

inductive Number.Value
  | int (value : Int)
  | real (value : Float)

structure Number where
  width : Nat
  base : Number.Base
  value : Number.Value

namespace Number

/-- The width of a number that states none. -/
def defaultWidth : Nat := 32

def greatestWidth : Nat := Nat.pow 2 32 - 1

def leastInt : Int := -Int.pow 2 127

def greatestInt : Int := Int.pow 2 127 - 1

def saturate (value : Int) : Int := max leastInt (min greatestInt value)

def ofInt (value : Int) : Number := ⟨defaultWidth, .decimal, .int value⟩

def ofReal (value : Float) : Number := ⟨defaultWidth, .real, .real value⟩

def isReal (n : Number) : Bool :=
  match n.value with
  | .int _ => false
  | .real _ => true

/-- The nearest floating point number. -/
def toFloat (n : Number) : Float :=
  match n.value with
  | .int value => Float.ofInt value
  | .real value => value

def combine (onInt : Int → Int → Int) (onReal : Float → Float → Float)
    (left right : Number) : Number :=
  match left.value, right.value with
  | .int a, .int b => { left with value := .int (saturate (onInt a b)) }
  | _, _ => ofReal (onReal left.toFloat right.toFloat)

def add : Number → Number → Number := combine (· + ·) (· + ·)

def sub : Number → Number → Number := combine (· - ·) (· - ·)

def neg (n : Number) : Number :=
  match n.value with
  | .int value => { n with value := .int (saturate (-value)) }
  | .real value => ofReal (-value)

instance : Add Number := ⟨add⟩

instance : Sub Number := ⟨sub⟩

instance : Neg Number := ⟨neg⟩

end Number

end CellTiming
