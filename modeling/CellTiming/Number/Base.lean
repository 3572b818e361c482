/-! The base a number is written in. A digit is charged a fixed count of bits
against the declared width; decimal digits cost as much as hexadecimal ones. -/
namespace CellTiming.Number

inductive Base
  | binary
  | octal
  | hex
  | decimal
  | real
deriving DecidableEq, Repr

namespace Base

def all : List Base := [binary, octal, hex, decimal, real]

def name : Base → String
  | binary => "Binary"
  | octal => "Octal"
  | hex => "Hex"
  | decimal => "Decimal"
  | real => "Real"

def letter : Base → Char
  | binary => 'b'
  | octal => 'o'
  | hex => 'h'
  | decimal => 'd'
  | real => 'f'

/-- The base letter of a sized number, in either case. Reals have none. -/
def ofLetter? (c : Char) : Option Base :=
  [binary, octal, hex, decimal].find? fun base => base.letter == c.toLower

def radix : Base → Nat
  | binary => 2
  | octal => 8
  | hex => 16
  | decimal | real => 10

def bitsPerDigit : Base → Nat
  | binary => 1
  | octal => 3
  | hex | decimal | real => 4

end Base

/-- The value of a digit in the given radix, letters in either case. -/
def digitValue? (radix : Nat) (c : Char) : Option Nat :=
  let value? : Option Nat :=
    if '0' ≤ c ∧ c ≤ '9' then some (c.toNat - '0'.toNat)
    else if 'a' ≤ c.toLower ∧ c.toLower ≤ 'f' then some (c.toLower.toNat - 'a'.toNat + 10)
    else none
  value?.filter (· < radix)

/-- The value of a run of digits, most significant first. -/
def positionalValue (radix : Nat) (digits : List Nat) : Nat :=
  digits.foldl (fun n d => radix * n + d) 0

end CellTiming.Number
