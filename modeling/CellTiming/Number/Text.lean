import CellTiming.Number.Basic
import CellTiming.Decimal.Notation
import CellTiming.Decimal.Reading

/-! The text of a number. It is read as a real (`1.25`), a sized number (`8'hff`,
with an optional size) or plain decimal digits, and written back in its own base. -/
namespace CellTiming.Number

/-- The text before and after the first occurrence of a character. -/
def cutAt? (c : Char) (cs : List Char) : Option (List Char × List Char) :=
  match cs.dropWhile (· != c) with
  | [] => none
  | _ :: rest => some (cs.takeWhile (· != c), rest)

def isDigits (cs : List Char) : Bool := !cs.isEmpty && cs.all Char.isDigit

/-- An optional sign, digits, a point and digits. -/
def realOf? (cs : List Char) : Option Float :=
  let (negative, unsigned) := match cs with
    | '-' :: rest => (true, rest)
    | '+' :: rest => (false, rest)
    | _ => (false, cs)
  match cutAt? '.' unsigned with
  | some (whole, fraction) =>
    if isDigits whole && isDigits fraction then
      some (Decimal.ofDigits negative whole fraction 0)
    else none
  | none => none

/-- The size before the quote; an empty one stands for the default. -/
def sizeOf? (cs : List Char) : Option Nat :=
  if cs.isEmpty then some defaultWidth
  else if isDigits cs ∧ Decimal.natOfDigits cs ≤ greatestWidth then
    some (Decimal.natOfDigits cs)
  else none

/-- The bits charged for the digits must fit the width, and the value the integers. -/
def ofDigits? (width : Nat) (base : Base) (digits : List Char) : Option Number := do
  let values ← digits.mapM (digitValue? base.radix)
  let value := positionalValue base.radix values
  if values.isEmpty ∨ width < values.length * base.bitsPerDigit ∨ greatestInt < value then none
  else some ⟨width, base, .int value⟩

/-- Underscores between the digits of a sized number are skipped. -/
def integerOf? (cs : List Char) : Option Number :=
  match cutAt? '\'' cs with
  | some (size, letter :: digits) => do
    let width ← sizeOf? size
    let base ← Base.ofLetter? letter
    ofDigits? width base (digits.filter (· != '_'))
  | some (_, []) => none
  | none => ofDigits? defaultWidth .decimal cs

def ofChars? (cs : List Char) : Option Number :=
  match realOf? cs with
  | some value => some (ofReal value)
  | none => integerOf? cs

def ofString? (text : String) : Option Number := ofChars? text.toList

def malformedMessage (text : String) : String := s!"invalid number literal '{text}'"

/-- Plain when decimal and of the default width, otherwise with size and base letter. -/
def text (n : Number) : String :=
  match n.value with
  | .real value => Decimal.withFraction value
  | .int value =>
    if n.base = .decimal ∧ n.width = defaultWidth then toString value
    else
      let sign := if value < 0 then "-" else ""
      let digits := String.ofList (Nat.toDigits n.base.radix value.natAbs)
      s!"{n.width}'{n.base.letter}{sign}{digits}"

end CellTiming.Number
