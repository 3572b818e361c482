import CellTiming.Decimal.Shortest

/-! Reading decimal text as the nearest floating point number, ties to even. -/
namespace CellTiming.Decimal

/-- The bits of the magnitude above all finite ones. -/
def infinityBits : Nat := 2047 * Nat.pow 2 52

/-- The number of a magnitude. -/
def ofMagnitude (negative : Bool) (bits : Nat) : Float :=
  Float.ofBits (UInt64.ofNat (if negative then Nat.pow 2 63 + bits else bits))

/-- A half goes to the even number. -/
def nearestWhole (num den : Nat) : Nat :=
  let floor := num / den
  let rest := 2 * (num % den)
  if rest < den ∨ rest = den ∧ floor % 2 = 0 then floor else floor + 1

/-- The number nearest to `num / den`. The bits of a magnitude count the magnitudes
below it, so that a mantissa that is rounded up carries into the exponent. -/
def nearest (negative : Bool) (num den : Nat) : Float :=
  let scaled := num * Nat.pow 2 finestPlace
  let shift := (scaled / den).log2 - 52
  let mantissa := nearestWhole scaled (den * Nat.pow 2 shift)
  ofMagnitude negative (min infinityBits (shift * Nat.pow 2 52 + mantissa))

def natOfDigits (cs : List Char) : Nat :=
  cs.foldl (fun n c => 10 * n + (c.toNat - '0'.toNat)) 0

/-- Beyond this distance of the leading digit from the point every number is an
infinity or a zero. -/
def farthestPoint : Int := 400

/-- `whole.fraction * 10 ^ exponent` for decimal digits, rounded once. -/
def ofDigits (negative : Bool) (whole fraction : List Char) (exponent : Int) : Float :=
  let digits := natOfDigits (whole ++ fraction)
  let places : Int := exponent - fraction.length
  let lead : Int := (Nat.toDigits 10 digits).length + places
  if digits = 0 ∨ lead < -farthestPoint then ofMagnitude negative 0
  else if farthestPoint < lead then ofMagnitude negative infinityBits
  else
    let (scale, parts) := power 10 places
    nearest negative (digits * scale) parts

def takeSign : List Char → Bool × List Char
  | '-' :: rest => (true, rest)
  | '+' :: rest => (false, rest)
  | cs => (false, cs)

def exponentOf? : List Char → Option Int
  | [] => some 0
  | e :: rest =>
    let (negative, digits) := takeSign rest
    if (e = 'e' ∨ e = 'E') ∧ digits ≠ [] ∧ digits.all Char.isDigit then
      some (if negative then -natOfDigits digits else natOfDigits digits)
    else none

/-- An optional sign, then `inf`, `NaN` or digits with an optional point and exponent. -/
def read? (text : String) : Option Float :=
  let (negative, cs) := takeSign text.toList
  let signed (x : Float) : Float := if negative then -x else x
  match String.ofList (cs.map Char.toLower) with
  | "inf" | "infinity" => some (signed (1 / 0))
  | "nan" => some (signed (0 / 0))
  | _ =>
    let whole := cs.takeWhile Char.isDigit
    let afterWhole := cs.dropWhile Char.isDigit
    let (fraction, tail) := match afterWhole with
      | '.' :: rest => (rest.takeWhile Char.isDigit, rest.dropWhile Char.isDigit)
      | rest => ([], rest)
    if whole.isEmpty && fraction.isEmpty then none
    else (exponentOf? tail).map (ofDigits negative whole fraction)

end CellTiming.Decimal
