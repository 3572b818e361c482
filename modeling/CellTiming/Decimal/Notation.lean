import CellTiming.Decimal.Shortest

/-! Written forms of floating point numbers: positional notation throughout, and
the form used inside JSON, which keeps a fraction and turns to an exponent for
very large and very small numbers. -/
namespace CellTiming.Decimal

def zeros (n : Nat) : String := String.ofList (List.replicate n '0')

/-- Digits with the point placed by the exponent, without any trailing point. -/
def positional (s : Scientific) : String :=
  let digits := Nat.toDigits 10 s.digits
  if 0 ≤ s.exponent then String.ofList digits ++ zeros s.exponent.toNat
  else
    let places := (-s.exponent).toNat
    if places < digits.length then
      String.ofList (digits.take (digits.length - places)) ++ "." ++
        String.ofList (digits.drop (digits.length - places))
    else "0." ++ zeros (places - digits.length) ++ String.ofList digits

def signed (x : Float) (text : String) : String :=
  if isNegative x then "-" ++ text else text

/-- Shortest digits in positional notation, a half going up: `1`, `0.1`, `-0`, `inf`. -/
def plain (x : Float) : String :=
  if x.isNaN then "NaN"
  else if x.isInf then signed x "inf"
  else signed x (positional (shortest .up x))

/-- An integral value below `10 ^ 16` keeps the fraction `.0`. -/
def withFraction (x : Float) : String :=
  if x.isFinite && isWhole x && x.abs < 1e16 then plain x ++ ".0" else plain x

/-- Positional for exponents `-5` to `15` of the leading digit and with an exponent
outside; a half goes to the even digit. There is no form for an infinity or a NaN. -/
def json (x : Float) : String :=
  if x.isFinite then
    let s := shortest .even x
    let digits := Nat.toDigits 10 s.digits
    let lead : Int := s.exponent + digits.length - 1
    signed x <|
      if -5 ≤ lead ∧ lead ≤ 15 then
        if 0 ≤ s.exponent then positional s ++ ".0" else positional s
      else
        let fraction := digits.drop 1
        let mark := if 0 ≤ lead then "e+" else "e-"
        String.ofList (digits.take 1) ++
          (if fraction.isEmpty then "" else "." ++ String.ofList fraction) ++
          mark ++ toString lead.natAbs
  else "null"

end CellTiming.Decimal
