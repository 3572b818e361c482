import CellTiming.Json.Value
import CellTiming.Decimal.Reading
import CellTiming.Text.Rule

/-! Reading JSON. Only the four JSON blanks separate tokens, strings hold no raw
control characters and no lone halves of a surrogate pair, and nothing but blanks
may follow the value. -/
namespace CellTiming.Json

private def isBlank (c : Char) : Bool := c = ' ' || c = '\n' || c = '\r' || c = '\t'

private def skip : CharRule Unit := do let _ ← Rule.takeWhile isBlank

/-- The first and the second half of a surrogate pair. -/
private def isHighHalf (unit : Nat) : Bool := 0xd800 ≤ unit && unit < 0xdc00

private def isLowHalf (unit : Nat) : Bool := 0xdc00 ≤ unit && unit < 0xe000

/-- What follows `\u` in an escape. -/
private def codePoint : CharRule Char := do
  let first ← CharRule.hex 4
  if isHighHalf first then
    CharRule.literal ['\\', 'u']
    let second ← CharRule.hex 4
    if isLowHalf second then
      return Char.ofNat (0x10000 + (first - 0xd800) * 0x400 + (second - 0xdc00))
    else CharRule.fail
  else if isLowHalf first then CharRule.fail
  else return Char.ofNat first

/-- What follows the backslash of an escape. -/
private def escaped : CharRule Char := do
  match ← CharRule.next with
  | '"' => return '"'
  | '\\' => return '\\'
  | '/' => return '/'
  | 'b' => return Char.ofNat 8
  | 'f' => return Char.ofNat 12
  | 'n' => return '\n'
  | 'r' => return '\r'
  | 't' => return '\t'
  | 'u' => codePoint
  | _ => CharRule.fail

private def character (c : Char) : CharRule Char :=
  if c = '\\' then escaped
  else if c.toNat < 32 then CharRule.fail
  else return c

/-- What follows the opening quote of a string, through the closing one. -/
private def stringTail : CharRule String := do
  let text ← Rule.repeated (· != '"') character
  CharRule.expect '"'
  return String.ofList text

/-- The number that a text stands for: an integer part without leading zeros, then an
optional fraction and exponent. -/
private def numberOf? (text : List Char) : Option Json :=
  let (negative, unsigned) := match text with
    | '-' :: rest => (true, rest)
    | _ => (false, text)
  let whole := unsigned.takeWhile Char.isDigit
  let tail := unsigned.dropWhile Char.isDigit
  if whole.isEmpty || (whole.length > 1 && whole.head? == some '0') then none
  else if tail.isEmpty then
    let value : Int := Decimal.natOfDigits whole
    some (int (if negative then -value else value))
  else if tail.head? == some '.' && !((tail.drop 1).head?.any Char.isDigit) then none
  else (Decimal.read? (String.ofList text)).map real

private def isNumberChar (c : Char) : Bool :=
  c.isDigit || c = '-' || c = '+' || c = '.' || c = 'e' || c = 'E'

private def word (text : String) (value : Json) : CharRule Json := do
  CharRule.literal text.toList
  return value

private def scalar : CharRule Json := do
  match ← CharRule.peek? with
  | some '"' =>
    CharRule.expect '"'
    return string (← stringTail)
  | some 'n' => word "null" null
  | some 't' => word "true" (bool true)
  | some 'f' => word "false" (bool false)
  | _ =>
    match numberOf? (← Rule.takeWhile isNumberChar) with
    | some value => return value
    | none => CharRule.fail

/-- Items separated by commas, through the closing bracket. -/
private def items {α : Type} (closing : Char) (item : CharRule α) : CharRule (List α) := do
  let spaced : CharRule α := do
    skip
    let value ← item
    skip
    return value
  skip
  if ← CharRule.eat closing then return []
  else
    let first ← spaced
    let others ← Rule.repeated (· == ',') fun _ => spaced
    CharRule.expect closing
    return first :: others

private def field (value : CharRule Json) : CharRule (String × Json) := do
  CharRule.expect '"'
  let key ← stringTail
  skip
  CharRule.expect ':'
  skip
  return (key, ← value)

/-- A value with arrays and objects at most the given depth inside each other. -/
private def value : Nat → CharRule Json
  | 0 => scalar
  | depth + 1 => do
    if ← CharRule.eat '[' then return array (← items ']' (value depth))
    else if ← CharRule.eat '\x7b' then return object (← items '\x7d' (field (value depth)))
    else scalar

/-- Values nested deeper than this are refused. -/
def deepest : Nat := 127

def ofString? (text : String) : Option Json :=
  CharRule.read? (do skip; let value ← value deepest; skip; return value) text

end CellTiming.Json
