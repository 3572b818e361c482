import CellTiming.Decimal.Reading
import CellTiming.Text.Rule
import CellTiming.Toml.Value

/-! The words of TOML that stand for numbers, booleans, dates and times. A word is
judged as a whole. -/
namespace CellTiming.Toml

private def takeSign (word : List Char) : Bool × List Char :=
  match word with
  | '+' :: rest => (false, rest)
  | '-' :: rest => (true, rest)
  | _ => (false, word)

/-- Digits, with single underscores only between two of them, less the underscores. -/
def ungrouped? (isDigit : Char → Bool) : List Char → Option (List Char)
  | [] => none
  | [c] => if isDigit c then some [c] else none
  | c :: '_' :: rest => if isDigit c then (c :: ·) <$> ungrouped? isDigit rest else none
  | c :: rest => if isDigit c then (c :: ·) <$> ungrouped? isDigit rest else none

/-- Decimal digits without a leading zero. -/
def wholeDigits? (word : List Char) : Option (List Char) := do
  let digits ← ungrouped? Char.isDigit word
  if digits.length > 1 && digits.head? == some '0' then none else some digits

private def natOfBase (base : Nat) (digits : List Char) : Nat :=
  digits.foldl (fun n c => base * n + (CharRule.hexValue? c).getD 0) 0

/-- Digits of one of the bases that are written behind a zero and a letter. -/
private def basedDigits? (base : Nat) (word : List Char) : Option Nat := do
  let isDigit (c : Char) : Bool := (CharRule.hexValue? c).any (· < base)
  return natOfBase base (← ungrouped? isDigit word)

def integer? (word : List Char) : Option Int := do
  let value : Int ← match word with
    | '0' :: 'x' :: rest => basedDigits? 16 rest
    | '0' :: 'o' :: rest => basedDigits? 8 rest
    | '0' :: 'b' :: rest => basedDigits? 2 rest
    | _ =>
      let (negative, rest) := takeSign word
      let digits ← wholeDigits? rest
      let magnitude : Int := Decimal.natOfDigits digits
      some (if negative then -magnitude else magnitude)
  if -Int.pow 2 63 ≤ value ∧ value < Int.pow 2 63 then some value else none

private def isDigitOrUnderscore (c : Char) : Bool := c.isDigit || c == '_'

private def exponent? : List Char → Option Int
  | e :: rest =>
    if e = 'e' ∨ e = 'E' then do
      let (negative, rest) := takeSign rest
      let magnitude : Int := Decimal.natOfDigits (← ungrouped? Char.isDigit rest)
      return if negative then -magnitude else magnitude
    else none
  | [] => none

/-- A fraction and exponent, of which one may be missing. -/
private def floatTail? (tail : List Char) : Option (List Char × Int) :=
  match tail with
  | '.' :: rest => do
    let fraction ← ungrouped? Char.isDigit (rest.takeWhile isDigitOrUnderscore)
    match rest.dropWhile isDigitOrUnderscore with
    | [] => return (fraction, 0)
    | written => return (fraction, ← exponent? written)
  | _ => do return ([], ← exponent? tail)

/-- A number too large for a float is refused above zero and an infinity below. -/
def float? (word : List Char) : Option Float :=
  let (negative, unsigned) := takeSign word
  if unsigned = ['i', 'n', 'f'] then some (if negative then -1 / 0 else 1 / 0)
  else if unsigned = ['n', 'a', 'n'] then some (if negative then -(0 / 0) else 0 / 0)
  else do
    let whole ← wholeDigits? (unsigned.takeWhile isDigitOrUnderscore)
    let (fraction, exponent) ← floatTail? (unsigned.dropWhile isDigitOrUnderscore)
    let value := Decimal.ofDigits negative whole fraction exponent
    if value == 1 / 0 then none else some value

private def twoDigits? (a b : Char) : Option Nat :=
  if a.isDigit && b.isDigit then some (Decimal.natOfDigits [a, b]) else none

def isLeapYear (year : Nat) : Bool := year % 4 = 0 && (year % 100 ≠ 0 || year % 400 = 0)

def daysIn (year month : Nat) : Nat :=
  if month = 2 then if isLeapYear year then 29 else 28
  else if month = 4 ∨ month = 6 ∨ month = 9 ∨ month = 11 then 30
  else 31

/-- What follows a date at the front of a text. -/
def afterDate? : List Char → Option (List Char)
  | a :: b :: c :: d :: '-' :: e :: f :: '-' :: g :: h :: rest => do
    let year := 100 * (← twoDigits? a b) + (← twoDigits? c d)
    let month ← twoDigits? e f
    let day ← twoDigits? g h
    if 1 ≤ month ∧ month ≤ 12 ∧ 1 ≤ day ∧ day ≤ daysIn year month then some rest else none
  | _ => none

/-- What follows the hours and minutes at the front of a text. -/
private def afterMinutes? : List Char → Option (List Char)
  | a :: b :: ':' :: c :: d :: rest => do
    let hour ← twoDigits? a b
    let minute ← twoDigits? c d
    if hour ≤ 23 ∧ minute ≤ 59 then some rest else none
  | _ => none

/-- What follows a time at the front of a text. A minute may have a second 60. -/
def afterTime? (text : List Char) : Option (List Char) := do
  match ← afterMinutes? text with
  | ':' :: a :: b :: rest =>
    if (← twoDigits? a b) ≤ 60 then
      match rest with
      | '.' :: c :: rest => if c.isDigit then some (rest.dropWhile Char.isDigit) else none
      | _ => some rest
    else none
  | _ => none

def isOffset (text : List Char) : Bool :=
  match text with
  | ['Z'] | ['z'] => true
  | '+' :: rest | '-' :: rest => afterMinutes? rest == some []
  | _ => false

/-- A date, a time, or a date and a time between which a letter or blank stands; the
last with an optional offset. -/
def isDateTime (text : List Char) : Bool :=
  match afterDate? text with
  | some [] => true
  | some (separator :: rest) =>
    (separator = 'T' || separator = 't' || separator = ' ') &&
      (afterTime? rest).any fun tail => tail.isEmpty || isOffset tail
  | none => afterTime? text == some []

/-- What a word stands for. -/
def ofWord? (word : List Char) : Option Toml :=
  if word = "true".toList then some (boolean true)
  else if word = "false".toList then some (boolean false)
  else if isDateTime word then some (dateTime (String.ofList word))
  else match integer? word with
    | some value => some (integer value)
    | none => (float? word).map float

end CellTiming.Toml
