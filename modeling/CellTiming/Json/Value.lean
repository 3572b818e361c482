import CellTiming.Decimal.Notation

/-! JSON values whose fields keep their order, and their two written forms: compact,
and spread over lines with an indent of two. -/
namespace CellTiming

inductive Json
  | null
  | bool (value : Bool)
  | int (value : Int)
  | real (value : Float)
  | string (value : String)
  | array (items : List Json)
  | object (fields : List (String × Json))
deriving Inhabited

namespace Json

def ofOption {α : Type} (f : α → Json) : Option α → Json
  | some value => f value
  | none => null

def ofOptionString : Option String → Json := ofOption string

def ofStrings (items : List String) : Json := array (items.map string)

def hexDigit (n : Nat) : Char := Nat.digitChar n

def escape (c : Char) : List Char :=
  match c with
  | '"' => ['\\', '"']
  | '\\' => ['\\', '\\']
  | '\n' => ['\\', 'n']
  | '\r' => ['\\', 'r']
  | '\t' => ['\\', 't']
  | _ =>
    if c.toNat = 8 then ['\\', 'b']
    else if c.toNat = 12 then ['\\', 'f']
    else if c.toNat < 32 then
      ['\\', 'u', '0', '0', hexDigit (c.toNat / 16), hexDigit (c.toNat % 16)]
    else [c]

def quote (text : String) : String :=
  String.ofList ('"' :: text.toList.flatMap escape ++ ['"'])

mutual

def compact : Json → String
  | null => "null"
  | bool value => if value then "true" else "false"
  | int value => toString value
  | real value => Decimal.json value
  | string value => quote value
  | array items => "[" ++ ",".intercalate (compactItems items) ++ "]"
  | object fields => "\x7b" ++ ",".intercalate (compactFields fields) ++ "\x7d"

def compactItems : List Json → List String
  | [] => []
  | item :: items => compact item :: compactItems items

def compactFields : List (String × Json) → List String
  | [] => []
  | (key, value) :: fields => (quote key ++ ":" ++ compact value) :: compactFields fields

end

/-- Blanks that start a line at the given depth. -/
def margin (depth : Nat) : String := String.ofList (List.replicate (2 * depth) ' ')

def spread (depth : Nat) (opening closing : String) (lines : List String) : String :=
  if lines.isEmpty then opening ++ closing
  else opening ++ "\n" ++ ",\n".intercalate (lines.map (margin (depth + 1) ++ ·)) ++ "\n" ++
    margin depth ++ closing

mutual

def prettyAt : Nat → Json → String
  | depth, array items => spread depth "[" "]" (prettyItems (depth + 1) items)
  | depth, object fields => spread depth "\x7b" "\x7d" (prettyFields (depth + 1) fields)
  | _, null => "null"
  | _, bool value => if value then "true" else "false"
  | _, int value => toString value
  | _, real value => Decimal.json value
  | _, string value => quote value

def prettyItems : Nat → List Json → List String
  | _, [] => []
  | depth, item :: items => prettyAt depth item :: prettyItems depth items

def prettyFields : Nat → List (String × Json) → List String
  | _, [] => []
  | depth, (key, value) :: fields =>
    (quote key ++ ": " ++ prettyAt depth value) :: prettyFields depth fields

end

def pretty : Json → String := prettyAt 0

/-- The value of a field, the last one of that name. -/
def get? (key : String) : Json → Option Json
  | object fields => (fields.reverse.find? (·.1 == key)).map (·.2)
  | _ => none

end Json

end CellTiming
