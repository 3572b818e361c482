import CellTiming.Number.Text
import CellTiming.Rule
import CellTiming.Source.Error
import CellTiming.Token.Basic

/-! Rules over tokens. A failure blames the token it met. -/
namespace CellTiming

abbrev TokenRule := Rule Token SourceError

/-- The error for a token that fits nowhere, or for the end of the input. -/
def unexpectedAt : List Token → SourceError
  | [] => .unexpected 1 none
  | t :: _ => .unexpected t.line (if t.kind = .endOfInput then none else some t.text)

namespace TokenRule

def blame : TokenRule SourceError := Rule.ahead unexpectedAt

def unexpected {α : Type} : TokenRule α := Rule.failAt unexpectedAt

/-- The kind of the next token. -/
def kind : TokenRule Token.Kind := Rule.ahead fun
  | [] => .endOfInput
  | t :: _ => t.kind

/-- Takes the next token if it is of the given kind. -/
def take? (kind : Token.Kind) : TokenRule (Option Token) := Rule.takeIf (·.kind == kind)

/-- Takes the next token, which must be of the given kind. -/
def take (kind : Token.Kind) : TokenRule Token := do
  match ← take? kind with
  | some t => return t
  | none => unexpected

def eat (symbol : Symbol) : TokenRule Bool := do return (← take? (.symbol symbol)).isSome

def expect (symbol : Symbol) : TokenRule Unit := do let _ ← take (.symbol symbol)

def eatKeyword (keyword : Keyword) : TokenRule Bool := do
  return (← take? (.keyword keyword)).isSome

def name : TokenRule String := do return (← take .name).text

def numberOf (t : Token) : Except SourceError Number :=
  match Number.ofString? t.text with
  | some n => .ok n
  | none => .error (.malformedNumber t.line t.text)

def number : TokenRule Number := do
  match numberOf (← take .number) with
  | .ok n => return n
  | .error e => Rule.fail e

/-- Values that each follow a separator. -/
def following {α : Type} (separator : Symbol) (rule : TokenRule α) : TokenRule (List α) :=
  Rule.repeated (·.isSymbol separator) fun _ => rule

end TokenRule

end CellTiming
