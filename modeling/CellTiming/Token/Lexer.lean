import CellTiming.Number.Text
import CellTiming.Source.Error
import CellTiming.Token.Basic

/-! Cutting the text of a block into tokens. A lexeme is recognised at the front of
the text by its kind and the count of characters after its first, so what it takes
and what it leaves always make up the whole. Spaces, tabs and carriage returns are
skipped, line feeds counted. -/
namespace CellTiming.Token

structure Lexeme where
  kind : Kind
  more : Nat
deriving DecidableEq, Repr

inductive Flaw
  | illegalCharacter
  | malformedNumber (length : Nat)
deriving DecidableEq, Repr

def isNameStart (c : Char) : Bool := c.isAlpha || c == '_'

def isNameChar (c : Char) : Bool := c.isAlphanum || c == '_' || c == '$'

def isBasedDigit (c : Char) : Bool := (Number.digitValue? 16 c).isSome || c == '_'

/-- The length of a bit select such as `[3]` at the front, zero if there is none. -/
def bitSelectLength : List Char → Nat
  | '[' :: cs =>
    let digits := (cs.takeWhile Char.isDigit).length
    if digits ≠ 0 ∧ (cs.drop digits).head? = some ']' then digits + 2 else 0
  | _ => 0

/-- A keyword, or a name with at most one bit select. -/
def word (c : Char) (cs : List Char) : Lexeme :=
  let tail := cs.takeWhile isNameChar
  match Keyword.ofString? (String.ofList (c :: tail)) with
  | some keyword => ⟨.keyword keyword, tail.length⟩
  | none => ⟨.name, tail.length + bitSelectLength (cs.drop tail.length)⟩

/-- The lower case letters after a dollar sign name a timing check. -/
def task (cs : List Char) : Except Flaw Lexeme :=
  let tail := cs.takeWhile Char.isLower
  match CheckTask.ofString? (String.ofList tail) with
  | some task => .ok ⟨.task task, tail.length⟩
  | none => .error .illegalCharacter

/-- The length of `digits.digits` at the front. -/
def realLength? (cs : List Char) : Option Nat :=
  let whole := (cs.takeWhile Char.isDigit).length
  match cs.drop whole with
  | '.' :: rest =>
    let fraction := (rest.takeWhile Char.isDigit).length
    if whole ≠ 0 ∧ fraction ≠ 0 then some (whole + 1 + fraction) else none
  | _ => none

/-- The length of a quote, a base letter and at least one digit at the front. -/
def basedLength? : List Char → Option Nat
  | '\'' :: letter :: cs =>
    let digits := (cs.takeWhile isBasedDigit).length
    if (Number.Base.ofLetter? letter).isSome ∧ digits ≠ 0 then some (digits + 2) else none
  | _ => none

def unsignedLength (cs : List Char) : Nat :=
  match realLength? cs with
  | some length => length
  | none =>
    let size := (cs.takeWhile Char.isDigit).length
    size + (basedLength? (cs.drop size)).getD 0

/-- A number of the given length, which must be well formed. -/
def number (cs : List Char) (length : Nat) : Except Flaw Lexeme :=
  if (Number.ofChars? (cs.take length)).isSome then .ok ⟨.number, length - 1⟩
  else .error (.malformedNumber length)

/-- A string ends at the next double quote of its line. -/
def string (cs : List Char) : Except Flaw Lexeme :=
  let body := (cs.takeWhile fun c => c != '"' && c != '\n').length
  if (cs.drop body).head? = some '"' then .ok ⟨.string, body + 1⟩
  else .error .illegalCharacter

/-- A sign starts a real number only where an operand may start. -/
def lexeme (operandMayStart : Bool) (c : Char) (cs : List Char) : Except Flaw Lexeme :=
  if isNameStart c then .ok (word c cs)
  else if c = '$' then task cs
  else if c.isDigit ∨ (basedLength? (c :: cs)).isSome then
    number (c :: cs) (unsignedLength (c :: cs))
  else if (c = '+' ∨ c = '-') ∧ operandMayStart ∧ (realLength? cs).isSome then
    number (c :: cs) (1 + unsignedLength cs)
  else if c = '"' then string cs
  else match Symbol.atFront? (c :: cs) with
    | some symbol => .ok ⟨.symbol symbol, symbol.spelling.length - 1⟩
    | none => .error .illegalCharacter

def Flaw.toError (line : Nat) (c : Char) (cs : List Char) : Flaw → SourceError
  | illegalCharacter => .illegalCharacter line c
  | malformedNumber length => .malformedNumber line (String.ofList ((c :: cs).take length))

/-- The tokens of the rest of a text, from a given line and byte offset on. -/
def tokensFrom (line start : Nat) (operandMayStart : Bool) (text : List Char) :
    Except SourceError (List Token) :=
  match text with
  | [] => .ok [⟨.endOfInput, "", line, start⟩]
  | c :: cs =>
    if c = '\n' then tokensFrom (line + 1) (start + 1) operandMayStart cs
    else if c = ' ' ∨ c = '\t' ∨ c = '\r' then tokensFrom line (start + 1) operandMayStart cs
    else match lexeme operandMayStart c cs with
      | .error flaw => .error (flaw.toError line c cs)
      | .ok ⟨kind, more⟩ =>
        let token : Token := ⟨kind, String.ofList (c :: cs.take more), line, start⟩
        (tokensFrom line token.stop (!kind.endsOperand) (cs.drop more)).map (token :: ·)
termination_by text.length
decreasing_by all_goals (simp only [List.length_drop, List.length_cons]; omega)

/-- The tokens of a text, the last one marking its end. -/
def ofString (text : String) : Except SourceError (List Token) :=
  tokensFrom 1 0 true text.toList

end CellTiming.Token
