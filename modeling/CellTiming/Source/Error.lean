/-! What can be wrong with a source text. Each error names its line, counted from one
in the text of the stage that found it, and is fatal for the module it occurs in. -/
namespace CellTiming

inductive SourceError
  | structural (line : Nat) (text : String)
  | malformedNumber (line : Nat) (literal : String)
  | illegalCharacter (line : Nat) (character : Char)
  /-- A token outside the grammar; without one, the input ended too early. -/
  | unexpected (line : Nat) (token : Option String)
  | specparamRedefined (line : Nat) (name : String)
  | specparamUndeclared (line : Nat) (name : String)
  /-- An `ifnone` without an earlier conditioned path between its signals. -/
  | ifnoneUncovered (line : Nat)
deriving DecidableEq, Repr

inductive SourceError.Kind
  | structural
  | malformedNumber
  | illegalCharacter
  | unexpected
  | specparamRedefined
  | specparamUndeclared
  | ifnoneUncovered
deriving DecidableEq, Repr

namespace SourceError

def Kind.all : List Kind :=
  [.structural, .malformedNumber, .illegalCharacter, .unexpected, .specparamRedefined,
    .specparamUndeclared, .ifnoneUncovered]

def Kind.name : Kind → String
  | structural => "StructuralError"
  | malformedNumber => "InvalidNumberLiteral"
  | illegalCharacter => "TokenizeError"
  | unexpected => "SyntaxError"
  | specparamRedefined => "SpecparamRedefinition"
  | specparamUndeclared => "SpecparamNotDeclared"
  | ifnoneUncovered => "IfnoneError"

/-- The number of the kind's diagnostic code. -/
def Kind.code : Kind → Nat
  | structural => 101
  | malformedNumber => 102
  | illegalCharacter => 103
  | unexpected => 104
  | specparamRedefined => 105
  | specparamUndeclared => 106
  | ifnoneUncovered => 107

def kind : SourceError → Kind
  | structural .. => .structural
  | malformedNumber .. => .malformedNumber
  | illegalCharacter .. => .illegalCharacter
  | unexpected .. => .unexpected
  | specparamRedefined .. => .specparamRedefined
  | specparamUndeclared .. => .specparamUndeclared
  | ifnoneUncovered .. => .ifnoneUncovered

def line : SourceError → Nat
  | structural line _ | malformedNumber line _ | illegalCharacter line _ | unexpected line _
  | specparamRedefined line _ | specparamUndeclared line _ | ifnoneUncovered line => line

def message : SourceError → String
  | structural line text => s!"unexpected \"{text}\" at line {line}"
  | malformedNumber line literal => s!"invalid number {literal} at line {line}"
  | illegalCharacter line character => s!"illegal character '{character}' at line {line}"
  | unexpected line (some token) => s!"syntax error at \"{token}\" (line {line})"
  | unexpected line none => s!"syntax error at end of input (line {line})"
  | specparamRedefined line name => s!"specparam redefinition \"{name}\" at line {line}"
  | specparamUndeclared line name => s!"specparam \"{name}\" at line {line} is not declared"
  | ifnoneUncovered line =>
    s!"ifnone at line {line} has no conditioned path between the same ports"

end SourceError

end CellTiming
