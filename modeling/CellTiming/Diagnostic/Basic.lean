import CellTiming.Source.Modules
import CellTiming.Text.Padding

/-! Diagnostics: a message with a severity, a code and, where known, a place. -/
namespace CellTiming

inductive Severity
  | note
  | warning
  | error
deriving DecidableEq, Repr

namespace Severity

def all : List Severity := [note, warning, error]

def name : Severity → String
  | note => "note"
  | warning => "warning"
  | error => "error"

def rank : Severity → Nat
  | note => 0
  | warning => 1
  | error => 2

def isError (s : Severity) : Bool := s == error

end Severity

inductive Category
  | error
  | warning
deriving DecidableEq, Repr

def Category.letter : Category → String
  | error => "E"
  | warning => "W"

structure DiagnosticCode where
  category : Category
  number : Nat
deriving DecidableEq, Repr

/-- A code has at least three digits. -/
def DiagnosticCode.text (code : DiagnosticCode) : String :=
  code.category.letter ++ Text.zeroPadded 3 code.number

structure Location where
  file : Option String := none
  module : Option String := none
  line : Option Nat := none
deriving DecidableEq, Repr

namespace Location

def isUnknown (l : Location) : Bool := l.file.isNone && l.module.isNone && l.line.isNone

def text (l : Location) : String :=
  let place := match l.file, l.line with
    | some file, some line => s!"{file}:{line}"
    | some file, none => file
    | none, some line => s!"line {line}"
    | none, none => ""
  match l.module with
  | none => place
  | some module =>
    let blank := if l.file.isSome || l.line.isSome then " " else ""
    s!"{place}{blank}(module {module})"

end Location

structure Diagnostic where
  severity : Severity
  code : DiagnosticCode
  message : String
  location : Location := {}
  sourceLine : Option String := none
  notes : List String := []
  help : List String := []
deriving DecidableEq, Repr

/-- What to do about an error, where there is advice to give. -/
def SourceError.Kind.advice : SourceError.Kind → List String
  | .ifnoneUncovered =>
    ["declare an `if (...)` path with the same ports before the `ifnone`"]
  | _ => []

def Source.Failure.diagnostic (f : Failure) (file : Option String) : Diagnostic where
  severity := .error
  code := ⟨.error, f.kind.code⟩
  message := f.error.message
  location := { file, module := f.module, line := f.line }
  sourceLine := f.text
  help := f.kind.advice

end CellTiming
