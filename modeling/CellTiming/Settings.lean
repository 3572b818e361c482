import CellTiming.Liberty.Format
import CellTiming.Source.Extract
import CellTiming.Toml.Reader

/-! Settings, read from a TOML document: `extract.compat_macros`, `output.format` and
`output.indent`. What is not given keeps its default and unknown keys count for nothing. -/
namespace CellTiming

structure Settings where
  /-- The macros whose conditional text counts as unconditional. -/
  macros : List String := Source.defaultMacros
  format : Liberty.Format := .liberty
  indent : Nat := Liberty.defaultIndent
deriving DecidableEq, Repr

inductive SettingsError
  /-- The document is no TOML, or a value has the wrong type. -/
  | malformed
  | indentOutOfRange (indent : Nat)
  | invalidMacro (name : String)
deriving DecidableEq, Repr

namespace SettingsError

/-- What is wrong with a value; a malformed document is left to its reader. -/
def message? : SettingsError → Option String
  | malformed => none
  | indentOutOfRange indent =>
    some s!"validation error: output.indent must be between 1 and 8, got {indent}"
  | invalidMacro name =>
    some s!"validation error: extract.compat_macros contains an invalid macro name '{name}'"

end SettingsError

namespace Settings

/-- The value a section has under a key, or at a place if it is an array. A date counts
as a section without any. -/
def entry? (part : Option Toml) (place : Nat) (key : String) : Option (Option Toml) :=
  match part with
  | none | some (.dateTime _) => some none
  | some (.table _ fields) => some (Toml.Fields.get? fields key)
  | some value => value.elements?.map fun items => items[place]?

/-- A value, or the default where none is given. -/
def valueOr {α : Type} (default : α) (read : Toml → Option α) : Option Toml → Option α
  | none => some default
  | some value => read value

def string? : Toml → Option String
  | .string text => some text
  | _ => none

def strings? (value : Toml) : Option (List String) := value.elements?.bind (·.mapM string?)

def isVacant : Toml → Bool
  | .array items => items.isEmpty
  | .table _ fields => fields.isEmpty
  | _ => false

/-- A format by its name, which may also be the only key of a table and lead nowhere. -/
def format? : Toml → Option Liberty.Format
  | .string text => Liberty.Format.ofString? text
  | .table _ [(name, value)] => if isVacant value then Liberty.Format.ofString? name else none
  | _ => none

def nat? : Toml → Option Nat
  | .integer value => if 0 ≤ value then some value.toNat else none
  | _ => none

def ofFields? (fields : Toml.Fields) : Option Settings := do
  let extract := fields.get? "extract"
  let output := fields.get? "output"
  let defaults : Settings := {}
  return {
    macros := ← valueOr defaults.macros strings? (← entry? extract 0 "compat_macros")
    format := ← valueOr defaults.format format? (← entry? output 0 "format")
    indent := ← valueOr defaults.indent nat? (← entry? output 1 "indent") }

def isMacroName (name : String) : Bool := !name.isEmpty && !name.toList.any Text.isBlank

/-- The greatest indent. -/
def widestIndent : Nat := 8

/-- The first thing wrong with the values, the indent coming first. -/
def fault? (settings : Settings) : Option SettingsError :=
  if settings.indent = 0 ∨ widestIndent < settings.indent then
    some (.indentOutOfRange settings.indent)
  else (settings.macros.find? fun name => !isMacroName name).map .invalidMacro

def ofString (text : String) : Except SettingsError Settings :=
  match (Toml.fieldsOf? text).bind ofFields? with
  | none => .error .malformed
  | some settings =>
    match settings.fault? with
    | some error => .error error
    | none => .ok settings

end Settings

end CellTiming
