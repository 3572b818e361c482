import CellTiming.Diagnostic.Basic
import CellTiming.Json.Value

/-! The JSON form of a diagnostic. -/
namespace CellTiming

def Severity.toJson : Severity → Json
  | note => .string "Note"
  | warning => .string "Warning"
  | error => .string "Error"

def DiagnosticCode.toJson (code : DiagnosticCode) : Json :=
  let category := match code.category with
    | .error => "Error"
    | .warning => "Warning"
  .object [("category", .string category), ("number", .int code.number)]

def Location.toJson (l : Location) : Json :=
  .object [("file", .ofOptionString l.file), ("module", .ofOptionString l.module),
    ("line", .ofOption (fun (line : Nat) => .int line) l.line)]

def Diagnostic.toJson (d : Diagnostic) : Json :=
  .object [("severity", d.severity.toJson), ("code", d.code.toJson),
    ("message", .string d.message), ("location", d.location.toJson),
    ("source_line", .ofOptionString d.sourceLine), ("notes", .ofStrings d.notes),
    ("help", .ofStrings d.help)]

end CellTiming
