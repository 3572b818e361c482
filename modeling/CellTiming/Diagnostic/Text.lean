import CellTiming.Diagnostic.Basic

/-! Diagnostics as text for a terminal: a header, the place, the source line behind a
gutter as wide as its number, then notes and help. -/
namespace CellTiming

namespace Severity

/-- The terminal attributes of a severity. -/
def attributes : Severity → String
  | error => "1;31"
  | warning => "1;33"
  | note => "1;36"

end Severity

/-- Text between a change of terminal attributes and their reset. -/
def painted (attributes text : String) : String := s!"\x1b[{attributes}m{text}\x1b[0m"

namespace Diagnostic

def header (color : Bool) (d : Diagnostic) : String :=
  let title := s!"{d.severity.name}[{d.code.text}]"
  let shown := if color then painted d.severity.attributes title else title
  s!"{shown}: {d.message}\n"

def place (d : Diagnostic) : String :=
  if d.location.isUnknown then "" else s!"  --> {d.location.text}\n"

def excerpt (d : Diagnostic) : String :=
  match d.sourceLine with
  | none => ""
  | some text =>
    let number := match d.location.line with
      | some line => toString line
      | none => ""
    let gutter := String.ofList (List.replicate number.length ' ')
    s!"{gutter} |\n{number} | {text}\n{gutter} |\n"

def text (color : Bool) (d : Diagnostic) : String :=
  header color d ++ place d ++ excerpt d ++
    String.join (d.notes.map fun note => s!"   = note: {note}\n") ++
    String.join (d.help.map fun help => s!"   = help: {help}\n")

end Diagnostic

end CellTiming
