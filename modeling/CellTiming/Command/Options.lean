import CellTiming.Liberty.Format

/-! What the command line asks for. -/
namespace CellTiming.Command

inductive ColorChoice
  | auto
  | always
  | never
deriving DecidableEq, Repr

namespace ColorChoice

def all : List ColorChoice := [auto, always, never]

def spelling : ColorChoice → String
  | auto => "auto"
  | always => "always"
  | never => "never"

def ofString? (text : String) : Option ColorChoice := all.find? (·.spelling == text)

end ColorChoice

/-- The form of the failures that a batch lists. -/
inductive ReportFormat
  | text
  | json
deriving DecidableEq, Repr

namespace ReportFormat

def all : List ReportFormat := [text, json]

def spelling : ReportFormat → String
  | text => "text"
  | json => "json"

def ofString? (text : String) : Option ReportFormat := all.find? (·.spelling == text)

end ReportFormat

/-- Options that every task takes. -/
structure GlobalOptions where
  quiet : Bool := false
  verbose : Bool := false
  color : ColorChoice := .auto
  /-- The file with the settings. -/
  config : Option String := none
deriving DecidableEq, Repr

structure ConvertOptions where
  input : String
  libraryName : String
  output : String
  print : Bool
  format : Option Liberty.Format
deriving DecidableEq, Repr

structure BatchOptions where
  fileList : String
  outdir : String
  strip : Option String
  write : Bool
  report : ReportFormat
deriving DecidableEq, Repr

inductive Task
  | convert (options : ConvertOptions)
  | batch (options : BatchOptions)
deriving DecidableEq, Repr

inductive Request
  | run (globals : GlobalOptions) (task : Task)
  | version
  | help
deriving DecidableEq, Repr

end CellTiming.Command
