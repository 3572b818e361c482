import CellTiming.Liberty.Json
import CellTiming.Liberty.Text

/-! The two formats of a library file. -/
namespace CellTiming.Liberty

inductive Format
  | liberty
  | json
deriving DecidableEq, Repr

namespace Format

def all : List Format := [liberty, json]

def spelling : Format → String
  | liberty => "liberty"
  | json => "json"

def ofString? (text : String) : Option Format := all.find? (·.spelling == text)

/-- The extension of files in this format. -/
def fileExtension : Format → String
  | liberty => "lib"
  | json => "json"

end Format

/-- The contents of a library file; only Liberty text takes an indent. -/
def Library.contents (format : Format) (indent : Nat) (library : Library) : String :=
  match format with
  | .liberty => library.text indent
  | .json => library.toJson.pretty

end CellTiming.Liberty
