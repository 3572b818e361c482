import CellTiming.Json.Reader

/-! File lists: an object that gives each cell a list of source files. -/
namespace CellTiming.Command

/-- Cells in the order of their first occurrence, with their files. -/
abbrev FileList := List (String × List String)

namespace FileList

/-- Gives a cell its files. One that is there already keeps its position. -/
def insert (cell : String) (files : List String) : FileList → FileList
  | [] => [(cell, files)]
  | (known, listed) :: others =>
    if known = cell then (known, files) :: others
    else (known, listed) :: insert cell files others

def string? : Json → Option String
  | .string text => some text
  | _ => none

def strings? : Json → Option (List String)
  | .array items => items.mapM string?
  | _ => none

def ofJson? : Json → Option FileList
  | .object fields => do
    let listed ← fields.mapM fun (cell, files) => do return (cell, ← strings? files)
    return listed.foldl (fun list (cell, files) => list.insert cell files) []
  | _ => none

def ofString? (text : String) : Option FileList := (Json.ofString? text).bind ofJson?

end FileList

end CellTiming.Command
