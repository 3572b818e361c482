import CellTiming.Text.Search

/-! Paths as texts. A path is a head, which is a slash, a leading dot or nothing, and
segments between slashes. An empty segment and a dot lead nowhere. -/
namespace CellTiming.Files

abbrev Segment := List Char

def isIdle (segment : Segment) : Bool := segment.isEmpty || segment == ['.']

def isUp (segment : Segment) : Bool := segment == ['.', '.']

/-- The head of a path and the text after it. -/
def splitHead : List Char → List Char × List Char
  | '/' :: rest => (['/'], rest)
  | '.' :: '/' :: rest => (['.'], '/' :: rest)
  | ['.'] => (['.'], [])
  | path => ([], path)

def segments (text : List Char) : List Segment := Text.pieces '/' text

def ofSegments (head : List Char) (segments : List Segment) : String :=
  String.ofList (head ++ ['/'].intercalate segments)

/-- The paths above the last of the segments, which are given from the last to the first. -/
def above (head : List Char) : List Segment → List String
  | [] => if head = ['.'] then [""] else []
  | segment :: others =>
    if isIdle segment then above head others
    else ofSegments head (others.dropWhile isIdle).reverse :: above head others

/-- The paths of the directories above a path, the nearest first. -/
def parents (path : String) : List String :=
  let (head, body) := splitHead path.toList
  above head (segments body).reverse

/-- The path less its last segment that leads anywhere. -/
def parent? (path : String) : Option String := (parents path).head?

/-- The names on a path, without the steps up. -/
def names (path : String) : List String :=
  ((segments path.toList).filter fun s => !isIdle s && !isUp s).map String.ofList

/-- The name at the end of a path. -/
def fileName? (path : String) : Option Segment :=
  match (segments (splitHead path.toList).2).reverse.dropWhile isIdle with
  | [] => none
  | last :: _ => if isUp last then none else some last

/-- The name at the end of a path, less what follows its last dot unless that dot comes
first. -/
def stem? (path : String) : Option String :=
  (fileName? path).map fun name =>
    match (name.reverse.dropWhile (· ≠ '.')).drop 1 with
    | [] => String.ofList name
    | before => String.ofList before.reverse

def isAbsolute (path : String) : Bool := path.toList.head? == some '/'

/-- A path below another one. An absolute path stays as it is. -/
def join (base path : String) : String :=
  if isAbsolute path then path
  else if base.isEmpty || base.toList.getLast? == some '/' then base ++ path
  else base ++ "/" ++ path

end CellTiming.Files
