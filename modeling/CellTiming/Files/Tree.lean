import CellTiming.Files.Error
import CellTiming.Files.Path

/-! A tree of directories and files without links, in which relative paths start at a
fixed directory. Every segment of a path but the last must lead to a directory. -/
namespace CellTiming

/-- The names on the way from the root. -/
abbrev FileTree.Place := List String

inductive FileEntry
  | directory
  /-- Contents that are no text are not kept. -/
  | file (text : Option String)
deriving DecidableEq, Repr

structure FileTree where
  entries : List (FileTree.Place × FileEntry) := []
  here : FileTree.Place := []

namespace FileTree

/-- What is at a place; at the root there is always a directory. -/
def entry? (tree : FileTree) (place : Place) : Option FileEntry :=
  if place.isEmpty then some .directory else tree.entries.lookup place

def put (tree : FileTree) (place : Place) (entry : FileEntry) : FileTree :=
  { tree with entries := (place, entry) :: tree.entries.filter (·.1 != place) }

/-- The longest name, in bytes. -/
def longestName : Nat := 255

/-- The longest path, in bytes. -/
def longestPath : Nat := 4095

def step (tree : FileTree) (place : Place) (segment : Files.Segment) :
    Except FileError Place :=
  match tree.entry? place with
  | none => .error .notFound
  | some (.file _) => .error .notDirectory
  | some .directory =>
    if Files.isIdle segment then .ok place
    else if Files.isUp segment then .ok place.dropLast
    else
      let name := String.ofList segment
      if longestName < name.utf8ByteSize then .error .nameTooLong else .ok (place ++ [name])

/-- The place that segments lead to; something need not be there. -/
def follow (tree : FileTree) (path : String) (segments : List Files.Segment) :
    Except FileError Place :=
  if path.isEmpty then .error .notFound
  else if path.toList.contains '\x00' then .error .nulInPath
  else if longestPath < path.utf8ByteSize then .error .nameTooLong
  else segments.foldlM tree.step (if Files.isAbsolute path then [] else tree.here)

/-- A path that ends in a slash leads through its last name, which must be a directory. -/
def locate (tree : FileTree) (path : String) : Except FileError Place :=
  tree.follow path (Files.segments path.toList)

/-- The place for a new entry, whether or not the path ends in slashes. -/
def locateNew (tree : FileTree) (path : String) : Except FileError Place :=
  tree.follow path ((Files.segments path.toList).reverse.dropWhile List.isEmpty).reverse

def find (tree : FileTree) (path : String) : Except FileError FileEntry := do
  match tree.entry? (← tree.locate path) with
  | some entry => .ok entry
  | none => .error .notFound

def read (tree : FileTree) (path : String) : Except FileError String := do
  match ← tree.find path with
  | .directory => .error .isDirectory
  | .file (some text) => .ok text
  | .file none => .error .notText

def isFile (tree : FileTree) (path : String) : Bool :=
  match tree.find path with
  | .ok (.file _) => true
  | _ => false

def isDirectory (tree : FileTree) (path : String) : Bool :=
  match tree.find path with
  | .ok .directory => true
  | _ => false

def write (tree : FileTree) (path text : String) : Except FileError FileTree := do
  let place ← tree.locateNew path
  if path.toList.getLast? = some '/' ∨ tree.entry? place = some .directory then
    .error .isDirectory
  else .ok (tree.put place (.file (some text)))

def makeDirectory (tree : FileTree) (path : String) : Except FileError FileTree := do
  let place ← tree.locateNew path
  match tree.entry? place with
  | some _ => .error .alreadyExists
  | none => .ok (tree.put place .directory)

/-- Makes the first of some paths, and for it those after it as far as needed. What has
been made before a failure stays. -/
def makeFrom (tree : FileTree) : List String → FileTree × Except FileError Unit
  | [] => (tree, .ok ())
  | path :: above =>
    if path.isEmpty then (tree, .ok ())
    else
      let retry (tree : FileTree) : FileTree × Except FileError Unit :=
        match tree.makeDirectory path with
        | .ok made => (made, .ok ())
        | .error e => (tree, if tree.isDirectory path then .ok () else .error e)
      match tree.makeDirectory path with
      | .error .notFound =>
        match tree.makeFrom above with
        | (made, .ok ()) => retry made
        | failed => failed
      | _ => retry tree

/-- Makes a directory and those above it that are missing. -/
def makeDirectories (tree : FileTree) (path : String) : FileTree × Except FileError Unit :=
  tree.makeFrom (path :: Files.parents path)

end FileTree

end CellTiming
