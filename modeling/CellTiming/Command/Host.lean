import CellTiming.Files.Tree
import CellTiming.Settings

/-! What a task needs of its surroundings, and the loading of settings. Tasks are
written for any surroundings: those of the running program, or a file tree with the
texts printed so far. -/
namespace CellTiming.Command

class Host (m : Type → Type) where
  read : String → m (Except FileError String)
  isFile : String → m Bool
  write : String → String → m (Except FileError Unit)
  makeDirectories : String → m (Except FileError Unit)
  /-- Adds to the output. -/
  print : String → m Unit
  /-- Adds to the messages, which are kept apart from the output. -/
  report : String → m Unit

/-- A file tree and what has been printed and reported. -/
structure World where
  tree : FileTree
  printed : String := ""
  reported : String := ""

namespace World

def read (path : String) : StateM World (Except FileError String) := do
  return (← get).tree.read path

def isFile (path : String) : StateM World Bool := do return (← get).tree.isFile path

def write (path text : String) : StateM World (Except FileError Unit) := do
  match (← get).tree.write path text with
  | .ok tree =>
    modify fun world => { world with tree }
    return .ok ()
  | .error e => return .error e

def makeDirectories (path : String) : StateM World (Except FileError Unit) := do
  let (tree, result) := (← get).tree.makeDirectories path
  modify fun world => { world with tree }
  return result

def print (text : String) : StateM World Unit :=
  modify fun world => { world with printed := world.printed ++ text }

def report (text : String) : StateM World Unit :=
  modify fun world => { world with reported := world.reported ++ text }

instance : Host (StateM World) := { read, isFile, write, makeDirectories, print, report }

end World

/-- Why a task gives up. -/
inductive Abort
  | settingsUnreadable (error : FileError)
  | settings (error : SettingsError)
  | unreadable (path : String) (error : FileError)
  | invalidFileList (path : String)
  | unwritable (error : FileError)
deriving DecidableEq, Repr

namespace Abort

/-- What went wrong. -/
def lead : Abort → String
  | settingsUnreadable error => s!"failed to read configuration: {error.message}"
  | settings error => error.message?.getD "failed to parse configuration: "
  | unreadable path error => s!"failed to read {path}: {error.message}"
  | invalidFileList path => s!"invalid file list {path}: "
  | unwritable error => error.message

/-- What was expected of the contents of a file instead. -/
def detail? : Abort → Option String
  | settings .malformed => some "a TOML document with values of the right types was expected"
  | invalidFileList _ => some "an object with lists of file names was expected"
  | _ => none

def message (abort : Abort) : String := abort.lead ++ abort.detail?.getD ""

end Abort

/-- A task that can give up. -/
abbrev Attempt (m : Type → Type) (α : Type) := ExceptT Abort m α

variable {m : Type → Type} [Monad m] [Host m]

instance : Host (Attempt m) where
  read path := liftM (Host.read path : m _)
  isFile path := liftM (Host.isFile path : m _)
  write path text := liftM (Host.write path text : m _)
  makeDirectories path := liftM (Host.makeDirectories path : m _)
  print text := liftM (Host.print text : m _)
  report text := liftM (Host.report text : m _)

/-- The file with the settings unless another is named. -/
def settingsFile : String := "speclib.toml"

def readSettings (path : String) : Attempt m Settings := do
  match ← Host.read path with
  | .error error => throw (.settingsUnreadable error)
  | .ok text =>
    match Settings.ofString text with
    | .error error => throw (.settings error)
    | .ok settings => return settings

/-- A named file must be there; without one the usual file is read if there is one. -/
def loadSettings (config : Option String) : Attempt m Settings := do
  match config with
  | some path => readSettings path
  | none => if ← Host.isFile settingsFile then readSettings settingsFile else return {}

def readFile (path : String) : Attempt m String := do
  match ← Host.read path with
  | .error error => throw (.unreadable path error)
  | .ok text => return text

end CellTiming.Command
