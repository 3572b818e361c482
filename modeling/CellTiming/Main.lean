import CellTiming.Command.Run

/-! The command line program: its surroundings are the files and streams of the system. -/
namespace CellTiming

/-- The failure with a number of the system, which some calls give with a minus sign. -/
def FileError.ofCode (code : UInt32) (details : String) : FileError :=
  match min code.toNat (-code).toNat with
  | 2 => .notFound
  | 17 => .alreadyExists
  | 20 => .notDirectory
  | 21 => .isDirectory
  | 36 => .nameTooLong
  | number => .other s!"{details} (os error {number})"

def FileError.ofSystem (error : IO.Error) : FileError :=
  match error with
  | .noFileOrDirectory _ code details | .alreadyExists _ code details
  | .inappropriateType _ code details | .invalidArgument _ code details
  | .permissionDenied _ code details | .resourceExhausted _ code details
  | .noSuchThing _ code details | .resourceBusy code details => .ofCode code details
  | _ => .other (toString error)

namespace Command

private def guarded {α : Type} (action : IO α) : IO (Except FileError α) := do
  match ← action.toBaseIO with
  | .ok value => return .ok value
  | .error error => return .error (FileError.ofSystem error)

private def readText (path : String) : IO (Except FileError String) := do
  match ← guarded (IO.FS.readBinFile path) with
  | .error error => return .error error
  | .ok bytes =>
    match String.fromUTF8? bytes with
    | some text => return .ok text
    | none => return .error .notText

/-- Whether there is something at a path that can hold text. -/
private def isFilePath (path : String) : IO Bool := do
  match ← guarded (IO.FS.readBinFile path) with
  | .error .notFound | .error .notDirectory | .error .isDirectory => return false
  | _ => return true

instance : Host IO where
  read := readText
  isFile := isFilePath
  write path text := guarded (IO.FS.writeFile path text)
  makeDirectories path := guarded (IO.FS.createDirAll path)
  print := IO.print
  report := IO.eprint

end Command

end CellTiming

open CellTiming.Command in
def main (arguments : List String) : IO UInt32 := do
  let terminal := (← IO.getEnv "TERM").isSome
  let code ← execute terminal (Request.ofArguments? arguments)
  return code.toUInt32
