import CellTiming.Command.Convert
import CellTiming.Command.FileList
import CellTiming.Diagnostic.Json
import CellTiming.Files.Placement

/-! Reading every source file of a list. A file that fails does not keep the others
from being read; each is reported with one line, and the failures once more at the end. -/
namespace CellTiming.Command

structure Job where
  cell : String
  file : String
  /-- Where the library of the file goes. -/
  directory : String
deriving DecidableEq, Repr

/-- The jobs of a list, in its order. -/
def FileList.jobs (list : FileList) (outdir : String) (strip : Option String) : List Job :=
  list.flatMap fun (cell, files) => files.map fun file =>
    { cell, file, directory := Files.outputDirectory outdir cell file strip }

/-- The path of the library of a job. -/
def Job.target (job : Job) (format : Liberty.Format) : String :=
  let stem := (Files.stem? job.file).getD job.cell
  Files.join job.directory s!"{stem}.{format.fileExtension}"

inductive JobFailure
  | source (failure : Source.Failure)
  | unreadable (file : String) (error : FileError)
  | unwritable (target : String) (error : FileError)
deriving DecidableEq, Repr

namespace JobFailure

def kindName : JobFailure → String
  | source failure => failure.kind.name
  | unreadable .. | unwritable .. => "IoError"

/-- The number of the diagnostic code for files that cannot be read or written. -/
def fileCode : Nat := 100

def ofFile (message file : String) : Diagnostic where
  severity := .error
  code := ⟨.error, fileCode⟩
  message := message
  location := { file := some file }

def diagnostic (file : String) : JobFailure → Diagnostic
  | source failure => failure.diagnostic (some file)
  | unreadable path error => ofFile s!"failed to read {path}: {error.message}" file
  | unwritable path error => ofFile s!"failed to write {path}: {error.message}" file

end JobFailure

variable {m : Type → Type} [Monad m] [Host m]

def writeJob (settings : Settings) (job : Job) (library : Liberty.Library) :
    m (Except JobFailure Unit) := do
  let target := job.target settings.format
  match ← Host.makeDirectories job.directory with
  | .error error => return .error (.unwritable target error)
  | .ok () =>
    match ← Host.write target (library.contents settings.format settings.indent) with
    | .error error => return .error (.unwritable target error)
    | .ok () => return .ok ()

/-- Reads the file of a job and, where asked to, writes its library if it has timing. -/
def Job.run (settings : Settings) (write : Bool) (job : Job) : m (Except JobFailure Unit) := do
  match ← Host.read job.file with
  | .error error => return .error (.unreadable job.file error)
  | .ok text =>
    match Source.modules settings.macros text with
    | .error failure => return .error (.source failure)
    | .ok modules =>
      match if write then Liberty.libraryOf? job.cell modules else none with
      | some library => writeJob settings job library
      | none => return .ok ()

/-- The line about a job, whose number starts at one. -/
def progressLine (color : Bool) (number total failed : Nat) (job : Job)
    (outcome : Except JobFailure Unit) : String :=
  let count := Text.zeroPadded 5
  let (attributes, status) := match outcome with
    | .ok () => ("32", "DONE")
    | .error failure => ("31", s!"ERROR : {failure.kindName}")
  let shown := if color then painted attributes status else status
  s!"[{count number}/{count total},failed={count failed}] {job.cell} : {job.file} | {shown}\n"

/-- Runs the jobs one after the other, with the number of the next one and how many
have failed before it. The failures are returned with their jobs. -/
def runJobs (manner : Manner) (settings : Settings) (write : Bool) (total : Nat)
    (number failed : Nat) : List Job → m (List (Job × JobFailure))
  | [] => return []
  | job :: jobs => do
    let outcome ← job.run settings write
    if !manner.quiet then
      Host.report (progressLine manner.color number total failed job outcome)
    match outcome with
    | .ok () => runJobs manner settings write total (number + 1) failed jobs
    | .error failure =>
      return (job, failure) :: (← runJobs manner settings write total (number + 1) (failed + 1) jobs)

/-- The number of failures, and their kinds in alphabetical order. -/
def summary (total : Nat) (failures : List JobFailure) : String :=
  let kinds := (failures.map JobFailure.kindName).eraseDups.mergeSort
  s!"{failures.length} out of {total} failed\n" ++
    if kinds.isEmpty then "" else "Error types: " ++ ", ".intercalate kinds ++ "\n"

/-- Runs every job of a file list and returns the exit code. -/
def batch (manner : Manner) (config : Option String) (options : BatchOptions) :
    Attempt m Nat := do
  let settings ← loadSettings config
  match FileList.ofString? (← readFile options.fileList) with
  | none => throw (.invalidFileList options.fileList)
  | some list =>
    let jobs := list.jobs options.outdir options.strip
    let failures ← (runJobs manner settings options.write jobs.length 1 0 jobs : m _)
    let diagnostics := failures.map fun (job, failure) => failure.diagnostic job.file
    match options.report with
    | .text =>
      if manner.verbose then
        Host.report (String.join (diagnostics.map (·.text manner.color)))
    | .json =>
      Host.print ((Json.array (diagnostics.map Diagnostic.toJson)).pretty ++ "\n")
    if !manner.quiet then
      Host.report (summary jobs.length (failures.map (·.2)))
    return if failures.isEmpty then 0 else 1

end CellTiming.Command
