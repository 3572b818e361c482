import CellTiming.Command.Arguments
import CellTiming.Command.Batch

/-! Running what the command line asks for. -/
namespace CellTiming.Command

def versionText : String := "speclib 0.1.0\n"

def usageText : String :=
  "Verilog specify block to Liberty converter\n\n" ++
  "Usage: speclib [OPTIONS] convert [--print] [-f liberty|json] INPUT LIBRARY_NAME OUTPUT\n" ++
  "       speclib [OPTIONS] batch [--path-prefix-to-remove TEXT] [--write]\n" ++
  "                               [-f text|json] FILELIST OUTDIR\n\n" ++
  "Options: -q, --quiet; -v, --verbose; --color auto|always|never; --config FILE;\n" ++
  "         -h, --help; -V, --version\n"

/-- The exit code for arguments that cannot be understood. -/
def misuseCode : Nat := 2

/-- The choice `auto` colors where there is a terminal. -/
def ColorChoice.resolve (terminal : Bool) : ColorChoice → Bool
  | auto => terminal
  | always => true
  | never => false

def GlobalOptions.manner (terminal : Bool) (globals : GlobalOptions) : Manner where
  quiet := globals.quiet
  verbose := globals.verbose
  color := globals.color.resolve terminal

variable {m : Type → Type} [Monad m] [Host m]

/-- Runs a task up to its exit code or to where it gives up. -/
def Task.attempt (terminal : Bool) (globals : GlobalOptions) : Task → Attempt m Nat
  | convert options => Command.convert (globals.manner terminal) globals.config options
  | batch options => Command.batch (globals.manner terminal) globals.config options

/-- Runs a task and reports why it gave up, if it did. -/
def Task.run (terminal : Bool) (globals : GlobalOptions) (task : Task) : m Nat := do
  match ← (task.attempt terminal globals).run with
  | .ok code => return code
  | .error abort =>
    Host.report s!"error: {abort.message}\n"
    return 1

/-- Runs a request; without one the arguments could not be understood. -/
def execute (terminal : Bool) : Option Request → m Nat
  | some (.run globals task) => task.run terminal globals
  | some .version => do
    Host.print versionText
    return 0
  | some .help => do
    Host.print usageText
    return 0
  | none => do
    Host.report usageText
    return misuseCode

end CellTiming.Command
