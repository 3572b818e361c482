import CellTiming.Command.Host
import CellTiming.Command.Options
import CellTiming.Diagnostic.Text
import CellTiming.Liberty.Mapping
import CellTiming.Text.Padding
import CellTiming.Timing.Json

/-! Converting one source file to one library. The output is written only when every
module of the source is read and there is timing in it. -/
namespace CellTiming.Command

/-- How to talk to the user. -/
structure Manner where
  quiet : Bool
  verbose : Bool
  color : Bool

def line (text : String) : String := text ++ "\n"

def rule : String := line "-------------------"

/-- The cleaned source between two rules. -/
def printedSource (text : String) : String :=
  rule ++ line ("\n".intercalate (Source.cleanLines text)) ++ rule

def jsonLines {α : Type} (toJson : α → Json) (items : List α) : String :=
  String.join (items.map fun item => line (toJson item).compact)

/-- All that was read from a module, section by section. -/
def printedModule (module : Source.NamedTiming) : String :=
  let timing := module.timing
  rule ++ line s!"Module: {module.name}" ++
  rule ++ line "Specparams" ++
  String.join (timing.specparams.map fun (name, value) => line s!"{name} = {value.text}") ++
  rule ++ line "Constraint checks" ++ jsonLines TimingCheck.toJson timing.checks ++
  rule ++ line "Path delays" ++ jsonLines Path.toJson timing.paths ++
  rule ++ line "Conditioned path delays" ++ jsonLines Path.toJson timing.conditioned.paths

/-- The gathered lines of a module, numbered as its errors count them. -/
def numberedLines (macros : List String) (text module : String) : String :=
  match Source.blocks macros text with
  | .error _ => ""
  | .ok blocks =>
    String.join <| (blocks.filter (·.module == module)).map fun block =>
      String.join <| (block.lines.zipIdx 1).map fun (gathered, number) =>
        line s!"{Text.zeroPadded 6 number}: {gathered.text}"

variable {m : Type → Type} [Monad m] [Host m]

def note (manner : Manner) (text : String) : m Unit :=
  if manner.quiet then return () else Host.report (line text)

def reportFailure (manner : Manner) (settings : Settings) (input text : String)
    (failure : Source.Failure) : m Unit := do
  Host.report ((failure.diagnostic (some input)).text manner.color)
  if manner.verbose then
    match failure.module with
    | some module => Host.report (numberedLines settings.macros text module)
    | none => return ()

def writeLibrary (manner : Manner) (settings : Settings) (options : ConvertOptions)
    (library : Liberty.Library) : Attempt m Unit := do
  let contents := library.contents (options.format.getD settings.format) settings.indent
  match ← Host.write options.output contents with
  | .error error => throw (.unwritable error)
  | .ok () =>
    note manner s!"   Wrote {library.cells.length} cell(s) to {options.output}"

/-- Converts a file and returns the exit code. To find nothing to convert is no failure. -/
def convert (manner : Manner) (config : Option String) (options : ConvertOptions) :
    Attempt m Nat := do
  let settings ← loadSettings config
  let text ← readFile options.input
  if options.print then Host.print (printedSource text)
  match Source.modules settings.macros text with
  | .error failure =>
    reportFailure manner settings options.input text failure
    return 1
  | .ok modules =>
    if options.print then Host.print (String.join (modules.map printedModule))
    match Liberty.libraryOf? options.libraryName modules with
    | some library => writeLibrary manner settings options library
    | none =>
      note manner <|
        if modules.isEmpty then "no specify block" else "no timing data in specify block"
    return 0

end CellTiming.Command
