import CellTiming.Command.Options

/-! Reading the arguments of the command line: options of the whole command, the name
of a task, then options and words of the task. Options of the whole command may also
stand behind the name. The first fault or call for help or the version, from left to
right, decides. -/
namespace CellTiming.Command

/-- What one option says. -/
inductive Choice
  | quiet
  | verbose
  | color (choice : ColorChoice)
  | config (path : String)
  | print
  | format (format : Liberty.Format)
  | strip (text : String)
  | write
  | report (format : ReportFormat)
  | version
  | help
deriving DecidableEq, Repr

/-- Why reading ends before the last argument. -/
inductive Stop
  | misuse
  | version
  | help
deriving DecidableEq, Repr

/-- How an option gets what it says: at once, or from a value. -/
inductive Meaning
  | flag (choice : Choice)
  | valued (read : String → Option Choice)

structure OptionName where
  long : String
  short : Option Char := none
  meaning : Meaning

def globalNames : List OptionName :=
  [{ long := "quiet", short := some 'q', meaning := .flag .quiet },
    { long := "verbose", short := some 'v', meaning := .flag .verbose },
    { long := "color", meaning := .valued fun text => (ColorChoice.ofString? text).map .color },
    { long := "config", meaning := .valued fun text => some (.config text) },
    { long := "help", short := some 'h', meaning := .flag .help }]

def commandNames : List OptionName :=
  globalNames ++ [{ long := "version", short := some 'V', meaning := .flag .version }]

def convertNames : List OptionName :=
  globalNames ++
    [{ long := "print", meaning := .flag .print },
      { long := "format", short := some 'f'
        meaning := .valued fun text => (Liberty.Format.ofString? text).map .format }]

def batchNames : List OptionName :=
  globalNames ++
    [{ long := "path-prefix-to-remove", meaning := .valued fun text => some (.strip text) },
      { long := "write", meaning := .flag .write },
      { long := "format", short := some 'f'
        meaning := .valued fun text => (ReportFormat.ofString? text).map .report }]

/-- What has been given so far, under the long names of the options. -/
abbrev Given := List (String × Choice)

namespace Given

/-- Adds a choice. No option may be given twice. -/
def add (given : Given) (name : String) : Choice → Except Stop Given
  | .version => .error .version
  | .help => .error .help
  | choice =>
    if given.any (·.1 == name) then .error .misuse else .ok (given ++ [(name, choice)])

def addValue (given : Given) (name : String) (read : String → Option Choice) (value : String) :
    Except Stop Given :=
  match read value with
  | some choice => given.add name choice
  | none => .error .misuse

def has (given : Given) (choice : Choice) : Bool := given.any (·.2 == choice)

def select? {α : Type} (given : Given) (pick : Choice → Option α) : Option α :=
  given.findSome? fun (_, choice) => pick choice

end Given

/-- An option that waits for its value in the next argument. -/
structure Pending where
  name : String
  read : String → Option Choice

/-- The options of one argument, and the one left waiting. -/
abbrev Progress := Given × Option Pending

/-- A long option, with its value behind an equals sign if there is one. -/
def takeLong (names : List OptionName) (given : Given) (text : List Char) :
    Except Stop Progress :=
  let name := String.ofList (text.takeWhile (· ≠ '='))
  let value := match text.dropWhile (· ≠ '=') with
    | _ :: value => some (String.ofList value)
    | [] => none
  match names.find? (·.long == name), value with
  | some { meaning := .flag choice, .. }, none => do return (← given.add name choice, none)
  | some { meaning := .valued read, .. }, some value => do
    return (← given.addValue name read value, none)
  | some { meaning := .valued read, .. }, none => .ok (given, some ⟨name, read⟩)
  | _, _ => .error .misuse

/-- Short options in one argument. The rest of the argument is the value of the first
that takes one. -/
def takeShort (names : List OptionName) (given : Given) : List Char → Except Stop Progress
  | [] => .ok (given, none)
  | c :: rest =>
    match names.find? (·.short == some c) with
    | some { long, meaning := .flag choice, .. } => do
      takeShort names (← given.add long choice) rest
    | some { long, meaning := .valued read, .. } =>
      match rest with
      | [] => .ok (given, some ⟨long, read⟩)
      | '=' :: value => do return (← given.addValue long read (String.ofList value), none)
      | value => do return (← given.addValue long read (String.ofList value), none)
    | none => .error .misuse

/-- What an argument is by its first characters. A single hyphen is a word. -/
inductive Argument
  | separator
  | long (text : List Char)
  | short (text : List Char)
  | word

def Argument.ofString (text : String) : Argument :=
  match text.toList with
  | ['-', '-'] => separator
  | '-' :: '-' :: rest => long rest
  | ['-'] => word
  | '-' :: rest => short rest
  | _ => word

def Pending.take (pending : Pending) (given : Given) (argument : String) : Except Stop Given :=
  match Argument.ofString argument with
  | .word => given.addValue pending.name pending.read argument
  | _ => .error .misuse

/-- The options before the name of the task, the name, and what follows it. -/
def splitTask (given : Given) (pending : Option Pending) :
    List String → Except Stop (Given × String × List String)
  | [] => .error .misuse
  | argument :: rest =>
    match pending with
    | some pending => do splitTask (← pending.take given argument) none rest
    | none =>
      match Argument.ofString argument with
      | .separator => .error .misuse
      | .long text => do
        let (given, pending) ← takeLong commandNames given text
        splitTask given pending rest
      | .short text => do
        let (given, pending) ← takeShort commandNames given text
        splitTask given pending rest
      | .word => .ok (given, argument, rest)

/-- Adds a word of a task. Its place decides whether it may be empty. -/
def addWord (mayBeEmpty : List Bool) (words : List String) (word : String) :
    Except Stop (List String) :=
  match mayBeEmpty[words.length]? with
  | none => .error .misuse
  | some allowed =>
    if word.isEmpty && !allowed then .error .misuse else .ok (words ++ [word])

/-- The options and words of a task. After a separator there are only words. -/
def taskArguments (names : List OptionName) (mayBeEmpty : List Bool) (given : Given)
    (words : List String) (pending : Option Pending) :
    List String → Except Stop (Given × List String)
  | [] => if pending.isSome then .error .misuse else .ok (given, words)
  | argument :: rest =>
    match pending with
    | some pending => do
      taskArguments names mayBeEmpty (← pending.take given argument) words none rest
    | none =>
      match Argument.ofString argument with
      | .separator => do return (given, ← rest.foldlM (addWord mayBeEmpty) words)
      | .long text => do
        let (given, pending) ← takeLong names given text
        taskArguments names mayBeEmpty given words pending rest
      | .short text => do
        let (given, pending) ← takeShort names given text
        taskArguments names mayBeEmpty given words pending rest
      | .word => do
        taskArguments names mayBeEmpty given (← addWord mayBeEmpty words argument) none rest

/-- A value given with the task goes before one given ahead of it. -/
def globalOptions (ahead given : Given) : GlobalOptions :=
  let both := given ++ ahead
  { quiet := both.has .quiet
    verbose := both.has .verbose
    color := (both.select? fun | .color choice => some choice | _ => none).getD .auto
    config := both.select? fun | .config path => some path | _ => none }

def convertTask (arguments : List String) : Except Stop (Given × Task) := do
  match ← taskArguments convertNames [false, true, false] [] [] none arguments with
  | (given, [input, libraryName, output]) =>
    return (given, .convert {
      input, libraryName, output
      print := given.has .print
      format := given.select? fun | .format format => some format | _ => none })
  | _ => .error .misuse

def batchTask (arguments : List String) : Except Stop (Given × Task) := do
  match ← taskArguments batchNames [false, false] [] [] none arguments with
  | (given, [fileList, outdir]) =>
    return (given, .batch {
      fileList, outdir
      strip := given.select? fun | .strip text => some text | _ => none
      write := given.has .write
      report := (given.select? fun | .report format => some format | _ => none).getD .text })
  | _ => .error .misuse

/-- The names that help can be asked for. -/
def helpTopics : List String := ["convert", "batch", "help"]

def helpRequest : List String → Except Stop (Given × Task)
  | [] => .error .help
  | [topic] => .error (if helpTopics.contains topic then .help else .misuse)
  | _ => .error .misuse

def taskOf (name : String) (arguments : List String) : Except Stop (Given × Task) :=
  match name with
  | "convert" => convertTask arguments
  | "batch" => batchTask arguments
  | "help" => helpRequest arguments
  | _ => .error .misuse

/-- Nothing is returned for arguments that cannot be understood. -/
def Request.ofArguments? (arguments : List String) : Option Request :=
  let read : Except Stop Request := do
    let (ahead, name, rest) ← splitTask [] none arguments
    let (given, task) ← taskOf name rest
    return .run (globalOptions ahead given) task
  match read with
  | .ok request => some request
  | .error .version => some .version
  | .error .help => some .help
  | .error .misuse => none

end CellTiming.Command
