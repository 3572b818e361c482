import CellTiming.Source.Clean
import CellTiming.Source.Error

/-! Gathering the specify blocks of each module from cleaned lines. The structural
words `module`, `specify`, `endspecify` and `endmodule` steer it wherever they stand
as whole words outside strings. Lines after a conditional that names a macro outside
the given list are withheld until the next `else` or `endif` directive; structural
words count even there. -/
namespace CellTiming.Source

inductive StructureWord
  | module
  | specify
  | endspecify
  | endmodule
deriving DecidableEq, Repr

namespace StructureWord

def all : List StructureWord := [module, specify, endspecify, endmodule]

def spelling : StructureWord → String
  | module => "module"
  | specify => "specify"
  | endspecify => "endspecify"
  | endmodule => "endmodule"

def ofChars? (word : List Char) : Option StructureWord := all.find? (·.spelling.toList == word)

end StructureWord

def isWordChar (c : Char) : Bool := c.isAlphanum || c == '_' || c == '$'

def backtick : Char := '\x60'

/-- A line as the text before its first structural word and each such word with the
text up to the next. A word directly after a backtick is a macro and no structure. -/
def cutAtStructure (afterBacktick inString : Bool) (line : List Char) :
    List Char × List (StructureWord × List Char) :=
  match line with
  | [] => ([], [])
  | c :: cs =>
    if c = '"' then
      let (text, words) := cutAtStructure false (!inString) cs
      (c :: text, words)
    else if inString ∨ !isWordChar c then
      let (text, words) := cutAtStructure (c = backtick) inString cs
      (c :: text, words)
    else
      let word := c :: cs.takeWhile isWordChar
      have := (List.dropWhile_sublist isWordChar (l := cs)).length_le
      let (text, words) := cutAtStructure false false (cs.dropWhile isWordChar)
      match if afterBacktick then none else StructureWord.ofChars? word with
      | some found => ([], (found, text) :: words)
      | none => (word ++ text, words)
termination_by line.length
decreasing_by all_goals simp <;> omega

/-- The name at the front of the text after `module`. -/
def moduleName? (text : List Char) : Option String :=
  match Text.trimLeft text with
  | [] => none
  | c :: cs =>
    if c.isAlpha ∨ c = '_' then some (String.ofList (c :: cs.takeWhile isWordChar)) else none

structure SourceLine where
  number : Nat
  text : String
deriving DecidableEq, Repr

structure Block where
  module : String
  lines : List SourceLine
deriving DecidableEq, Repr

namespace Block

/-- The text of the block, each gathered line a line of its own. -/
def text (block : Block) : String := "\n".intercalate (block.lines.map (·.text))

/-- The gathered line behind a line of the block's text, counted from one. -/
def line? (block : Block) (number : Nat) : Option SourceLine :=
  if number = 0 then none else block.lines[number - 1]?

end Block

structure Extraction where
  module : Option String := none
  inSpecify : Bool := false
  excluded : Bool := false
  gathered : List SourceLine := []
  blocks : List Block := []

def defaultMacros : List String := ["SC_USE_PG_PIN"]

def ifdefMark : List Char := "`ifdef".toList

def ifndefMark : List Char := "`ifndef".toList

def elseMark : List Char := "`else".toList

def endifMark : List Char := "`endif".toList

def isDirective (line : List Char) : Bool :=
  [ifdefMark, ifndefMark, elseMark, endifMark].any (Text.occursIn · line)

/-- Whether lines are withheld after a directive. -/
def excludedAfter (macros : List String) (excluded : Bool) (line : List Char) : Bool :=
  match Text.afterFirst? ifdefMark line with
  | some rest =>
    match (Text.words rest).head? with
    | some word => excluded || !macros.contains (String.ofList word)
    | none => true
  | none =>
    if !Text.occursIn ifndefMark line &&
        (Text.occursIn elseMark line || Text.occursIn endifMark line) then false
    else excluded

namespace Extraction

def gather (e : Extraction) (number : Nat) (text : List Char) : Extraction :=
  let text := Text.trim text
  if text.isEmpty then e
  else { e with gathered := e.gathered ++ [⟨number, String.ofList text⟩] }

/-- Adds lines to the block of a module, the blocks standing in first-seen order. -/
def insertLines (module : String) (lines : List SourceLine) : List Block → List Block
  | [] => [⟨module, lines⟩]
  | block :: blocks =>
    if block.module = module then { block with lines := block.lines ++ lines } :: blocks
    else block :: insertLines module lines blocks

def close (e : Extraction) : Extraction :=
  { e with
    inSpecify := false
    gathered := []
    blocks := match e.module with
      | some module => insertLines module e.gathered e.blocks
      | none => e.blocks }

/-- One structural word and the text after it, with the text of the line gathered so
far. Nothing is returned where the word is out of place. -/
def word? (e : Extraction) (number : Nat) (text : List Char) (word : StructureWord)
    (tail : List Char) : Option (Extraction × List Char) :=
  match word with
  | .module => do
    if e.inSpecify then none
    let name ← moduleName? tail
    some ({ e with module := some name }, text)
  | .specify =>
    if e.module.isNone || e.inSpecify then none
    else some ({ e with inSpecify := true }, text ++ word.spelling.toList ++ tail)
  | .endspecify =>
    if e.inSpecify then some ((e.gather number (text ++ word.spelling.toList)).close, [])
    else none
  | .endmodule => if e.inSpecify then none else some ({ e with module := none }, text)

def words? (e : Extraction) (number : Nat) (text : List Char) :
    List (StructureWord × List Char) → Option Extraction
  | [] => some (e.gather number text)
  | (word, tail) :: words => do
    let (next, text) ← e.word? number text word tail
    next.words? number text words

def line (macros : List String) (e : Extraction) (number : Nat) (text : String) :
    Except SourceError Extraction :=
  let gathering := e.inSpecify && !e.excluded
  match cutAtStructure false false text.toList with
  | (_, []) =>
    if isDirective text.toList then
      .ok { e with excluded := excludedAfter macros e.excluded text.toList }
    else .ok (if gathering then e.gather number text.toList else e)
  | (lead, words) =>
    match e.words? number (if gathering then lead else []) words with
    | some next => .ok next
    | none => .error (.structural number text)

def lines (macros : List String) (e : Extraction) (number : Nat) :
    List String → Except SourceError Extraction
  | [] => .ok e
  | text :: others => do lines macros (← e.line macros number text) (number + 1) others

/-- A block still open at the end of the source is closed there. -/
def finish (e : Extraction) : List Block := (if e.inSpecify then e.close else e).blocks

end Extraction

/-- The blocks of cleaned lines, one per module with a specify section. -/
def blocksOfLines (macros : List String) (lines : List String) :
    Except SourceError (List Block) :=
  (Extraction.lines macros {} 1 lines).map Extraction.finish

def blocks (macros : List String) (text : String) : Except SourceError (List Block) :=
  blocksOfLines macros (cleanLines text)

end CellTiming.Source
