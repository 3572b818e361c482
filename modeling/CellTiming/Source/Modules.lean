import CellTiming.Grammar.Block
import CellTiming.Source.Extract

/-! The timing of every module of a source text. The first error ends the reading; it
is traced back to the line of the cleaned source it came from. -/
namespace CellTiming.Source

structure NamedTiming where
  name : String
  timing : ModuleTiming

structure Failure where
  /-- Unknown when the structure of the source is at fault. -/
  module : Option String
  line : Option Nat
  text : Option String
  error : SourceError
deriving DecidableEq, Repr

namespace Failure

def kind (f : Failure) : SourceError.Kind := f.error.kind

def message (f : Failure) : String :=
  match f.module with
  | some module => s!"module {module}: {f.error.message}"
  | none => f.error.message

end Failure

def Block.timing (block : Block) : Except Failure NamedTiming :=
  match ModuleTiming.ofBlock block.text with
  | .ok timing => .ok ⟨block.module, timing⟩
  | .error error =>
    let line := block.line? error.line
    .error ⟨some block.module, line.map (·.number), line.map (·.text), error⟩

def structuralFailure (lines : List String) (error : SourceError) : Failure :=
  ⟨none, some error.line, if error.line = 0 then none else lines[error.line - 1]?, error⟩

def modules (macros : List String) (text : String) : Except Failure (List NamedTiming) :=
  let lines := cleanLines text
  match blocksOfLines macros lines with
  | .ok blocks => blocks.mapM Block.timing
  | .error error => .error (structuralFailure lines error)

end CellTiming.Source
