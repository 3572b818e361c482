import CellTiming.Token.Basic

/-! Ranges of bytes in a text, with 32 bit offsets. A range that does not lie between
two character boundaries of the text covers nothing. -/
namespace CellTiming

structure Span where
  start : UInt32
  stop : UInt32
deriving DecidableEq, Repr

namespace Span

def ofOffsets (start stop : Nat) : Span := ⟨start.toUInt32, stop.toUInt32⟩

/-- The characters that fill exactly the first `bytes` bytes, and what follows them. -/
def cutBytes? (bytes : Nat) (cs : List Char) : Option (List Char × List Char) :=
  match bytes, cs with
  | 0, cs => some ([], cs)
  | _ + 1, [] => none
  | bytes + 1, c :: cs =>
    if c.utf8Size ≤ bytes + 1 then
      (cutBytes? (bytes + 1 - c.utf8Size) cs).map fun (front, back) => (c :: front, back)
    else none
termination_by cs.length

/-- The piece of the text the span covers. -/
def text (span : Span) (source : String) : String :=
  let piece? : Option (List Char) := do
    if span.stop < span.start then none
    let (_, tail) ← cutBytes? span.start.toNat source.toList
    let (piece, _) ← cutBytes? (span.stop.toNat - span.start.toNat) tail
    some piece
  String.ofList (piece?.getD [])

end Span

def Token.span (t : Token) : Span := .ofOffsets t.start t.stop

end CellTiming
