import CellTiming.Token.Kind

/-! A token is a piece of the text with its kind, the line it starts on and the
offset of its first byte. -/
namespace CellTiming

structure Token where
  kind : Token.Kind
  text : String
  line : Nat
  start : Nat
deriving DecidableEq, Repr

namespace Token

def stop (t : Token) : Nat := t.start + t.text.utf8ByteSize

def isSymbol (t : Token) (symbol : Symbol) : Bool := t.kind == .symbol symbol

end Token

end CellTiming
