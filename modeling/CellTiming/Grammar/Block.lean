import CellTiming.Grammar.Check
import CellTiming.Grammar.Path
import CellTiming.Token.Lexer

/-! Specify blocks: groups of items between `specify` and `endspecify`, each item
read with the specparams declared before it and added to the timing gathered so far. -/
namespace CellTiming.Grammar

/-- What follows `specparam`, through the semicolon. -/
def specparam (table : Specparams) : TokenRule TimingItem := do
  let name ← TokenRule.take .name
  TokenRule.expect .assign
  if (← TokenRule.take? .string).isSome then
    TokenRule.expect .semicolon
    return .specparam name.line name.text none
  else
    let value ← constant table
    TokenRule.expect .semicolon
    return .specparam name.line name.text (some value)

def conditionedPath (table : Specparams) : TokenRule TimingItem := do
  TokenRule.expect .leftParen
  let condition ← condition table
  TokenRule.expect .rightParen
  return .conditioned condition (← path table)

/-- The item that starts with the given token, read from the tokens after it. -/
def itemAfter (table : Specparams) (t : Token) : TokenRule TimingItem :=
  match t.kind with
  | .keyword .specparam => specparam table
  | .keyword .conditional => conditionedPath table
  | .keyword .ifnone => return .ifnone t.line (← path table)
  | .symbol .leftParen => return .path (← pathBody table)
  | .task task => return .check (← timingCheck table task)
  | _ => Rule.fail (unexpectedAt [t])

/-- The items of a group through `endspecify`. -/
def items (timing : ModuleTiming) (ts : List Token) :
    Except SourceError { step : ModuleTiming × List Token // step.2 <:+ ts.tail } :=
  match ts with
  | [] => .error (unexpectedAt [])
  | t :: rest =>
    if t.kind = .keyword .endspecify then .ok ⟨(timing, rest), List.suffix_rfl⟩
    else
      match h : (itemAfter timing.specparams t).run rest with
      | .error e => .error e
      | .ok (item, after) => do
        have suffix := (itemAfter timing.specparams t).suffix h
        have := suffix.length_le
        let extended ← timing.add item
        let ⟨step, hs⟩ ← items extended after
        return ⟨step, hs.trans ((List.tail_suffix after).trans suffix)⟩
termination_by ts.length

def atEnd : List Token → Bool
  | [] => true
  | t :: _ => t.kind == .endOfInput

/-- One or more groups, up to the end of the input. -/
def groups (timing : ModuleTiming) (ts : List Token) : Except SourceError ModuleTiming :=
  match ts with
  | [] => .error (unexpectedAt [])
  | t :: rest =>
    if t.kind = .keyword .specify then do
      let ⟨(gathered, after), h⟩ ← items timing rest
      have : after.length ≤ rest.length := (h.trans (List.tail_suffix rest)).length_le
      if atEnd after then return gathered else groups gathered after
    else .error (unexpectedAt (t :: rest))
termination_by ts.length

end CellTiming.Grammar

namespace CellTiming.ModuleTiming

def ofTokens (ts : List Token) : Except SourceError ModuleTiming := Grammar.groups {} ts

/-- The timing written in the text of a block. -/
def ofBlock (text : String) : Except SourceError ModuleTiming := do
  ofTokens (← Token.ofString text)

end CellTiming.ModuleTiming
