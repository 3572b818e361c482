import CellTiming.Grammar.Expression

/-! Delay values and lists of them. A value is one expression or three separated by
colons, alone or in parentheses. An opening parenthesis may begin a list, a triple or
only the first operand of an expression. -/
namespace CellTiming.Grammar

/-- The rest of a triple after its first colon. -/
def tripleFrom (table : Specparams) (least : Number) : TokenRule Triple := do
  let typical ← constant table
  TokenRule.expect .colon
  let greatest ← constant table
  return ⟨least.toFloat, typical.toFloat, greatest.toFloat⟩

def valueFrom (table : Specparams) (first : Number) : TokenRule Triple := do
  if ← TokenRule.eat .colon then tripleFrom table first
  else return .uniform first.toFloat

def delayValue (table : Specparams) : TokenRule Triple := do
  if ← TokenRule.eat .leftParen then
    let inner ← constant table
    if ← TokenRule.eat .colon then
      let triple ← tripleFrom table inner
      TokenRule.expect .rightParen
      return triple
    else
      TokenRule.expect .rightParen
      valueFrom table (← (constants table).continuing inner)
  else valueFrom table (← constant table)

/-- The rest of a list after its first value. A count of values that no list has is
blamed on the closing parenthesis. -/
def delayListFrom (table : Specparams) (first : Triple) : TokenRule Transitions := do
  let others ← TokenRule.following .comma (delayValue table)
  let blame ← TokenRule.blame
  TokenRule.expect .rightParen
  match Transitions.ofValues? (first :: others) with
  | some delays => return delays
  | none => Rule.fail blame

def delayList (table : Specparams) : TokenRule Transitions := do
  if ← TokenRule.eat .leftParen then
    if (← TokenRule.kind) = .symbol .leftParen then delayListFrom table (← delayValue table)
    else
      let head ← constant table
      if ← TokenRule.eat .rightParen then
        return .uniform (← valueFrom table (← (constants table).continuing head))
      else delayListFrom table (← valueFrom table head)
  else return .uniform (← delayValue table)

end CellTiming.Grammar
