import CellTiming.Grammar.Condition
import CellTiming.Grammar.Delay

/-! Delay paths. The output stands alone or in a group with an optional data source;
the group may be closed before or after the delays. A minus sign before the arrow or
before the colon of the source inverts the path. -/
namespace CellTiming.Grammar

/-- A sign directly before an arrow; true for a minus. -/
def arrowPolarity : TokenRule Bool := do
  let signed ← Rule.ahead fun
    | sign :: arrow :: _ =>
      (sign.isSymbol .plus || sign.isSymbol .minus) && arrow.kind.isPath
    | _ => false
  if signed then
    if ← TokenRule.eat .minus then return true
    else
      TokenRule.expect .plus
      return false
  else return false

/-- True for `=>`, false for `*>`. -/
def arrow : TokenRule Bool := do
  if ← TokenRule.eat .parallelPath then return true
  else
    TokenRule.expect .fullPath
    return false

def dataSource : TokenRule String := do
  match ← TokenRule.kind with
  | .name => TokenRule.name
  | .number => return (← TokenRule.number).text
  | _ => TokenRule.unexpected

/-- The optional source after the output of a group, and whether it inverts. -/
def sourceClause : TokenRule (Bool × Option String) := do
  if (← TokenRule.kind) = .symbol .rightParen then return (false, none)
  else
    let signed ← Rule.ahead fun
      | sign :: colon :: _ =>
        (sign.isSymbol .plus || sign.isSymbol .minus) && colon.isSymbol .colon
      | _ => false
    let inverted ← if signed then TokenRule.eat .minus else pure false
    if signed && !inverted then TokenRule.expect .plus
    TokenRule.expect .colon
    return (inverted, some (← dataSource))

/-- The end of a group and the delays, in either order. -/
def groupedDelays (table : Specparams) : TokenRule Transitions := do
  if ← TokenRule.eat .rightParen then
    TokenRule.expect .assign
    delayList table
  else
    TokenRule.expect .assign
    let delays ← delayList table
    TokenRule.expect .rightParen
    return delays

/-- What follows the opening parenthesis of a path, through the semicolon. A path to a
group is sensitive to a rising edge unless another is written. -/
def pathBody (table : Specparams) : TokenRule Path := do
  let edge ← edge?
  let input ← TokenRule.name
  let inverted ← arrowPolarity
  let parallel ← arrow
  if ← TokenRule.eat .leftParen then
    let output ← TokenRule.name
    let (sourceInverted, source) ← sourceClause
    TokenRule.expect .rightParen
    let delays ← groupedDelays table
    TokenRule.expect .semicolon
    return {
      input, output, edge := some (edge.getD .rising), parallel
      inverted := inverted || sourceInverted, source, condition := none, delays }
  else
    let output ← TokenRule.name
    TokenRule.expect .rightParen
    TokenRule.expect .assign
    let delays ← delayList table
    TokenRule.expect .semicolon
    return {
      input, output, edge, parallel, inverted, source := none, condition := none, delays }

def path (table : Specparams) : TokenRule Path := do
  TokenRule.expect .leftParen
  pathBody table

end CellTiming.Grammar
