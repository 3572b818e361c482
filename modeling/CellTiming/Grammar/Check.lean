import CellTiming.Grammar.Condition
import CellTiming.Grammar.Delay

/-! Timing checks. Notifiers, thresholds and the conditions at the end of a two-limit
check may be left empty between their commas. -/
namespace CellTiming.Grammar

/-- An argument that is empty before a comma or the closing parenthesis. -/
def optional {α : Type} (rule : TokenRule α) : TokenRule (Option α) := do
  match ← TokenRule.kind with
  | .symbol .comma | .symbol .rightParen => return none
  | _ => return some (← rule)

def lastNotifier : TokenRule (Option String) := do
  if ← TokenRule.eat .comma then optional TokenRule.name else return none

/-- `[, notifier [, stamp, check [, reference, data]]]` -/
def checkTail (table : Specparams) : TokenRule (Option String × CheckConditions) := do
  if ← TokenRule.eat .comma then
    let notifier ← optional TokenRule.name
    if ← TokenRule.eat .comma then
      let timestamp ← optional (condition table)
      TokenRule.expect .comma
      let timecheck ← optional (condition table)
      if ← TokenRule.eat .comma then
        let delayedReference ← optional (condition table)
        TokenRule.expect .comma
        let delayedData ← optional (condition table)
        return (notifier, { timestamp, timecheck, delayedReference, delayedData })
      else return (notifier, { timestamp, timecheck })
    else return (notifier, {})
  else return (none, {})

/-- The number of arguments of the parenthesized list ahead, counted by the commas
inside its outermost parentheses only. -/
def countArguments (depth count : Nat) : List Token → Nat
  | [] => count
  | t :: rest =>
    match t.kind with
    | .symbol .leftParen => countArguments (depth + 1) count rest
    | .symbol .rightParen => if depth ≤ 1 then count else countArguments (depth - 1) count rest
    | .symbol .comma => countArguments depth (if depth = 1 then count + 1 else count) rest
    | .endOfInput => count
    | _ => countArguments depth count rest

/-- The number of arguments of a recovery check in its long form. -/
def extendedRecoveryArguments : Nat := 9

def recrem (table : Specparams) (form : RecremForm) : TokenRule TimingCheck := do
  let reference ← event
  TokenRule.expect .comma
  let data ← event
  TokenRule.expect .comma
  let first ← delayValue table
  TokenRule.expect .comma
  let second ← delayValue table
  let (notifier, conditions) ← checkTail table
  match form with
  | .recrem => return .recrem reference data first second notifier conditions form
  | .extendedRecovery => return .recrem reference data second first notifier conditions form

/-- `first, second, limit [, notifier]` -/
def simpleCheck (table : Specparams)
    (make : Event → Event → Triple → Option String → TimingCheck) : TokenRule TimingCheck := do
  let first ← event
  TokenRule.expect .comma
  let second ← event
  TokenRule.expect .comma
  let limit ← delayValue table
  let notifier ← lastNotifier
  return make first second limit notifier

def setuphold (table : Specparams) : TokenRule TimingCheck := do
  let reference ← event
  TokenRule.expect .comma
  let data ← event
  TokenRule.expect .comma
  let setup ← delayValue table
  TokenRule.expect .comma
  let hold ← delayValue table
  let (notifier, conditions) ← checkTail table
  return .setuphold reference data setup hold notifier conditions

def period (table : Specparams) : TokenRule TimingCheck := do
  let reference ← event
  TokenRule.expect .comma
  let limit ← delayValue table
  let notifier ← lastNotifier
  return .period reference limit notifier

def width (table : Specparams) : TokenRule TimingCheck := do
  let reference ← event
  TokenRule.expect .comma
  let limit ← delayValue table
  if ← TokenRule.eat .comma then
    let threshold ← optional (delayValue table)
    let notifier ← lastNotifier
    return .width reference limit threshold notifier
  else return .width reference limit none none

/-- The arguments of a task. The long form of `$recovery` is known by their number. -/
def checkArguments (table : Specparams) (arguments : Nat) : CheckTask → TokenRule TimingCheck
  | .setup => simpleCheck table .setup
  | .hold => simpleCheck table .hold
  | .setuphold => setuphold table
  | .skew => simpleCheck table .skew
  | .recovery =>
    if arguments = extendedRecoveryArguments then recrem table .extendedRecovery
    else simpleCheck table .recovery
  | .recrem => recrem table .recrem
  | .period => period table
  | .width => width table

/-- What follows the name of a task, through the semicolon. -/
def timingCheck (table : Specparams) (task : CheckTask) : TokenRule TimingCheck := do
  let arguments ← Rule.ahead (countArguments 0 1)
  TokenRule.expect .leftParen
  let check ← checkArguments table arguments task
  TokenRule.expect .rightParen
  TokenRule.expect .semicolon
  return check

end CellTiming.Grammar
