import CellTiming.Toml.Scalar

/-! Reading a TOML document: lines with a key and its value, headers that open
tables, and comments. -/
namespace CellTiming.Toml

private def isLineSpace (c : Char) : Bool := c = ' ' || c = '\t'

private def spaces : CharRule Unit := do let _ ← Rule.takeWhile isLineSpace

/-- No control character but the tab. -/
def isPlain (c : Char) : Bool := c = '\t' || (32 ≤ c.toNat && c.toNat ≠ 127)

private def isBreak (c : Char) : Bool := c = '\n' || c = '\r'

/-- The rest of a line break that starts with the given character. -/
private def breakAfter (c : Char) : CharRule Unit :=
  if c = '\r' then CharRule.expect '\n' else return ()

private def lineBreak : CharRule Unit := do
  match ← Rule.takeIf isBreak with
  | some c => breakAfter c
  | none => CharRule.fail

private def comment : CharRule Unit := do
  if ← CharRule.eat '#' then let _ ← Rule.takeWhile isPlain

/-- Blanks, line breaks, and comments that end with their line. -/
private def gap : CharRule Unit := do
  spaces
  let _ ← Rule.repeated (fun c => c == '#' || isBreak c) fun c => do
    if c = '#' then
      let _ ← Rule.takeWhile isPlain
      lineBreak
    else breakAfter c
    spaces

/-- The character with the code point in the given count of digits. -/
private def codePoint (digits : Nat) : CharRule Char := do
  let value ← CharRule.hex digits
  if value.isValidChar then return Char.ofNat value else CharRule.fail

private def escaped : CharRule Char := do
  match ← CharRule.next with
  | '"' => return '"'
  | '\\' => return '\\'
  | 'b' => return Char.ofNat 8
  | 'f' => return Char.ofNat 12
  | 'n' => return '\n'
  | 'r' => return '\r'
  | 't' => return '\t'
  | 'u' => codePoint 4
  | 'U' => codePoint 8
  | _ => CharRule.fail

private def plainChar (c : Char) : CharRule Char :=
  if isPlain c then return c else CharRule.fail

/-- A string on one line after its opening quote. Only double quotes give a meaning
to backslashes. -/
private def lineString (quote : Char) : CharRule String := do
  let text ← Rule.repeated (· != quote) fun c =>
    if c = '\\' ∧ quote = '"' then escaped else plainChar c
  CharRule.expect quote
  return String.ofList text

/-- Whether only blanks stand before the end of the line. -/
private def atLineEnd (text : List Char) : Bool :=
  match text.dropWhile isLineSpace with
  | '\n' :: _ | '\r' :: '\n' :: _ => true
  | _ => false

private def skipBreaks : CharRule Unit := do
  let _ ← Rule.repeated (fun c => isLineSpace c || isBreak c) breakAfter

/-- What the next character of a string over several lines adds to it. A backslash at
the end of a line takes the blanks and line breaks after it. -/
private def blockPiece (quote : Char) (c : Char) : CharRule (List Char) := do
  if isBreak c then
    breakAfter c
    return ['\n']
  else if c = '\\' ∧ quote = '"' then
    if ← Rule.ahead atLineEnd then
      skipBreaks
      return []
    else return [← escaped]
  else return [← plainChar c]

private def closes (quote c : Char) (rest : List Char) : Bool :=
  c == quote && rest.take 2 == [quote, quote]

/-- A string over several lines after its three opening quotes. The line break after
them does not count, and up to two quotes before the closing three do. -/
private def blockString (quote : Char) : CharRule String := do
  let _ ← Rule.attempt lineBreak
  let pieces ← Rule.repeatedWhile (fun c rest => !closes quote c rest) (blockPiece quote)
  CharRule.literal [quote, quote, quote]
  let one ← CharRule.eat quote
  let two ← CharRule.eat quote
  return String.ofList (pieces.flatten ++ (if one then [quote] else []) ++
    if two then [quote] else [])

private def stringAfter (quote : Char) : CharRule String := do
  match ← Rule.attempt (CharRule.literal [quote, quote]) with
  | some _ => blockString quote
  | none => lineString quote

private def isBareKeyChar (c : Char) : Bool := c.isAlphanum || c = '_' || c = '-'

private def keyPart : CharRule String := do
  if ← CharRule.eat '"' then lineString '"'
  else if ← CharRule.eat '\'' then lineString '\''
  else
    let part ← Rule.takeWhile isBareKeyChar
    if part.isEmpty then CharRule.fail else return String.ofList part

/-- A key with at least this many parts, and values nested this deep, are refused. -/
def depthLimit : Nat := 80

private def key : CharRule Key := do
  let spaced : CharRule String := do
    spaces
    let part ← keyPart
    spaces
    return part
  let first ← spaced
  let others ← Rule.repeated (· == '.') fun _ => spaced
  if others.length + 1 < depthLimit then
    return ⟨(first :: others).dropLast, others.getLast?.getD first⟩
  else CharRule.fail

private def pair (value : CharRule Toml) : CharRule Pair := do
  let key ← key
  CharRule.expect '='
  spaces
  return (key, ← value)

private def isWordChar (c : Char) : Bool :=
  c.isAlphanum || c = '_' || c = '+' || c = '-' || c = '.' || c = ':'

/-- A time may follow its date behind a blank. -/
private def timeFollows (word rest : List Char) : Bool :=
  afterDate? word == some [] &&
    match rest with
    | ' ' :: c :: _ => c.isDigit
    | _ => false

private def scalar : CharRule Toml := do
  let word ← Rule.takeWhile isWordChar
  let written ←
    if ← Rule.ahead (timeFollows word) then do
      CharRule.expect ' '
      let time ← Rule.takeWhile isWordChar
      pure (word ++ ' ' :: time)
    else pure word
  match ofWord? written with
  | some value => return value
  | none => CharRule.fail

/-- The items of an array after its opening bracket. A comma may follow the last. -/
private def items (value : CharRule Toml) : CharRule (List Toml) := do
  let item : CharRule (Option Toml) := do
    gap
    if (← CharRule.peek?) = some ']' then return none
    else
      let item ← value
      gap
      return some item
  let first ← item
  let others ← if first.isSome then Rule.repeated (· == ',') fun _ => item else pure []
  CharRule.expect ']'
  return (first :: others).filterMap id

/-- The pairs of an inline table after its opening brace. -/
private def inlinePairs (value : CharRule Toml) : CharRule (List Pair) := do
  spaces
  if ← CharRule.eat '\x7d' then return []
  else
    let spaced : CharRule Pair := do
      let found ← pair value
      spaces
      return found
    let first ← spaced
    let others ← Rule.repeated (· == ',') fun _ => spaced
    CharRule.expect '\x7d'
    return first :: others

private def quoted : CharRule (Option String) := do
  if ← CharRule.eat '"' then return some (← stringAfter '"')
  else if ← CharRule.eat '\'' then return some (← stringAfter '\'')
  else return none

/-- A value with arrays and inline tables at most the given depth inside each other. -/
private def value : Nat → CharRule Toml
  | 0 => do
    match ← quoted with
    | some text => return string text
    | none => scalar
  | depth + 1 => do
    match ← quoted with
    | some text => return string text
    | none =>
      if ← CharRule.eat '[' then return array (← items (value depth))
      else if ← CharRule.eat '\x7b' then
        match Fields.fill (← inlinePairs (value depth)) [] with
        | some fields => return table .inline fields
        | none => CharRule.fail
      else scalar

/-- What a line holds besides blanks and comments. -/
inductive Line
  | empty
  | pair (pair : Pair)
  | header (key : Key) (repeated : Bool)

private def header : CharRule Line := do
  if ← CharRule.eat '[' then
    let key ← key
    CharRule.literal [']', ']']
    return .header key true
  else
    let key ← key
    CharRule.expect ']'
    return .header key false

private def line : CharRule Line := do
  spaces
  let line ← match ← CharRule.peek? with
    | none | some '#' | some '\n' | some '\r' => pure .empty
    | some '[' => do
      CharRule.expect '['
      header
    | some _ => do pure (.pair (← pair (value (depthLimit - 1))))
  spaces
  comment
  return line

private def allLines : CharRule (List Line) := do
  let _ ← CharRule.eat '\ufeff'
  let first ← line
  let others ← Rule.repeated isBreak fun c => do
    breakAfter c
    line
  return first :: others

/-- Pairs belong to the header above them. -/
def Document.ofLines : List Line → Document
  | [] => ⟨[], []⟩
  | line :: lines =>
    let document := Document.ofLines lines
    match line with
    | .empty => document
    | .pair pair => { document with pairs := pair :: document.pairs }
    | .header key repeated => ⟨[], ⟨key, repeated, document.pairs⟩ :: document.sections⟩

/-- The fields of a whole document. -/
def fieldsOf? (text : String) : Option Fields := do
  (Document.ofLines (← CharRule.read? allLines text)).fields?

end CellTiming.Toml
