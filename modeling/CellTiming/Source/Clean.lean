import CellTiming.Text.Blank
import CellTiming.Text.Search

/-! Cleaning a source text into lines. Comments vanish, except for the line breaks in
them; a backslash before a line break joins two lines; and the words of a line are
left with single blanks between them. -/
namespace CellTiming.Source

/-- What the characters of a source stand in. A string ends with its line at the latest. -/
inductive Context
  | code
  | string
  | lineComment
  /-- After a star or not. -/
  | blockComment (afterStar : Bool)
deriving DecidableEq, Repr

def withoutComments : Context → List Char → List Char
  | _, [] => []
  | .code, '"' :: cs => '"' :: withoutComments .string cs
  | .code, '/' :: '/' :: cs => withoutComments .lineComment cs
  | .code, '/' :: '*' :: cs => withoutComments (.blockComment false) cs
  | .code, c :: cs => c :: withoutComments .code cs
  | .string, c :: cs =>
    c :: withoutComments (if c = '"' ∨ c = '\n' then .code else .string) cs
  | .lineComment, c :: cs =>
    if c = '\n' then c :: withoutComments .code cs else withoutComments .lineComment cs
  | .blockComment afterStar, c :: cs =>
    if c = '\n' then c :: withoutComments (.blockComment false) cs
    else if afterStar ∧ c = '/' then withoutComments .code cs
    else withoutComments (.blockComment (c = '*')) cs

def isLineBlank (c : Char) : Bool := c = ' ' || c = '\t' || c = '\r'

/-- What follows a line break that only blanks precede. -/
def afterLineBreak? (cs : List Char) : Option (List Char) :=
  match cs.dropWhile isLineBlank with
  | '\n' :: rest => some rest
  | _ => none

private theorem afterLineBreak_length {cs rest : List Char} (h : afterLineBreak? cs = some rest) :
    rest.length < cs.length := by
  have shorter := (List.dropWhile_sublist isLineBlank (l := cs)).length_le
  unfold afterLineBreak? at h
  split at h
  next _ hd => cases h; rw [hd] at shorter; simp at shorter; omega
  next => contradiction

def joinContinued (text : List Char) : List Char :=
  match text with
  | [] => []
  | c :: cs =>
    if c = '\\' then
      match h : afterLineBreak? cs with
      | some rest =>
        have := afterLineBreak_length h
        joinContinued rest
      | none => c :: joinContinued cs
    else c :: joinContinued cs
termination_by text.length

def cleanLines (text : String) : List String :=
  (Text.lines (joinContinued (withoutComments .code text.toList))).map fun line =>
    String.ofList (Text.squeeze line)

end CellTiming.Source
