/-! Blank characters, and the words of a line: the longest runs without a blank. -/
namespace CellTiming.Text

/-- The code points of the Unicode property White_Space, as inclusive ranges. -/
def blankRanges : List (Nat × Nat) :=
  [(0x09, 0x0d), (0x20, 0x20), (0x85, 0x85), (0xa0, 0xa0), (0x1680, 0x1680),
    (0x2000, 0x200a), (0x2028, 0x2029), (0x202f, 0x202f), (0x205f, 0x205f), (0x3000, 0x3000)]

def isBlank (c : Char) : Bool :=
  blankRanges.any fun (first, last) => first ≤ c.toNat && c.toNat ≤ last

def trimLeft (cs : List Char) : List Char := cs.dropWhile isBlank

def trim (cs : List Char) : List Char :=
  ((cs.dropWhile isBlank).reverse.dropWhile isBlank).reverse

/-- The word at the front of a text, and the words after it. -/
def wordsFrom : List Char → List Char × List (List Char)
  | [] => ([], [])
  | c :: cs =>
    let (first, others) := wordsFrom cs
    if isBlank c then ([], if first.isEmpty then others else first :: others)
    else (c :: first, others)

def words (cs : List Char) : List (List Char) :=
  let (first, others) := wordsFrom cs
  if first.isEmpty then others else first :: others

/-- Words joined by single spaces. -/
def squeeze (cs : List Char) : List Char := [' '].intercalate (words cs)

end CellTiming.Text
