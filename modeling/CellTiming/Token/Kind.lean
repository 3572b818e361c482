/-! The kinds of tokens in a specify block, each with its spelling: keywords, timing
check tasks (written with a leading dollar sign) and symbols. Names, numbers and
strings have no fixed spelling. -/
namespace CellTiming

inductive Keyword
  | specify
  | endspecify
  | specparam
  | posedge
  | negedge
  | conditional
  | ifnone
deriving DecidableEq, Repr

namespace Keyword

def all : List Keyword :=
  [specify, endspecify, specparam, posedge, negedge, conditional, ifnone]

def spelling : Keyword → String
  | specify => "specify"
  | endspecify => "endspecify"
  | specparam => "specparam"
  | posedge => "posedge"
  | negedge => "negedge"
  | conditional => "if"
  | ifnone => "ifnone"

def ofString? (word : String) : Option Keyword := all.find? (·.spelling == word)

end Keyword

inductive CheckTask
  | setup
  | hold
  | setuphold
  | skew
  | recovery
  | period
  | width
  | recrem
deriving DecidableEq, Repr

namespace CheckTask

def all : List CheckTask := [setup, hold, setuphold, skew, recovery, period, width, recrem]

/-- The task's name after the dollar sign. -/
def spelling : CheckTask → String
  | setup => "setup"
  | hold => "hold"
  | setuphold => "setuphold"
  | skew => "skew"
  | recovery => "recovery"
  | period => "period"
  | width => "width"
  | recrem => "recrem"

def ofString? (word : String) : Option CheckTask := all.find? (·.spelling == word)

end CheckTask

inductive Symbol
  | plus
  | minus
  | assign
  | amp
  | ampAmp
  | tripleAmp
  | eqEq
  | eqEqEq
  | bang
  | tilde
  | parallelPath
  | fullPath
  | leftParen
  | rightParen
  | comma
  | semicolon
  | colon
deriving DecidableEq, Repr

namespace Symbol

/-- Longer spellings stand before the shorter ones they start with. -/
def longestFirst : List Symbol :=
  [tripleAmp, eqEqEq, ampAmp, eqEq, parallelPath, fullPath, amp, assign, plus, minus, bang,
    tilde, leftParen, rightParen, comma, semicolon, colon]

def spelling : Symbol → String
  | plus => "+"
  | minus => "-"
  | assign => "="
  | amp => "&"
  | ampAmp => "&&"
  | tripleAmp => "&&&"
  | eqEq => "=="
  | eqEqEq => "==="
  | bang => "!"
  | tilde => "~"
  | parallelPath => "=>"
  | fullPath => "*>"
  | leftParen => "("
  | rightParen => ")"
  | comma => ","
  | semicolon => ";"
  | colon => ":"

/-- The longest symbol at the front of a text. -/
def atFront? (cs : List Char) : Option Symbol :=
  longestFirst.find? fun symbol => symbol.spelling.toList.isPrefixOf cs

end Symbol

inductive Token.Kind
  | keyword (keyword : Keyword)
  | task (task : CheckTask)
  | symbol (symbol : Symbol)
  | name
  | number
  | string
  | endOfInput
deriving DecidableEq, Repr

namespace Token.Kind

def isTask : Kind → Bool
  | task _ => true
  | _ => false

def isPath (kind : Kind) : Bool :=
  kind == symbol .parallelPath || kind == symbol .fullPath

/-- Directly after a token that can end an operand, a sign is a binary operator. -/
def endsOperand (kind : Kind) : Bool :=
  kind == name || kind == number || kind == symbol .rightParen

end Token.Kind

end CellTiming
