import CellTiming.Command.Arguments
import CellTiming.Command.Batch
import CellTiming.Command.Convert
import CellTiming.Command.FileList
import CellTiming.Command.Host
import CellTiming.Command.Options
import CellTiming.Command.Run
import CellTiming.Condition.Basic
import CellTiming.Condition.Json
import CellTiming.Decimal.Notation
import CellTiming.Decimal.Reading
import CellTiming.Decimal.Shortest
import CellTiming.Delay.Transitions
import CellTiming.Delay.Triple
import CellTiming.Diagnostic.Basic
import CellTiming.Diagnostic.Json
import CellTiming.Diagnostic.Sink
import CellTiming.Diagnostic.Text
import CellTiming.Files.Error
import CellTiming.Files.Path
import CellTiming.Files.Placement
import CellTiming.Files.Tree
import CellTiming.Grammar.Block
import CellTiming.Grammar.Check
import CellTiming.Grammar.Condition
import CellTiming.Grammar.Delay
import CellTiming.Grammar.Expression
import CellTiming.Grammar.Operators
import CellTiming.Grammar.Path
import CellTiming.Grammar.Rule
import CellTiming.Json.Reader
import CellTiming.Json.Value
import CellTiming.Liberty.Format
import CellTiming.Liberty.Json
import CellTiming.Liberty.Mapping
import CellTiming.Liberty.Model
import CellTiming.Liberty.Text
import CellTiming.Main
import CellTiming.Number.Base
import CellTiming.Number.Basic
import CellTiming.Number.Text
import CellTiming.Proofs.Alphabet
import CellTiming.Proofs.ArgumentForms
import CellTiming.Proofs.Arguments
import CellTiming.Proofs.Balanced
import CellTiming.Proofs.BareText
import CellTiming.Proofs.Blank
import CellTiming.Proofs.Block
import CellTiming.Proofs.CallPlace
import CellTiming.Proofs.CallText
import CellTiming.Proofs.Calls
import CellTiming.Proofs.Causes
import CellTiming.Proofs.CleanSpace
import CellTiming.Proofs.Cleaning
import CellTiming.Proofs.CombinedChecks
import CellTiming.Proofs.Comments
import CellTiming.Proofs.Composition
import CellTiming.Proofs.Conservation
import CellTiming.Proofs.Constant
import CellTiming.Proofs.Conversion
import CellTiming.Proofs.Declaration
import CellTiming.Proofs.DeclaredValues
import CellTiming.Proofs.DelayForms
import CellTiming.Proofs.Directives
import CellTiming.Proofs.Drawn
import CellTiming.Proofs.EventTerm
import CellTiming.Proofs.Exchange
import CellTiming.Proofs.Expansion
import CellTiming.Proofs.Failures
import CellTiming.Proofs.FloatBits
import CellTiming.Proofs.Formula
import CellTiming.Proofs.Fusing
import CellTiming.Proofs.GroupClosing
import CellTiming.Proofs.Grouping
import CellTiming.Proofs.GuardMeaning
import CellTiming.Proofs.Guards
import CellTiming.Proofs.Horizon
import CellTiming.Proofs.Inverted
import CellTiming.Proofs.ItemCauses
import CellTiming.Proofs.ItemMarks
import CellTiming.Proofs.ItemPlaces
import CellTiming.Proofs.Jobs
import CellTiming.Proofs.Laid
import CellTiming.Proofs.LastWord
import CellTiming.Proofs.Layout
import CellTiming.Proofs.LexedNumbers
import CellTiming.Proofs.Lexeme
import CellTiming.Proofs.Lexer
import CellTiming.Proofs.LibertyAlphabet
import CellTiming.Proofs.LineFeed
import CellTiming.Proofs.Literal
import CellTiming.Proofs.Lossless
import CellTiming.Proofs.Nearest
import CellTiming.Proofs.Nesting
import CellTiming.Proofs.Numeral
import CellTiming.Proofs.Operators
import CellTiming.Proofs.Otherwise
import CellTiming.Proofs.Overwriting
import CellTiming.Proofs.Parts
import CellTiming.Proofs.PathForms
import CellTiming.Proofs.Pins
import CellTiming.Proofs.PlainTexts
import CellTiming.Proofs.PrintedValues
import CellTiming.Proofs.Progress
import CellTiming.Proofs.RealText
import CellTiming.Proofs.Recovery
import CellTiming.Proofs.Recut
import CellTiming.Proofs.Regroup
import CellTiming.Proofs.Renderings
import CellTiming.Proofs.Reread
import CellTiming.Proofs.Resolution
import CellTiming.Proofs.Rule
import CellTiming.Proofs.SectionBreak
import CellTiming.Proofs.Sections
import CellTiming.Proofs.Shortest
import CellTiming.Proofs.Signals
import CellTiming.Proofs.Spacing
import CellTiming.Proofs.Splice
import CellTiming.Proofs.Spread
import CellTiming.Proofs.SpreadLines
import CellTiming.Proofs.Steering
import CellTiming.Proofs.StoredConditions
import CellTiming.Proofs.Targets
import CellTiming.Proofs.Tasks
import CellTiming.Proofs.Tiling
import CellTiming.Proofs.TokenRule
import CellTiming.Proofs.Transposition
import CellTiming.Proofs.Trees
import CellTiming.Proofs.Truth
import CellTiming.Proofs.Verdicts
import CellTiming.Proofs.WellFormed
import CellTiming.Proofs.Withheld
import CellTiming.Proofs.Words
import CellTiming.Proofs.WrittenDigits
import CellTiming.Rule
import CellTiming.Settings
import CellTiming.Source.Clean
import CellTiming.Source.Error
import CellTiming.Source.Extract
import CellTiming.Source.Modules
import CellTiming.Text.Blank
import CellTiming.Text.Padding
import CellTiming.Text.Rule
import CellTiming.Text.Search
import CellTiming.Timing.Check
import CellTiming.Timing.Event
import CellTiming.Timing.Json
import CellTiming.Timing.Module
import CellTiming.Timing.Path
import CellTiming.Token.Basic
import CellTiming.Token.Kind
import CellTiming.Token.Lexer
import CellTiming.Token.Span
import CellTiming.Toml.Reader
import CellTiming.Toml.Scalar
import CellTiming.Toml.Value
