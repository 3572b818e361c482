import CellTiming.Diagnostic.Basic

/-! A collection of diagnostics. Taking the pending ones out leaves the count of the
errors emitted so far. -/
namespace CellTiming

structure DiagnosticSink where
  pending : List Diagnostic := []
  errorCount : Nat := 0

namespace DiagnosticSink

def emit (sink : DiagnosticSink) (d : Diagnostic) : DiagnosticSink where
  pending := sink.pending ++ [d]
  errorCount := if d.severity.isError then sink.errorCount + 1 else sink.errorCount

def hasErrors (sink : DiagnosticSink) : Bool := sink.errorCount != 0

def takeAll (sink : DiagnosticSink) : DiagnosticSink × List Diagnostic :=
  ({ sink with pending := [] }, sink.pending)

/-- The greatest severity of the pending diagnostics. -/
def highest? (sink : DiagnosticSink) : Option Severity :=
  sink.pending.foldl (fun found d =>
    match found with
    | some s => some (if s.rank < d.severity.rank then d.severity else s)
    | none => some d.severity) none

end DiagnosticSink

end CellTiming
