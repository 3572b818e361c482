import CellTiming.Timing.Event

/-! Timing checks: limits on the time between a data event and a reference event, on
the period of a signal, or on the width of its pulses. -/
namespace CellTiming

/-- The optional conditions that end a two-limit check. -/
structure CheckConditions where
  timestamp : Option Condition := none
  timecheck : Option Condition := none
  delayedReference : Option Condition := none
  delayedData : Option Condition := none
deriving DecidableEq, Repr

/-- How a recovery and removal check was written; the long form of `$recovery` lists
the removal limit first. -/
inductive RecremForm
  | recrem
  | extendedRecovery
deriving DecidableEq, Repr

inductive TimingCheck
  | setup (data reference : Event) (limit : Triple) (notifier : Option String)
  | hold (reference data : Event) (limit : Triple) (notifier : Option String)
  | setuphold (reference data : Event) (setup hold : Triple) (notifier : Option String)
      (conditions : CheckConditions)
  | skew (reference data : Event) (limit : Triple) (notifier : Option String)
  | recovery (reference data : Event) (limit : Triple) (notifier : Option String)
  | recrem (reference data : Event) (recovery removal : Triple) (notifier : Option String)
      (conditions : CheckConditions) (form : RecremForm)
  | period (reference : Event) (limit : Triple) (notifier : Option String)
  | width (reference : Event) (limit : Triple) (threshold : Option Triple)
      (notifier : Option String)

inductive TimingCheck.Kind
  | setup
  | hold
  | setuphold
  | skew
  | recovery
  | recrem
  | period
  | width
deriving DecidableEq, Repr

namespace TimingCheck

def Kind.name : Kind → String
  | setup => "Setup"
  | hold => "Hold"
  | setuphold => "SetupHold"
  | skew => "Skew"
  | recovery => "Recovery"
  | recrem => "RecRem"
  | period => "Period"
  | width => "Width"

def kind : TimingCheck → Kind
  | setup .. => .setup
  | hold .. => .hold
  | setuphold .. => .setuphold
  | skew .. => .skew
  | recovery .. => .recovery
  | recrem .. => .recrem
  | period .. => .period
  | width .. => .width

def reference : TimingCheck → Event
  | setup _ reference _ _ | hold reference _ _ _ | setuphold reference _ _ _ _ _
  | skew reference _ _ _ | recovery reference _ _ _ | recrem reference _ _ _ _ _ _
  | period reference _ _ | width reference _ _ _ => reference

def data? : TimingCheck → Option Event
  | setup data _ _ _ | hold _ data _ _ | setuphold _ data _ _ _ _ | skew _ data _ _
  | recovery _ data _ _ | recrem _ data _ _ _ _ _ => some data
  | period .. | width .. => none

end TimingCheck

end CellTiming
