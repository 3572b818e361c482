import CellTiming.Number.Basic
import CellTiming.Source.Error
import CellTiming.Timing.Check
import CellTiming.Timing.Path

/-! The timing of one module, and the items it is gathered from. A module holds its
numeric specparams in the order of declaration, its checks, its plain paths and its
conditioned paths. -/
namespace CellTiming

abbrev Specparams := List (String × Number)

structure ModuleTiming where
  specparams : Specparams := []
  checks : List TimingCheck := []
  paths : List Path := []
  conditioned : PathIndex := {}

inductive TimingItem
  /-- A declaration and the line of its name; one of a string has no value. -/
  | specparam (line : Nat) (name : String) (value : Option Number)
  | check (check : TimingCheck)
  | path (path : Path)
  | conditioned (condition : Condition) (path : Path)
  | ifnone (line : Nat) (path : Path)

namespace ModuleTiming

def hasNoTiming (timing : ModuleTiming) : Bool :=
  timing.checks.isEmpty && timing.paths.isEmpty && timing.conditioned.isEmpty

/-- True when no earlier path between the same signals is taken. -/
def ifnoneCondition (timing : ModuleTiming) (key : PathKey) : Option Condition :=
  Condition.noneOf (((timing.conditioned.get? key).getD []).filterMap (·.condition))

def add (timing : ModuleTiming) : TimingItem → Except SourceError ModuleTiming
  | .specparam _ _ none => .ok timing
  | .specparam line name (some value) =>
    if (timing.specparams.lookup name).isSome then .error (.specparamRedefined line name)
    else .ok { timing with specparams := timing.specparams ++ [(name, value)] }
  | .check check => .ok { timing with checks := timing.checks ++ [check] }
  | .path path => .ok { timing with paths := timing.paths ++ [path] }
  | .conditioned condition path =>
    let path := { path with condition := some condition }
    .ok { timing with conditioned := timing.conditioned.push path }
  | .ifnone line path =>
    match timing.ifnoneCondition path.key with
    | some condition =>
      let path := { path with condition := some condition }
      .ok { timing with conditioned := timing.conditioned.push path }
    | none => .error (.ifnoneUncovered line)

end ModuleTiming

end CellTiming
