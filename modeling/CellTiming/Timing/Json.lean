import CellTiming.Condition.Json
import CellTiming.Timing.Module

/-! The JSON form of a module's timing. -/
namespace CellTiming

def Number.Value.toJson : Value → Json
  | int value => .object [("Int", .int value)]
  | real value => .object [("Real", .real value)]

def Number.toJson (n : Number) : Json :=
  .object [("width", .int n.width), ("base", .string n.base.name), ("value", n.value.toJson)]

def Triple.toJson (t : Triple) : Json :=
  .object [("min", .real t.min), ("typ", .real t.typ), ("max", .real t.max)]

/-- The transitions by name. -/
def Transitions.fields (d : Transitions) : List (String × Triple) :=
  [("rise", d.rise), ("fall", d.fall), ("zero_to_z", d.zeroToZ), ("z_to_one", d.zToOne),
    ("one_to_z", d.oneToZ), ("z_to_zero", d.zToZero), ("zero_to_x", d.zeroToX),
    ("x_to_one", d.xToOne), ("one_to_x", d.oneToX), ("x_to_zero", d.xToZero),
    ("x_to_z", d.xToZ), ("z_to_x", d.zToX)]

def Transitions.toJson (d : Transitions) : Json :=
  .object (d.fields.map fun (name, t) => (name, t.toJson))

def Edge.toJson (e : Edge) : Json := .string e.spelling

def Event.toJson (e : Event) : Json :=
  .object [("edge", e.edge.toJson), ("signals", .ofStrings (e.signal :: e.conditions))]

def Path.toJson (p : Path) : Json :=
  .object [("input_port", .string p.input), ("output_port", .string p.output),
    ("edge", .ofOption Edge.toJson p.edge), ("parallel", .bool p.parallel),
    ("inverted", .bool p.inverted), ("source_port", .ofOptionString p.source),
    ("condition", .ofOption Condition.toJson p.condition), ("delays", p.delays.toJson)]

def PathGroup.toJson (g : PathGroup) : Json :=
  .object [("input_port", .string g.key.input), ("output_port", .string g.key.output),
    ("paths", .array (g.paths.map Path.toJson))]

def PathIndex.toJson (index : PathIndex) : Json := .array (index.groups.map PathGroup.toJson)

def CheckConditions.toJson (c : CheckConditions) : Json :=
  .object [("timestamp", .ofOption Condition.toJson c.timestamp),
    ("timecheck", .ofOption Condition.toJson c.timecheck),
    ("delayed_reference", .ofOption Condition.toJson c.delayedReference),
    ("delayed_data", .ofOption Condition.toJson c.delayedData)]

def RecremForm.toJson : RecremForm → Json
  | recrem => .string "Recrem"
  | extendedRecovery => .string "ExtendedRecovery"

namespace TimingCheck

/-- The fields of a check with a data event and one limit. -/
def simpleFields (reference data : Event) (limit : Triple) (notifier : Option String) :
    List (String × Json) :=
  [("reference_event", reference.toJson), ("data_event", data.toJson),
    ("limit", limit.toJson), ("notifier", .ofOptionString notifier)]

def toJson : TimingCheck → Json
  | setup data reference limit notifier =>
    .object [("type", .string "setup"), ("data_event", data.toJson),
      ("reference_event", reference.toJson), ("limit", limit.toJson),
      ("notifier", .ofOptionString notifier)]
  | hold reference data limit notifier =>
    .object (("type", .string "hold") :: simpleFields reference data limit notifier)
  | setuphold reference data setupLimit holdLimit notifier conditions =>
    .object [("type", .string "setuphold"), ("reference_event", reference.toJson),
      ("data_event", data.toJson), ("setup_limit", setupLimit.toJson),
      ("hold_limit", holdLimit.toJson),
      ("notifier", .ofOptionString notifier), ("conditions", conditions.toJson)]
  | skew reference data limit notifier =>
    .object (("type", .string "skew") :: simpleFields reference data limit notifier)
  | recovery reference data limit notifier =>
    .object (("type", .string "recovery") :: simpleFields reference data limit notifier)
  | recrem reference data recoveryLimit removalLimit notifier conditions form =>
    .object [("type", .string "recrem"), ("reference_event", reference.toJson),
      ("data_event", data.toJson), ("recovery_limit", recoveryLimit.toJson),
      ("removal_limit", removalLimit.toJson), ("notifier", .ofOptionString notifier),
      ("conditions", conditions.toJson), ("form", form.toJson)]
  | period reference limit notifier =>
    .object [("type", .string "period"), ("reference_event", reference.toJson),
      ("limit", limit.toJson), ("notifier", .ofOptionString notifier)]
  | width reference limit threshold notifier =>
    .object [("type", .string "width"), ("reference_event", reference.toJson),
      ("limit", limit.toJson), ("threshold", .ofOption Triple.toJson threshold),
      ("notifier", .ofOptionString notifier)]

end TimingCheck

def ModuleTiming.toJson (timing : ModuleTiming) : Json :=
  .object [("specparams", .object (timing.specparams.map fun (name, n) => (name, n.toJson))),
    ("timing_checks", .array (timing.checks.map TimingCheck.toJson)),
    ("path_delays", .array (timing.paths.map Path.toJson)),
    ("if_statements", timing.conditioned.toJson)]

end CellTiming
