import CellTiming.Json.Value
import CellTiming.Liberty.Model

/-! The JSON form of a library. Attributes have the names they have in Liberty text,
and those without a value are left out. -/
namespace CellTiming.Liberty

/-- A field, if there is a value for it. -/
def fieldOf {α : Type} (name : String) (toJson : α → Json) (value : Option α) :
    List (String × Json) :=
  (value.map fun value => (name, toJson value)).toList

def Intrinsic.fields (name : String) (value : Option Intrinsic) : List (String × Json) :=
  match value with
  | some value => (value.attributes name).map fun (name, x) => (name, .real x)
  | none => []

/-- The words of a timing type, each with a capital. -/
def TimingType.title : TimingType → String
  | delay .rising => "RisingEdge"
  | delay .falling => "FallingEdge"
  | constraint .setup .rising => "SetupRising"
  | constraint .setup .falling => "SetupFalling"
  | constraint .hold .rising => "HoldRising"
  | constraint .hold .falling => "HoldFalling"
  | constraint .skew .rising => "SkewRising"
  | constraint .skew .falling => "SkewFalling"
  | constraint .recovery .rising => "RecoveryRising"
  | constraint .recovery .falling => "RecoveryFalling"
  | constraint .removal .rising => "RemovalRising"
  | constraint .removal .falling => "RemovalFalling"

/-- Words with capitals as words in lower case, with underscores between them. -/
def snakeCase (title : String) : String :=
  match title.toList with
  | [] => ""
  | c :: cs =>
    String.ofList <| c.toLower ::
      cs.flatMap fun c => if c.isUpper then ['_', c.toLower] else [c.toLower]

def TimingGroup.toJson (g : TimingGroup) : Json :=
  .object <|
    [("related_pin", .string g.relatedPin)] ++
    fieldOf "when" .string g.when ++
    fieldOf "timing_type" (fun t => .string (snakeCase t.title)) g.timingType ++
    Intrinsic.fields "intrinsic_rise" g.rise ++
    Intrinsic.fields "intrinsic_fall" g.fall

def MinimumPeriod.toJson (p : MinimumPeriod) : Json :=
  .object <|
    fieldOf "when" .string p.when ++
    [("constraint_min", .real p.least), ("constraint", .real p.typical),
      ("constraint_max", .real p.greatest)]

def Pin.toJson (pin : Pin) : Json :=
  .object <|
    [("timing", .array (pin.timing.map TimingGroup.toJson)),
      ("minimum_period", .array (pin.minimumPeriod.map MinimumPeriod.toJson))] ++
    fieldOf "min_pulse_width_low" .real pin.pulseWidthLow ++
    fieldOf "min_pulse_width_high" .real pin.pulseWidthHigh

def Cell.toJson (cell : Cell) : Json :=
  .object [("name", .string cell.name),
    ("pins", .object (cell.pins.map fun (name, pin) => (name, pin.toJson)))]

def Library.toJson (library : Library) : Json :=
  .object [("name", .string library.name), ("cells", .array (library.cells.map Cell.toJson))]

end CellTiming.Liberty
