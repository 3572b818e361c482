import CellTiming.Liberty.Model

/-! Liberty text. A library is a tree of groups and attributes, written one to a line
and indented by depth; names and conditions of pins are quoted. -/
namespace CellTiming.Liberty

inductive Statement
  | simple (name value : String)
  | quoted (name value : String)
  | group (kind name : String) (body : List Statement)
deriving Inhabited

namespace Statement

def indented (width : Nat) (text : String) : String :=
  String.ofList (List.replicate width ' ') ++ text ++ "\n"

mutual

/-- The lines of a statement with the given indent per level. -/
def text (indent depth : Nat) : Statement → String
  | simple name value => indented (depth * indent) s!"{name} : {value} ;"
  | quoted name value => indented (depth * indent) s!"{name} : \"{value}\" ;"
  | group kind name body =>
    indented (depth * indent) (kind ++ " (" ++ name ++ ") \x7b") ++
      bodyText indent (depth + 1) body ++ indented (depth * indent) "\x7d"

def bodyText (indent depth : Nat) : List Statement → String
  | [] => ""
  | statement :: statements => text indent depth statement ++ bodyText indent depth statements

end

def number (name : String) (value : Float) : Statement := simple name (Decimal.plain value)

def quoted? (name : String) (value : Option String) : List Statement :=
  (value.map (quoted name)).toList

def number? (name : String) (value : Option Float) : List Statement :=
  (value.map (number name)).toList

end Statement

def Intrinsic.statements (name : String) (value : Option Intrinsic) : List Statement :=
  match value with
  | some value => (value.attributes name).map fun (name, x) => .number name x
  | none => []

def TimingGroup.statement (g : TimingGroup) : Statement :=
  .group "timing" "" <|
    [.quoted "related_pin" g.relatedPin] ++
    Statement.quoted? "when" g.when ++
    (g.timingType.map fun t => Statement.simple "timing_type" t.spelling).toList ++
    Intrinsic.statements "intrinsic_rise" g.rise ++
    Intrinsic.statements "intrinsic_fall" g.fall

def MinimumPeriod.statement (p : MinimumPeriod) : Statement :=
  .group "minimum_period" "" <|
    Statement.quoted? "when" p.when ++
    [.number "constraint_min" p.least, .number "constraint" p.typical,
      .number "constraint_max" p.greatest]

def Pin.statement (name : String) (pin : Pin) : Statement :=
  .group "pin" name <|
    pin.timing.map TimingGroup.statement ++
    pin.minimumPeriod.map MinimumPeriod.statement ++
    Statement.number? "min_pulse_width_low" pin.pulseWidthLow ++
    Statement.number? "min_pulse_width_high" pin.pulseWidthHigh

def Cell.statement (cell : Cell) : Statement :=
  .group "cell" cell.name (cell.pins.map fun (name, pin) => pin.statement name)

def Library.statement (library : Library) : Statement :=
  .group "library" library.name (library.cells.map Cell.statement)

def defaultIndent : Nat := 2

def Library.text (indent : Nat) (library : Library) : String :=
  library.statement.text indent 0

end CellTiming.Liberty
