import CellTiming.Liberty.Model
import CellTiming.Source.Modules

/-! From the timing of modules to the cells of a library. A path becomes a timing group
of its output pin for every edge it is sensitive to. A check becomes constraints of its
data pin; a period or width limit goes to the reference pin. Plain paths come first,
then conditioned ones group by group, then checks. -/
namespace CellTiming.Liberty

/-- The input, with the data source behind it where it is none of the names in it. -/
def relatedPin (path : Path) : String :=
  match path.source with
  | some source =>
    if (Text.pieces ' ' path.input.toList).contains source.toList then path.input
    else path.input ++ " " ++ source
  | none => path.input

/-- An inverted path applies while its input is low. -/
def pathWhen (path : Path) : Option String :=
  match path.inverted, path.condition.map Condition.text with
  | true, some condition => some ("!" ++ path.input ++ "&" ++ condition)
  | true, none => some ("!" ++ path.input)
  | false, condition => condition

def pathEdges (path : Path) : List Edge :=
  match path.edge with
  | some edge => [edge]
  | none => [.rising, .falling]

def pathGroup (path : Path) (edge : Edge) : TimingGroup where
  relatedPin := relatedPin path
  when := pathWhen path
  timingType := some (.delay edge)
  rise := some (.ofTriple path.delays.rise)
  fall := some (.ofTriple path.delays.fall)

def addPath (cell : Cell) (path : Path) : Cell :=
  cell.update path.output fun pin =>
    ((pathEdges path).map (pathGroup path)).foldl (fun pin group => pin.addTiming group) pin

def eventWhen (event : Event) : Option String :=
  if event.conditions.isEmpty then none else some ("&".intercalate event.conditions)

/-- The limit stands at the edge of the data event. -/
def constraintGroup (arc : ConstraintArc) (reference data : Event) (limit : Triple) :
    TimingGroup where
  relatedPin := reference.signal
  when := eventWhen data
  timingType := some (.constraint arc reference.edge)
  rise := if data.edge = .rising then some (.ofTriple limit) else none
  fall := if data.edge = .rising then none else some (.ofTriple limit)

def addConstraint (cell : Cell) (arc : ConstraintArc) (reference data : Event)
    (limit : Triple) : Cell :=
  cell.update data.signal (·.addTiming (constraintGroup arc reference data limit))

def addCheck (cell : Cell) : TimingCheck → Cell
  | .setup data reference limit _ => addConstraint cell .setup reference data limit
  | .hold reference data limit _ => addConstraint cell .hold reference data limit
  | .skew reference data limit _ => addConstraint cell .skew reference data limit
  | .recovery reference data limit _ => addConstraint cell .recovery reference data limit
  | .setuphold reference data setup hold _ _ =>
    addConstraint (addConstraint cell .setup reference data setup) .hold reference data hold
  | .recrem reference data recovery removal _ _ _ =>
    addConstraint (addConstraint cell .recovery reference data recovery) .removal
      reference data removal
  | .period reference limit _ =>
    cell.update reference.signal
      (·.addPeriod ⟨eventWhen reference, limit.min, limit.typ, limit.max⟩)
  | .width reference limit _ _ =>
    cell.update reference.signal fun pin =>
      { pin with pulseWidthLow := some limit.min, pulseWidthHigh := some limit.max }

/-- The cell of a module, if any pin of it has timing. -/
def cellOf? (name : String) (timing : ModuleTiming) : Option Cell :=
  let cell := timing.checks.foldl addCheck
    ((timing.paths ++ timing.conditioned.paths).foldl addPath { name })
  if cell.pins.isEmpty then none else some cell

/-- The library of the modules that have timing, if there is one. -/
def libraryOf? (name : String) (modules : List Source.NamedTiming) : Option Library :=
  let cells := modules.filterMap fun m => cellOf? m.name m.timing
  if cells.isEmpty then none else some { name, cells }

end CellTiming.Liberty
