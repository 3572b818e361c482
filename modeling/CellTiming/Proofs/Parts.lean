import CellTiming.Grammar.Block

/-! Properties that rules take over from their parts. For each family of rules its parts are
listed once; a property of the parts that carries over to compositions is a property of every
rule of the family. -/
namespace CellTiming.Grammar

open TokenRule (eat expect following number)

variable {table : Specparams} {P : (α : Type) → TokenRule α → Prop}

/-- The property carries over from rules to what is composed of them. -/
structure Composed (P : (α : Type) → TokenRule α → Prop) : Prop where
  unit : ∀ {α : Type} {value : α}, P α (pure value)
  bind : ∀ {α β : Type} {rule : TokenRule α} {next : α → TokenRule β},
    P α rule → (∀ value, P β (next value)) → P β (rule >>= next)

theorem Composed.ite (_ : Composed P) {α : Type} {condition : Prop} [Decidable condition]
    {first second : TokenRule α} (left : P α first) (right : P α second) :
    P α (if condition then first else second) := by
  split
  · exact left
  · exact right

/-- A property of what is ahead and of an argument is one of an argument that may be left out. -/
theorem Composed.optional (composed : Composed P) {α : Type} {rule : TokenRule α}
    (kind : P Token.Kind TokenRule.kind) (holds : P α rule) : P (Option α) (optional rule) := by
  refine composed.bind kind fun kind => ?_
  split
  · exact composed.unit
  · exact composed.unit
  · exact composed.bind holds fun _ => composed.unit

/-- The parts of events and of values outside of parentheses. -/
structure TermParts (table : Specparams) (P : (α : Type) → TokenRule α → Prop) : Prop
    extends Composed P where
  rising : P Bool (TokenRule.eatKeyword .posedge)
  falling : P Bool (TokenRule.eatKeyword .negedge)
  eventTerm : P String eventTerm
  terms : P (List String) (following .tripleAmp Grammar.eventTerm)
  constant : P Number (constant table)
  triple : P Bool (eat .colon)
  colon : P Unit (expect .colon)

section Terms

variable (parts : TermParts table P)

include parts

theorem TermParts.edge : P (Option Edge) edge? :=
  parts.bind parts.rising fun _ => parts.ite parts.unit
    (parts.bind parts.falling fun _ => parts.ite parts.unit parts.unit)

theorem TermParts.event : P Event event :=
  parts.bind parts.edge fun _ => parts.bind parts.eventTerm fun _ =>
    parts.bind parts.terms fun _ => parts.unit

theorem TermParts.tripleFrom (least : Number) : P Triple (tripleFrom table least) :=
  parts.bind parts.constant fun _ => parts.bind parts.colon fun _ =>
    parts.bind parts.constant fun _ => parts.unit

theorem TermParts.valueFrom (first : Number) : P Triple (valueFrom table first) :=
  parts.bind parts.triple fun _ => parts.ite (parts.tripleFrom first) parts.unit

end Terms

/-- The parts of single values. -/
structure ValueParts (table : Specparams) (P : (α : Type) → TokenRule α → Prop) : Prop
    extends TermParts table P where
  opening : P Bool (eat .leftParen)
  closing : P Unit (expect .rightParen)
  continuing : ∀ left, P Number ((constants table).continuing left)

theorem ValueParts.delayValue (parts : ValueParts table P) : P Triple (delayValue table) := by
  refine parts.bind parts.opening fun _ => parts.ite ?_ ?_
  · refine parts.bind parts.constant fun inner => parts.bind parts.triple fun _ => parts.ite ?_ ?_
    · exact parts.bind (parts.tripleFrom inner) fun _ => parts.bind parts.closing fun _ => parts.unit
    · exact parts.bind parts.closing fun _ => parts.bind (parts.continuing inner) fun _ =>
        parts.valueFrom _
  · exact parts.bind parts.constant fun _ => parts.valueFrom _

/-- The parts of lists of delays. -/
structure ListParts (table : Specparams) (P : (α : Type) → TokenRule α → Prop) : Prop
    extends Composed P where
  kind : P Token.Kind TokenRule.kind
  opening : P Bool (eat .leftParen)
  closing : P Bool (eat .rightParen)
  constant : P Number (constant table)
  continuing : ∀ left, P Number ((constants table).continuing left)
  valueFrom : ∀ first, P Triple (valueFrom table first)
  delayValue : P Triple (delayValue table)
  others : P (List Triple) (following .comma (Grammar.delayValue table))
  ending : ∀ delays : Option Transitions, P Transitions (do
    let blame ← TokenRule.blame
    expect .rightParen
    match delays with
    | some delays => return delays
    | none => Rule.fail blame)

section Lists

variable (parts : ListParts table P)

include parts

theorem ListParts.delayListFrom (first : Triple) : P Transitions (delayListFrom table first) :=
  parts.bind parts.others fun others =>
    parts.ending (Transitions.ofValues? (first :: others))

theorem ListParts.delayList : P Transitions (delayList table) := by
  refine parts.bind parts.opening fun _ => parts.ite ?_ ?_
  · refine parts.bind parts.kind fun _ => parts.ite ?_ ?_
    · exact parts.bind parts.delayValue fun _ => parts.delayListFrom _
    · refine parts.bind parts.constant fun head => parts.bind parts.closing fun _ => parts.ite ?_ ?_
      · exact parts.bind (parts.continuing head) fun _ => parts.bind (parts.valueFrom _) fun _ =>
          parts.unit
      · exact parts.bind (parts.valueFrom _) fun _ => parts.delayListFrom _
  · exact parts.bind parts.delayValue fun _ => parts.unit

end Lists

/-- The parts of the arguments of a check. -/
structure CheckParts (table : Specparams) (P : (α : Type) → TokenRule α → Prop) : Prop
    extends Composed P where
  kind : P Token.Kind TokenRule.kind
  name : P String TokenRule.name
  more : P Bool (eat .comma)
  comma : P Unit (expect .comma)
  event : P Event event
  condition : P Condition (condition table)
  delayValue : P Triple (delayValue table)

section Checks

variable (parts : CheckParts table P)

include parts

theorem CheckParts.lastNotifier : P (Option String) lastNotifier :=
  parts.bind parts.more fun _ => parts.ite (parts.optional parts.kind parts.name) parts.unit

theorem CheckParts.checkTail : P (Option String × CheckConditions) (checkTail table) := by
  have slot := parts.optional parts.kind parts.condition
  refine parts.bind parts.more fun _ => parts.ite ?_ parts.unit
  refine parts.bind (parts.optional parts.kind parts.name) fun _ =>
    parts.bind parts.more fun _ => parts.ite ?_ parts.unit
  refine parts.bind slot fun _ => parts.bind parts.comma fun _ => parts.bind slot fun _ =>
    parts.bind parts.more fun _ => parts.ite ?_ parts.unit
  exact parts.bind slot fun _ => parts.bind parts.comma fun _ => parts.bind slot fun _ => parts.unit

theorem CheckParts.recrem (form : RecremForm) : P TimingCheck (recrem table form) := by
  refine parts.bind parts.event fun _ => parts.bind parts.comma fun _ =>
    parts.bind parts.event fun _ => parts.bind parts.comma fun _ =>
    parts.bind parts.delayValue fun _ => parts.bind parts.comma fun _ =>
    parts.bind parts.delayValue fun _ => parts.bind parts.checkTail fun _ => ?_
  cases form <;> exact parts.unit

theorem CheckParts.simpleCheck (make : Event → Event → Triple → Option String → TimingCheck) :
    P TimingCheck (simpleCheck table make) :=
  parts.bind parts.event fun _ => parts.bind parts.comma fun _ =>
    parts.bind parts.event fun _ => parts.bind parts.comma fun _ =>
    parts.bind parts.delayValue fun _ => parts.bind parts.lastNotifier fun _ => parts.unit

theorem CheckParts.setuphold : P TimingCheck (setuphold table) :=
  parts.bind parts.event fun _ => parts.bind parts.comma fun _ =>
    parts.bind parts.event fun _ => parts.bind parts.comma fun _ =>
    parts.bind parts.delayValue fun _ => parts.bind parts.comma fun _ =>
    parts.bind parts.delayValue fun _ => parts.bind parts.checkTail fun _ => parts.unit

theorem CheckParts.period : P TimingCheck (period table) :=
  parts.bind parts.event fun _ => parts.bind parts.comma fun _ =>
    parts.bind parts.delayValue fun _ => parts.bind parts.lastNotifier fun _ => parts.unit

theorem CheckParts.width : P TimingCheck (width table) := by
  refine parts.bind parts.event fun _ => parts.bind parts.comma fun _ =>
    parts.bind parts.delayValue fun _ => parts.bind parts.more fun _ => parts.ite ?_ parts.unit
  exact parts.bind (parts.optional parts.kind parts.delayValue) fun _ =>
    parts.bind parts.lastNotifier fun _ => parts.unit

theorem CheckParts.checkArguments (arguments : Nat) (task : CheckTask) :
    P TimingCheck (checkArguments table arguments task) := by
  cases task with
  | setup | hold | skew => exact parts.simpleCheck _
  | setuphold => exact parts.setuphold
  | recovery => exact parts.ite (parts.recrem .extendedRecovery) (parts.simpleCheck _)
  | period => exact parts.period
  | width => exact parts.width
  | recrem => exact parts.recrem .recrem

end Checks

/-- The parts of paths around their arrows. -/
structure PathParts (table : Specparams) (P : (α : Type) → TokenRule α → Prop) : Prop
    extends Composed P where
  kind : P Token.Kind TokenRule.kind
  signed : ∀ test : Token.Kind → Token.Kind → Bool, P Bool (Rule.ahead fun
    | sign :: next :: _ => test sign.kind next.kind
    | _ => false)
  minus : P Bool (eat .minus)
  plus : P Unit (expect .plus)
  colon : P Unit (expect .colon)
  closed : P Bool (eat .rightParen)
  closing : P Unit (expect .rightParen)
  assign : P Unit (expect .assign)
  name : P String TokenRule.name
  number : P Number number
  misplaced : P String TokenRule.unexpected
  delayList : P Transitions (delayList table)

section Paths

variable (parts : PathParts table P)

include parts

theorem PathParts.arrowPolarity : P Bool arrowPolarity :=
  parts.bind (parts.signed fun sign next =>
    (sign == .symbol .plus || sign == .symbol .minus) && next.isPath) fun _ => parts.ite
    (parts.bind parts.minus fun _ => parts.ite parts.unit
      (parts.bind parts.plus fun _ => parts.unit))
    parts.unit

theorem PathParts.dataSource : P String dataSource := by
  refine parts.bind parts.kind fun kind => ?_
  split
  · exact parts.name
  · exact parts.bind parts.number fun _ => parts.unit
  · exact parts.misplaced

theorem PathParts.sourceClause : P (Bool × Option String) sourceClause := by
  have after (inverted : Bool) : P (Bool × Option String) (do
      expect .colon
      return (inverted, some (← Grammar.dataSource))) :=
    parts.bind parts.colon fun _ => parts.bind parts.dataSource fun _ => parts.unit
  refine parts.bind parts.kind fun _ => parts.ite parts.unit (parts.bind (parts.signed fun sign next =>
    (sign == .symbol .plus || sign == .symbol .minus) && next == .symbol .colon) fun _ =>
    parts.ite ?_ ?_)
  · exact parts.bind parts.minus fun inverted =>
      parts.ite (parts.bind parts.plus fun _ => after inverted) (after inverted)
  · exact parts.bind parts.unit fun inverted =>
      parts.ite (parts.bind parts.plus fun _ => after inverted) (after inverted)

theorem PathParts.groupedDelays : P Transitions (groupedDelays table) :=
  parts.bind parts.closed fun _ => parts.ite
    (parts.bind parts.assign fun _ => parts.delayList)
    (parts.bind parts.assign fun _ => parts.bind parts.delayList fun _ =>
      parts.bind parts.closing fun _ => parts.unit)

end Paths

/-- The parts of checks and of paths as they stand in a block. -/
structure ItemParts (table : Specparams) (P : (α : Type) → TokenRule α → Prop) : Prop
    extends PathParts table P where
  edge : P (Option Edge) edge?
  parallel : P Bool (eat .parallelPath)
  full : P Unit (expect .fullPath)
  grouped : P Bool (eat .leftParen)
  opening : P Unit (expect .leftParen)
  semicolon : P Unit (expect .semicolon)
  count : P Nat (Rule.ahead (countArguments 0 1))
  checkArguments : ∀ arguments task, P TimingCheck (checkArguments table arguments task)

section Items

variable (parts : ItemParts table P)

include parts

theorem ItemParts.arrow : P Bool arrow :=
  parts.bind parts.parallel fun _ => parts.ite parts.unit
    (parts.bind parts.full fun _ => parts.unit)

theorem ItemParts.pathBody : P Path (pathBody table) := by
  refine parts.bind parts.edge fun _ => parts.bind parts.name fun _ =>
    parts.bind parts.arrowPolarity fun _ => parts.bind parts.arrow fun _ =>
    parts.bind parts.grouped fun _ => parts.ite ?_ ?_
  · exact parts.bind parts.name fun _ => parts.bind parts.sourceClause fun _ =>
      parts.bind parts.closing fun _ => parts.bind parts.groupedDelays fun _ =>
      parts.bind parts.semicolon fun _ => parts.unit
  · exact parts.bind parts.name fun _ => parts.bind parts.closing fun _ =>
      parts.bind parts.assign fun _ => parts.bind parts.delayList fun _ =>
      parts.bind parts.semicolon fun _ => parts.unit

theorem ItemParts.path : P Path (path table) :=
  parts.bind parts.opening fun _ => parts.pathBody

theorem ItemParts.timingCheck (task : CheckTask) : P TimingCheck (timingCheck table task) :=
  parts.bind parts.count fun _ => parts.bind parts.opening fun _ =>
    parts.bind (parts.checkArguments _ task) fun _ => parts.bind parts.closing fun _ =>
    parts.bind parts.semicolon fun _ => parts.unit

end Items

end CellTiming.Grammar
