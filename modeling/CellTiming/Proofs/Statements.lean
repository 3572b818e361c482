import CellTiming.Proofs.Balanced
import CellTiming.Proofs.Block

/-! The tokens in the items of a block. The first token of an item tells its sort, and its last one
is a semicolon, before which neither a semicolon nor a word that opens an item or a group is
taken. -/
namespace CellTiming

/-- The items that a cell is made of. -/
inductive ItemSort
  | check | path | conditioned
  deriving DecidableEq, Repr

/-- The sort of the item that a token of the kind opens. -/
def Token.Kind.opens : Token.Kind → Option ItemSort
  | .task _ => some .check
  | .symbol .leftParen => some .path
  | .keyword .conditional | .keyword .ifnone => some .conditioned
  | _ => none

def TimingItem.sort : TimingItem → Option ItemSort
  | .specparam .. => none
  | .check _ => some .check
  | .path _ => some .path
  | .conditioned .. | .ifnone .. => some .conditioned

namespace Grammar

theorem OpensItem.sort {kind : Token.Kind} {item : TimingItem} (opens : OpensItem kind item) :
    item.sort = kind.opens := by
  cases item with
  | check =>
    obtain ⟨task, rfl⟩ := opens
    rfl
  | specparam | path | conditioned | ifnone =>
    cases opens
    rfl

/-- The rule takes tokens of the given kinds only. -/
def TakesOf {α : Type} (kinds : List Token.Kind) (rule : TokenRule α) : Prop :=
  rule.Takes fun used _ => ∀ t ∈ used, t.kind ∈ kinds

/-- The kinds of tokens around the arrow of a path and in the arguments of a check. -/
def innerKinds : List Token.Kind :=
  .symbol .leftParen :: .symbol .rightParen :: .symbol .assign :: listKinds

def statementKinds : List Token.Kind :=
  .string :: .symbol .parallelPath :: .symbol .fullPath :: innerKinds

section Composition

variable {α β : Type} {kinds : List Token.Kind} {rule : TokenRule α} {next : α → TokenRule β}

theorem TakesOf.bind (first : TakesOf kinds rule) (second : ∀ value, TakesOf kinds (next value)) :
    TakesOf kinds (rule >>= next) := by
  refine (Rule.Takes.bind first second).mono ?_
  rintro _ _ ⟨_, _, _, rfl, left, right⟩
  exact List.forall_mem_append.mpr ⟨left, right⟩

theorem TakesOf.ite {condition : Prop} [Decidable condition] {other : TokenRule α}
    (left : TakesOf kinds rule) (right : TakesOf kinds other) :
    TakesOf kinds (if condition then rule else other) := by
  split
  · exact left
  · exact right

theorem TakesOf.statement (inner : TakesOf innerKinds rule) : TakesOf statementKinds rule :=
  Rule.Takes.mono inner fun _ _ known t member => by simp [statementKinds, known t member]

theorem Bracketed.inner (bracketed : Bracketed listKinds rule) : TakesOf innerKinds rule :=
  Rule.Takes.mono bracketed fun _ _ balanced =>
    balanced.forall_mem (p := (· ∈ innerKinds)) (by decide)

theorem takesOf_pure {value : α} : TakesOf kinds (pure value) :=
  Rule.takes_pure (List.forall_mem_nil _)

theorem takesOf_fail {error : SourceError} : TakesOf kinds (Rule.fail error : TokenRule α) :=
  Rule.takes_fail

theorem takesOf_ahead {f : List Token → α} : TakesOf kinds (Rule.ahead f) :=
  Rule.takes_ahead fun _ => List.forall_mem_nil _

theorem takesOf_take {kind : Token.Kind} (known : kind ∈ kinds) :
    TakesOf kinds (TokenRule.take kind) := by
  intro ts value rest ok
  obtain ⟨rfl, matched⟩ := TokenRule.take_run.mp ok
  exact ⟨[value], rfl, by simp [matched, known]⟩

theorem takesOf_take? {kind : Token.Kind} (known : kind ∈ kinds) :
    TakesOf kinds (TokenRule.take? kind) := by
  intro ts value rest ok
  rcases TokenRule.take?_run.mp ok with ⟨t, rfl, rfl, matched⟩ | ⟨rfl, rfl, _⟩
  · exact ⟨[t], rfl, by simp [matched, known]⟩
  · exact ⟨[], rfl, List.forall_mem_nil _⟩

theorem takesOf_expect {symbol : Symbol} (known : .symbol symbol ∈ kinds) :
    TakesOf kinds (TokenRule.expect symbol) :=
  (takesOf_take known).bind fun _ => takesOf_pure

theorem takesOf_eat {symbol : Symbol} (known : .symbol symbol ∈ kinds) :
    TakesOf kinds (TokenRule.eat symbol) :=
  (takesOf_take? known).bind fun _ => takesOf_pure

theorem takesOf_name (known : .name ∈ kinds) : TakesOf kinds TokenRule.name :=
  (takesOf_take known).bind fun _ => takesOf_pure

theorem takesOf_number (known : .number ∈ kinds) : TakesOf kinds TokenRule.number := by
  refine (takesOf_take known).bind fun t => ?_
  split
  · exact takesOf_pure
  · exact takesOf_fail

theorem takesOf_following {separator : Symbol} (known : .symbol separator ∈ kinds)
    (takes : TakesOf kinds rule) : TakesOf kinds (TokenRule.following separator rule) := by
  refine (TokenRule.following_takes takes).mono fun used values row => ?_
  induction row with
  | nil => exact List.forall_mem_nil _
  | cons head _ ih =>
    obtain ⟨sign, piece⟩ := head
    exact List.forall_mem_cons.mpr ⟨sign ▸ known, List.forall_mem_append.mpr ⟨piece, ih⟩⟩

end Composition

section Paths

variable (table : Specparams)

theorem takesOf_constant : TakesOf innerKinds (constant table) := (bracketed_constant table).list.inner

theorem takesOf_delayValue : TakesOf innerKinds (delayValue table) :=
  (bracketed_delayValue table).list.inner

theorem composed_takesOf {kinds : List Token.Kind} : Composed fun _ => TakesOf kinds where
  unit := takesOf_pure
  bind := .bind

theorem takesOf_listParts : ListParts table fun _ => TakesOf innerKinds where
  toComposed := composed_takesOf
  kind := takesOf_ahead
  opening := takesOf_eat (by decide)
  closing := takesOf_eat (by decide)
  constant := takesOf_constant table
  continuing left := ((knows_constants table).continuing left).list.inner
  valueFrom first := ((bracketed_termParts table).valueFrom first).list.inner
  delayValue := takesOf_delayValue table
  others := takesOf_following (by decide) (takesOf_delayValue table)
  ending delays := by
    refine takesOf_ahead.bind fun _ => (takesOf_expect (by decide)).bind fun _ => ?_
    cases delays with
    | some => exact takesOf_pure
    | none => exact takesOf_fail

theorem takesOf_delayList : TakesOf innerKinds (delayList table) := (takesOf_listParts table).delayList

theorem takesOf_pathParts : PathParts table fun _ => TakesOf innerKinds where
  toComposed := composed_takesOf
  kind := takesOf_ahead
  signed _ := takesOf_ahead
  minus := takesOf_eat (by decide)
  plus := takesOf_expect (by decide)
  colon := takesOf_expect (by decide)
  closed := takesOf_eat (by decide)
  closing := takesOf_expect (by decide)
  assign := takesOf_expect (by decide)
  name := takesOf_name (by decide)
  number := takesOf_number (by decide)
  misplaced := Rule.takes_failAt
  delayList := takesOf_delayList table

theorem takesOf_arrow : TakesOf statementKinds arrow :=
  (takesOf_eat (by decide)).bind fun _ =>
    .ite takesOf_pure ((takesOf_expect (by decide)).bind fun _ => takesOf_pure)

end Paths

section Statements

variable {α β : Type} {rule : TokenRule α}

/-- The rule takes the rest of an item, of whose tokens only the last is a semicolon. -/
def TakesStatement (rule : TokenRule α) : Prop :=
  rule.Takes fun used _ => ∃ body stop, used = body ++ [stop] ∧
    (∀ u ∈ body, u.kind ∈ statementKinds) ∧ stop.kind = .symbol .semicolon

theorem TakesOf.bind_statement {next : α → TokenRule β} (first : TakesOf statementKinds rule)
    (second : ∀ value, TakesStatement (next value)) : TakesStatement (rule >>= next) := by
  refine (Rule.Takes.bind first second).mono ?_
  rintro _ _ ⟨front, _, _, rfl, known, body, stop, rfl, inner, ends⟩
  exact ⟨front ++ body, stop, (List.append_assoc _ _ _).symm,
    List.forall_mem_append.mpr ⟨known, inner⟩, ends⟩

theorem TakesStatement.return {f : α → β} (takes : TakesStatement rule) :
    TakesStatement (rule >>= fun value => pure (f value)) := by
  intro ts value rest ok
  obtain ⟨made, middle, head, tail⟩ := Rule.run_bind_ok.mp ok
  cases tail
  exact takes ts made rest head

theorem TakesStatement.ite {condition : Prop} [Decidable condition] {other : TokenRule α}
    (left : TakesStatement rule) (right : TakesStatement other) :
    TakesStatement (if condition then rule else other) := by
  split
  · exact left
  · exact right

theorem takesStatement_semicolon : TakesStatement (TokenRule.expect .semicolon) := by
  intro ts value rest ok
  obtain ⟨t, same, kind⟩ := TokenRule.expect_run.mp ok
  exact ⟨[t], same, [], t, rfl, List.forall_mem_nil _, kind⟩

variable (table : Specparams)

theorem takesStatement_timingCheck (task : CheckTask) : TakesStatement (timingCheck table task) :=
  takesOf_ahead.bind_statement fun _ => (takesOf_expect (by decide)).bind_statement fun _ =>
    (bracketed_checkArguments table _ task).inner.statement.bind_statement fun _ =>
    (takesOf_expect (by decide)).bind_statement fun _ => takesStatement_semicolon.return

theorem takesStatement_pathBody : TakesStatement (pathBody table) := by
  have name : TakesOf statementKinds TokenRule.name := takesOf_name (by decide)
  have closing : TakesOf statementKinds (TokenRule.expect .rightParen) := takesOf_expect (by decide)
  have parts := takesOf_pathParts table
  refine bracketed_edge.list.inner.statement.bind_statement fun _ => name.bind_statement fun _ =>
    parts.arrowPolarity.statement.bind_statement fun _ => takesOf_arrow.bind_statement fun _ =>
    (takesOf_eat (by decide)).bind_statement fun _ => .ite ?_ ?_
  · exact name.bind_statement fun _ => parts.sourceClause.statement.bind_statement fun _ =>
      closing.bind_statement fun _ => parts.groupedDelays.statement.bind_statement fun _ =>
      takesStatement_semicolon.return
  · exact name.bind_statement fun _ => closing.bind_statement fun _ =>
      (takesOf_expect (by decide)).bind_statement fun _ =>
      (takesOf_delayList table).statement.bind_statement fun _ => takesStatement_semicolon.return

theorem takesStatement_path : TakesStatement (path table) :=
  (takesOf_expect (by decide)).bind_statement fun _ => takesStatement_pathBody table

theorem takesStatement_specparam : TakesStatement (specparam table) := by
  refine (takesOf_take (by decide)).bind_statement fun _ =>
    (takesOf_expect (by decide)).bind_statement fun _ =>
    (takesOf_take? (by decide)).bind_statement fun _ => .ite takesStatement_semicolon.return ?_
  exact (takesOf_constant table).statement.bind_statement fun _ => takesStatement_semicolon.return

theorem takesStatement_conditionedPath : TakesStatement (conditionedPath table) :=
  (takesOf_expect (by decide)).bind_statement fun _ =>
    (bracketed_condition table).list.inner.statement.bind_statement fun _ =>
    (takesOf_expect (by decide)).bind_statement fun _ => (takesStatement_path table).return

theorem takesStatement_itemAfter (t : Token) : TakesStatement (itemAfter table t) := by
  unfold itemAfter
  split
  · exact takesStatement_specparam table
  · exact takesStatement_conditionedPath table
  · exact (takesStatement_path table).return
  · exact (takesStatement_pathBody table).return
  · exact (takesStatement_timingCheck table _).return
  · exact Rule.takes_fail

end Statements

end Grammar

end CellTiming
