import CellTiming.Proofs.Statements

/-! The tokens that mark the items of a block: tasks, the words that open an item, arrows
and strings. Expressions, events, conditions, delays and the arguments of checks take no
mark at all, a path takes one arrow, and every item exactly the marks of its kind. -/
namespace CellTiming

def Token.Kind.isMark : Token.Kind → Bool
  | .task _ | .keyword .specparam | .keyword .conditional | .keyword .ifnone
  | .symbol .parallelPath | .symbol .fullPath | .string => true
  | _ => false

def marks (ts : List Token) : List Token := ts.filter (·.kind.isMark)

@[simp] theorem marks_nil : marks [] = [] := rfl

@[simp] theorem marks_append (first second : List Token) :
    marks (first ++ second) = marks first ++ marks second :=
  List.filter_append first second

theorem marks_cons (t : Token) (ts : List Token) :
    marks (t :: ts) = if t.kind.isMark then t :: marks ts else marks ts :=
  List.filter_cons

namespace Grammar

variable {α β : Type}

/-- The marks among the tokens a rule takes satisfy a relation to its value. -/
def Marked (rule : TokenRule α) (P : List Token → α → Prop) : Prop :=
  rule.Takes fun used value => P (marks used) value

def Quiet (rule : TokenRule α) : Prop := Marked rule fun found _ => found = []

theorem Quiet.bind {rule : TokenRule α} {next : α → TokenRule β} {P : List Token → β → Prop}
    (quiet : Quiet rule) (then_marked : ∀ value, Marked (next value) P) :
    Marked (rule >>= next) P := by
  refine (Rule.Takes.bind quiet then_marked).mono ?_
  rintro used result ⟨first, value, second, rfl, nothing, holds⟩
  rw [marks_append, nothing]
  exact holds

theorem Marked.bind_quiet {rule : TokenRule α} {next : α → TokenRule β}
    {P : List Token → Prop} (marked : Marked rule fun found _ => P found)
    (then_quiet : ∀ value, Quiet (next value)) :
    Marked (rule >>= next) fun found _ => P found := by
  refine (Rule.Takes.bind marked then_quiet).mono ?_
  rintro used result ⟨first, value, second, rfl, holds, nothing⟩
  rw [marks_append, nothing, List.append_nil]
  exact holds

theorem Marked.return {rule : TokenRule α} {make : α → β} {P : List Token → α → Prop}
    {Q : List Token → β → Prop} (marked : Marked rule P)
    (made : ∀ found value, P found value → Q found (make value)) :
    Marked (rule >>= fun value => pure (make value)) Q := by
  intro ts result rest ok
  obtain ⟨value, _, head, tail⟩ := Rule.run_bind_ok.mp ok
  cases tail
  obtain ⟨used, same, holds⟩ := marked ts value rest head
  exact ⟨used, same, made _ value holds⟩

theorem Marked.ite {condition : Prop} [Decidable condition] {first second : TokenRule α}
    {P : List Token → α → Prop} (left : Marked first P) (right : Marked second P) :
    Marked (if condition then first else second) P := by
  split
  · exact left
  · exact right

theorem quiet_pure {value : α} : Quiet (pure value) := Rule.takes_pure rfl

theorem quiet_ahead {f : List Token → α} : Quiet (Rule.ahead f) := Rule.takes_ahead fun _ => rfl

private theorem marks_single {t : Token} (plain : t.kind.isMark = false) : marks [t] = [] := by
  simp [marks_cons, plain]

theorem quiet_expect {symbol : Symbol} (plain : (Token.Kind.symbol symbol).isMark = false) :
    Quiet (TokenRule.expect symbol) := by
  intro ts value rest ok
  obtain ⟨t, same, matched⟩ := TokenRule.expect_run.mp ok
  exact ⟨[t], same, marks_single (matched ▸ plain)⟩

theorem quiet_eat {symbol : Symbol} (plain : (Token.Kind.symbol symbol).isMark = false) :
    Quiet (TokenRule.eat symbol) := by
  intro ts value rest ok
  rcases TokenRule.eat_run.mp ok with ⟨_, t, same, matched⟩ | ⟨_, same, _⟩
  · exact ⟨[t], same, marks_single (matched ▸ plain)⟩
  · exact ⟨[], same, rfl⟩

section Inner

theorem TakesOf.quiet {rule : TokenRule α} (inner : TakesOf innerKinds rule) : Quiet rule := by
  have plain : ∀ kind ∈ innerKinds, kind.isMark = false := by decide
  refine Rule.Takes.mono inner fun used _ known => ?_
  exact List.filter_eq_nil_iff.mpr fun t member => by simp [plain _ (known t member)]

variable (table : Specparams)

theorem quiet_constant : Quiet (constant table) := (takesOf_constant table).quiet

theorem quiet_condition : Quiet (condition table) := (bracketed_condition table).list.inner.quiet

theorem quiet_timingCheck (task : CheckTask) : Quiet (timingCheck table task) :=
  quiet_ahead.bind fun _ => (quiet_expect rfl).bind fun _ =>
    (bracketed_checkArguments table _ task).inner.quiet.bind fun _ => (quiet_expect rfl).bind fun _ =>
    (quiet_expect rfl).bind fun _ => quiet_pure

end Inner

section Paths

variable (table : Specparams)

def OneArrow (found : List Token) : Prop := ∃ t, found = [t] ∧ t.kind.isPath = true

theorem marked_arrow : Marked arrow fun found _ => OneArrow found := by
  intro ts value rest ok
  obtain ⟨eaten, middle, head, tail⟩ := Rule.run_bind_ok.mp ok
  rcases TokenRule.eat_run.mp head with ⟨rfl, t, same, matched⟩ | ⟨rfl, same, _⟩
  · cases tail
    exact ⟨[t], same, t, by simp [marks_cons, matched, Token.Kind.isMark], by rw [matched]; rfl⟩
  · obtain ⟨_, last, expected, finish⟩ := Rule.run_bind_ok.mp tail
    obtain ⟨t, same', matched⟩ := TokenRule.expect_run.mp expected
    cases finish
    exact ⟨[t], same.trans same', t, by simp [marks_cons, matched, Token.Kind.isMark],
      by rw [matched]; rfl⟩

theorem marked_pathBody : Marked (pathBody table) fun found _ => OneArrow found := by
  have parts := takesOf_pathParts table
  refine bracketed_edge.list.inner.quiet.bind fun _ => parts.name.quiet.bind fun _ =>
    parts.arrowPolarity.quiet.bind fun _ => marked_arrow.bind_quiet fun _ =>
    (quiet_eat rfl).bind fun _ => .ite ?_ ?_
  · exact parts.name.quiet.bind fun _ => parts.sourceClause.quiet.bind fun _ =>
      (quiet_expect rfl).bind fun _ => parts.groupedDelays.quiet.bind fun _ =>
      (quiet_expect rfl).bind fun _ => quiet_pure
  · exact parts.name.quiet.bind fun _ => (quiet_expect rfl).bind fun _ =>
      (quiet_expect rfl).bind fun _ => parts.delayList.quiet.bind fun _ =>
      (quiet_expect rfl).bind fun _ => quiet_pure

theorem marked_path : Marked (path table) fun found _ => OneArrow found :=
  (quiet_expect rfl).bind fun _ => marked_pathBody table

end Paths

end Grammar

end CellTiming
