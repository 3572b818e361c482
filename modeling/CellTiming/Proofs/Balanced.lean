import CellTiming.Grammar.Check
import CellTiming.Proofs.Operators
import CellTiming.Proofs.Parts

/-! The parentheses in the arguments of a call. They come in pairs, so a call ends at the
parenthesis that closes it, and its arguments are counted without a look behind it. -/
namespace CellTiming

/-- Tokens of some kinds, and groups of them in parentheses. -/
inductive Balanced (plain : List Token.Kind) : List Token → Prop
  | nil : Balanced plain []
  | token {t} (known : t.kind ∈ plain) : Balanced plain [t]
  | append {first second} (left : Balanced plain first) (right : Balanced plain second) :
      Balanced plain (first ++ second)
  | group {opening inner closing} (opens : opening.kind = .symbol .leftParen)
      (closes : closing.kind = .symbol .rightParen) (within : Balanced plain inner) :
      Balanced plain (opening :: (inner ++ [closing]))

/-- The kinds of tokens in one argument, but for parentheses. -/
def argumentKinds : List Token.Kind :=
  [.name, .number, .keyword .posedge, .keyword .negedge, .symbol .plus, .symbol .minus,
    .symbol .bang, .symbol .tilde, .symbol .amp, .symbol .ampAmp, .symbol .tripleAmp,
    .symbol .eqEq, .symbol .eqEqEq, .symbol .colon]

def listKinds : List Token.Kind := .symbol .comma :: argumentKinds

section Balanced

variable {plain : List Token.Kind} {used : List Token}

theorem Balanced.list (balanced : Balanced argumentKinds used) : Balanced listKinds used := by
  induction balanced with
  | nil => exact .nil
  | token known => exact .token (List.mem_cons_of_mem _ known)
  | append _ _ left right => exact .append left right
  | group opens closes _ within => exact .group opens closes within

theorem Balanced.forall_mem {p : Token.Kind → Prop} (balanced : Balanced plain used)
    (known : ∀ kind ∈ .symbol .leftParen :: .symbol .rightParen :: plain, p kind) :
    ∀ t ∈ used, p t.kind := by
  induction balanced with
  | nil => simp
  | token kind => simpa using known _ (by simp [kind])
  | append _ _ left right => exact List.forall_mem_append.mpr ⟨left, right⟩
  | group opens closes _ within =>
    refine List.forall_mem_cons.mpr ⟨known _ (by simp [opens]), ?_⟩
    exact List.forall_mem_append.mpr ⟨within, by simpa using known _ (by simp [closes])⟩

end Balanced

namespace Grammar

open Operators TokenRule

/-- What the rule takes is balanced. -/
def Bracketed {α : Type} (plain : List Token.Kind) (rule : TokenRule α) : Prop :=
  rule.Takes fun used _ => Balanced plain used

/-- The rule takes the end of a group that was opened before. -/
def ClosesGroup {α : Type} (plain : List Token.Kind) (rule : TokenRule α) : Prop :=
  rule.Takes fun used _ => ∃ inner closing more, used = inner ++ closing :: more ∧
    Balanced plain inner ∧ closing.kind = .symbol .rightParen ∧ Balanced plain more

section Composition

variable {α β : Type} {plain : List Token.Kind} {rule : TokenRule α} {next : α → TokenRule β}

theorem Bracketed.list (bracketed : Bracketed argumentKinds rule) : Bracketed listKinds rule :=
  Rule.Takes.mono bracketed fun _ _ => Balanced.list

theorem Bracketed.bind (first : Bracketed plain rule)
    (second : ∀ value, Bracketed plain (next value)) : Bracketed plain (rule >>= next) := by
  refine (Rule.Takes.bind first second).mono ?_
  rintro _ _ ⟨_, _, _, rfl, left, right⟩
  exact left.append right

theorem Bracketed.ite {condition : Prop} [Decidable condition] {other : TokenRule α}
    (left : Bracketed plain rule) (right : Bracketed plain other) :
    Bracketed plain (if condition then rule else other) := by
  split
  · exact left
  · exact right

theorem bracketed_pure {value : α} : Bracketed plain (pure value) := Rule.takes_pure .nil

theorem bracketed_kind : Bracketed plain TokenRule.kind := Rule.takes_ahead fun _ => .nil

theorem bracketed_expect {symbol : Symbol} (known : .symbol symbol ∈ plain) :
    Bracketed plain (expect symbol) := by
  intro ts value rest ok
  obtain ⟨t, same, matched⟩ := expect_run.mp ok
  exact ⟨[t], same, .token (matched ▸ known)⟩

theorem bracketed_eat {symbol : Symbol} (known : .symbol symbol ∈ plain) :
    Bracketed plain (eat symbol) := by
  intro ts value rest ok
  rcases eat_run.mp ok with ⟨_, t, same, matched⟩ | ⟨_, same, _⟩
  · exact ⟨[t], same, .token (matched ▸ known)⟩
  · exact ⟨[], same, .nil⟩

theorem bracketed_eatKeyword {keyword : Keyword} (known : .keyword keyword ∈ plain) :
    Bracketed plain (eatKeyword keyword) := by
  intro ts value rest ok
  rcases eatKeyword_run.mp ok with ⟨_, t, same, matched⟩ | ⟨_, same, _⟩
  · exact ⟨[t], same, .token (matched ▸ known)⟩
  · exact ⟨[], same, .nil⟩

theorem bracketed_name (known : .name ∈ plain) : Bracketed plain name := by
  intro ts value rest ok
  obtain ⟨t, same, matched, _⟩ := name_run.mp ok
  exact ⟨[t], same, .token (matched ▸ known)⟩

theorem bracketed_following {separator : Symbol} (known : .symbol separator ∈ plain)
    (bracketed : Bracketed plain rule) : Bracketed plain (following separator rule) := by
  refine (following_takes bracketed).mono fun used values row => ?_
  induction row with
  | nil => exact .nil
  | cons head _ ih =>
    obtain ⟨sign, balanced⟩ := head
    exact .append (.token (sign ▸ known)) (.append balanced ih)

theorem Bracketed.bind_closes (first : Bracketed plain rule)
    (second : ∀ value, ClosesGroup plain (next value)) : ClosesGroup plain (rule >>= next) := by
  refine (Rule.Takes.bind first second).mono ?_
  rintro _ _ ⟨_, _, _, rfl, left, inner, closing, more, rfl, within, closes, behind⟩
  exact ⟨_, closing, more, (List.append_assoc _ _ _).symm, left.append within, closes, behind⟩

theorem closesGroup_expect {next : Unit → TokenRule β} (behind : Bracketed plain (next ())) :
    ClosesGroup plain (expect .rightParen >>= next) := by
  intro ts result rest ok
  obtain ⟨_, middle, head, tail⟩ := Rule.run_bind_ok.mp ok
  obtain ⟨closing, rfl, closes⟩ := expect_run.mp head
  obtain ⟨more, rfl, balanced⟩ := behind middle result rest tail
  exact ⟨closing :: more, rfl, [], closing, more, rfl, .nil, closes, balanced⟩

theorem bracketed_group {next : Bool → TokenRule β} (inside : ClosesGroup plain (next true))
    (outside : Bracketed plain (next false)) : Bracketed plain (eat .leftParen >>= next) := by
  intro ts result rest ok
  obtain ⟨opened, middle, head, tail⟩ := Rule.run_bind_ok.mp ok
  rcases eat_run.mp head with ⟨rfl, opening, rfl, opens⟩ | ⟨rfl, rfl, _⟩
  · obtain ⟨_, rfl, inner, closing, more, rfl, within, closes, behind⟩ := inside _ _ _ tail
    refine ⟨opening :: (inner ++ [closing]) ++ more, by simp, ?_⟩
    exact .append (.group opens closes within) behind
  · exact outside _ _ _ tail

end Composition

section Expressions

variable {α : Type} {g : Operators α} {plain : List Token.Kind}

/-- The kinds of operators and atoms are known. -/
structure Knows (plain : List Token.Kind) (g : Operators α) : Prop where
  before : ∀ {t apply}, g.before t = some apply → t.kind ∈ plain
  between : ∀ {t found}, g.between t = some found → t.kind ∈ plain
  atom : ∀ {t value}, g.atom t = .ok value → t.kind ∈ plain

theorem Knows.reads (knows : Knows plain g) {phrase : Phrase α} {used : List Token} {value : α}
    (reads : Reads g phrase used value) : Balanced plain used := by
  induction reads with
  | before sign _ ih => exact .append (.token (knows.before sign)) ih
  | group _ opens closes _ _ ih => exact .group (eq_of_beq opens) (eq_of_beq closes) ih
  | atom _ _ meaning => exact .token (knows.atom meaning)
  | operation _ _ head tail => exact .append head tail
  | stop => exact .nil
  | join sign _ _ _ _ head tail =>
    exact .append (.token (knows.between sign)) (.append head tail)

theorem Knows.expression (knows : Knows plain g) : Bracketed plain g.expression := by
  intro ts value rest ok
  obtain ⟨used, same, reads, _⟩ := expression_run.mp ok
  exact ⟨used, same, knows.reads reads⟩

theorem Knows.continuing (knows : Knows plain g) (left : α) :
    Bracketed plain (g.continuing left) := by
  intro ts value rest ok
  obtain ⟨used, same, reads, _⟩ := continuing_run.mp ok
  exact ⟨used, same, knows.reads reads⟩

theorem knows_constants (table : Specparams) : Knows argumentKinds (constants table) := by
  constructor
  all_goals
    intro t found matched
    simp only [constants] at matched
    split at matched <;> first
      | (cases matched; done)
      | (rename_i kind; rw [kind]; decide)

theorem knows_conditions (table : Specparams) : Knows argumentKinds (conditions table) := by
  constructor
  all_goals
    intro t found matched
    simp only [conditions] at matched
    split at matched <;> first
      | (cases matched; done)
      | (rename_i kind; rw [kind]; decide)

theorem knows_eventTerms : Knows argumentKinds eventTerms := by
  constructor
  all_goals
    intro t found matched
    simp only [eventTerms] at matched
    split at matched <;> first
      | (cases matched; done)
      | (rename_i kind; rw [kind]; decide)

end Expressions

section Arguments

variable (table : Specparams)

theorem bracketed_constant : Bracketed argumentKinds (constant table) :=
  (knows_constants table).expression

theorem bracketed_condition : Bracketed argumentKinds (condition table) :=
  (knows_conditions table).expression

theorem bracketed_eventTerm : Bracketed argumentKinds eventTerm := knows_eventTerms.expression

theorem composed_bracketed {plain : List Token.Kind} : Composed fun _ => Bracketed plain where
  unit := bracketed_pure
  bind := .bind

theorem bracketed_termParts : TermParts table fun _ => Bracketed argumentKinds where
  toComposed := composed_bracketed
  rising := bracketed_eatKeyword (by decide)
  falling := bracketed_eatKeyword (by decide)
  eventTerm := bracketed_eventTerm
  terms := bracketed_following (by decide) bracketed_eventTerm
  constant := bracketed_constant table
  triple := bracketed_eat (by decide)
  colon := bracketed_expect (by decide)

theorem bracketed_edge : Bracketed argumentKinds edge? := (bracketed_termParts []).edge

theorem bracketed_event : Bracketed argumentKinds event := (bracketed_termParts []).event

-- the parentheses of a value are balanced together only, so it is not composed of its parts
theorem bracketed_delayValue : Bracketed argumentKinds (delayValue table) := by
  have parts := bracketed_termParts table
  refine bracketed_group ?_ ?_
  · refine parts.constant.bind_closes fun inner => parts.triple.bind_closes fun triple => ?_
    cases triple with
    | true =>
      exact (parts.tripleFrom inner).bind_closes fun _ => closesGroup_expect bracketed_pure
    | false =>
      exact closesGroup_expect (((knows_constants table).continuing inner).bind fun _ =>
        parts.valueFrom _)
  · exact parts.constant.bind fun _ => parts.valueFrom _

theorem bracketed_optional {α : Type} {plain : List Token.Kind} {rule : TokenRule α}
    (bracketed : Bracketed plain rule) : Bracketed plain (optional rule) :=
  composed_bracketed.optional bracketed_kind bracketed

theorem bracketed_checkParts : CheckParts table fun _ => Bracketed listKinds where
  toComposed := composed_bracketed
  kind := bracketed_kind
  name := bracketed_name (by decide)
  more := bracketed_eat (by decide)
  comma := bracketed_expect (by decide)
  event := bracketed_event.list
  condition := (bracketed_condition table).list
  delayValue := (bracketed_delayValue table).list

theorem bracketed_checkArguments (arguments : Nat) (task : CheckTask) :
    Bracketed listKinds (checkArguments table arguments task) :=
  (bracketed_checkParts table).checkArguments arguments task

end Arguments

end Grammar

section Counting

open Grammar

variable {used : List Token}

/-- Only the commas outside of groups are counted. -/
theorem Balanced.counted (balanced : Balanced listKinds used) : ∃ commas, ∀ depth count rest,
    countArguments (depth + 1) count (used ++ rest) =
      countArguments (depth + 1) (if depth = 0 then count + commas else count) rest := by
  induction balanced with
  | nil => exact ⟨0, fun depth count rest => by simp⟩
  | @token t known =>
    refine ⟨if t.kind = .symbol .comma then 1 else 0, fun depth count rest => ?_⟩
    rw [List.singleton_append, countArguments]
    simp only [listKinds, argumentKinds, List.mem_cons, List.not_mem_nil, or_false] at known
    rcases known with kind | kind | kind | kind | kind | kind | kind | kind | kind | kind | kind |
      kind | kind | kind | kind <;> simp [kind]
  | append _ _ left right =>
    obtain ⟨first, left⟩ := left
    obtain ⟨second, right⟩ := right
    refine ⟨first + second, fun depth count rest => ?_⟩
    rw [List.append_assoc, left, right]
    split <;> simp [Nat.add_assoc]
  | @group opening inner closing opens closes _ within =>
    obtain ⟨commas, within⟩ := within
    refine ⟨0, fun depth count rest => ?_⟩
    rw [List.cons_append, List.append_assoc, countArguments, opens]
    dsimp only
    rw [within (depth + 1), if_neg (by omega), List.singleton_append, countArguments, closes]
    simp

/-- The number of arguments that stand between the parentheses of a call. -/
def argumentCount (arguments : List Token) : Nat := countArguments 1 1 arguments

theorem Balanced.count {opening closing : Token} (balanced : Balanced listKinds used)
    (opens : opening.kind = .symbol .leftParen) (closes : closing.kind = .symbol .rightParen)
    (rest : List Token) :
    countArguments 0 1 (opening :: (used ++ closing :: rest)) = argumentCount used := by
  obtain ⟨commas, counted⟩ := balanced.counted
  have alone : argumentCount used = 1 + commas := by
    simpa [argumentCount, countArguments] using counted 0 1 []
  rw [countArguments, opens]
  dsimp only
  rw [counted, alone]
  simp [countArguments, closes]

end Counting

end CellTiming
