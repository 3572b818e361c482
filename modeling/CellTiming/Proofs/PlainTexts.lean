import CellTiming.Proofs.Alphabet
import CellTiming.Proofs.DeclaredValues
import CellTiming.Proofs.Drawn
import CellTiming.Proofs.Failures
import CellTiming.Proofs.PathIndex
import CellTiming.Proofs.Reached

/-! Plain texts. Tokens spell names, numbers and operators in a small alphabet, and events,
conditions and paths put their texts together from tokens; so the timing of a module keeps
to that alphabet, and so does its name. -/
namespace CellTiming

section Plain

def Event.Plain (event : Event) : Prop :=
  Within isSignalChar event.signal ∧ ∀ term ∈ event.conditions, Within isSignalChar term

structure Path.Plain (path : Path) : Prop where
  input : SignalName path.input
  output : SignalName path.output
  source : ∀ source ∈ path.source, Within isSignalChar source
  condition : ∀ condition ∈ path.condition, Within isLibertyChar condition.text

structure TimingCheck.Plain (check : TimingCheck) : Prop where
  reference : check.reference.Plain
  data : ∀ data ∈ check.data?, data.Plain

def TimingItem.Plain : TimingItem → Prop
  | .specparam .. => True
  | .check added => added.Plain
  | .path added | .ifnone _ added => added.Plain
  | .conditioned condition added => Within isLibertyChar condition.text ∧ added.Plain

structure ModuleTiming.Plain (timing : ModuleTiming) : Prop where
  checks : ∀ check ∈ timing.checks, check.Plain
  paths : ∀ path ∈ timing.paths, path.Plain
  conditioned : ∀ path ∈ timing.conditioned.paths, path.Plain

theorem forall_mem_some {α : Type} {P : α → Prop} {value : α} (holds : P value) :
    ∀ found ∈ some value, P found := by
  rintro _ ⟨⟩
  exact holds

end Plain

namespace Grammar

open TokenRule Operators Token

section Expressions

variable {t : Token} {used : List Token}

theorem within_operator {found : Nat × (String → String → String)} (spelled : t.Spelled)
    (sign : eventTerms.between t = some found) : Within isSignalChar t.text := by
  simp only [eventTerms] at sign
  split at sign
  next kind => rw [spelled.symbol _ kind]; decide
  next kind => rw [spelled.symbol _ kind]; decide
  next kind => rw [spelled.symbol _ kind]; decide
  next kind => rw [spelled.symbol _ kind]; decide
  next => cases sign

theorem within_negation {apply : String → String} (spelled : t.Spelled)
    (sign : eventTerms.before t = some apply) : Within isSignalChar t.text := by
  simp only [eventTerms] at sign
  split at sign
  next kind => rw [spelled.symbol _ kind]; decide
  next kind => rw [spelled.symbol _ kind]; decide
  next => cases sign

theorem made_of_number {α : Type} {make : Number → α} {value : α}
    (meaning : (numberOf t).map make = .ok value) : ∃ n, value = make n := by
  cases found : numberOf t with
  | error e =>
    rw [found] at meaning
    cases meaning
  | ok n =>
    rw [found] at meaning
    cases meaning
    exact ⟨n, rfl⟩

theorem within_eventTerm {text : String} (spelled : ∀ t ∈ used, t.Spelled)
    (reads : Reads eventTerms (.operation 0) used text) : Within isSignalChar text := by
  change Keeps (Within isSignalChar) (.operation 0) text
  refine reads.keeps ?_ ?_ id ?_ spelled
  · intro t apply value spelled sign inside
    have operator := within_negation spelled sign
    obtain ⟨rfl, _⟩ := eventTerms_before sign
    exact operator.append inside
  · intro t own apply left right spelled sign first second
    have operator := within_operator spelled sign
    obtain ⟨_, rfl, _⟩ := eventTerms_between sign
    exact (first.append operator).append second
  · intro t text spelled meaning
    simp only [eventTerms] at meaning
    split at meaning
    next =>
      obtain ⟨n, rfl⟩ := made_of_number meaning
      exact n.within_text
    next kind =>
      cases meaning
      exact (signalName_of_lexes (spelled.name kind)).within
    next => cases meaning

theorem within_literal {table : Specparams} {value : Condition} (spelled : t.Spelled)
    (meaning : (conditions table).atom t = .ok value) : Within isLibertyChar value.text := by
  simp only [conditions] at meaning
  split at meaning
  next =>
    obtain ⟨n, rfl⟩ := made_of_number meaning
    exact n.within_text.widen libertyChar_of_signalChar
  next kind =>
    cases meaning
    refine Within.widen ?_ libertyChar_of_signalChar
    cases declared : table.lookup t.text with
    | none => simpa [Condition.text, declared] using (signalName_of_lexes (spelled.name kind)).within
    | some n => simpa [Condition.text, declared] using n.within_text
  next => cases meaning

theorem within_condition {table : Specparams} {value : Condition} (spelled : ∀ t ∈ used, t.Spelled)
    (reads : Reads (conditions table) (.operation 0) used value) :
    Within isLibertyChar value.text := by
  have opening : Within isLibertyChar "(" := by decide
  have closing : Within isLibertyChar ")" := by decide
  change Keeps (fun value => Within isLibertyChar value.text) (.operation 0) value
  refine reads.keeps ?_ ?_ ?_ within_literal spelled
  · intro t apply value _ sign inside
    obtain ⟨op, rfl, _⟩ := conditions_before sign
    have operator : Within isLibertyChar op.spelling := by cases op <;> decide
    exact operator.append inside
  · intro t own apply left right _ sign first second
    rcases conditions_between sign with ⟨_, op, rfl⟩ | ⟨_, op, rfl⟩
    · have operator : Within isLibertyChar op.spelling := by cases op <;> decide
      exact (first.append operator).append second
    · have operator : Within isLibertyChar op.spelling := by cases op <;> decide
      exact (first.append operator).append second
  · exact fun inside => (opening.append inside).append closing

end Expressions

section Rules

variable {all : List Token} (spelled : ∀ t ∈ all, t.Spelled) (table : Specparams)

include spelled

theorem traced_expression {α : Type} {g : Operators α} {P : α → Prop} (inner : g.Inner)
    (made : ∀ {used value}, (∀ t ∈ used, t.Spelled) → Reads g (.operation 0) used value → P value) :
    Traced all g.expression P := by
  refine inner.expression.of_ok fun within ran => ?_
  obtain ⟨used, rfl, reads, _⟩ := expression_run.mp ran
  exact made (fun t member => spelled t (within.subset (List.mem_append_left _ member))) reads

theorem traced_name : Traced all name SignalName :=
  (traced_take Token.Kind.noConfusion).bind fun t taken =>
    traced_pure (signalName_of_lexes ((spelled t taken.1).name taken.2))

theorem traced_condition :
    Traced all (condition table) fun condition => Within isLibertyChar condition.text :=
  traced_expression spelled (inner_conditions table) within_condition

theorem traced_eventTerm : Traced all eventTerm (Within isSignalChar) :=
  traced_expression spelled inner_eventTerms within_eventTerm

theorem traced_event : Traced all event Event.Plain :=
  traces_edge.bind fun _ _ => (traced_eventTerm spelled).bind fun _ signal =>
    (traced_following (traced_eventTerm spelled)).bind fun _ terms => traced_pure ⟨signal, terms⟩

theorem traced_simpleCheck {make : Event → Event → Triple → Option String → TimingCheck}
    (made : ∀ first second limit notifier, first.Plain → second.Plain →
      (make first second limit notifier).Plain) :
    Traced all (simpleCheck table make) TimingCheck.Plain :=
  (traced_event spelled).bind fun _ first => (traces_expect _).bind fun _ _ =>
    (traced_event spelled).bind fun _ second => (traces_expect _).bind fun _ _ =>
    (traces_delayValue table).bind fun _ _ =>
    (traces_checkParts table).lastNotifier.bind fun _ _ =>
    traced_pure (made _ _ _ _ first second)

theorem traced_setuphold : Traced all (setuphold table) TimingCheck.Plain :=
  (traced_event spelled).bind fun _ first => (traces_expect _).bind fun _ _ =>
    (traced_event spelled).bind fun _ second => (traces_expect _).bind fun _ _ =>
    (traces_delayValue table).bind fun _ _ => (traces_expect _).bind fun _ _ =>
    (traces_delayValue table).bind fun _ _ =>
    (traces_checkParts table).checkTail.bind fun _ _ =>
    traced_pure ⟨first, forall_mem_some second⟩

theorem traced_recrem (form : RecremForm) : Traced all (recrem table form) TimingCheck.Plain := by
  refine (traced_event spelled).bind fun _ first => (traces_expect _).bind fun _ _ =>
    (traced_event spelled).bind fun _ second => (traces_expect _).bind fun _ _ =>
    (traces_delayValue table).bind fun _ _ => (traces_expect _).bind fun _ _ =>
    (traces_delayValue table).bind fun _ _ =>
    (traces_checkParts table).checkTail.bind fun _ _ => ?_
  cases form with
  | recrem => exact traced_pure ⟨first, forall_mem_some second⟩
  | extendedRecovery => exact traced_pure ⟨first, forall_mem_some second⟩

theorem traced_period : Traced all (period table) TimingCheck.Plain :=
  (traced_event spelled).bind fun _ reference => (traces_expect _).bind fun _ _ =>
    (traces_delayValue table).bind fun _ _ =>
    (traces_checkParts table).lastNotifier.bind fun _ _ =>
    traced_pure ⟨reference, nofun⟩

theorem traced_width : Traced all (width table) TimingCheck.Plain := by
  refine (traced_event spelled).bind fun _ reference => (traces_expect _).bind fun _ _ =>
    (traces_delayValue table).bind fun _ _ => (traces_eat _).bind fun _ _ => .ite ?_ ?_
  · exact (composed_traces.optional traces_ahead (traces_delayValue table)).bind fun _ _ =>
      (traces_checkParts table).lastNotifier.bind fun _ _ => traced_pure ⟨reference, nofun⟩
  · exact traced_pure ⟨reference, nofun⟩

theorem traced_checkArguments (arguments : Nat) (task : CheckTask) :
    Traced all (checkArguments table arguments task) TimingCheck.Plain := by
  cases task with
  | setup =>
    exact traced_simpleCheck spelled table fun _ _ _ _ data reference =>
      ⟨reference, forall_mem_some data⟩
  | hold | skew =>
    exact traced_simpleCheck spelled table fun _ _ _ _ reference data =>
      ⟨reference, forall_mem_some data⟩
  | setuphold => exact traced_setuphold spelled table
  | recovery =>
    refine .ite (traced_recrem spelled table .extendedRecovery) ?_
    exact traced_simpleCheck spelled table fun _ _ _ _ reference data =>
      ⟨reference, forall_mem_some data⟩
  | period => exact traced_period spelled table
  | width => exact traced_width spelled table
  | recrem => exact traced_recrem spelled table .recrem

theorem traced_timingCheck (task : CheckTask) :
    Traced all (timingCheck table task) TimingCheck.Plain :=
  traces_ahead.bind fun _ _ => (traces_expect _).bind fun _ _ =>
    (traced_checkArguments spelled table _ task).bind fun _ plain =>
    (traces_expect _).bind fun _ _ => (traces_expect _).bind fun _ _ => traced_pure plain

theorem traced_dataSource : Traced all dataSource (Within isSignalChar) := by
  refine traces_ahead.bind fun kind _ => ?_
  split
  · exact (traced_name spelled).mono fun _ named => named.within
  · exact traces_number.bind fun n _ => traced_pure n.within_text
  · exact traced_unexpected

theorem traced_sourceClause :
    Traced all sourceClause fun clause => ∀ source ∈ clause.2, Within isSignalChar source := by
  have after (inverted : Bool) : Traced all (do
      TokenRule.expect .colon
      return (inverted, some (← dataSource)))
      fun clause => ∀ source ∈ clause.2, Within isSignalChar source :=
    (traces_expect _).bind fun _ _ => (traced_dataSource spelled).bind fun _ plain =>
      traced_pure (forall_mem_some plain)
  refine traces_ahead.bind fun _ _ => .ite (traced_pure nofun)
    (traces_ahead.bind fun signed _ => .ite ?_ ?_)
  · exact (traces_eat _).bind fun inverted _ =>
      .ite ((traces_expect _).bind fun _ _ => after inverted) (after inverted)
  · exact traces_pure.bind fun inverted _ =>
      .ite ((traces_expect _).bind fun _ _ => after inverted) (after inverted)

theorem traced_pathBody : Traced all (pathBody table) Path.Plain := by
  refine traces_edge.bind fun _ _ => (traced_name spelled).bind fun _ input =>
    (traces_itemParts table).arrowPolarity.bind fun _ _ =>
    (traces_itemParts table).arrow.bind fun _ _ => (traces_eat _).bind fun _ _ => .ite ?_ ?_
  · exact (traced_name spelled).bind fun _ output =>
      (traced_sourceClause spelled).bind fun _ source => (traces_expect _).bind fun _ _ =>
      (traces_itemParts table).groupedDelays.bind fun _ _ => (traces_expect _).bind fun _ _ =>
      traced_pure ⟨input, output, source, nofun⟩
  · exact (traced_name spelled).bind fun _ output => (traces_expect _).bind fun _ _ =>
      (traces_expect _).bind fun _ _ => (traces_delayList table).bind fun _ _ =>
      (traces_expect _).bind fun _ _ =>
      traced_pure ⟨input, output, nofun, nofun⟩

theorem traced_path : Traced all (path table) Path.Plain :=
  (traces_expect _).bind fun _ _ => traced_pathBody spelled table

theorem traced_item {t : Token} (member : t ∈ all) :
    Traced all (itemAfter table t) TimingItem.Plain := by
  unfold itemAfter
  split
  · exact (traced_take Token.Kind.noConfusion).bind fun _ _ => (traces_expect _).bind fun _ _ =>
      (traced_take? Token.Kind.noConfusion).bind fun _ _ => .ite
        ((traces_expect _).bind fun _ _ => traced_pure trivial)
        ((traces_constant table).bind fun _ _ => (traces_expect _).bind fun _ _ =>
          traced_pure trivial)
  · exact (traces_expect _).bind fun _ _ => (traced_condition spelled table).bind fun _ condition =>
      (traces_expect _).bind fun _ _ => (traced_path spelled table).bind fun _ path =>
      traced_pure ⟨condition, path⟩
  · exact (traced_path spelled table).bind fun _ path => traced_pure path
  · exact (traced_pathBody spelled table).bind fun _ path => traced_pure path
  · exact (traced_timingCheck spelled table _).bind fun _ check => traced_pure check
  · exact traced_fail ⟨t, member, causes_unexpected t []⟩

end Rules

section States

variable {timing extended : ModuleTiming} {ts left : List Token} {found : List TimingItem}

theorem within_noneOf {conditions : List Condition} {other : Condition}
    (parts : ∀ condition ∈ conditions, Within isLibertyChar condition.text)
    (made : Condition.noneOf conditions = some other) : Within isLibertyChar other.text := by
  have before : Within isLibertyChar "!" := by decide
  have between : Within isLibertyChar "&" := by decide
  have opening : Within isLibertyChar "(" := by decide
  have closing : Within isLibertyChar ")" := by decide
  have negated {condition : Condition} (inside : Within isLibertyChar condition.text) :
      Within isLibertyChar condition.negated.text :=
    before.append ((opening.append inside).append closing)
  have joined (others : List Condition) (first : Condition)
      (others_ : ∀ condition ∈ others, Within isLibertyChar condition.text)
      (first_ : Within isLibertyChar first.text) :
      Within isLibertyChar ((others.map Condition.negated).foldl (.and .single) first).text := by
    induction others generalizing first with
    | nil => exact first_
    | cons second others ih =>
      obtain ⟨second_, others_⟩ := List.forall_mem_cons.mp others_
      exact ih (.and .single first second.negated) others_
        ((first_.append between).append (negated second_))
  cases conditions with
  | nil => cases made
  | cons first others =>
    obtain ⟨first_, others_⟩ := List.forall_mem_cons.mp parts
    cases made
    exact joined others first.negated others_ (negated first_)

theorem plain_push {index : PathIndex} {path : Path} {condition : Condition}
    (plain : ∀ path ∈ index.paths, path.Plain) (new : path.Plain)
    (inside : Within isLibertyChar condition.text) :
    ∀ found ∈ (index.push { path with condition := some condition }).paths, found.Plain := by
  intro found member
  rcases PathIndex.mem_paths_push.mp member with member | rfl
  · exact plain found member
  · exact ⟨new.input, new.output, new.source, forall_mem_some inside⟩

theorem Plain.add {item : TimingItem} (plain : timing.Plain) (new : item.Plain)
    (added : timing.add item = .ok extended) : extended.Plain := by
  obtain ⟨checks, paths, conditioned⟩ := plain
  cases adds_of_ok added with
  | string | value => exact ⟨checks, paths, conditioned⟩
  | check =>
    exact ⟨List.forall_mem_append.mpr ⟨checks, List.forall_mem_singleton.mpr new⟩, paths, conditioned⟩
  | path =>
    exact ⟨checks, List.forall_mem_append.mpr ⟨paths, List.forall_mem_singleton.mpr new⟩, conditioned⟩
  | conditioned => exact ⟨checks, paths, plain_push conditioned new.2 new.1⟩
  | ifnone made =>
    refine ⟨checks, paths, plain_push conditioned new (within_noneOf ?_ made)⟩
    intro condition member
    obtain ⟨path, earlier, own⟩ := List.mem_filterMap.mp member
    exact (conditioned path (PathIndex.mem_paths_of_get? earlier)).condition condition own

/-- Every state that the reading of a block reaches has plain texts. -/
theorem plain_of_reached (spelled : ∀ t ∈ ts, t.Spelled) (ended : Ended ts)
    (reached : Reached ts found timing left) : timing.Plain ∧ Ended left := by
  induction reached with
  | start whole opens =>
    subst whole
    have nothing : ({} : ModuleTiming).Plain :=
      ⟨List.forall_mem_nil _, List.forall_mem_nil _, List.forall_mem_nil _⟩
    exact ⟨nothing, ended.tail (by simp [opens])⟩
  | @item _ timing t rest _ _ _ before _ read added ih =>
    obtain ⟨plain, ahead⟩ := ih
    have within := before.suffix
    have made := traced_item spelled timing.specparams (within.subset List.mem_cons_self) rest
      ((List.suffix_cons t rest).trans within) (ahead.tail (inner_of_read _ read))
    rw [read] at made
    exact ⟨Plain.add plain made.2 added, made.1⟩
  | group _ ends opens ih =>
    exact ⟨ih.1, (ih.2.tail (by simp [ends])).tail (by simp [opens])⟩

theorem plain_of_block {text : String} (ok : ModuleTiming.ofBlock text = .ok timing) :
    timing.Plain := by
  unfold ModuleTiming.ofBlock at ok
  cases tokens : Token.ofString text with
  | error e => rw [tokens] at ok; cases ok
  | ok ts =>
    rw [tokens] at ok
    obtain ⟨found, t, left, reached, _⟩ := readAs_of_ok ok
    exact (plain_of_reached (tokensFrom_spelled tokens) (ended_of_tokens tokens) reached).1

end States

end Grammar

namespace Source

open Extraction

variable {macros : List String} {e next : Extraction} {number : Nat}

structure Extraction.Named (e : Extraction) : Prop where
  module : ∀ name ∈ e.module, Within isSignalChar name
  blocks : ∀ block ∈ e.blocks, Within isSignalChar block.module

theorem signalChar_of_wordChar {c : Char} (word : isWordChar c = true) : isSignalChar c = true :=
  signalChar_of_nameChar word

theorem within_moduleName {text : List Char} {name : String} (named : moduleName? text = some name) :
    Within isSignalChar name := by
  unfold moduleName? at named
  split at named
  next => cases named
  next c cs _ =>
    split at named
    next start =>
      cases named
      refine within_ofList (List.forall_mem_cons.mpr ⟨?_, fun c member => ?_⟩)
      · rcases start with letter | rfl
        · exact signalChar_of_alphanum (by rw [Char.isAlphanum, letter, Bool.true_or])
        · rfl
      · exact signalChar_of_wordChar (List.mem_takeWhile_imp member)
    next => cases named

theorem Extraction.Named.gather (named : e.Named) (text : List Char) :
    (e.gather number text).Named := by
  rw [gather_eq]
  exact ⟨named.module, named.blocks⟩

theorem within_insertLines {module : String} {gathered : List SourceLine} {blocks : List Block}
    (new : Within isSignalChar module) (known : ∀ block ∈ blocks, Within isSignalChar block.module) :
    ∀ block ∈ insertLines module gathered blocks, Within isSignalChar block.module := by
  induction blocks with
  | nil => exact List.forall_mem_singleton.mpr new
  | cons block blocks ih =>
    obtain ⟨first, others⟩ := List.forall_mem_cons.mp known
    rw [insertLines]
    split
    · exact List.forall_mem_cons.mpr ⟨first, others⟩
    · exact List.forall_mem_cons.mpr ⟨first, ih others⟩

theorem Extraction.Named.close (named : e.Named) : e.close.Named := by
  refine ⟨named.module, ?_⟩
  unfold Extraction.close
  cases within : e.module with
  | none => exact named.blocks
  | some module => exact within_insertLines (named.module module within) named.blocks

theorem Extraction.Named.line {text : String} (named : e.Named)
    (ok : e.line macros number text = .ok next) : next.Named := by
  rw [Extraction.line] at ok
  split at ok
  next =>
    split at ok
    · cases ok
      exact ⟨named.module, named.blocks⟩
    · cases ok
      split
      · exact named.gather _
      · exact named
  next =>
    split at ok
    next found =>
      cases ok
      rw [words_eq, Option.map_eq_some_iff] at found
      obtain ⟨last, steered, rfl⟩ := found
      refine Named.gather (steered_invariant (fun e _ _ => e.Named) ?_ named steered) _
      intro e text word tail words next after named steers
      cases steers with
      | module _ known => exact ⟨forall_mem_some (within_moduleName known), named.blocks⟩
      | specify => exact ⟨named.module, named.blocks⟩
      | endspecify => exact (named.gather _).close
      | endmodule => exact ⟨by simp, named.blocks⟩
    next => cases ok

theorem within_blocks {lines : List String} {blocks : List Block}
    (ok : blocksOfLines macros lines = .ok blocks) :
    ∀ block ∈ blocks, Within isSignalChar block.module := by
  obtain ⟨last, found, rfl⟩ := blocksOfLines_ok.mp ok
  have named := Extraction.lines_invariant Extraction.Named (fun _ _ named found => named.line found)
    ⟨nofun, List.forall_mem_nil _⟩ found
  rw [Extraction.finish]
  split
  · exact named.close.blocks
  · exact named.blocks

theorem timing_eq_ok {block : Block} {m : NamedTiming} :
    block.timing = .ok m ↔
      block.module = m.name ∧ ModuleTiming.ofBlock block.text = .ok m.timing := by
  unfold Block.timing
  split
  next timing read =>
    rw [read, Except.ok.injEq, Except.ok.injEq]
    exact ⟨fun same => same ▸ ⟨rfl, rfl⟩, fun ⟨name, same⟩ => name ▸ same ▸ rfl⟩
  next error read => simp [read]

/-- What is read from a source is what is read from its blocks. -/
theorem modules_eq_ok {source : String} {found : List NamedTiming} :
    modules macros source = .ok found ↔
      ∃ gathered, blocks macros source = .ok gathered ∧
        gathered.mapM Block.timing = .ok found := by
  rw [modules, blocks]
  split
  next gathered same => simp [same]
  next flaw same => simp [same]

/-- The timing of every module is read from its block. -/
theorem block_of_modules {source : String} {found : List NamedTiming}
    (parsed : modules macros source = .ok found) :
    ∃ gathered, blocks macros source = .ok gathered ∧ ∀ m ∈ found, ∃ block ∈ gathered,
      block.module = m.name ∧ ModuleTiming.ofBlock block.text = .ok m.timing := by
  obtain ⟨gathered, closed, timed⟩ := modules_eq_ok.mp parsed
  refine ⟨gathered, closed, fun m member => ?_⟩
  obtain ⟨block, known, ok⟩ := exists_of_forall₂ (mapM_eq_ok.mp timed).flip m member
  exact ⟨block, known, timing_eq_ok.mp ok⟩

theorem plain_of_modules {source : String} {found : List NamedTiming}
    (parsed : modules macros source = .ok found) :
    ∀ m ∈ found, Within isSignalChar m.name ∧ m.timing.Plain := by
  obtain ⟨gathered, closed, read⟩ := block_of_modules parsed
  intro m member
  obtain ⟨block, known, name, ok⟩ := read m member
  exact ⟨name ▸ within_blocks closed block known, Grammar.plain_of_block ok⟩

end Source

end CellTiming
