import CellTiming.Proofs.Otherwise
import CellTiming.Proofs.Signals

/-! What the timing of a block never lacks. Every term of an event has a text, every path in the
index has a condition and lies in the one group of its signals, and a plain path has no
condition; so no pin of a cell goes without a name, and none is related to nothing. -/
namespace CellTiming

/-- The signal of an event and its conditions, as they are written in a row. -/
def Event.terms (event : Event) : List String := event.signal :: event.conditions

/-- A group holds paths between its signals, and no other group is between the same. -/
structure PathIndex.WellFormed (index : PathIndex) : Prop where
  filled : ∀ group ∈ index.groups, group.paths ≠ []
  filed : ∀ group ∈ index.groups, ∀ path ∈ group.paths, path.key = group.key
  distinct : (index.groups.map (·.key)).Nodup

structure ModuleTiming.WellFormed (timing : ModuleTiming) : Prop where
  events : ∀ check ∈ timing.checks, ∀ event ∈ check.events,
    event.terms ≠ [] ∧ ∀ term ∈ event.terms, term ≠ ""
  plain : ∀ path ∈ timing.paths, path.condition = none
  conditioned : ∀ path ∈ timing.conditioned.paths, path.condition ≠ none
  index : timing.conditioned.WellFormed

section Texts

namespace Decimal

theorem positional_ne_empty (s : Scientific) : positional s ≠ "" := by
  unfold positional
  dsimp only
  split
  · simp
  · split <;> simp

theorem withFraction_ne_empty (x : Float) : withFraction x ≠ "" := by
  have signed_ne_empty {text : String} (some_ : text ≠ "") : signed x text ≠ "" := by
    unfold signed
    split
    · simp
    · exact some_
  have plain_ne_empty : plain x ≠ "" := by
    unfold plain
    split
    · decide
    · split
      · exact signed_ne_empty (by decide)
      · exact signed_ne_empty (positional_ne_empty _)
  unfold withFraction
  split
  · simp
  · exact plain_ne_empty

end Decimal

theorem Number.text_ne_empty (n : Number) : n.text ≠ "" := by
  have digits (n : Nat) : Nat.repr n ≠ "" := fun none => by
    have nothing := congrArg String.toList none
    rw [Nat.toList_repr] at nothing
    exact Nat.toDigits_ne_nil nothing
  have plain (value : Int) : toString value ≠ "" := by
    cases value with
    | ofNat n => exact digits n
    | negSucc n =>
      change "-" ++ Nat.repr (n + 1) ≠ ""
      simp
  obtain ⟨width, base, value | value⟩ := n
  · rw [Number.text]
    dsimp only
    split
    · exact plain value
    · simp
  · exact Decimal.withFraction_ne_empty value

theorem Token.Lexes.ne_empty {kind : Token.Kind} {text : String} (lexes : Token.Lexes kind text) :
    text ≠ "" := by
  rintro rfl
  obtain ⟨c, cs, same, _⟩ := lexes
  cases same

end Texts

namespace Grammar

open Operators

theorem term_ne_empty {used : List Token} {text : String} (spelled : ∀ t ∈ used, t.Spelled)
    (reads : Reads eventTerms (.operation 0) used text) : text ≠ "" := by
  change Keeps (· ≠ "") (.operation 0) text
  refine reads.keeps (Q := Token.Spelled) ?_ ?_ id ?_ spelled
  · intro t apply value _ sign some_
    obtain ⟨rfl, _⟩ := eventTerms_before sign
    simp [some_]
  · intro t own apply left right _ sign some_ _
    obtain ⟨_, rfl, _⟩ := eventTerms_between sign
    simp [some_]
  · intro t text spelled meaning
    simp only [eventTerms] at meaning
    split at meaning
    next =>
      obtain ⟨n, rfl⟩ := made_of_number meaning
      exact n.text_ne_empty
    next kind =>
      cases meaning
      exact (spelled.name kind).ne_empty
    next => cases meaning

section Events

variable {ts : List Token} {checks : List TimingCheck}

theorem terms_ne_empty {used : List Token} {event : Event} (spelled : ∀ t ∈ used, t.Spelled)
    (tokens : EventTokens used event) : ∀ term ∈ event.terms, term ≠ "" := by
  have conditions {pieces : List (List Token)} {texts : List String}
      (reads : List.Forall₂ (Reads eventTerms (.operation 0)) pieces texts)
      (within : ∀ piece ∈ pieces, ∀ t ∈ piece, t ∈ used) : ∀ term ∈ texts, term ≠ "" := by
    induction reads with
    | nil => simp
    | cons first _ ih =>
      obtain ⟨own, others⟩ := List.forall_mem_cons.mp within
      exact List.forall_mem_cons.mpr
        ⟨term_ne_empty (fun t member => spelled t (own t member)) first, ih others⟩
  refine List.forall_mem_cons.mpr ⟨?_, conditions tokens.conditions fun piece member t inside => ?_⟩
  · exact term_ne_empty (fun t member => spelled t (mem_of_signalTerm member)) tokens.signal
  · exact mem_of_mem_splitOnP (List.mem_of_mem_tail member) inside

theorem events_of_calls (spelled : ∀ t ∈ ts, t.Spelled)
    (checked : List.Forall₂ CallReads (calls ts) checks) :
    ∀ check ∈ checks, ∀ event ∈ check.events,
      event.terms ≠ [] ∧ ∀ term ∈ event.terms, term ≠ "" := by
  intro check member event known
  obtain ⟨call, called, reads⟩ := Liberty.call_of_check checked member
  obtain ⟨place, at_⟩ := List.mem_iff_getElem?.mp known
  refine ⟨List.cons_ne_nil _ _, terms_ne_empty (fun t inside => ?_) (event_of_call reads at_)⟩
  exact spelled t (mem_of_calls called t (mem_of_argument inside))

end Events

section Paths

variable {ts left : List Token} {found : List TimingItem} {timing : ModuleTiming}

theorem plain_paths_of_reached (reached : Reached ts found timing left) :
    ∀ path ∈ timing.paths, path.condition = none := by
  induction reached with
  | start => simp
  | group _ _ _ ih => exact ih
  | item _ _ read added ih =>
    cases adds_of_ok added with
    | string | value | check | conditioned | ifnone => exact ih
    | path =>
      exact List.forall_mem_append.mpr ⟨ih, List.forall_mem_singleton.mpr (itemAfter_path read)⟩

end Paths

end Grammar

theorem Filed.conditioned {found : List TimingItem} {timing : ModuleTiming} {pushed : List Path}
    (filed : Filed found timing pushed) :
    ∀ path ∈ timing.conditioned.paths, path.condition ≠ none := by
  intro path member
  obtain ⟨group, known, inside⟩ := List.mem_flatMap.mp member
  rw [filed.index, PathIndex.mem_groups_ofPaths] at known
  obtain ⟨condition, has⟩ := (filed.stored group.key).conditions path (known.2 ▸ inside)
  simp [has]

theorem PathIndex.wellFormed_ofPaths (pushed : List Path) : (ofPaths pushed).WellFormed where
  filled group member := by
    obtain ⟨known, same⟩ := mem_groups_ofPaths.mp member
    obtain ⟨path, among, key⟩ := List.mem_map.mp known
    rw [same]
    exact List.ne_nil_of_mem (List.mem_filter.mpr ⟨among, decide_eq_true key⟩)
  filed group member path inside := by
    rw [(mem_groups_ofPaths.mp member).2] at inside
    exact of_decide_eq_true (List.mem_filter.mp inside).2
  distinct := by
    have keys : (ofPaths pushed).groups.map (·.key) = (pushed.map Path.key).eraseDups := by
      simp [groups_ofPaths, grouped, Function.comp_def]
    rw [keys]
    exact nodup_eraseDups _

theorem wellFormed_of_ofBlock {text : String} {timing : ModuleTiming}
    (ok : ModuleTiming.ofBlock text = .ok timing) : timing.WellFormed := by
  obtain ⟨ts, tokens, checked⟩ := ofBlock_calls ok
  rw [ModuleTiming.ofBlock, tokens] at ok
  obtain ⟨found, _, left, reached, _⟩ := Grammar.readAs_of_ok ok
  obtain ⟨pushed, filed⟩ := filed_of_reached reached
  exact {
    events := Grammar.events_of_calls (Token.tokensFrom_spelled tokens) checked
    plain := Grammar.plain_paths_of_reached reached
    conditioned := filed.conditioned
    index := filed.index ▸ PathIndex.wellFormed_ofPaths pushed }

namespace Liberty

/-- Every pin has a name, and what it is related to has one. -/
structure Cell.Named (cell : Cell) : Prop where
  pin : ∀ entry ∈ cell.pins, entry.1 ≠ ""
  related : ∀ entry ∈ cell.pins, ∀ group ∈ entry.2.timing, group.relatedPin ≠ ""

section Naming

variable {timing : ModuleTiming}

theorem named_ofPath {path : Path} (input : path.input ≠ "") (output : path.output ≠ "") :
    (Mention.ofPath path).pin ≠ "" ∧
      ∀ group ∈ (Mention.ofPath path).timing, group.relatedPin ≠ "" := by
  have related : relatedPin path ≠ "" := by
    unfold relatedPin
    split
    · split
      · exact input
      · simp
    · exact input
  have same : ∀ group ∈ (Mention.ofPath path).timing, group.relatedPin = relatedPin path := by
    cases edge : path.edge <;> simp [Mention.ofPath, edge, pathGroup]
  exact ⟨output, fun group member => same group member ▸ related⟩

theorem signals_ofCheck (check : TimingCheck) :
    (∃ event ∈ check.events, (Mention.ofCheck check).pin = event.signal) ∧
      ∀ group ∈ (Mention.ofCheck check).timing,
        ∃ event ∈ check.events, group.relatedPin = event.signal := by
  cases check <;> simp [Mention.ofCheck, TimingCheck.events, constraintGroup]

theorem named_of_cellOf {name : String} {cell : Cell} (plain : timing.Plain)
    (formed : timing.WellFormed) (made : cellOf? name timing = some cell) : cell.Named := by
  have named {text : String} (signal : SignalName text) : text ≠ "" :=
    (lexes_of_signalName signal).ne_empty
  have mentioned : ∀ mention ∈ mentions timing, mention.pin ≠ "" ∧
      ∀ group ∈ mention.timing, group.relatedPin ≠ "" := by
    intro mention member
    rcases List.mem_append.mp member with ofPath | ofCheck
    · obtain ⟨path, known, rfl⟩ := List.mem_map.mp ofPath
      rcases List.mem_append.mp known with bare | conditioned
      · have own := plain.paths path bare
        exact named_ofPath (named own.input) (named own.output)
      · have own := plain.conditioned path conditioned
        exact named_ofPath (named own.input) (named own.output)
    · obtain ⟨check, known, rfl⟩ := List.mem_map.mp ofCheck
      have signal : ∀ event ∈ check.events, event.signal ≠ "" := fun event member =>
        (formed.events check known event member).2 _ List.mem_cons_self
      obtain ⟨⟨event, own, pin⟩, related⟩ := signals_ofCheck check
      refine ⟨pin ▸ signal event own, fun group inside => ?_⟩
      obtain ⟨event, own, same⟩ := related group inside
      exact same ▸ signal event own
  refine ⟨fun entry member => ?_, fun entry member group inside => ?_⟩
  · obtain ⟨⟨mention, known, pin⟩, _⟩ := mention_of_cellOf made entry member
    exact pin ▸ (mentioned mention known).1
  · obtain ⟨_, groups, _⟩ := mention_of_cellOf made entry member
    obtain ⟨mention, known, within⟩ := groups group inside
    exact (mentioned mention known).2 group within

end Naming

end Liberty

private def buffered : String :=
  "module M;specify if(A)(A=>Q)=1;ifnone(A=>Q)=2;if(B)(B=>Q)=1;$setup(D&&&~E,CLK,1);endspecify"

private def eventTermsOf (found : List Source.NamedTiming) : List (List String) :=
  found.flatMap fun m => m.timing.checks.flatMap fun check => check.events.map Event.terms

private def groupsOf (found : List Source.NamedTiming) : List (PathKey × List String) :=
  found.flatMap fun m => m.timing.conditioned.groups.map fun group =>
    (group.key, group.paths.filterMap fun path => path.condition.map (·.text))

/-- Whatever a block or a module is read as is well formed, and its cell has its pins named. -/
theorem wellFormed_of_parsed :
    (∀ text timing, ModuleTiming.ofBlock text = .ok timing → timing.WellFormed ∧
      ∀ name cell, Liberty.cellOf? name timing = some cell → cell.Named) ∧
    ∀ macros source found, Source.modules macros source = .ok found → ∀ m ∈ found,
      m.timing.WellFormed ∧
        ∀ cell, Liberty.cellOf? m.name m.timing = some cell → cell.Named := by
  have block (text : String) (timing : ModuleTiming) (ok : ModuleTiming.ofBlock text = .ok timing) :
      timing.WellFormed ∧
        ∀ name cell, Liberty.cellOf? name timing = some cell → cell.Named :=
    ⟨wellFormed_of_ofBlock ok, fun _ _ made =>
      Liberty.named_of_cellOf (Grammar.plain_of_block ok) (wellFormed_of_ofBlock ok) made⟩
  refine ⟨block, fun macros source found parsed m member => ?_⟩
  obtain ⟨_, _, read⟩ := Source.block_of_modules parsed
  obtain ⟨known, _, _, ok⟩ := read m member
  obtain ⟨formed, named⟩ := block known.text m.timing ok
  exact ⟨formed, named m.name⟩

theorem wellFormed_of_parsed_buffered :
    ∃ found, Source.modules [] buffered = .ok found ∧
      eventTermsOf found = [["D", "~E"], ["CLK"]] ∧
      groupsOf found =
        [(⟨"A", "Q"⟩, ["A", "!(A)"]), (⟨"B", "Q"⟩, ["B"])] ∧
      (∀ m ∈ found, m.timing.WellFormed ∧
        ∀ cell, Liberty.cellOf? m.name m.timing = some cell → cell.Named) ∧
      ∃ timing, ModuleTiming.ofBlock "specify (A=>Q)=1; endspecify" = .ok timing ∧
        timing.WellFormed := by
  have read : (Source.modules [] buffered).toOption.map (fun found =>
      (eventTermsOf found, groupsOf found)) =
      some ([["D", "~E"], ["CLK"]],
        [(⟨"A", "Q"⟩, ["A", "!(A)"]), (⟨"B", "Q"⟩, ["B"])]) := by
    decide +kernel
  have short : (ModuleTiming.ofBlock "specify (A=>Q)=1; endspecify").toOption.map (fun _ => ()) =
      some () := by
    decide +kernel
  obtain ⟨found, parsed, facts⟩ := exists_ok_of_toOption read
  obtain ⟨events, groups⟩ := Prod.mk.inj facts
  obtain ⟨timing, ok, _⟩ := exists_ok_of_toOption short
  exact ⟨found, parsed, events, groups, wellFormed_of_parsed.2 [] buffered found parsed, timing, ok,
    (wellFormed_of_parsed.1 _ timing ok).1⟩

end CellTiming
