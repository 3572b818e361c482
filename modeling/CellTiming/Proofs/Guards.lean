import CellTiming.Liberty.Mapping
import CellTiming.Proofs.BareText
import CellTiming.Proofs.Calls

/-! The guards of a check: the conditions of the event its limit is about, as they stand
in the call of its task. -/
namespace CellTiming

/-- The events of a check, in the order in which they are written. -/
def TimingCheck.events : TimingCheck → List Event
  | setup data reference _ _ => [data, reference]
  | hold reference data _ _ | setuphold reference data _ _ _ _ | skew reference data _ _
  | recovery reference data _ _ | recrem reference data _ _ _ _ _ => [reference, data]
  | period reference _ _ | width reference _ _ _ => [reference]

/-- The event whose conditions guard the limit of a check. -/
def TimingCheck.guarded : TimingCheck → Option Event
  | period reference _ _ => some reference
  | check => check.data?

/-- The place of the guarded event among the arguments. -/
def CheckTask.guardedPlace : CheckTask → Nat
  | setup | period => 0
  | _ => 1

/-- One of the words for an edge. -/
def Token.isEdge (t : Token) : Bool :=
  t.kind == .keyword .posedge || t.kind == .keyword .negedge

/-- The term that names the signal of an event, behind its edge. -/
def signalTerm (event : List Token) : List Token :=
  ((event.splitOnP (·.isSymbol .tripleAmp)).headD []).dropWhile Token.isEdge

/-- The terms of an event behind its signal. -/
def terms (event : List Token) : List (List Token) :=
  (event.splitOnP (·.isSymbol .tripleAmp)).tail

/-- An argument of a call, which is given from its opening parenthesis on. -/
def argument (call : CheckTask × List Token) (place : Nat) : List Token :=
  (call.2.tail.splitOnP (·.isSymbol .comma)).getD place []

/-- The terms that guard a call. -/
def guardTerms (call : CheckTask × List Token) : List (List Token) :=
  terms (argument call call.1.guardedPlace)

theorem mem_of_mem_splitOnP {p : Token → Bool} {ts piece : List Token} {t : Token}
    (member : piece ∈ ts.splitOnP p) (inside : t ∈ piece) : t ∈ ts := by
  induction ts generalizing piece with
  | nil => simp_all [List.splitOnP_nil]
  | cons first rest ih =>
    rw [List.splitOnP_cons_eq_if_modifyHead] at member
    split at member
    · rcases List.mem_cons.mp member with rfl | member
      · cases inside
      · exact List.mem_cons_of_mem first (ih member inside)
    · cases pieces : rest.splitOnP p with
      | nil => exact absurd pieces (List.splitOnP_ne_nil p rest)
      | cons head others =>
        rw [pieces] at member ih
        rcases List.mem_cons.mp member with rfl | member
        · rcases List.mem_cons.mp inside with rfl | inside
          · exact List.mem_cons_self
          · exact List.mem_cons_of_mem first (ih List.mem_cons_self inside)
        · exact List.mem_cons_of_mem first (ih (List.mem_cons_of_mem head member) inside)

theorem mem_of_argument {call : CheckTask × List Token} {place : Nat} {t : Token}
    (member : t ∈ argument call place) : t ∈ call.2 := by
  rw [argument, List.getD_eq_getElem?_getD] at member
  cases found : (call.2.tail.splitOnP (·.isSymbol .comma))[place]? with
  | none =>
    rw [found] at member
    cases member
  | some piece =>
    rw [found] at member
    exact List.mem_of_mem_tail (mem_of_mem_splitOnP (List.mem_of_getElem? found) member)

theorem mem_of_guardTerms {call : CheckTask × List Token} {term : List Token} {t : Token}
    (member : term ∈ guardTerms call) (inside : t ∈ term) : t ∈ call.2 :=
  mem_of_argument (mem_of_mem_splitOnP (List.mem_of_mem_tail member) inside)

theorem mem_of_signalTerm {event : List Token} {t : Token} (member : t ∈ signalTerm event) :
    t ∈ event := by
  have inside := (List.dropWhile_suffix _).subset member
  rw [List.headD_eq_head?_getD] at inside
  cases found : (event.splitOnP (·.isSymbol .tripleAmp)).head? with
  | none => exact absurd (List.head?_eq_none_iff.mp found) (List.splitOnP_ne_nil _ _)
  | some piece =>
    rw [found] at inside
    exact mem_of_mem_splitOnP (List.mem_of_head? found) inside

namespace Grammar

open Operators

/-- Neither between two arguments nor between two terms. -/
def Inner (t : Token) : Prop := t.isSymbol .comma = false ∧ t.isSymbol .tripleAmp = false

/-- The kinds of the tokens of terms. -/
def termKinds : List Token.Kind :=
  [.name, .number, .symbol .bang, .symbol .tilde, .symbol .amp, .symbol .ampAmp, .symbol .eqEq,
    .symbol .eqEqEq, .symbol .leftParen, .symbol .rightParen]

theorem kind_of_reads {phrase : Phrase String} {used : List Token} {text : String}
    (reads : Reads eventTerms phrase used text) : ∀ t ∈ used, t.kind ∈ termKinds := by
  have of_kind {t : Token} {kind : Token.Kind} (same : t.kind = kind) (known : kind ∈ termKinds) :
      t.kind ∈ termKinds := same ▸ known
  refine reads.forall_mem ?_ ?_ ?_ (fun {t} opens => of_kind (eq_of_beq opens) (by decide))
    (fun {t} closes => of_kind (eq_of_beq closes) (by decide))
  all_goals
    intro t found sign
    simp only [eventTerms] at sign
    split at sign <;> first
      | (cases sign; done)
      | exact of_kind ‹_› (by decide)

theorem inner_of_reads {phrase : Phrase String} {used : List Token} {text : String}
    (reads : Reads eventTerms phrase used text) : ∀ t ∈ used, Inner t := by
  intro t member
  have inner : ∀ kind ∈ termKinds, kind ≠ .symbol .comma ∧ kind ≠ .symbol .tripleAmp := by decide
  simpa [Inner, Token.isSymbol] using inner _ (kind_of_reads reads t member)

theorem edge_tokens : edge?.Takes fun used _ => ∀ t ∈ used, t.isEdge = true := by
  have keyword {t : Token} {edge : Keyword} (kind : t.kind = .keyword edge)
      (known : edge = .posedge ∨ edge = .negedge) : ∀ t' ∈ [t], t'.isEdge = true := by
    rcases known with rfl | rfl <;> simp [Token.isEdge, kind]
  intro ts value rest ok
  obtain ⟨rising, middle, head, tail⟩ := Rule.run_bind_ok.mp ok
  rcases TokenRule.eatKeyword_run.mp head with ⟨rfl, t, rfl, kind⟩ | ⟨rfl, rfl, _⟩
  · cases tail
    exact ⟨[t], rfl, keyword kind (.inl rfl)⟩
  · obtain ⟨falling, last, second, ending⟩ := Rule.run_bind_ok.mp tail
    rcases TokenRule.eatKeyword_run.mp second with ⟨rfl, t, rfl, kind⟩ | ⟨rfl, rfl, _⟩
    · cases ending
      exact ⟨[t], rfl, keyword kind (.inr rfl)⟩
    · cases ending
      exact ⟨[], rfl, by simp⟩

theorem inner_of_edge {t : Token} (edge : t.isEdge = true) : Inner t := by
  simp only [Token.isEdge, Bool.or_eq_true, beq_iff_eq] at edge
  rcases edge with kind | kind <;> simp [Inner, Token.isSymbol, kind]

/-- The tokens of an event, up to the comma that ends it. -/
structure EventTokens (used : List Token) (event : Event) : Prop where
  single : ∀ t ∈ used, t.isSymbol .comma = false
  signal : Reads eventTerms (.operation 0) (signalTerm used) event.signal
  conditions : List.Forall₂ (Reads eventTerms (.operation 0)) (terms used) event.conditions

abbrev TermRow := Rule.Row fun (t : Token) used (text : String) =>
  t.kind = .symbol .tripleAmp ∧ Reads eventTerms (.operation 0) used text

theorem splitOnP_terms {head used : List Token} {texts : List String}
    (inner : ∀ t ∈ head, Inner t) (row : TermRow used texts) :
    ∃ others, (head ++ used).splitOnP (·.isSymbol .tripleAmp) = head :: others ∧
      List.Forall₂ (Reads eventTerms (.operation 0)) others texts := by
  induction row generalizing head with
  | nil =>
    refine ⟨[], ?_, .nil⟩
    rw [List.append_nil]
    exact List.splitOnP_eq_singleton fun t member => (inner t member).2
  | @cons t piece text more texts term _ ih =>
    obtain ⟨sign, reads⟩ := term
    obtain ⟨others, split, follow⟩ := ih (inner_of_reads reads)
    refine ⟨piece :: others, ?_, .cons reads follow⟩
    rw [List.splitOnP_append_cons_of_forall_mem (fun t member => (inner t member).2) t
      (by simp [Token.isSymbol, sign]), split]

theorem single_of_terms {used : List Token} {texts : List String} (row : TermRow used texts) :
    ∀ t ∈ used, t.isSymbol .comma = false := by
  induction row with
  | nil => simp
  | cons term _ ih =>
    obtain ⟨sign, reads⟩ := term
    refine List.forall_mem_cons.mpr ⟨by simp [Token.isSymbol, sign], ?_⟩
    exact List.forall_mem_append.mpr ⟨fun t member => (inner_of_reads reads t member).1, ih⟩

/-- A term starts with no word for an edge. -/
theorem dropWhile_edge {edge used : List Token} {text : String}
    (edges : ∀ t ∈ edge, t.isEdge = true) (reads : Reads eventTerms (.operation 0) used text) :
    (edge ++ used).dropWhile Token.isEdge = used := by
  rw [List.dropWhile_append_of_pos edges]
  cases used with
  | nil => rfl
  | cons t rest =>
    have other : ∀ kind ∈ termKinds, kind ≠ .keyword .posedge ∧ kind ≠ .keyword .negedge := by
      decide
    have plain : t.isEdge = false := by
      simpa [Token.isEdge] using other _ (kind_of_reads reads t List.mem_cons_self)
    rw [List.dropWhile_cons, plain]
    rfl

theorem event_tokens : event.Takes EventTokens := by
  have term : eventTerm.Takes (Reads eventTerms (.operation 0)) := by
    intro ts text rest ok
    obtain ⟨used, same, reads, _⟩ := expression_run.mp ok
    exact ⟨used, same, reads⟩
  intro ts found rest ok
  obtain ⟨edge, afterEdge, head, tail⟩ := Rule.run_bind_ok.mp ok
  obtain ⟨first, rfl, edges⟩ := edge_tokens _ _ _ head
  obtain ⟨signal, afterSignal, named, ending⟩ := Rule.run_bind_ok.mp tail
  obtain ⟨second, rfl, reads⟩ := term _ _ _ named
  obtain ⟨texts, last, others, finish⟩ := Rule.run_bind_ok.mp ending
  obtain ⟨more, rfl, row⟩ := TokenRule.following_takes term _ _ _ others
  cases finish
  have inner : ∀ t ∈ first ++ second, Inner t :=
    List.forall_mem_append.mpr ⟨fun t member => inner_of_edge (edges t member),
      inner_of_reads reads⟩
  obtain ⟨pieces, split, conditions⟩ := splitOnP_terms inner row
  refine ⟨first ++ second ++ more, by simp, ?_, ?_, ?_⟩
  · exact List.forall_mem_append.mpr ⟨fun t member => (inner t member).1, single_of_terms row⟩
  · rw [signalTerm, split, List.headD_cons, dropWhile_edge edges reads]
    exact reads
  · rw [terms, split]
    exact conditions

theorem argument_of_event {α : Type} {next : Event → TokenRule α} {ts rest : List Token} {value : α}
    (ok : (event >>= fun e => TokenRule.expect .comma >>= fun _ => next e).run ts =
      .ok (value, rest)) :
    ∃ used more e, ts.splitOnP (·.isSymbol .comma) = used :: more.splitOnP (·.isSymbol .comma) ∧
      EventTokens used e ∧ (next e).run more = .ok (value, rest) := by
  obtain ⟨e, middle, head, tail⟩ := Rule.run_bind_ok.mp ok
  obtain ⟨used, rfl, tokens⟩ := event_tokens _ _ _ head
  obtain ⟨_, more, ended, others⟩ := Rule.run_bind_ok.mp tail
  obtain ⟨comma, rfl, kind⟩ := TokenRule.expect_run.mp ended
  refine ⟨used, more, e, ?_, tokens, others⟩
  exact List.splitOnP_append_cons_of_forall_mem tokens.single comma
    (by simp [Token.isSymbol, kind]) more

/-- The events of the checks a rule reads are its first arguments. -/
def ReadsEvents (rule : TokenRule TimingCheck) : Prop :=
  ∀ ts check rest, rule.run ts = .ok (check, rest) →
    ∃ used others, ts.splitOnP (·.isSymbol .comma) = used ++ others ∧
      List.Forall₂ EventTokens used check.events

theorem readsEvents_one {next : Event → TokenRule TimingCheck}
    (made : ∀ e, (next e).Takes fun _ check => check.events = [e]) :
    ReadsEvents (event >>= fun e => TokenRule.expect .comma >>= fun _ => next e) := by
  intro ts check rest ok
  obtain ⟨used, more, e, split, tokens, last⟩ := argument_of_event ok
  obtain ⟨_, _, same⟩ := made e _ _ _ last
  exact ⟨[used], _, split, same ▸ .cons tokens .nil⟩

theorem readsEvents_two {next : Event → Event → TokenRule TimingCheck}
    (made : ∀ first second, (next first second).Takes fun _ check => check.events = [first, second]) :
    ReadsEvents (event >>= fun first => TokenRule.expect .comma >>= fun _ =>
      event >>= fun second => TokenRule.expect .comma >>= fun _ => next first second) := by
  intro ts check rest ok
  obtain ⟨used, middle, first, split, tokens, ok'⟩ := argument_of_event ok
  obtain ⟨used', more, second, split', tokens', last⟩ := argument_of_event ok'
  obtain ⟨_, _, same⟩ := made first second _ _ _ last
  exact ⟨[used, used'], _, by rw [split, split']; rfl, same ▸ .cons tokens (.cons tokens' .nil)⟩

section Checks

variable (table : Specparams)

theorem readsEvents_simple {make : Event → Event → Triple → Option String → TimingCheck}
    (made : ∀ first second limit notifier,
      (make first second limit notifier).events = [first, second]) :
    ReadsEvents (simpleCheck table make) :=
  readsEvents_two fun first second => Rule.takes_last fun limit => Rule.takes_last fun notifier =>
    Rule.takes_pure (made first second limit notifier)

theorem readsEvents_recrem (form : RecremForm) : ReadsEvents (recrem table form) := by
  refine readsEvents_two fun first second => Rule.takes_last fun _ => Rule.takes_last fun _ =>
    Rule.takes_last fun _ => Rule.takes_last fun _ => ?_
  cases form <;> exact Rule.takes_pure rfl

theorem readsEvents_arguments (arguments : Nat) (task : CheckTask) :
    ReadsEvents (checkArguments table arguments task) := by
  cases task with
  | setup | hold | skew => exact readsEvents_simple table fun _ _ _ _ => rfl
  | setuphold =>
    exact readsEvents_two fun first second => Rule.takes_last fun _ => Rule.takes_last fun _ =>
      Rule.takes_last fun _ => Rule.takes_last fun _ => Rule.takes_pure rfl
  | recovery =>
    rw [checkArguments]
    split
    · exact readsEvents_recrem table .extendedRecovery
    · exact readsEvents_simple table fun _ _ _ _ => rfl
  | period =>
    exact readsEvents_one fun e => Rule.takes_last fun _ => Rule.takes_last fun _ =>
      Rule.takes_pure rfl
  | width =>
    refine readsEvents_one fun e => Rule.takes_last fun _ => Rule.takes_last fun _ => ?_
    split
    · exact Rule.takes_last fun _ => Rule.takes_last fun _ => Rule.takes_pure rfl
    · exact Rule.takes_pure rfl
  | recrem => exact readsEvents_recrem table .recrem

variable {call : CheckTask × List Token} {check : TimingCheck} {e : Event}

theorem CallReads.kind (reads : CallReads call check) : check.kind ∈ call.1.kinds := by
  obtain ⟨table, rest, ok⟩ := reads
  obtain ⟨_, _, made⟩ := timingCheck_kind table call.1 _ _ _ ok
  exact made

/-- The events of a check are the arguments of its call that stand at their places. -/
theorem event_of_call {place : Nat} (reads : CallReads call check)
    (known : check.events[place]? = some e) : EventTokens (argument call place) e := by
  obtain ⟨table, rest, ok⟩ := reads
  obtain ⟨arguments, first, counted, opened⟩ := Rule.run_bind_ok.mp ok
  cases counted
  obtain ⟨_, inside, opening, body⟩ := Rule.run_bind_ok.mp opened
  obtain ⟨t, same, _⟩ := TokenRule.expect_run.mp opening
  obtain ⟨found, _, read, ending⟩ := Rule.run_bind_ok.mp body
  obtain ⟨_, _, _, last⟩ := Rule.run_bind_ok.mp ending
  obtain ⟨_, _, _, finish⟩ := Rule.run_bind_ok.mp last
  cases finish
  obtain ⟨used, others, split, events⟩ := readsEvents_arguments table _ call.1 inside check _ read
  obtain ⟨small, rfl⟩ := List.getElem?_eq_some_iff.mp known
  have within : place < used.length := events.length_eq ▸ small
  rw [argument, same, List.tail_cons, split, List.getD_eq_getElem?_getD,
    List.getElem?_append_left within, List.getElem?_eq_getElem within]
  exact events.get within small

theorem guarded_place {task : CheckTask} (kind : check.kind ∈ task.kinds)
    (guarded : check.guarded = some e) : check.events[task.guardedPlace]? = some e := by
  cases task <;> cases check <;>
    simp_all [CheckTask.kinds, TimingCheck.kind, TimingCheck.guarded, TimingCheck.data?,
      TimingCheck.events, CheckTask.guardedPlace]

/-- The conditions of the guarded event are the terms of the call. -/
theorem guards_of_call (reads : CallReads call check) (guarded : check.guarded = some e) :
    List.Forall₂ (Reads eventTerms (.operation 0)) (guardTerms call) e.conditions :=
  (event_of_call reads (guarded_place reads.kind guarded)).conditions

end Checks

end Grammar

end CellTiming
