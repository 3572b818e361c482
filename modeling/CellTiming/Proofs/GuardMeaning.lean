import CellTiming.Proofs.Guards

/-! What the `when` of a constraint means. It is the guards of its check joined to one
text, from which their parentheses are gone, and it is read back as a condition. -/
namespace CellTiming

open Grammar Operators Condition

/-- The conditions that the check leaves on the pins of a cell. -/
def TimingCheck.whens (check : TimingCheck) : List (Option String) :=
  (Liberty.addCheck { name := "" } check).pins.flatMap fun (_, pin) =>
    pin.timing.map (·.when) ++ pin.minimumPeriod.map (·.when)

theorem TimingCheck.whens_of_guarded {check : TimingCheck} {event : Event}
    (guarded : check.guarded = some event) :
    check.whens ≠ [] ∧ ∀ when ∈ check.whens, when = Liberty.eventWhen event := by
  cases check with
  | setup | hold | skew | recovery | period =>
    cases guarded
    constructor <;>
      simp [whens, Liberty.addCheck, Liberty.addConstraint, Liberty.Cell.update, Liberty.updatePin,
        Liberty.Pin.addTiming, Liberty.Pin.addPeriod, Liberty.constraintGroup]
  | setuphold | recrem =>
    cases guarded
    constructor <;>
      simp [whens, Liberty.addCheck, Liberty.addConstraint, Liberty.Cell.update, Liberty.updatePin,
        Liberty.Pin.addTiming, Liberty.constraintGroup]
  | width => cases guarded

/-- Every `when` of the check is a condition that holds when all the sources do. -/
def KeepsMeaning (check : TimingCheck) (sources : List Condition) : Prop :=
  ∀ text, some text ∈ check.whens → ∃ value, readCondition text = .ok value ∧
    ∀ values, value.holds values = sources.all (holds values)

/-- The terms are conditions, and their texts bear the conjuncts of these. -/
theorem sources_of_terms {terms : List (List Token)} {texts : List String}
    (reads : List.Forall₂ (Reads eventTerms (.operation 0)) terms texts)
    (readable : ∀ term ∈ terms, ∀ t ∈ term, Readable t) :
    ∃ sources, terms.mapM wholeCondition = .ok sources ∧
      List.Forall₂ Bears texts (sources.map conjuncts) := by
  induction reads with
  | nil => exact ⟨[], rfl, .nil⟩
  | @cons term text terms texts first _ ih =>
    obtain ⟨sources, whole, bears⟩ := ih fun term member => readable term (by simp [member])
    obtain ⟨source, reads⟩ := condition_of_term [] first
    have leaves : Bears (rendering term) source.conjuncts :=
      leavesConjuncts_of_reads reads (readable term (by simp))
    have same : text = rendering term := rendering_of_reads first
    have read : wholeCondition term = .ok source := by
      rw [← List.append_nil term]
      exact wholeCondition_of_reads reads (stops_nil _ 0) rfl
    refine ⟨source :: sources, ?_, .cons (same ▸ leaves) bears⟩
    rw [List.mapM_cons, read, whole]
    rfl

theorem all_flatten_conjuncts (values : String → Bool) (sources : List Condition) :
    (sources.map conjuncts).flatten.all (holds values) = sources.all (holdsBare values) := by
  induction sources with
  | nil => rfl
  | cons source sources ih =>
    rw [List.map_cons, List.flatten_cons, List.all_append, ih]
    rfl

/-- The meaning of a guard is that of its sources without their parentheses. -/
theorem keepsMeaning_iff {check : TimingCheck} {event : Event} {sources : List Condition}
    (guarded : check.guarded = some event)
    (bears : List.Forall₂ Bears event.conditions (sources.map conjuncts)) :
    KeepsMeaning check sources ↔
      ∀ values, sources.all (holdsBare values) = sources.all (holds values) := by
  obtain ⟨nonempty, all⟩ := TimingCheck.whens_of_guarded guarded
  by_cases none : event.conditions = []
  · have nothing : sources = [] := by
      rw [none] at bears
      cases sources with
      | nil => rfl
      | cons => cases bears
    subst nothing
    refine ⟨fun _ _ => rfl, fun _ text member => ?_⟩
    have same := all _ member
    simp [Liberty.eventWhen, none] at same
  · obtain ⟨value, read, truth⟩ := (Bears.joined bears none).read
    have bare (values : String → Bool) : value.holds values = sources.all (holdsBare values) := by
      rw [truth, all_flatten_conjuncts]
    have when : Liberty.eventWhen event = some ("&".intercalate event.conditions) := by
      simp [Liberty.eventWhen, none]
    constructor
    · intro keeps values
      obtain ⟨first, member⟩ := List.exists_mem_of_ne_nil _ nonempty
      have same : first = some ("&".intercalate event.conditions) := (all first member).trans when
      obtain ⟨found, read', means⟩ := keeps _ (same ▸ member)
      cases read.symm.trans read'
      rw [← bare, means]
    · intro equal text member
      cases (all _ member).trans when
      exact ⟨value, read, fun values => by rw [bare, equal]⟩

/-- The guards of each check of a text mean what their terms mean if and only if they do so
without parentheses; conjunctions of conditions that negate and compare none do. -/
theorem guards_keep_meaning (text : String) (timing : ModuleTiming)
    (ok : ModuleTiming.ofBlock text = .ok timing) :
    ∃ ts, Token.ofString text = .ok ts ∧
      List.Forall₂ (fun call check => ∀ event, check.guarded = some event →
        (∀ term ∈ guardTerms call, ∀ t ∈ term, RealLegible t) →
        ∃ sources, (guardTerms call).mapM wholeCondition = .ok sources ∧
          (KeepsMeaning check sources ↔
            ∀ values, sources.all (holdsBare values) = sources.all (holds values)) ∧
          ((∀ source ∈ sources, source.isConjunctive = true) → KeepsMeaning check sources))
        (calls ts) timing.checks := by
  obtain ⟨ts, tokens, reads⟩ := ofBlock_calls ok
  refine ⟨ts, tokens, ?_⟩
  have within : ∀ call ∈ calls ts, ∀ t ∈ call.2, t ∈ ts := fun call member => mem_of_calls member
  refine ((List.forall₂_and_left _ _).mpr ⟨within, reads⟩).imp ?_
  rintro call check ⟨inside, read⟩ event guarded real
  have readable : ∀ term ∈ guardTerms call, ∀ t ∈ term, Readable t := fun term member t among =>
    .of_real (Token.tokensFrom_spelled tokens t (inside t (mem_of_guardTerms member among)))
      (real term member t among)
  obtain ⟨sources, whole, bears⟩ := sources_of_terms (guards_of_call read guarded) readable
  have exact_ := keepsMeaning_iff guarded bears
  refine ⟨sources, whole, exact_, fun conjunctive => exact_.mpr fun values => ?_⟩
  rw [Bool.eq_iff_iff, List.all_eq_true, List.all_eq_true]
  refine forall₂_congr fun source member => ?_
  rw [holdsBare_of_conjunctive source (conjunctive source member)]

private def gated : String :=
  "specify $setup(D &&& (A & B) &&& !C == 1.5, G, 1); endspecify"

private theorem legible_real : Legible "1.5" := by
  have cut : (Token.lexeme true '1' ['.', '5']).toOption.map id = some ⟨.number, 2⟩ := by
    decide +kernel
  have read : ((conditions []).atom ⟨.number, "1.5", 0, 0⟩).toOption.map id =
      some (.literal "1.5") := by
    decide +kernel
  obtain ⟨_, lexes, rfl⟩ := exists_ok_of_toOption cut
  obtain ⟨_, atom, rfl⟩ := exists_ok_of_toOption read
  exact ⟨⟨.number, "1.5", 0, 0⟩, rfl, ⟨.inr rfl, '1', ['.', '5'], rfl, lexes⟩, atom⟩

theorem guards_keep_meaning_gated :
    ∃ timing check sources, ModuleTiming.ofBlock gated = .ok timing ∧ timing.checks = [check] ∧
      check.whens = [some "A&B&!C==1.5"] ∧
      sources = [.group (.and .single (.literal "A") (.literal "B")),
        .equals .logical (.not .bang (.literal "C")) (.literal "1.5")] ∧
      KeepsMeaning check sources := by
  have read : (ModuleTiming.ofBlock gated).toOption.map (fun timing =>
      timing.checks.map fun check => (check.guarded, check.whens)) =
      some [(some ⟨.rising, "D", ["A&B", "!C==1.5"]⟩, [some "A&B&!C==1.5"])] := by
    decide +kernel
  have cut : (Token.ofString gated).toOption.map (fun ts => (calls ts).map fun call =>
      (words (guardTerms call).flatten, ((guardTerms call).mapM wholeCondition).toOption)) =
      some [([symbolWord .leftParen, nameWord "A", symbolWord .amp, nameWord "B",
          symbolWord .rightParen, symbolWord .bang, nameWord "C", symbolWord .eqEq, (.number, "1.5")],
        some [.group (.and .single (.literal "A") (.literal "B")),
          .equals .logical (.not .bang (.literal "C")) (.literal "1.5")])] := by
    decide +kernel
  have print : (Number.ofString? "1.5").map Number.text = some "1.5" := by decide +kernel
  obtain ⟨timing, found, checks⟩ := exists_ok_of_toOption read
  obtain ⟨ts, tokens, guards⟩ := exists_ok_of_toOption cut
  obtain ⟨ts', tokens', means⟩ := guards_keep_meaning gated timing found
  cases tokens.symm.trans tokens'
  obtain ⟨call, none, only, guard, nothing⟩ := List.map_eq_cons_iff.mp guards
  obtain ⟨check, none', only', event, nothing'⟩ := List.map_eq_cons_iff.mp checks
  cases List.map_eq_nil_iff.mp nothing
  cases List.map_eq_nil_iff.mp nothing'
  rw [only, only'] at means
  obtain ⟨spelled, sources⟩ := Prod.mk.inj guard
  obtain ⟨guarded, whens⟩ := Prod.mk.inj event
  have real : ∀ term ∈ guardTerms call, ∀ t ∈ term, RealLegible t := by
    intro term member t inside kind n number _
    have among : t.spelled ∈ words (guardTerms call).flatten :=
      List.mem_map_of_mem (List.mem_flatten.mpr ⟨term, member, inside⟩)
    have text : t.text = "1.5" := by
      rw [spelled] at among
      simpa [Token.spelled, symbolWord, nameWord, kind] using among
    rw [text] at number
    rw [number] at print
    rw [Option.some.inj print]
    exact legible_real
  cases means with
  | cons keeps _ =>
    obtain ⟨found', whole, _, conjunctive⟩ := keeps _ guarded real
    rw [whole] at sources
    cases sources
    exact ⟨timing, check, _, found, only', whens, rfl, conjunctive (by decide)⟩

private def nested : String := "specify $setup(D &&& !(A & B), CLK, 1); endspecify"

/-- A negated conjunction becomes a negated name. -/
theorem nested_guard_misread :
    ∃ timing ts call check source, ModuleTiming.ofBlock nested = .ok timing ∧
      Token.ofString nested = .ok ts ∧ calls ts = [call] ∧ timing.checks = [check] ∧
      check.whens = [some "!A&B"] ∧ (guardTerms call).mapM wholeCondition = .ok [source] ∧
      ¬ KeepsMeaning check [source] := by
  have read : (ModuleTiming.ofBlock nested).toOption.map (fun timing =>
      timing.checks.map TimingCheck.whens) = some [[some "!A&B"]] := by
    decide +kernel
  have cut : (Token.ofString nested).toOption.map (fun ts => (calls ts).map fun call =>
      ((guardTerms call).mapM wholeCondition).toOption) =
      some [some [.not .bang (.group (.and .single (.literal "A") (.literal "B")))]] := by
    decide +kernel
  have again : (readCondition "!A&B").toOption.map id =
      some (.and .single (.not .bang (.literal "A")) (.literal "B")) := by
    decide +kernel
  obtain ⟨timing, found, checks⟩ := exists_ok_of_toOption read
  obtain ⟨ts, tokens, guards⟩ := exists_ok_of_toOption cut
  obtain ⟨_, reread, rfl⟩ := exists_ok_of_toOption again
  obtain ⟨call, none, only, guard, nothing⟩ := List.map_eq_cons_iff.mp guards
  obtain ⟨check, none', only', whens, nothing'⟩ := List.map_eq_cons_iff.mp checks
  cases List.map_eq_nil_iff.mp nothing
  cases List.map_eq_nil_iff.mp nothing'
  obtain ⟨sources, whole, rfl⟩ := exists_ok_of_toOption (f := id) (by simpa using guard)
  refine ⟨timing, ts, call, check, _, found, tokens, only, only', whens, whole, fun keeps => ?_⟩
  obtain ⟨value, read', means⟩ := keeps "!A&B" (by simp [whens])
  cases reread.symm.trans read'
  -- With both names false the conjunction is negated, but not the text.
  have differ := means fun _ => false
  simp [holds] at differ

end CellTiming
