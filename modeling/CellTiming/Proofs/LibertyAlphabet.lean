import CellTiming.Proofs.Pins
import CellTiming.Proofs.PlainTexts

/-! What the texts of a library are written in. Cells take their names from modules, pins
theirs from paths and events, and the conditions on a pin are joined from plain texts. No text
holds a character that ends a string or a group. -/
namespace CellTiming.Liberty

def PlainWhen (when : Option String) : Prop := ∀ condition ∈ when, Within isLibertyChar condition

structure Mention.Plain (mention : Mention) : Prop where
  pin : Within isSignalChar mention.pin
  timing : ∀ group ∈ mention.timing, Within isLibertyChar group.relatedPin ∧ PlainWhen group.when
  period : ∀ period ∈ mention.period?, PlainWhen period.when

structure Pin.Plain (pin : Pin) : Prop where
  timing : ∀ group ∈ pin.timing, Within isLibertyChar group.relatedPin ∧ PlainWhen group.when
  period : ∀ period ∈ pin.minimumPeriod, PlainWhen period.when

theorem within_relatedPin {path : Path} (plain : path.Plain) :
    Within isLibertyChar (relatedPin path) := by
  have input := plain.input.within.widen libertyChar_of_signalChar
  have blank : Within isLibertyChar " " := by decide
  unfold relatedPin
  split
  next source given =>
    split
    · exact input
    · exact (input.append blank).append
        ((plain.source source given).widen libertyChar_of_signalChar)
  next => exact input

theorem plainWhen_path {path : Path} (plain : path.Plain) : PlainWhen (pathWhen path) := by
  have input := plain.input.within.widen libertyChar_of_signalChar
  have before : Within isLibertyChar "!" := by decide
  have between : Within isLibertyChar "&" := by decide
  unfold pathWhen
  cases path.inverted with
  | false =>
    intro text made
    obtain ⟨condition, own, rfl⟩ := Option.map_eq_some_iff.mp made
    exact plain.condition condition own
  | true =>
    cases own : path.condition with
    | none => exact forall_mem_some (before.append input)
    | some condition =>
      exact forall_mem_some (((before.append input).append between).append
        (plain.condition condition own))

theorem plainWhen_event {event : Event} (plain : event.Plain) : PlainWhen (eventWhen event) := by
  unfold eventWhen
  split
  · exact nofun
  · refine forall_mem_some (within_intercalate (by decide) fun term member => ?_)
    exact (plain.2 term member).widen libertyChar_of_signalChar

theorem Mention.plain_ofPath {path : Path} (plain : path.Plain) : (Mention.ofPath path).Plain := by
  have own (edge : Edge) : Within isLibertyChar (pathGroup path edge).relatedPin ∧
      PlainWhen (pathGroup path edge).when := ⟨within_relatedPin plain, plainWhen_path plain⟩
  refine ⟨plain.output.within, ?_, nofun⟩
  unfold ofPath
  dsimp only
  split
  · exact List.forall_mem_singleton.mpr (own _)
  · exact List.forall_mem_cons.mpr ⟨own _, List.forall_mem_singleton.mpr (own _)⟩

theorem Mention.plain_ofCheck {check : TimingCheck} (plain : check.Plain) :
    (Mention.ofCheck check).Plain := by
  obtain ⟨reference_, data_⟩ := plain
  have own {arc : ConstraintArc} {reference data : Event} {limit : Triple}
      (reference_ : reference.Plain) (data_ : data.Plain) :
      Within isLibertyChar (constraintGroup arc reference data limit).relatedPin ∧
        PlainWhen (constraintGroup arc reference data limit).when :=
    ⟨reference_.1.widen libertyChar_of_signalChar, plainWhen_event data_⟩
  cases check with
  | setup data | hold _ data | skew _ data | recovery _ data =>
    exact ⟨(data_ _ rfl).1, List.forall_mem_singleton.mpr (own reference_ (data_ _ rfl)), nofun⟩
  | setuphold _ data | recrem _ data =>
    refine ⟨(data_ _ rfl).1, List.forall_mem_cons.mpr ⟨own reference_ (data_ _ rfl), ?_⟩, nofun⟩
    exact List.forall_mem_singleton.mpr (own reference_ (data_ _ rfl))
  | period => exact ⟨reference_.1, List.forall_mem_nil _, forall_mem_some (plainWhen_event reference_)⟩
  | width => exact ⟨reference_.1, List.forall_mem_nil _, nofun⟩

theorem plain_mentions {timing : ModuleTiming} (plain : timing.Plain) :
    ∀ mention ∈ mentions timing, mention.Plain := by
  intro mention member
  rcases List.mem_append.mp member with ofPath | ofCheck
  · obtain ⟨path, known, rfl⟩ := List.mem_map.mp ofPath
    rcases List.mem_append.mp known with bare | conditioned
    · exact Mention.plain_ofPath (plain.paths path bare)
    · exact Mention.plain_ofPath (plain.conditioned path conditioned)
  · obtain ⟨check, known, rfl⟩ := List.mem_map.mp ofCheck
    exact Mention.plain_ofCheck (plain.checks check known)

theorem plain_cellOf {name : String} {timing : ModuleTiming} {cell : Cell} (plain : timing.Plain)
    (made : cellOf? name timing = some cell) :
    cell.name = name ∧ ∀ entry ∈ cell.pins, Within isSignalChar entry.1 ∧ entry.2.Plain := by
  refine ⟨(pins_of_cellOf made).1, fun entry member => ?_⟩
  obtain ⟨⟨mention, known, pin⟩, timing, period⟩ := mention_of_cellOf made entry member
  refine ⟨pin ▸ (plain_mentions plain mention known).pin, fun group inside => ?_,
    fun p inside => ?_⟩
  · obtain ⟨own, known, within⟩ := timing group inside
    exact (plain_mentions plain own known).timing group within
  · obtain ⟨own, known, within⟩ := period p inside
    exact (plain_mentions plain own known).period p within

section Library

/-- The character ends a string, a group, a statement or a line, or is not printed. -/
def isBreaking (c : Char) : Bool :=
  ['"', '\\', '{', '}', ';'].contains c || decide (c < ' ') || decide ('~' < c)

theorem bounds_of_alphanum {c : Char} (inside : c.isAlphanum = true) :
    '0'.toNat ≤ c.toNat ∧ c.toNat ≤ 'z'.toNat := by
  simp only [Char.isAlphanum, Char.isAlpha, Char.isUpper, Char.isLower, Char.isDigit,
    Bool.or_eq_true, Bool.and_eq_true, decide_eq_true_eq, UInt32.le_iff_toNat_le, ge_iff_le] at inside
  change ((65 ≤ c.toNat ∧ c.toNat ≤ 90) ∨ 97 ≤ c.toNat ∧ c.toNat ≤ 122) ∨
    48 ≤ c.toNat ∧ c.toNat ≤ 57 at inside
  change 48 ≤ c.toNat ∧ c.toNat ≤ 122
  omega

theorem not_breaking_of_libertyChar {c : Char} (inside : isLibertyChar c = true) :
    isBreaking c = false := by
  have signs : ∀ c ∈ ['_', '$', '[', ']', '\'', '.', '-', '&', '=', '!', '~'],
      isBreaking c = false :=
    Token.forall_false_of_any (by decide)
  have blanks : ∀ c ∈ ['(', ')', ' '], isBreaking c = false :=
    Token.forall_false_of_any (by decide)
  have ends : ∀ c ∈ ['"', '\\', '{', '}', ';'], c.isAlphanum = false :=
    Token.forall_false_of_any (by decide)
  simp only [isLibertyChar, isSignalChar, Bool.or_eq_true, List.contains_iff_mem] at inside
  rcases inside with (letter | sign) | blank
  · obtain ⟨least, most⟩ := bounds_of_alphanum letter
    rw [Bool.eq_false_iff]
    intro breaking
    simp only [isBreaking, Bool.or_eq_true, List.contains_iff_mem, decide_eq_true_eq] at breaking
    rcases breaking with (ending | low) | high
    · exact absurd letter (by simp [ends c ending])
    · exact absurd (Char.lt_def.mp low) (Nat.not_lt.mpr (Nat.le_trans (by decide) least))
    · exact absurd (Char.lt_def.mp high) (Nat.not_lt.mpr (Nat.le_trans most (by decide)))
  · exact signs c sign
  · exact blanks c blank

private def adder : String :=
  "module a$2;specify if(!(A[1]&&S)==8'hFF)(posedge B=>(Y[0]-:D_1))=1;$setup(D&&&~(E)&&&R,C&2.50,3);
endspecify endmodule"

theorem library_within_alphabet (macros : List String) (source name : String)
    (found : List Source.NamedTiming) (library : Library)
    (parsed : Source.modules macros source = .ok found)
    (built : libraryOf? name found = some library) :
    (∀ cell ∈ library.cells, Within isSignalChar cell.name ∧
      ∀ entry ∈ cell.pins, Within isSignalChar entry.1 ∧
        (∀ group ∈ entry.2.timing, Within isLibertyChar group.relatedPin ∧
          ∀ condition ∈ group.when, Within isLibertyChar condition) ∧
        ∀ period ∈ entry.2.minimumPeriod, ∀ condition ∈ period.when,
          Within isLibertyChar condition) ∧
    (∀ c, isLibertyChar c = true → isBreaking c = false) ∧
    ∀ c, isSignalChar c = true → isLibertyChar c = true ∧ c ∉ ['(', ')', ' '] := by
  refine ⟨fun cell member => ?_, fun c => not_breaking_of_libertyChar, fun c inside => ?_⟩
  · simp only [libraryOf?] at built
    split at built
    · cases built
    · cases built
      obtain ⟨m, known, made⟩ := List.mem_filterMap.mp member
      obtain ⟨named, plain⟩ := Source.plain_of_modules parsed m known
      obtain ⟨same, pins⟩ := plain_cellOf plain made
      refine ⟨same ▸ named, fun entry member => ?_⟩
      obtain ⟨pin, groups⟩ := pins entry member
      exact ⟨pin, groups.timing, groups.period⟩
  · have outside : ∀ c ∈ ['(', ')', ' '], isSignalChar c = false :=
    Token.forall_false_of_any (by decide)
    refine ⟨libertyChar_of_signalChar c inside, fun member => ?_⟩
    exact absurd inside (by simp [outside c member])

private def textsOf (library : Library) : List String :=
  library.cells.flatMap fun cell => cell.name :: cell.pins.flatMap fun entry => entry.1 ::
    entry.2.timing.flatMap (fun group => group.relatedPin :: group.when.toList) ++
      entry.2.minimumPeriod.flatMap (·.when.toList)

theorem library_within_alphabet_adder :
    ∃ found library, Source.modules [] adder = .ok found ∧ libraryOf? "lib" found = some library ∧
      textsOf library =
        ["a$2", "Y[0]", "B D_1", "!B&!(A[1]&&S)==8'hff", "D", "C&2.5", "~E&R"] ∧
      (∀ cell ∈ library.cells, Within isSignalChar cell.name ∧
        ∀ entry ∈ cell.pins, Within isSignalChar entry.1 ∧
          (∀ group ∈ entry.2.timing, Within isLibertyChar group.relatedPin ∧
            ∀ condition ∈ group.when, Within isLibertyChar condition) ∧
          ∀ period ∈ entry.2.minimumPeriod, ∀ condition ∈ period.when,
            Within isLibertyChar condition) ∧
      (∀ c, isLibertyChar c = true → isBreaking c = false) ∧
      ∀ c, isSignalChar c = true → isLibertyChar c = true ∧ c ∉ ['(', ')', ' '] := by
  have read : (Source.modules [] adder).toOption.map
      (fun found => (libraryOf? "lib" found).map textsOf) =
      some (some ["a$2", "Y[0]", "B D_1", "!B&!(A[1]&&S)==8'hff", "D", "C&2.5", "~E&R"]) := by
    decide +kernel
  obtain ⟨found, parsed, texts⟩ := exists_ok_of_toOption read
  obtain ⟨library, built, texts⟩ := Option.map_eq_some_iff.mp texts
  exact ⟨found, library, parsed, built, texts,
    library_within_alphabet [] adder "lib" found library parsed built⟩

end Library

end CellTiming.Liberty
