import CellTiming.Liberty.Mapping
import CellTiming.Proofs.PathIndex

/-! The cell of a module pin by pin. Every path and every check mentions one pin and leaves
its entries there; a pin holds the entries of all that mention it, in their order. -/
namespace CellTiming.Liberty

/-- What one path or check leaves on the pin it mentions. -/
structure Mention where
  pin : String
  timing : List TimingGroup := []
  period? : Option MinimumPeriod := none
  width? : Option Triple := none

namespace Mention

def ofPath (path : Path) : Mention where
  pin := path.output
  timing := match path.edge with
    | some edge => [pathGroup path edge]
    | none => [pathGroup path .rising, pathGroup path .falling]

/-- A check mentions its data signal, or its reference where it has no data event. -/
def ofCheck : TimingCheck → Mention
  | .setup data reference limit _ =>
    { pin := data.signal, timing := [constraintGroup .setup reference data limit] }
  | .hold reference data limit _ =>
    { pin := data.signal, timing := [constraintGroup .hold reference data limit] }
  | .skew reference data limit _ =>
    { pin := data.signal, timing := [constraintGroup .skew reference data limit] }
  | .recovery reference data limit _ =>
    { pin := data.signal, timing := [constraintGroup .recovery reference data limit] }
  | .setuphold reference data setup hold _ _ =>
    { pin := data.signal
      timing := [constraintGroup .setup reference data setup,
        constraintGroup .hold reference data hold] }
  | .recrem reference data recovery removal _ _ _ =>
    { pin := data.signal
      timing := [constraintGroup .recovery reference data recovery,
        constraintGroup .removal reference data removal] }
  | .period reference limit _ =>
    { pin := reference.signal
      period? := some ⟨eventWhen reference, limit.min, limit.typ, limit.max⟩ }
  | .width reference limit _ _ => { pin := reference.signal, width? := some limit }

def leave (mention : Mention) (pin : Pin) : Pin where
  timing := pin.timing ++ mention.timing
  minimumPeriod := pin.minimumPeriod ++ mention.period?.toList
  pulseWidthLow := (mention.width?.map (·.min)).or pin.pulseWidthLow
  pulseWidthHigh := (mention.width?.map (·.max)).or pin.pulseWidthHigh

end Mention

/-- Plain paths, conditioned paths group by group, and checks. -/
def mentions (timing : ModuleTiming) : List Mention :=
  (timing.paths ++ timing.conditioned.paths).map Mention.ofPath ++
    timing.checks.map Mention.ofCheck

/-- The pin on which nothing is left but by the given mentions. -/
def Pin.ofMentions (own : List Mention) : Pin where
  timing := own.flatMap (·.timing)
  minimumPeriod := own.filterMap (·.period?)
  pulseWidthLow := (own.filterMap (·.width?)).getLast?.map (·.min)
  pulseWidthHigh := (own.filterMap (·.width?)).getLast?.map (·.max)

section Filling

theorem ofMentions_concat (own : List Mention) (mention : Mention) :
    Pin.ofMentions (own ++ [mention]) = mention.leave (Pin.ofMentions own) := by
  cases mention with
  | mk pin timing period? width? =>
    cases width? <;> cases period? <;> simp [Pin.ofMentions, Mention.leave]

theorem updatePin_updatePin (name : String) (first second : Pin → Pin)
    (pins : List (String × Pin)) :
    updatePin name second (updatePin name first pins) = updatePin name (second ∘ first) pins := by
  induction pins with
  | nil => simp [updatePin]
  | cons known pins ih =>
    by_cases same : known.1 = name
    · simp [updatePin, same]
    · simp [updatePin, same, ih]

def fill (pins : List (String × Pin)) (mention : Mention) : List (String × Pin) :=
  updatePin mention.pin mention.leave pins

theorem addPath_pins (cell : Cell) (path : Path) :
    addPath cell path = { cell with pins := fill cell.pins (.ofPath path) } := by
  have left : (fun pin : Pin =>
      ((pathEdges path).map (pathGroup path)).foldl (fun pin group => pin.addTiming group) pin) =
      (Mention.ofPath path).leave := by
    funext pin
    cases edge : path.edge with
    | none => simp [pathEdges, edge, Mention.ofPath, Mention.leave, Pin.addTiming]
    | some => simp [pathEdges, edge, Mention.ofPath, Mention.leave, Pin.addTiming]
  rw [addPath, left]
  rfl

theorem addConstraint_pins (cell : Cell) (arc : ConstraintArc) (reference data : Event)
    (limit : Triple) :
    addConstraint cell arc reference data limit =
      { cell with
        pins := fill cell.pins
          ⟨data.signal, [constraintGroup arc reference data limit], none, none⟩ } := by
  have left : (fun pin : Pin => pin.addTiming (constraintGroup arc reference data limit)) =
      Mention.leave ⟨data.signal, [constraintGroup arc reference data limit], none, none⟩ := by
    funext pin
    simp [Mention.leave, Pin.addTiming]
  rw [addConstraint, left]
  rfl

theorem fill_fill (pins : List (String × Pin)) (name : String) (first second : TimingGroup) :
    fill (fill pins { pin := name, timing := [first] }) { pin := name, timing := [second] } =
      fill pins { pin := name, timing := [first, second] } := by
  have both : Mention.leave { pin := name, timing := [second] } ∘
      Mention.leave { pin := name, timing := [first] } =
      Mention.leave { pin := name, timing := [first, second] } := by
    funext pin
    simp [Mention.leave]
  rw [fill, fill, fill, updatePin_updatePin, both]

theorem addCheck_pins (cell : Cell) (check : TimingCheck) :
    addCheck cell check = { cell with pins := fill cell.pins (.ofCheck check) } := by
  cases check with
  | setup data reference limit => exact addConstraint_pins cell .setup reference data limit
  | hold reference data limit => exact addConstraint_pins cell .hold reference data limit
  | skew reference data limit => exact addConstraint_pins cell .skew reference data limit
  | recovery reference data limit => exact addConstraint_pins cell .recovery reference data limit
  | setuphold reference data setup hold =>
    simp only [addCheck, addConstraint_pins, fill_fill, Mention.ofCheck]
  | recrem reference data recovery removal =>
    simp only [addCheck, addConstraint_pins, fill_fill, Mention.ofCheck]
  | period reference limit notifier =>
    have left : (fun pin : Pin =>
        pin.addPeriod ⟨eventWhen reference, limit.min, limit.typ, limit.max⟩) =
        (Mention.ofCheck (.period reference limit notifier)).leave := by
      funext pin
      simp [Mention.ofCheck, Mention.leave, Pin.addPeriod]
    rw [addCheck, left]
    rfl
  | width reference limit threshold notifier =>
    have left : (fun pin : Pin =>
        { pin with pulseWidthLow := some limit.min, pulseWidthHigh := some limit.max }) =
        (Mention.ofCheck (.width reference limit threshold notifier)).leave := by
      funext pin
      simp [Mention.ofCheck, Mention.leave]
    rw [addCheck, left]
    rfl

theorem foldl_fill {α : Type} {add : Cell → α → Cell} {mention : α → Mention}
    (adds : ∀ cell a, add cell a = { cell with pins := fill cell.pins (mention a) })
    (items : List α) (cell : Cell) :
    items.foldl add cell = { cell with pins := (items.map mention).foldl fill cell.pins } := by
  induction items generalizing cell with
  | nil => rfl
  | cons a items ih => rw [List.foldl_cons, adds, ih, List.map_cons, List.foldl_cons]

theorem files_fill : Files Mention.pin (fun name own => (name, Pin.ofMentions own)) fill where
  fresh mention := congrArg (fun pin => [(mention.pin, pin)]) (ofMentions_concat [] mention).symm
  found own pins mention := by rw [fill, updatePin, if_pos rfl, ofMentions_concat]
  other name own pins mention different := by
    rw [fill, updatePin, if_neg different]
    rfl

end Filling

theorem mentions_eq_nil_iff {timing : ModuleTiming} (gathered : timing.conditioned.Gathered) :
    mentions timing = [] ↔ timing.hasNoTiming = true := by
  simp only [mentions, ModuleTiming.hasNoTiming, List.append_eq_nil_iff, List.map_eq_nil_iff,
    Bool.and_eq_true, List.isEmpty_iff, gathered.isEmpty_iff]
  constructor
  · rintro ⟨⟨paths, conditioned⟩, checks⟩
    exact ⟨⟨checks, paths⟩, conditioned⟩
  · rintro ⟨⟨checks, paths⟩, conditioned⟩
    exact ⟨⟨paths, conditioned⟩, checks⟩

/-- A cell has the pins that are mentioned, each with what all its mentions leave. -/
theorem cellOf_of_mentions (name : String) (timing : ModuleTiming) :
    cellOf? name timing = if (mentions timing).isEmpty then none else some {
      name
      pins := ((mentions timing).map (·.pin)).eraseDups.map fun pin =>
        (pin, Pin.ofMentions ((mentions timing).filter (·.pin = pin))) } := by
  have filled : timing.checks.foldl addCheck
      ((timing.paths ++ timing.conditioned.paths).foldl addPath { name }) =
      { name, pins := (mentions timing).foldl fill [] } := by
    rw [foldl_fill addPath_pins, foldl_fill addCheck_pins, mentions, List.foldl_append]
  have pins := files_fill.foldl (mentions timing)
  -- a cell is left out if it has no pin, and every mention makes one
  have empty : (grouped Mention.pin (fun name own => (name, Pin.ofMentions own))
      (mentions timing)).isEmpty = (mentions timing).isEmpty := by
    rw [Bool.eq_iff_iff, List.isEmpty_iff, grouped_eq_nil_iff, List.isEmpty_iff]
  simp only [cellOf?, filled, pins, empty]
  rfl

theorem isEmpty_mentions {timing : ModuleTiming} (gathered : timing.conditioned.Gathered) :
    (mentions timing).isEmpty = timing.hasNoTiming := by
  rw [Bool.eq_iff_iff, List.isEmpty_iff, mentions_eq_nil_iff gathered]

/-- A module without timing has no cell. The cell of any other has the pins that are mentioned,
in the order of their first mention, each with what all its mentions leave. -/
theorem cellOf_eq_mentions (name : String) (timing : ModuleTiming)
    (gathered : timing.conditioned.Gathered) :
    cellOf? name timing = if timing.hasNoTiming then none else some {
      name
      pins := ((mentions timing).map (·.pin)).eraseDups.map fun pin =>
        (pin, Pin.ofMentions ((mentions timing).filter (·.pin = pin))) } := by
  rw [cellOf_of_mentions, isEmpty_mentions gathered]

theorem isSome_cellOf (name : String) {timing : ModuleTiming}
    (gathered : timing.conditioned.Gathered) :
    (cellOf? name timing).isSome = !timing.hasNoTiming := by
  rw [cellOf_of_mentions, isEmpty_mentions gathered]
  cases timing.hasNoTiming <;> rfl

/-- The pins of a cell are those that are mentioned, with what all their mentions leave. -/
theorem pins_of_cellOf {name : String} {timing : ModuleTiming} {cell : Cell}
    (made : cellOf? name timing = some cell) :
    cell.name = name ∧ cell.pins = ((mentions timing).map (·.pin)).eraseDups.map fun pin =>
      (pin, Pin.ofMentions ((mentions timing).filter (·.pin = pin))) := by
  rw [cellOf_of_mentions] at made
  split at made
  · cases made
  · cases made
    exact ⟨rfl, rfl⟩

theorem mention_of_cellOf {name : String} {timing : ModuleTiming} {cell : Cell}
    (made : cellOf? name timing = some cell) :
    ∀ entry ∈ cell.pins, (∃ mention ∈ mentions timing, entry.1 = mention.pin) ∧
      (∀ group ∈ entry.2.timing, ∃ mention ∈ mentions timing, group ∈ mention.timing) ∧
      ∀ period ∈ entry.2.minimumPeriod, ∃ mention ∈ mentions timing, period ∈ mention.period? := by
  rw [(pins_of_cellOf made).2, List.forall_mem_map]
  intro pin member
  obtain ⟨mention, known, same⟩ := List.mem_map.mp (List.mem_eraseDups.mp member)
  refine ⟨⟨mention, known, same.symm⟩, fun group inside => ?_, fun period inside => ?_⟩
  · obtain ⟨own, kept, found⟩ := List.mem_flatMap.mp inside
    exact ⟨own, (List.mem_filter.mp kept).1, found⟩
  · obtain ⟨own, kept, found⟩ := List.mem_filterMap.mp inside
    exact ⟨own, (List.mem_filter.mp kept).1, found⟩

private def edgePath (input output : String) (edge : Option Edge) : Path :=
  ⟨input, output, edge, true, false, none, none, .uniform (.uniform 1)⟩

private def register : ModuleTiming where
  paths := [edgePath "G" "Q" none, edgePath "R" "QN" (some .falling)]
  conditioned := .ofPaths [edgePath "D" "Q" (some .rising), edgePath "G" "QN" none,
    edgePath "D" "Q" (some .falling)]
  checks := [.setuphold ⟨.rising, "G", []⟩ ⟨.rising, "D", ["R"]⟩ (.uniform 1) (.uniform 2) none {},
    .width ⟨.rising, "G", []⟩ (.uniform 3) none none, .skew ⟨.rising, "G", []⟩ ⟨.rising, "Q", []⟩
      (.uniform 4) none, .period ⟨.rising, "G", ["R"]⟩ (.uniform 5) none]

theorem cellOf_eq_mentions_register :
    register.conditioned.Gathered ∧ ∃ cell, cellOf? "register" register = some cell ∧
      cell.pins.map (fun (name, pin) => (name, pin.timing.map (·.relatedPin))) =
        [("Q", ["G", "G", "D", "D", "G"]), ("QN", ["R", "G", "G"]), ("D", ["G", "G"]), ("G", [])] ∧
      cell.pins.map (fun (_, pin) => pin.minimumPeriod.map (·.when)) =
        [[], [], [], [some "R"]] ∧
      cell.pins.map (fun (_, pin) => pin.pulseWidthLow.isSome) = [false, false, false, true] := by
  have gathered : register.conditioned.Gathered := ⟨_, rfl⟩
  refine ⟨gathered, _, cellOf_eq_mentions "register" register gathered, ?_, ?_, ?_⟩ <;> decide

end CellTiming.Liberty
