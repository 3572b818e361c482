import CellTiming.Files.Placement
import CellTiming.Files.Tree
import Mathlib.Data.List.Induction

/-! Where paths lead. Without links a path is followed segment by segment, whatever is there: an
idle segment stays, a step up drops a name, any other segment adds one. -/
namespace CellTiming.Files

open FileTree (Place)

/-- The place that a segment leads to from another one. -/
def onward (place : Place) (segment : Segment) : Place :=
  if isIdle segment then place
  else if isUp segment then place.dropLast
  else place ++ [String.ofList segment]

/-- The place a path leads to; a relative one starts where the program runs. -/
def resolve (here : Place) (path : String) : Place :=
  (segments path.toList).foldl onward (if isAbsolute path then [] else here)

/-- A segment that leads down, as a text. -/
structure IsEntryName (name : String) : Prop where
  single : '/' ∉ name.toList
  down : isIdle name.toList = false ∧ isUp name.toList = false

instance (name : String) : Decidable (IsEntryName name) :=
  decidable_of_iff ('/' ∉ name.toList ∧ isIdle name.toList = false ∧ isUp name.toList = false)
    ⟨fun ⟨single, down⟩ => ⟨single, down⟩, fun named => ⟨named.single, named.down⟩⟩

section Names

variable {path name : String}

theorem isEntryName_of_mem_names (member : name ∈ names path) : IsEntryName name := by
  obtain ⟨segment, kept, rfl⟩ := List.mem_map.mp member
  obtain ⟨known, down⟩ := List.mem_filter.mp kept
  simp only [Bool.and_eq_true, Bool.not_eq_true'] at down
  refine ⟨fun inside => ?_, by simpa using down⟩
  rw [String.toList_ofList] at inside
  exact (Text.mem_pieces known inside).2 rfl

theorem IsEntryName.not_absolute (named : IsEntryName name) : isAbsolute name = false := by
  unfold isAbsolute
  cases same : name.toList with
  | nil => rfl
  | cons c cs =>
    have other : c ≠ '/' := fun slash => named.single (by simp [same, slash])
    simp [other]

theorem IsEntryName.segments (named : IsEntryName name) : segments name.toList = [name.toList] :=
  Text.pieces_single named.single

theorem IsEntryName.onward (named : IsEntryName name) (place : Place) :
    onward place name.toList = place ++ [name] := by
  simp [Files.onward, named.down]

end Names

section Joining

variable {base path : String}

theorem isAbsolute_join (relative : isAbsolute path = false) :
    isAbsolute (join base path) = isAbsolute base := by
  unfold join
  rw [if_neg (by simp [relative])]
  cases same : base.toList with
  | nil =>
    obtain rfl : base = "" := String.toList_eq_nil_iff.mp same
    exact relative
  | cons c cs => split <;> simp [isAbsolute, same]

/-- A slash between two texts, or at the end of the first, is of no account. -/
theorem foldl_onward_join (relative : isAbsolute path = false) (place : Place) :
    (segments (join base path).toList).foldl onward place =
      (segments path.toList).foldl onward ((segments base.toList).foldl onward place) := by
  unfold join
  rw [if_neg (by simp [relative])]
  split
  next short =>
    rw [Bool.or_eq_true] at short
    rcases short with empty | slash
    · obtain rfl : base = "" := String.isEmpty_iff.mp empty
      rw [String.empty_append]
      rfl
    · obtain ⟨front, ends⟩ := List.getLast?_eq_some_iff.mp (beq_iff_eq.mp slash)
      have apart := Text.pieces_append '/' front path.toList
      have whole := Text.pieces_append '/' front []
      rw [String.toList_append, ends, List.append_assoc, List.singleton_append, segments, segments,
        segments, apart, whole, List.foldl_append, List.foldl_append]
      rfl
  next =>
    have apart := Text.pieces_append '/' base.toList path.toList
    have whole : (base ++ "/" ++ path).toList = base.toList ++ '/' :: path.toList := by simp
    rw [whole, segments, segments, segments, apart, List.foldl_append]

theorem resolve_join (relative : isAbsolute path = false) (here : Place) (base : String) :
    resolve here (join base path) = (segments path.toList).foldl onward (resolve here base) := by
  rw [resolve, isAbsolute_join relative, foldl_onward_join relative]
  rfl

theorem resolve_join_name {name : String} (named : IsEntryName name) (here : Place)
    (base : String) :
    resolve here (join base name) = resolve here base ++ [name] := by
  rw [resolve_join named.not_absolute, named.segments, List.foldl_cons, List.foldl_nil,
    named.onward]

theorem resolve_foldl_join {names : List String} (named : ∀ name ∈ names, IsEntryName name)
    (here : Place) (base : String) :
    resolve here (names.foldl join base) = resolve here base ++ names := by
  induction names generalizing base with
  | nil => simp
  | cons name names ih =>
    obtain ⟨first, others⟩ := List.forall_mem_cons.mp named
    rw [List.foldl_cons, ih others, resolve_join_name first, List.append_assoc,
      List.singleton_append]

end Joining

/-- The directory for a source file is reached from the directory of its cell by names only. -/
theorem resolve_outputDirectory (here : Place) (outdir cell file : String)
    (strip : Option String) :
    resolve here (outputDirectory outdir cell file strip) =
      resolve here (join outdir cell) ++ names (strippedParent file strip) :=
  resolve_foldl_join (fun _ => isEntryName_of_mem_names) here _

/-- How far below its start a path leads, if it never leads above it. -/
def depthFrom (depth : Nat) : List Segment → Option Nat
  | [] => some depth
  | segment :: others =>
    if isIdle segment then depthFrom depth others
    else if isUp segment then
      if depth = 0 then none else depthFrom (depth - 1) others
    else depthFrom (depth + 1) others

/-- A relative path that never leads above its start. -/
def Descends (path : String) : Prop :=
  isAbsolute path = false ∧ (depthFrom 0 (segments path.toList)).isSome = true

instance (path : String) : Decidable (Descends path) :=
  inferInstanceAs (Decidable (_ ∧ _))

section Descent

theorem foldl_onward_of_depth {segments : List Segment} (start below : Place)
    (some_ : (depthFrom below.length segments).isSome = true) :
    start <+: segments.foldl onward (start ++ below) := by
  induction segments generalizing below with
  | nil => exact List.prefix_append start below
  | cons segment segments ih =>
    rw [List.foldl_cons, onward]
    rw [depthFrom] at some_
    split
    next idle =>
      rw [if_pos idle] at some_
      exact ih below some_
    next going =>
      rw [if_neg going] at some_
      split
      next up =>
        rw [if_pos up] at some_
        cases below using List.reverseRecOn with
        | nil => simp at some_
        | append_singleton below name =>
          rw [← List.append_assoc, List.dropLast_concat]
          exact ih below (by simpa using some_)
      next down =>
        rw [if_neg down] at some_
        rw [List.append_assoc]
        exact ih _ (by simpa using some_)

/-- A path is made of names on it and of the place it starts from. -/
theorem mem_foldl_onward {segments : List Segment} {place : Place} {name : String}
    (member : name ∈ segments.foldl onward place) :
    name ∈ place ∨ ∃ segment ∈ segments, name = String.ofList segment := by
  induction segments generalizing place with
  | nil => exact .inl member
  | cons segment segments ih =>
    rw [List.foldl_cons] at member
    rcases ih member with before | ⟨later, known, same⟩
    · unfold onward at before
      split at before
      · exact .inl before
      · split at before
        · exact .inl (List.dropLast_subset _ before)
        · rcases List.mem_append.mp before with old | new
          · exact .inl old
          · exact .inr ⟨segment, List.mem_cons_self, List.mem_singleton.mp new⟩
    · exact .inr ⟨later, List.mem_cons_of_mem segment known, same⟩

/-- A path that leads above its start loses the name it starts from. -/
theorem notMem_of_climbing {segments : List Segment} {start : String} (below : Place)
    (climbs : depthFrom below.length segments = none)
    (fresh : ∀ segment ∈ segments, start ≠ String.ofList segment) (new : start ∉ below) :
    start ∉ segments.foldl onward (start :: below) := by
  induction segments generalizing below with
  | nil => cases climbs
  | cons segment segments ih =>
    obtain ⟨other, others⟩ := List.forall_mem_cons.mp fresh
    rw [List.foldl_cons, onward]
    rw [depthFrom] at climbs
    split
    next idle =>
      rw [if_pos idle] at climbs
      exact ih below climbs others new
    next going =>
      rw [if_neg going] at climbs
      split
      next up =>
        rw [if_pos up] at climbs
        cases below using List.reverseRecOn with
        | nil =>
          intro member
          obtain old | ⟨later, known, same⟩ := mem_foldl_onward member
          · cases old
          · exact others later known same
        | append_singleton below name =>
          rw [← List.cons_append, List.dropLast_concat]
          rw [List.mem_append, not_or] at new
          exact ih below (by simpa using climbs) others new.1
      next down =>
        rw [if_neg down] at climbs
        have still : start ∉ below ++ [String.ofList segment] := by simp [new, other]
        exact ih _ (by simpa using climbs) others still

end Descent

theorem length_segment_le {text : List Char} {segment : Segment}
    (member : segment ∈ segments text) :
    segment.length ≤ text.length := by
  unfold segments at member
  induction text generalizing segment with
  | nil => simp_all [Text.pieces]
  | cons c text ih =>
    rw [Text.pieces] at member
    split at member
    · rcases List.mem_cons.mp member with rfl | later
      · exact Nat.zero_le _
      · exact Nat.le_succ_of_le (ih later)
    · split at member
      next none => exact absurd none (Text.pieces_ne_nil '/' text)
      next first others same =>
        rcases List.mem_cons.mp member with rfl | later
        · exact Nat.succ_le_succ (ih (same ▸ List.mem_cons_self))
        · exact Nat.le_succ_of_le (ih (same ▸ List.mem_cons_of_mem first later))

/-- A name that is too long to be on a path. -/
def freshName (path : String) : String :=
  String.ofList (List.replicate (path.toList.length + 1) 'x')

theorem freshName_ne {path : String} : ∀ segment ∈ segments path.toList,
    freshName path ≠ String.ofList segment := by
  intro segment member same
  have long := congrArg List.length (String.ofList_injective same)
  have short := length_segment_le member
  rw [List.length_replicate] at long
  omega

/-- Some library is placed elsewhere if its cell is absolute or leads above its start. -/
theorem descends_of_within {cell : String}
    (within : ∀ here, resolve here "." <+: resolve here (outputDirectory "." cell "x.v" none)) :
    Descends cell := by
  have kept := within [freshName cell]
  have bare : names (strippedParent "x.v" none) = [] := by decide
  rw [resolve_outputDirectory, bare, List.append_nil] at kept
  have member : freshName cell ∈ resolve [freshName cell] (join "." cell) :=
    kept.subset List.mem_cons_self
  by_contra climbs
  rw [Descends, not_and_or] at climbs
  rcases Bool.eq_false_or_eq_true (isAbsolute cell) with absolute | relative
  · rw [join, if_pos absolute, resolve, if_pos absolute] at member
    obtain old | ⟨segment, known, same⟩ := mem_foldl_onward member
    · cases old
    · exact freshName_ne segment known same
  · rw [resolve_join relative] at member
    have none : depthFrom 0 (segments cell.toList) = none := by
      simpa [relative] using climbs
    exact notMem_of_climbing [] none freshName_ne List.not_mem_nil member

/-- What a source file is called and what is stripped from its directory lead nowhere but down
from the directory of its cell. So the libraries of a cell are placed in the output directory or
below it if the cell is a relative path that never leads above its start, and only then. -/
theorem outputDirectory_within_iff (cell : String) :
    (∀ here outdir file strip, resolve here (join outdir cell) <+:
      resolve here (outputDirectory outdir cell file strip)) ∧
    ((∀ here outdir file strip, isAbsolute outdir = false →
        (∀ segment ∈ segments outdir.toList, isUp segment = false) →
        resolve here outdir <+: resolve here (outputDirectory outdir cell file strip)) ↔
      Descends cell) := by
  have below (here : Place) (outdir file : String) (strip : Option String) :
      resolve here (join outdir cell) <+:
        resolve here (outputDirectory outdir cell file strip) := by
    rw [resolve_outputDirectory]
    exact List.prefix_append _ _
  refine ⟨below, fun within => ?_, fun descends => ?_⟩
  · exact descends_of_within fun here => within here "." "x.v" none (by decide) (by decide)
  · intro here outdir file strip _ _
    have kept := foldl_onward_of_depth (resolve here outdir) [] descends.2
    rw [List.append_nil, ← resolve_join descends.1] at kept
    exact kept.trans (below here outdir file strip)

theorem outputDirectory_within_nested :
    isAbsolute "out" = false ∧ (∀ segment ∈ segments "out".toList, isUp segment = false) ∧
      Descends "lib/../dff" ∧
      resolve ["home"] (outputDirectory "out" "lib/../dff" "/a/.=./b/../dff.v" (some "=")) =
        ["home", "out", "dff", "a", "b"] ∧
      resolve ["home"] "out" <+:
        resolve ["home"] (outputDirectory "out" "lib/../dff" "/a/.=./b/../dff.v" (some "=")) := by
  refine ⟨by decide, by decide, by decide, by decide +kernel, ?_⟩
  exact (outputDirectory_within_iff "lib/../dff").2.mpr (by decide) _ _ _ _ (by decide) (by decide)

/-- The cell is not looked at as the directory of its source file is. -/
theorem outputDirectory_of_parent :
    resolve ["home"] (outputDirectory "out" ".." "a/x.v" none) = ["home", "a"] ∧
      ¬resolve ["home"] "out" <+: resolve ["home"] (outputDirectory "out" ".." "a/x.v" none) := by
  decide

end CellTiming.Files
