import CellTiming.Proofs.Resolution
import CellTiming.Proofs.Rule

/-! What file operations do to a tree. A file that is written stands at the place its path resolves
to, and nothing else changes; directories that are made are new. So whatever could be reached
before can be reached afterwards. -/
namespace CellTiming.FileTree

open Files (resolve)

variable {tree later written : FileTree} {path text : String} {place : Place}

section Entries

variable {entries : List (Place × FileEntry)}

theorem lookup_filter_ne {other : Place} (different : other ≠ place) :
    (entries.filter (·.1 != place)).lookup other = entries.lookup other := by
  induction entries with
  | nil => rfl
  | cons first entries ih =>
    by_cases same : first.1 = place
    · have skipped : (other == first.1) = false := by simp [same, different]
      rw [List.filter_cons_of_neg (by simp [same]), ih, List.lookup_cons, skipped]
    · rw [List.filter_cons_of_pos (by simpa using same), List.lookup_cons, List.lookup_cons, ih]

theorem lookup_put (below : place ≠ []) (entry : FileEntry) (other : Place) :
    entry? (tree.put place entry) other = if other = place then some entry else tree.entry? other := by
  unfold entry? put
  by_cases same : other = place
  · simp [same, below]
  · have skipped : (other == place) = false := by simpa using same
    simp only [List.lookup_cons, skipped, lookup_filter_ne same, if_neg same]

end Entries

section Walking

theorem step_ok {segment : Files.Segment} {next : Place} (ok : tree.step place segment = .ok next) :
    tree.entry? place = some .directory ∧ next = Files.onward place segment := by
  unfold step at ok
  unfold Files.onward
  split at ok
  · cases ok
  · cases ok
  next directory =>
    refine ⟨directory, ?_⟩
    split at ok
    next idle =>
      cases ok
      rw [if_pos idle]
    next going =>
      rw [if_neg going]
      split at ok
      next up =>
        cases ok
        rw [if_pos up]
      next down =>
        rw [if_neg down]
        dsimp only at ok
        split at ok
        · cases ok
        · cases ok
          rfl

theorem foldlM_step_ok {segments : List Files.Segment} {next : Place}
    (ok : segments.foldlM tree.step place = .ok next) : next = segments.foldl Files.onward place := by
  induction segments generalizing place with
  | nil =>
    cases ok
    rfl
  | cons segment segments ih =>
    obtain ⟨middle, first, rest⟩ := bind_eq_ok.mp ok
    rw [ih rest, (step_ok first).2, List.foldl_cons]

/-- What must hold of a path before it is followed. -/
structure Followable (path : String) : Prop where
  some_ : path.isEmpty = false
  plain : path.toList.contains '\x00' = false
  short : path.utf8ByteSize ≤ longestPath

theorem follow_eq_ok {segments : List Files.Segment} :
    tree.follow path segments = .ok place ↔ Followable path ∧
      segments.foldlM tree.step (if Files.isAbsolute path then [] else tree.here) = .ok place := by
  have followable : Followable path ↔ path.isEmpty = false ∧
      path.toList.contains '\x00' = false ∧ ¬longestPath < path.utf8ByteSize :=
    ⟨fun h => ⟨h.some_, h.plain, Nat.not_lt.mpr h.short⟩,
      fun h => ⟨h.1, h.2.1, Nat.not_lt.mp h.2.2⟩⟩
  rw [followable, follow]
  split
  next empty => simp [empty]
  next some_ =>
    split
    next nul => exact iff_of_false nofun fun found => Bool.noConfusion (nul ▸ found.1.2.1)
    next plain =>
      split
      next long => simp [long]
      next short => simp_all

theorem locate_ok (ok : tree.locate path = .ok place) : place = resolve tree.here path :=
  foldlM_step_ok (follow_eq_ok.mp ok).2

/-- A tree in which all directories of an earlier one are still there. -/
structure Keeps (tree later : FileTree) : Prop where
  here : later.here = tree.here
  directories : ∀ place, tree.entry? place = some .directory → later.entry? place = some .directory

theorem Keeps.step (keeps : tree.Keeps later) {segment : Files.Segment} {next : Place}
    (ok : tree.step place segment = .ok next) : later.step place segment = .ok next := by
  have directory := (step_ok ok).1
  rw [FileTree.step, directory] at ok
  rw [FileTree.step, keeps.directories place directory]
  exact ok

theorem Keeps.follow (keeps : tree.Keeps later) {segments : List Files.Segment}
    (ok : tree.follow path segments = .ok place) : later.follow path segments = .ok place := by
  have walked (segments : List Files.Segment) {place next : Place}
      (ok : segments.foldlM tree.step place = .ok next) :
      segments.foldlM later.step place = .ok next := by
    induction segments generalizing place with
    | nil => exact ok
    | cons segment segments ih =>
      obtain ⟨middle, first, rest⟩ := bind_eq_ok.mp ok
      exact bind_eq_ok.mpr ⟨middle, keeps.step first, ih rest⟩
  obtain ⟨followable, inner⟩ := follow_eq_ok.mp ok
  exact follow_eq_ok.mpr ⟨followable, keeps.here ▸ walked segments inner⟩

end Walking

section Writing

/-- A path that leads to a place where a file may stand. -/
structure WritableAt (tree : FileTree) (path : String) (place : Place) : Prop where
  leads : tree.locateNew path = .ok place
  file : path.toList.getLast? ≠ some '/'
  free : tree.entry? place ≠ some .directory

theorem write_eq_ok : tree.write path text = .ok written ↔
    ∃ place, tree.WritableAt path place ∧ written = tree.put place (.file (some text)) := by
  unfold write
  constructor
  · intro ok
    obtain ⟨place, leads, ok⟩ := bind_eq_ok.mp ok
    split at ok
    · cases ok
    next allowed =>
      cases ok
      rw [not_or] at allowed
      exact ⟨place, ⟨leads, allowed.1, allowed.2⟩, rfl⟩
  · rintro ⟨place, writable, rfl⟩
    refine bind_eq_ok.mpr ⟨place, writable.leads, ?_⟩
    rw [if_neg (not_or.mpr ⟨writable.file, writable.free⟩)]

theorem WritableAt.below (writable : tree.WritableAt path place) : place ≠ [] := fun root =>
  writable.free (by simp [ entry?, root])

/-- A path that does not end in a slash ends in a name, a dot or two. -/
theorem segments_concat {c : Char} (other : c ≠ '/') (front : List Char) :
    ∃ before last, Files.segments (front ++ [c]) = before ++ [last ++ [c]] := by
  unfold Files.segments
  induction front with
  | nil => exact ⟨[], [], Text.pieces_single (by simpa using other.symm)⟩
  | cons d front ih =>
    obtain ⟨before, last, cut⟩ := ih
    rw [List.cons_append, Text.pieces, cut]
    split
    · exact ⟨[] :: before, last, rfl⟩
    · cases before with
      | nil => exact ⟨[], d :: last, rfl⟩
      | cons first before => exact ⟨(d :: first) :: before, last, rfl⟩

theorem WritableAt.located (writable : tree.WritableAt path place) :
    tree.locate path = .ok place := by
  have leads := writable.leads
  obtain ⟨followable, _⟩ := follow_eq_ok.mp leads
  obtain none | ⟨front, c, same⟩ := List.eq_nil_or_concat path.toList
  · have empty := String.isEmpty_iff.mpr (String.toList_eq_nil_iff.mp none)
    rw [followable.some_] at empty
    cases empty
  · have other : c ≠ '/' := by simpa [same] using writable.file
    obtain ⟨before, last, cut⟩ := segments_concat other front
    rw [locateNew, same, List.concat_eq_append, cut, List.reverse_append, List.reverse_singleton,
      List.singleton_append, List.dropWhile_cons_of_neg (by simp), List.reverse_cons,
      List.reverse_reverse, ← cut, ← List.concat_eq_append, ← same] at leads
    exact leads

theorem keeps_put (writable : tree.WritableAt path place) (entry : FileEntry) :
    tree.Keeps (tree.put place entry) where
  here := rfl
  directories other known := by
    rw [lookup_put writable.below, if_neg, known]
    rintro rfl
    exact writable.free known

theorem read_eq_ok : tree.read path = .ok text ↔
    ∃ place, tree.locate path = .ok place ∧ tree.entry? place = some (.file (some text)) := by
  unfold read find
  constructor
  · intro ok
    obtain ⟨entry, found, ok⟩ := bind_eq_ok.mp ok
    obtain ⟨place, leads, found⟩ := bind_eq_ok.mp found
    refine ⟨place, leads, ?_⟩
    split at found
    next known =>
      cases found
      rw [known]
      split at ok <;> cases ok
      rfl
    next => cases found
  · rintro ⟨place, leads, known⟩
    refine bind_eq_ok.mpr ⟨.file (some text), bind_eq_ok.mpr ⟨place, leads, ?_⟩, rfl⟩
    rw [known]

/-- What has been written can be read. -/
theorem read_put (writable : tree.WritableAt path place) :
    (tree.put place (.file (some text))).read path = .ok text := by
  refine read_eq_ok.mpr ⟨place, (keeps_put writable _).follow writable.located, ?_⟩
  rw [lookup_put writable.below, if_pos rfl]

theorem read_put_of_ne {other : String} (writable : tree.WritableAt path place) (entry : FileEntry)
    (ok : tree.read other = .ok text) (different : resolve tree.here other ≠ place) :
    (tree.put place entry).read other = .ok text := by
  obtain ⟨found, leads, known⟩ := read_eq_ok.mp ok
  refine read_eq_ok.mpr ⟨found, (keeps_put writable entry).follow leads, ?_⟩
  rw [lookup_put writable.below, if_neg (locate_ok leads ▸ different), known]

end Writing

section Making

/-- A tree with nothing but directories added. -/
structure Grows (tree later : FileTree) : Prop where
  here : later.here = tree.here
  entries : ∀ place, later.entry? place = tree.entry? place ∨
    tree.entry? place = none ∧ later.entry? place = some .directory

theorem Grows.refl (tree : FileTree) : tree.Grows tree := ⟨rfl, fun _ => .inl rfl⟩

theorem Grows.trans {middle : FileTree} (first : tree.Grows middle) (second : middle.Grows later) :
    tree.Grows later where
  here := second.here.trans first.here
  entries place := by
    rcases second.entries place with same | ⟨none, new⟩
    · rw [same]
      exact first.entries place
    · rcases first.entries place with same | ⟨_, made⟩
      · exact .inr ⟨same ▸ none, new⟩
      · rw [made] at none
        cases none

theorem Grows.known (grows : tree.Grows later) {entry : FileEntry}
    (known : tree.entry? place = some entry) : later.entry? place = some entry := by
  rcases grows.entries place with same | ⟨none, _⟩
  · exact same.trans known
  · rw [known] at none
    cases none

theorem Grows.keeps (grows : tree.Grows later) : tree.Keeps later :=
  ⟨grows.here, fun _ => grows.known⟩

theorem Keeps.trans {middle : FileTree} (first : tree.Keeps middle) (second : middle.Keeps later) :
    tree.Keeps later :=
  ⟨second.here.trans first.here, fun place known =>
    second.directories place (first.directories place known)⟩

theorem Grows.read (grows : tree.Grows later) (ok : tree.read path = .ok text) :
    later.read path = .ok text := by
  obtain ⟨place, leads, known⟩ := read_eq_ok.mp ok
  exact read_eq_ok.mpr ⟨place, grows.keeps.follow leads, grows.known known⟩

theorem grows_makeDirectory (ok : tree.makeDirectory path = .ok later) : tree.Grows later := by
  unfold makeDirectory at ok
  obtain ⟨place, _, ok⟩ := bind_eq_ok.mp ok
  split at ok
  · cases ok
  next vacant =>
    cases ok
    have below : place ≠ [] := fun root => by simp [ entry?, root] at vacant
    refine ⟨rfl, fun other => ?_⟩
    rw [lookup_put below]
    split
    next same => exact .inr ⟨same ▸ vacant, rfl⟩
    · exact .inl rfl

theorem grows_makeFrom (paths : List String) : tree.Grows (tree.makeFrom paths).1 := by
  induction paths with
  | nil => exact .refl tree
  | cons path above ih =>
    rw [makeFrom]
    split
    · exact .refl tree
    · dsimp only
      split
      · split
        next made found =>
          rw [found] at ih
          refine ih.trans ?_
          split
          next ok => exact grows_makeDirectory ok
          next => exact .refl made
        next => exact ih
      · split
        next ok => exact grows_makeDirectory ok
        next => exact .refl tree

theorem grows_makeDirectories (path : String) : tree.Grows (tree.makeDirectories path).1 :=
  grows_makeFrom _

end Making

end CellTiming.FileTree
