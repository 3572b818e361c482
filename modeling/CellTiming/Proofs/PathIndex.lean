import CellTiming.Proofs.Grouping
import Mathlib.Data.Finset.Card

/-! The index of conditioned paths as a table of the paths that were pushed into it: a
group holds the paths between its signals, in the order in which they came. -/
namespace CellTiming.PathIndex

def ofPaths (pushed : List Path) : PathIndex := pushed.foldl push {}

/-- An index is only made by pushing paths. -/
def Gathered (index : PathIndex) : Prop := ∃ pushed, index = ofPaths pushed

theorem ofPaths_concat (pushed : List Path) (path : Path) :
    ofPaths (pushed ++ [path]) = (ofPaths pushed).push path := by
  simp [ofPaths]

theorem files_insert : Files Path.key PathGroup.mk fun groups path => insert path groups where
  fresh _ := rfl
  found paths groups path := by rw [insert, if_pos rfl]
  other key paths groups path different := by rw [insert, if_neg different]

theorem groups_ofPaths (pushed : List Path) :
    (ofPaths pushed).groups = grouped Path.key PathGroup.mk pushed := by
  have same (index : PathIndex) :
      (pushed.foldl push index).groups =
        pushed.foldl (fun groups path => insert path groups) index.groups := by
    induction pushed generalizing index with
    | nil => rfl
    | cons path pushed ih => exact ih (index.push path)
  exact (same {}).trans (files_insert.foldl pushed)

theorem mem_groups_ofPaths {pushed : List Path} {group : PathGroup} :
    group ∈ (ofPaths pushed).groups ↔
      group.key ∈ pushed.map Path.key ∧ group.paths = pushed.filter (·.key = group.key) := by
  rw [groups_ofPaths, grouped, List.mem_map]
  constructor
  · rintro ⟨key, member, rfl⟩
    exact ⟨List.mem_eraseDups.mp member, rfl⟩
  · rintro ⟨member, same⟩
    exact ⟨group.key, List.mem_eraseDups.mpr member, by rw [← same]⟩

theorem get?_ofPaths (pushed : List Path) (key : PathKey) :
    ((ofPaths pushed).get? key).getD [] = pushed.filter (·.key = key) := by
  cases found : (ofPaths pushed).groups.find? (·.key = key) with
  | some group =>
    have same : group.key = key := by simpa using List.find?_some found
    have paths := (mem_groups_ofPaths.mp (List.mem_of_find?_eq_some found)).2
    rw [get?, found, ← same]
    exact paths
  | none =>
    rw [get?, found]
    refine (List.filter_eq_nil_iff.mpr fun path member same => ?_).symm
    have absent := List.find?_eq_none.mp found
    refine absent ⟨key, pushed.filter (·.key = key)⟩ (mem_groups_ofPaths.mpr ⟨?_, rfl⟩) (by simp)
    exact List.mem_map.mpr ⟨path, member, by simpa using same⟩

theorem get?_eq_none_iff {pushed : List Path} {key : PathKey} :
    (ofPaths pushed).get? key = none ↔ ∀ path ∈ pushed, path.key ≠ key := by
  rw [get?, Option.map_eq_none_iff, List.find?_eq_none]
  constructor
  · rintro absent path member rfl
    exact absent ⟨path.key, pushed.filter (·.key = path.key)⟩
      (mem_groups_ofPaths.mpr ⟨List.mem_map_of_mem member, rfl⟩) (by simp)
  · intro absent group member same
    obtain ⟨path, among, key⟩ := List.mem_map.mp (mem_groups_ofPaths.mp member).1
    exact absent path among (key.trans (by simpa using same))

theorem get?_eq_some_iff {pushed paths : List Path} {key : PathKey} :
    (ofPaths pushed).get? key = some paths ↔ paths ≠ [] ∧ paths = pushed.filter (·.key = key) := by
  have between := get?_ofPaths pushed key
  have missing : (ofPaths pushed).get? key = none ↔ _ := get?_eq_none_iff
  cases result : (ofPaths pushed).get? key with
  | none =>
    rw [result, Option.getD_none] at between
    constructor
    · simp
    · rintro ⟨some, rfl⟩
      exact absurd between.symm some
  | some found =>
    rw [result, Option.getD_some] at between
    have occurs : found ≠ [] := by
      rintro rfl
      have none := missing.mpr fun path member same =>
        List.filter_eq_nil_iff.mp between.symm path member (decide_eq_true same)
      simp [result] at none
    constructor
    · rintro ⟨rfl⟩
      exact ⟨occurs, between⟩
    · rintro ⟨_, rfl⟩
      exact congrArg some between

theorem keys_ofPaths (pushed : List Path) :
    (ofPaths pushed).groups.map (·.key) = (pushed.map Path.key).eraseDups := by
  rw [groups_ofPaths, grouped, List.map_map]
  exact List.map_id _

theorem paths_ofPaths (pushed : List Path) :
    (ofPaths pushed).paths =
      ((ofPaths pushed).groups.map (·.key)).flatMap fun key => pushed.filter (·.key = key) := by
  rw [keys_ofPaths, paths, groups_ofPaths, grouped, List.flatMap_map]

theorem mem_paths_push {index : PathIndex} {path other : Path} :
    other ∈ (index.push path).paths ↔ other ∈ index.paths ∨ other = path := by
  obtain ⟨groups⟩ := index
  change other ∈ (insert path groups).flatMap (·.paths) ↔ other ∈ groups.flatMap (·.paths) ∨ _
  induction groups with
  | nil => simp [insert]
  | cons group groups ih =>
    rw [insert]
    split
    · simp only [List.flatMap_cons, List.mem_append, List.mem_singleton, or_right_comm]
    · rw [List.flatMap_cons, List.flatMap_cons, List.mem_append, List.mem_append, ih, or_assoc]

theorem mem_paths_of_get? {index : PathIndex} {key : PathKey} {path : Path}
    (member : path ∈ (index.get? key).getD []) : path ∈ index.paths := by
  rw [get?] at member
  cases found : index.groups.find? (·.key = key) with
  | none => simp [found] at member
  | some group =>
    rw [found] at member
    exact List.mem_flatMap.mpr ⟨group, List.mem_of_find?_eq_some found, member⟩

theorem Gathered.isEmpty_iff {index : PathIndex} (gathered : index.Gathered) :
    index.isEmpty = true ↔ index.paths = [] := by
  obtain ⟨pushed, rfl⟩ := gathered
  rw [isEmpty, List.isEmpty_iff]
  constructor
  · intro none
    rw [paths, none]
    rfl
  · intro none
    refine List.eq_nil_iff_forall_not_mem.mpr fun group member => ?_
    have empty := List.flatMap_eq_nil_iff.mp none group member
    obtain ⟨known, same⟩ := mem_groups_ofPaths.mp member
    obtain ⟨path, among, key⟩ := List.mem_map.mp known
    rw [same, List.filter_eq_nil_iff] at empty
    exact empty path among (by simpa using key)

/-- What the index of some paths says of them. -/
structure Indexes (index : PathIndex) (pushed : List Path) : Prop where
  found : ∀ key paths,
    index.get? key = some paths ↔ paths ≠ [] ∧ paths = pushed.filter (·.key = key)
  absent : ∀ key, index.get? key = none ↔ ∀ path ∈ pushed, path.key ≠ key
  groups : ∀ group ∈ index.groups, index.get? group.key = some group.paths
  keys : ∀ key, key ∈ index.groups.map (·.key) ↔ ∃ path ∈ pushed, path.key = key
  once : (index.groups.map (·.key)).Nodup
  order : (index.groups.map (·.key)).Pairwise fun key other =>
    (pushed.map Path.key).idxOf key < (pushed.map Path.key).idxOf other
  paths : index.paths =
    (index.groups.map (·.key)).flatMap fun key => pushed.filter (·.key = key)
  perm : index.paths.Perm pushed
  size : index.size = (pushed.map Path.key).toFinset.card
  isEmpty : index.isEmpty = true ↔ index.size = 0

/-- The index groups the paths by their signals and keeps their order: the groups come as their
signals did, and the paths of a group as they did. -/
theorem indexes_ofPaths (pushed : List Path) : (ofPaths pushed).Indexes pushed where
  found key paths := get?_eq_some_iff
  absent key := get?_eq_none_iff
  groups group member := by
    obtain ⟨known, same⟩ := mem_groups_ofPaths.mp member
    obtain ⟨path, among, key⟩ := List.mem_map.mp known
    refine get?_eq_some_iff.mpr ⟨?_, same⟩
    rw [same]
    exact List.ne_nil_of_mem (List.mem_filter.mpr ⟨among, decide_eq_true key⟩)
  keys key := by rw [keys_ofPaths, List.mem_eraseDups, List.mem_map]
  once := by
    rw [keys_ofPaths]
    exact nodup_eraseDups _
  order := by
    rw [keys_ofPaths]
    exact pairwise_eraseDups _
  paths := paths_ofPaths pushed
  perm := by
    rw [paths_ofPaths, keys_ofPaths]
    exact rows_perm Path.key pushed
  size := by
    have same : (pushed.map Path.key).eraseDups.toFinset = (pushed.map Path.key).toFinset := by
      ext key
      simp only [List.mem_toFinset, List.mem_eraseDups]
    have counted : (ofPaths pushed).size = (pushed.map Path.key).eraseDups.length := by
      rw [← keys_ofPaths, List.length_map, PathIndex.size]
    rw [counted, ← same, List.toFinset_card_of_nodup (nodup_eraseDups _)]
  isEmpty := List.isEmpty_iff_length_eq_zero

end CellTiming.PathIndex
