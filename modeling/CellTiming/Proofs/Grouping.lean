import CellTiming.Timing.Module
import Mathlib.Data.List.Induction

/-! Tables that are filled item by item. Each item goes to the row of its key, which is
added at the end if it is new. The rows stand in the order in which their keys were
first mentioned, and each is made of the items of its key in their order. -/
namespace CellTiming

section Table

variable {κ α β : Type} (key : α → κ) (row : κ → List α → β)

/-- The step adds an item to the row of its key. -/
structure Files (step : List β → α → List β) : Prop where
  fresh : ∀ a, step [] a = [row (key a) [a]]
  found : ∀ items rows a, step (row (key a) items :: rows) a = row (key a) (items ++ [a]) :: rows
  other : ∀ k items rows a, k ≠ key a →
    step (row k items :: rows) a = row k items :: step rows a

variable {key row}

theorem Files.new {step : List β → α → List β} (files : Files key row step) {keys : List κ}
    {items : κ → List α} {a : α} (absent : key a ∉ keys) :
    step (keys.map fun k => row k (items k)) a =
      keys.map (fun k => row k (items k)) ++ [row (key a) [a]] := by
  induction keys with
  | nil => exact files.fresh a
  | cons k keys ih =>
    rw [List.mem_cons, not_or] at absent
    rw [List.map_cons, files.other _ _ _ _ (Ne.symm absent.1), ih absent.2]
    rfl

variable [DecidableEq κ]

theorem Files.known {step : List β → α → List β} (files : Files key row step) {keys : List κ}
    {items : κ → List α} {a : α} (nodup : keys.Nodup) (member : key a ∈ keys) :
    step (keys.map fun k => row k (items k)) a =
      keys.map fun k => row k (if key a = k then items k ++ [a] else items k) := by
  induction keys with
  | nil => cases member
  | cons k keys ih =>
    rw [List.nodup_cons] at nodup
    rw [List.map_cons, List.map_cons]
    by_cases same : key a = k
    · subst same
      have others : ∀ k ∈ keys, key a ≠ k := by
        rintro k member rfl
        exact nodup.1 member
      rw [files.found, if_pos rfl]
      exact congrArg _ (List.map_congr_left fun k member => by rw [if_neg (others k member)])
    · have within : key a ∈ keys := (List.mem_cons.mp member).resolve_left same
      rw [files.other _ _ _ _ (Ne.symm same), if_neg same, ih nodup.2 within]

theorem nodup_eraseDups (keys : List κ) : keys.eraseDups.Nodup := by
  cases keys with
  | nil => simp
  | cons k keys =>
    rw [List.eraseDups_cons, List.nodup_cons]
    exact ⟨by simp [List.mem_eraseDups], nodup_eraseDups (keys.filter fun other => !other == k)⟩
termination_by keys.length
decreasing_by exact Nat.lt_succ_of_le (List.length_filter_le _ _)

theorem eraseDups_concat (keys : List κ) (k : κ) :
    (keys ++ [k]).eraseDups = if k ∈ keys then keys.eraseDups else keys.eraseDups ++ [k] := by
  rw [List.eraseDups_append]
  split
  next known => simp [List.removeAll, known]
  next new => simp [List.removeAll, new, List.eraseDups_cons]

/-- The keys stand in the order of their first mention. -/
theorem pairwise_eraseDups (keys : List κ) :
    keys.eraseDups.Pairwise fun a b => keys.idxOf a < keys.idxOf b := by
  induction keys using List.reverseRecOn with
  | nil => exact .nil
  | append_singleton keys k ih =>
    have place {a : κ} (mentioned : a ∈ keys.eraseDups) :
        (keys ++ [k]).idxOf a = keys.idxOf a ∧ keys.idxOf a < keys.length := by
      have member := List.mem_eraseDups.mp mentioned
      exact ⟨by rw [List.idxOf_append, if_pos member], List.idxOf_lt_length_of_mem member⟩
    have before : keys.eraseDups.Pairwise fun a b =>
        (keys ++ [k]).idxOf a < (keys ++ [k]).idxOf b :=
      ih.imp_of_mem fun first second less => by rwa [(place first).1, (place second).1]
    rw [eraseDups_concat]
    split
    next known => exact before
    next new =>
      refine List.pairwise_append.mpr ⟨before, List.pairwise_singleton _ _, fun a first b last => ?_⟩
      rw [List.mem_singleton.mp last, (place first).1, List.idxOf_append, if_neg new]
      exact Nat.lt_of_lt_of_le (place first).2 (Nat.le_add_left _ _)

variable (key row) in
/-- The rows of all keys in the order of their first mention. -/
def grouped (items : List α) : List β :=
  (items.map key).eraseDups.map fun k => row k (items.filter (key · = k))

theorem Files.foldl {step : List β → α → List β} (files : Files key row step) (items : List α) :
    items.foldl step [] = grouped key row items := by
  -- from the last item on, since a step adds to a table that is filled already
  induction items using List.reverseRecOn with
  | nil => rfl
  | append_singleton items a ih =>
    have filed (k : κ) : (items ++ [a]).filter (key · = k) =
        if key a = k then items.filter (key · = k) ++ [a] else items.filter (key · = k) := by
      rw [List.filter_append]
      by_cases same : key a = k <;> simp [same]
    rw [List.foldl_append, List.foldl_cons, List.foldl_nil, ih, grouped, grouped, List.map_append,
      List.map_singleton, eraseDups_concat]
    simp only [filed]
    split
    next known =>
      exact files.known (nodup_eraseDups _) (List.mem_eraseDups.mpr known)
    next new =>
      rw [files.new (by rwa [List.mem_eraseDups]), List.map_append, List.map_singleton, if_pos rfl]
      have none : items.filter (key · = key a) = [] := by
        rw [List.filter_eq_nil_iff]
        intro b member same
        exact new (List.mem_map.mpr ⟨b, member, by simpa using same⟩)
      have others : ∀ k ∈ (items.map key).eraseDups, key a ≠ k := by
        rintro k member rfl
        exact new (List.mem_eraseDups.mp member)
      rw [none, List.nil_append]
      congr 1
      exact List.map_congr_left fun k member => by rw [if_neg (others k member)]

theorem grouped_eq_nil_iff {items : List α} : grouped key row items = [] ↔ items = [] := by
  rw [grouped, List.map_eq_nil_iff]
  constructor
  · intro none
    cases items with
    | nil => rfl
    | cons a items => simp [List.eraseDups_cons] at none
  · rintro rfl
    rfl

theorem grouped_append {items more : List α} (disjoint : ∀ a ∈ items, ∀ b ∈ more, key a ≠ key b) :
    grouped key row (items ++ more) = grouped key row items ++ grouped key row more := by
  have fresh : (more.map key).removeAll (items.map key) = more.map key := by
    rw [List.removeAll, List.filter_eq_self]
    intro k mentioned
    obtain ⟨b, member, rfl⟩ := List.mem_map.mp mentioned
    simpa using fun a known same => disjoint a known b member same
  rw [grouped, List.map_append, List.eraseDups_append, fresh, List.map_append, grouped, grouped]
  congr 1
  · refine List.map_congr_left fun k mentioned => ?_
    obtain ⟨a, known, rfl⟩ := List.mem_map.mp (List.mem_eraseDups.mp mentioned)
    have none : more.filter (key · = key a) = [] := by
      rw [List.filter_eq_nil_iff]
      intro b member same
      exact disjoint a known b member (of_decide_eq_true same).symm
    rw [List.filter_append, none, List.append_nil]
  · refine List.map_congr_left fun k mentioned => ?_
    obtain ⟨b, member, rfl⟩ := List.mem_map.mp (List.mem_eraseDups.mp mentioned)
    have none : items.filter (key · = key b) = [] := by
      rw [List.filter_eq_nil_iff]
      exact fun a known same => disjoint a known b member (by simpa using same)
    rw [List.filter_append, none, List.nil_append]

theorem grouped_map {f : α → α} {g : β → β} (keeps : ∀ a, key (f a) = key a)
    (rows : ∀ k items, g (row k items) = row k (items.map f)) (items : List α) :
    (grouped key row items).map g = grouped key row (items.map f) := by
  rw [grouped, grouped, List.map_map, List.map_map]
  have keys : (key ∘ f) = key := funext keeps
  rw [keys]
  refine List.map_congr_left fun k _ => ?_
  rw [Function.comp_apply, rows, List.filter_map]
  simp only [Function.comp_def, keeps]

theorem flatMap_filter_perm {keys : List κ} (nodup : keys.Nodup) (items : List α) :
    (keys.flatMap fun k => items.filter (key · = k)).Perm (items.filter (key · ∈ keys)) := by
  induction keys with
  | nil => simp
  | cons k keys ih =>
    obtain ⟨fresh, others⟩ := List.nodup_cons.mp nodup
    have own : (items.filter (key · ∈ k :: keys)).filter (key · = k) = items.filter (key · = k) := by
      rw [List.filter_filter]
      exact List.filter_congr fun a _ => by grind
    have rest : (items.filter (key · ∈ k :: keys)).filter (fun a => !decide (key a = k)) =
        items.filter (key · ∈ keys) := by
      rw [List.filter_filter]
      exact List.filter_congr fun a _ => by grind
    have split := List.filter_append_perm (key · = k) (items.filter (key · ∈ k :: keys))
    rw [own, rest] at split
    exact ((ih others).append_left _).trans split

variable (key) in
/-- No item is lost, and none is in two rows. -/
theorem rows_perm (items : List α) :
    ((items.map key).eraseDups.flatMap fun k => items.filter (key · = k)).Perm items := by
  have every : items.filter (key · ∈ (items.map key).eraseDups) = items :=
    List.filter_eq_self.mpr fun a member => decide_eq_true
      (List.mem_eraseDups.mpr (List.mem_map_of_mem member))
  exact (flatMap_filter_perm (nodup_eraseDups _) items).trans (.of_eq every)

end Table

end CellTiming
