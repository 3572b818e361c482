import CellTiming.Proofs.PathIndex
import CellTiming.Proofs.Reached
import CellTiming.Proofs.Rule
import CellTiming.Proofs.Truth
import Mathlib.Data.List.Forall2

/-! What an `ifnone` path means. Between two signals it is taken when none of the paths
before it is, so that together they leave no case out; without a path before it, it is
refused. -/
namespace CellTiming

/-- A truth value for each name and number, and one for each equality. -/
structure Interpretation where
  literal : String → Bool
  equality : Equality → Condition → Condition → Bool

namespace Condition

def holdsUnder (i : Interpretation) : Condition → Bool
  | literal text => i.literal text
  | not _ operand => !operand.holdsUnder i
  | and _ left right => left.holdsUnder i && right.holdsUnder i
  | equals op left right => i.equality op left right
  | group inner => inner.holdsUnder i

/-- Where the two sides of an equality are compared by their truth. -/
theorem holds_eq_holdsUnder (values : String → Bool) (condition : Condition) :
    condition.holds values = condition.holdsUnder
      ⟨values, fun _ left right => left.holds values == right.holds values⟩ := by
  induction condition with
  | literal | equals => rfl
  | not op operand ih => rw [holds, holdsUnder, ih]
  | and op left right ihLeft ihRight => rw [holds, holdsUnder, ihLeft, ihRight]
  | group inner ih => exact ih

theorem noneOf_eq_none_iff {conditions : List Condition} :
    noneOf conditions = none ↔ conditions = [] := by
  cases conditions <;> simp [noneOf]

theorem holdsUnder_foldl_and (i : Interpretation) (others : List Condition) (first : Condition) :
    (others.foldl (and .single) first).holdsUnder i =
      (first.holdsUnder i && others.all (holdsUnder i)) := by
  induction others generalizing first with
  | nil => simp
  | cons other others ih => rw [List.foldl_cons, ih, holdsUnder, List.all_cons, Bool.and_assoc]

theorem holdsUnder_noneOf {conditions : List Condition} {none_ : Condition}
    (made : noneOf conditions = some none_) (i : Interpretation) :
    none_.holdsUnder i = conditions.all fun condition => !condition.holdsUnder i := by
  cases conditions with
  | nil => cases made
  | cons first others =>
    cases made
    rw [holdsUnder_foldl_and, List.all_map, List.all_cons]
    rfl

end Condition

def Path.takenUnder (i : Interpretation) (path : Path) : Bool :=
  path.condition.any (Condition.holdsUnder i)

/-- The signals of a path behind `if` or `ifnone`. -/
def TimingItem.key? : TimingItem → Option PathKey
  | .conditioned _ written | .ifnone _ written => some written.key
  | _ => none

def itemsBetween (key : PathKey) (found : List TimingItem) : List TimingItem :=
  found.filter (·.key? = some key)

/-- The path is stored for the item; the condition of an `ifnone` is made for it. -/
def StoredFor (item : TimingItem) (path : Path) : Prop :=
  match item with
  | .conditioned condition written => path = { written with condition := some condition }
  | .ifnone _ written => ∃ condition, path = { written with condition := some condition }
  | _ => False

section Storing

/-- The condition of the path is made of those of the earlier paths. -/
def MadeFrom (earlier : List Path) (path : Path) : Prop :=
  ∃ condition, path.condition = some condition ∧
    Condition.noneOf (earlier.filterMap (·.condition)) = some condition

/-- Items between the same signals and the paths that are stored for them in turn. -/
inductive Stored : List TimingItem → List Path → Prop
  | nil : Stored [] []
  | item {found paths item path} (before : Stored found paths) (own : StoredFor item path)
      (made : ∀ line written, item = .ifnone line written → MadeFrom paths path) :
      Stored (found ++ [item]) (paths ++ [path])

variable {found : List TimingItem} {paths : List Path} {path : Path}

theorem StoredFor.condition {item : TimingItem} (own : StoredFor item path) :
    ∃ condition, path.condition = some condition := by
  cases item with
  | conditioned condition => exact ⟨condition, congrArg Path.condition own⟩
  | ifnone =>
    obtain ⟨condition, rfl⟩ := own
    exact ⟨condition, rfl⟩
  | specparam | path | check => exact own.elim

theorem Stored.forall₂ (stored : Stored found paths) : List.Forall₂ StoredFor found paths := by
  induction stored with
  | nil => exact .nil
  | item _ own _ ih => exact List.rel_append ih (.cons own .nil)

theorem Stored.conditions (stored : Stored found paths) :
    ∀ path ∈ paths, ∃ condition, path.condition = some condition := by
  induction stored with
  | nil => simp
  | item _ own _ ih => exact List.forall_mem_append.mpr ⟨ih, by simpa using own.condition⟩

theorem Stored.ifnone_at (stored : Stored found paths) {k line : Nat} {written : Path}
    (source : found[k]? = some (.ifnone line written)) (place : paths[k]? = some path) :
    MadeFrom (paths.take k) path := by
  induction stored with
  | nil => cases source
  | @item found paths _ _ before _ made ih =>
    have length := before.forall₂.length_eq
    rcases Nat.lt_or_ge k found.length with within | beyond
    · rw [List.getElem?_append_left within] at source
      rw [List.getElem?_append_left (length ▸ within)] at place
      rw [List.take_append_of_le_length (length ▸ Nat.le_of_lt within)]
      exact ih source place
    · have last : k = found.length := by
        obtain ⟨short, _⟩ := List.getElem?_eq_some_iff.mp source
        simp at short
        omega
      subst last
      rw [List.getElem?_concat_length] at source
      rw [length, List.getElem?_concat_length] at place
      cases place
      rw [length, List.take_left]
      exact made line written (Option.some.inj source)

theorem MadeFrom.taken_iff {earlier : List Path} (made : MadeFrom earlier path)
    (i : Interpretation) :
    path.takenUnder i = true ↔ ∀ other ∈ earlier, other.takenUnder i = false := by
  obtain ⟨condition, has, made⟩ := made
  rw [Path.takenUnder, has, Option.any_some, Condition.holdsUnder_noneOf made, List.all_eq_true]
  simp only [List.mem_filterMap, Bool.not_eq_true', forall_exists_index, and_imp]
  refine ⟨fun none_ other member => ?_, fun none_ condition other member has => ?_⟩
  · rw [Path.takenUnder]
    cases has : other.condition with
    | none => rfl
    | some condition => exact none_ condition other member has
  · have := none_ other member
    rwa [Path.takenUnder, has] at this

end Storing

section Reading

open Grammar

variable {ts left : List Token} {found : List TimingItem} {timing : ModuleTiming}

theorem itemsBetween_concat (key : PathKey) (found : List TimingItem) (item : TimingItem) :
    itemsBetween key (found ++ [item]) =
      if item.key? = some key then itemsBetween key found ++ [item] else itemsBetween key found := by
  rw [itemsBetween, List.filter_append]
  by_cases same : item.key? = some key <;> simp [same, itemsBetween]

/-- What the paths pushed so far have to do with the items read so far. -/
structure Filed (found : List TimingItem) (timing : ModuleTiming) (pushed : List Path) : Prop where
  index : timing.conditioned = .ofPaths pushed
  stored : ∀ key, Stored (itemsBetween key found) (pushed.filter (·.key = key))

theorem Filed.skip {pushed : List Path} {extended : ModuleTiming} {item : TimingItem}
    (filed : Filed found timing pushed) (plain : item.key? = none)
    (kept : extended.conditioned = timing.conditioned) :
    Filed (found ++ [item]) extended pushed where
  index := kept.trans filed.index
  stored key := by
    rw [itemsBetween_concat, if_neg (by simp [plain])]
    exact filed.stored key

theorem Filed.push {pushed : List Path} {item : TimingItem} {path : Path}
    (filed : Filed found timing pushed) (own : item.key? = some path.key)
    (adds : Stored (itemsBetween path.key found ++ [item])
      (pushed.filter (·.key = path.key) ++ [path])) :
    Filed (found ++ [item]) { timing with conditioned := timing.conditioned.push path }
      (pushed ++ [path]) where
  index := by rw [PathIndex.ofPaths_concat, filed.index]
  stored key := by
    rw [itemsBetween_concat, own, List.filter_append]
    by_cases same : path.key = key
    · subst same
      simpa using adds
    · simpa [same] using filed.stored key

theorem Filed.ifnoneCondition {pushed : List Path} (filed : Filed found timing pushed)
    (key : PathKey) :
    timing.ifnoneCondition key =
      Condition.noneOf ((pushed.filter (·.key = key)).filterMap (·.condition)) := by
  rw [ModuleTiming.ifnoneCondition, filed.index, PathIndex.get?_ofPaths]

theorem Filed.add {pushed : List Path} {item : TimingItem} {extended : ModuleTiming}
    (filed : Filed found timing pushed) (added : timing.add item = .ok extended) :
    ∃ pushed', Filed (found ++ [item]) extended pushed' := by
  cases adds_of_ok added with
  | string | value | check | path => exact ⟨pushed, filed.skip rfl rfl⟩
  | @conditioned condition written =>
    have own : StoredFor (.conditioned condition written)
        { written with condition := some condition } := rfl
    have stored := Stored.item (filed.stored written.key) own fun _ _ other => nomatch other
    exact ⟨_, filed.push rfl stored⟩
  | @ifnone line written condition made =>
    rw [filed.ifnoneCondition] at made
    have own : StoredFor (.ifnone line written)
        { written with condition := some condition } := ⟨condition, rfl⟩
    have stored := Stored.item (filed.stored written.key) own fun _ _ _ => ⟨condition, rfl, made⟩
    exact ⟨_, filed.push rfl stored⟩

theorem filed_of_reached (reached : Reached ts found timing left) :
    ∃ pushed, Filed found timing pushed := by
  induction reached with
  | start => exact ⟨[], rfl, fun _ => .nil⟩
  | item _ _ _ added ih =>
    obtain ⟨pushed, filed⟩ := ih
    exact filed.add added
  | group _ _ _ ih => exact ih

theorem Filed.ifnoneCondition_eq_none_iff {pushed : List Path} (filed : Filed found timing pushed)
    (key : PathKey) : timing.ifnoneCondition key = none ↔ itemsBetween key found = [] := by
  have stored := filed.stored key
  rw [filed.ifnoneCondition, Condition.noneOf_eq_none_iff, ← List.length_eq_zero_iff (l := itemsBetween _ _),
    stored.forall₂.length_eq, List.length_eq_zero_iff, List.filterMap_eq_nil_iff,
    List.eq_nil_iff_forall_not_mem]
  refine forall_congr' fun path => ⟨fun none_ member => ?_, fun absent member => absurd member absent⟩
  obtain ⟨condition, has⟩ := stored.conditions path member
  rw [none_ member] at has
  cases has

end Reading

theorem gathered_of_ofBlock {text : String} {timing : ModuleTiming}
    (ok : ModuleTiming.ofBlock text = .ok timing) : timing.conditioned.Gathered := by
  obtain ⟨ts, _, ok⟩ := bind_eq_ok.mp ok
  obtain ⟨found, _, _, reached, _⟩ := Grammar.readAs_of_ok ok
  obtain ⟨pushed, filed⟩ := filed_of_reached reached
  exact ⟨pushed, filed.index⟩

/-- The paths of a group come from the items between its signals. One that comes from an
`ifnone` is taken exactly where no path before it is, so no case is left out. -/
structure TakesOver (found : List TimingItem) (group : PathGroup) : Prop where
  sources : List.Forall₂ StoredFor (itemsBetween group.key found) group.paths
  taken : ∀ (k line : Nat) (written path : Path),
    (itemsBetween group.key found)[k]? = some (.ifnone line written) →
    group.paths[k]? = some path → ∀ i,
      (path.takenUnder i = true ↔ ∀ earlier ∈ group.paths.take k, earlier.takenUnder i = false)
  covers : ∀ (k line : Nat) (written : Path),
    (itemsBetween group.key found)[k]? = some (.ifnone line written) → ∀ i,
      ∃ path ∈ group.paths.take (k + 1), path.takenUnder i = true

theorem TakesOver.of_stored {found : List TimingItem} {group : PathGroup}
    (stored : Stored (itemsBetween group.key found) group.paths) : TakesOver found group := by
  have taken (k line : Nat) (written path : Path)
      (source : (itemsBetween group.key found)[k]? = some (.ifnone line written))
      (place : group.paths[k]? = some path) (i : Interpretation) :
      path.takenUnder i = true ↔ ∀ earlier ∈ group.paths.take k, earlier.takenUnder i = false :=
    (stored.ifnone_at source place).taken_iff i
  refine ⟨stored.forall₂, taken, fun k line written source i => ?_⟩
  have within : k < group.paths.length := by
    rw [← stored.forall₂.length_eq]
    exact (List.getElem?_eq_some_iff.mp source).1
  have place := List.getElem?_eq_getElem within
  rw [List.take_add_one, place, Option.toList_some]
  by_cases none_ : ∀ earlier ∈ group.paths.take k, earlier.takenUnder i = false
  · exact ⟨group.paths[k], List.mem_concat_self, (taken k line written _ source place i).mpr none_⟩
  · obtain ⟨earlier, member, some_⟩ : ∃ earlier ∈ group.paths.take k, earlier.takenUnder i ≠ false := by
      simpa using none_
    exact ⟨earlier, List.mem_append_left _ member, by simpa using some_⟩

theorem takesOver_of_reached {ts left : List Token} {found : List TimingItem} {timing : ModuleTiming}
    (reached : Grammar.Reached ts found timing left) :
    ∀ group ∈ timing.conditioned.groups, TakesOver found group := by
  obtain ⟨pushed, filed⟩ := filed_of_reached reached
  intro group member
  rw [filed.index, PathIndex.mem_groups_ofPaths] at member
  exact .of_stored (member.2 ▸ filed.stored group.key)

/-- An `ifnone` is added wherever an item between its signals was read before. -/
theorem add_ifnone_of_reached {ts left : List Token} {found : List TimingItem}
    {timing : ModuleTiming} (reached : Grammar.Reached ts found timing left) (line : Nat)
    (written : Path) :
    if itemsBetween written.key found = [] then
      timing.add (.ifnone line written) = .error (.ifnoneUncovered line)
    else ∃ extended, timing.add (.ifnone line written) = .ok extended := by
  obtain ⟨pushed, filed⟩ := filed_of_reached reached
  have none_iff := filed.ifnoneCondition_eq_none_iff written.key
  cases made : timing.ifnoneCondition written.key with
  | none => rw [if_pos (none_iff.mp made), ModuleTiming.add, made]
  | some condition =>
    have later : itemsBetween written.key found ≠ [] := fun first => by
      cases made.symm.trans (none_iff.mpr first)
    rw [if_neg later, ModuleTiming.add, made]
    exact ⟨_, rfl⟩

private def interleaved : String := "
  specify
    if (A) (D => Q) = 1;
    if (B) (E => Q) = 1;
    ifnone (D => Q) = 2;
  endspecify
  specify
    if (A == B) (D => Q) = 3;
    ifnone (D => Q) = 4;
  endspecify"

private def uncovered : String := "specify ifnone (D => Q) = 1; endspecify"

/-- In an accepted text every `ifnone` takes over from the paths before it. Wherever one is
reached whose path can be read, it is accepted if there is an item between its signals
before it, and otherwise its line is blamed for the failure of the block. -/
theorem ifnone_takes_over (text : String) :
    (∀ timing, ModuleTiming.ofBlock text = .ok timing →
      ∃ ts found, Token.ofString text = .ok ts ∧ Grammar.itemsOf ts = .ok found ∧
        ∀ group ∈ timing.conditioned.groups, TakesOver found group) ∧
    ∀ ts found timing t rest written after, Token.ofString text = .ok ts →
      Grammar.Reached ts found timing (t :: rest) → t.kind = .keyword .ifnone →
      (Grammar.path timing.specparams).run rest = .ok (written, after) →
        if itemsBetween written.key found = [] then
          timing.add (.ifnone t.line written) = .error (.ifnoneUncovered t.line) ∧
            ModuleTiming.ofBlock text = .error (.ifnoneUncovered t.line)
        else ∃ extended, timing.add (.ifnone t.line written) = .ok extended ∧
          Grammar.Reached ts (found ++ [.ifnone t.line written]) extended after := by
  constructor
  · intro timing ok
    cases tokens : Token.ofString text with
    | error e =>
      rw [ModuleTiming.ofBlock, tokens] at ok
      cases ok
    | ok ts =>
      rw [ModuleTiming.ofBlock, tokens] at ok
      obtain ⟨found, read⟩ := Grammar.readAs_of_ok ok
      have items := read.items
      obtain ⟨_, _, reached, _⟩ := read
      exact ⟨ts, found, rfl, items, takesOver_of_reached reached⟩
  · intro ts found timing t rest written after tokens reached word read
    have starts : t.kind ≠ .keyword .endspecify := by simp [word]
    have item : (Grammar.itemAfter timing.specparams t).run rest =
        .ok (.ifnone t.line written, after) := by
      simp only [Grammar.itemAfter, word]
      exact Rule.run_then read
    have added := add_ifnone_of_reached reached t.line written
    split at added
    next first =>
      rw [if_pos first]
      refine ⟨added, ?_⟩
      rw [ModuleTiming.ofBlock, tokens]
      exact reached.fails starts item added
    next later =>
      rw [if_neg later]
      obtain ⟨extended, added⟩ := added
      exact ⟨extended, added, .item reached starts item added⟩

theorem ifnone_takes_over_interleaved :
    (∃ timing ts found, ModuleTiming.ofBlock interleaved = .ok timing ∧
      Grammar.itemsOf ts = .ok found ∧ (∀ group ∈ timing.conditioned.groups, TakesOver found group) ∧
      timing.conditioned.groups.map (fun group => group.paths.map (·.condition.map (·.text))) =
        [[some "A", some "!(A)", some "A==B", some "!(A)&!(!(A))&!(A==B)"], [some "B"]]) ∧
    ModuleTiming.ofBlock uncovered = .error (.ifnoneUncovered 1) := by
  have read : (ModuleTiming.ofBlock interleaved).toOption.map (fun timing =>
      timing.conditioned.groups.map fun group => group.paths.map (·.condition.map (·.text))) =
      some [[some "A", some "!(A)", some "A==B", some "!(A)&!(!(A))&!(A==B)"], [some "B"]] := by
    decide +kernel
  obtain ⟨timing, ok, conditions⟩ := exists_ok_of_toOption read
  obtain ⟨ts, found, _, items, takes⟩ := (ifnone_takes_over interleaved).1 timing ok
  refine ⟨⟨timing, ts, found, ok, items, takes, conditions⟩, ?_⟩
  have lexed : (Token.ofString uncovered).toOption.map (fun ts =>
      (ts.take 2, ((Grammar.path []).run (ts.drop 2)).toOption.map fun _ => ())) =
      some ([⟨.keyword .specify, "specify", 1, 0⟩, ⟨.keyword .ifnone, "ifnone", 1, 8⟩], some ()) := by
    decide +kernel
  obtain ⟨ts, tokens, facts⟩ := exists_ok_of_toOption lexed
  obtain ⟨front, path⟩ := Prod.mk.inj facts
  obtain ⟨⟨written, after⟩, read, _⟩ := exists_ok_of_toOption path
  have whole := List.take_append_drop 2 ts
  rw [front] at whole
  have refused := (ifnone_takes_over uncovered).2 ts [] {} _ (ts.drop 2) written after tokens
    (.start whole.symm rfl) rfl read
  exact refused.2

end CellTiming
