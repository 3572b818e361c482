import CellTiming.Proofs.Block

/-! The states that the reading of a block goes through, from item to item. What has been
read so far adds up to the timing of the state, and what becomes of the block depends on
the state alone. -/
namespace CellTiming.Grammar

/-- Inside a group: the items read so far, the timing they add up to and the tokens ahead. -/
inductive Reached (ts : List Token) : List TimingItem → ModuleTiming → List Token → Prop
  | start {t rest} (whole : ts = t :: rest) (opens : t.kind = .keyword .specify) :
      Reached ts [] {} rest
  | item {found timing t rest item after extended} (before : Reached ts found timing (t :: rest))
      (starts : t.kind ≠ .keyword .endspecify)
      (read : (itemAfter timing.specparams t).run rest = .ok (item, after))
      (added : timing.add item = .ok extended) : Reached ts (found ++ [item]) extended after
  | group {found timing t next rest} (before : Reached ts found timing (t :: next :: rest))
      (ends : t.kind = .keyword .endspecify) (opens : next.kind = .keyword .specify) :
      Reached ts found timing rest

/-- The tokens are a block of the items, which add up to the timing. -/
def ReadAs (ts : List Token) (found : List TimingItem) (timing : ModuleTiming) : Prop :=
  ∃ t left, Reached ts found timing (t :: left) ∧ t.kind = .keyword .endspecify ∧
    atEnd left = true

/-- The items from a state on, through the last group. -/
def itemsFrom (timing : ModuleTiming) (ts : List Token) : Except SourceError (List TimingItem) :=
  match ts with
  | [] => .error (unexpectedAt [])
  | t :: rest =>
    if t.kind = .keyword .endspecify then
      if (rest.head?.map (·.kind)) = some (.keyword .specify) then itemsFrom timing rest.tail
      else .ok []
    else
      match h : (itemAfter timing.specparams t).run rest with
      | .error e => .error e
      | .ok (item, after) => do
        have := ((itemAfter timing.specparams t).suffix h).length_le
        let others ← itemsFrom (← timing.add item) after
        return item :: others
termination_by ts.length

/-- The items of a block, whose first token opens its first group. -/
def itemsOf (ts : List Token) : Except SourceError (List TimingItem) := itemsFrom {} ts.tail

section States

variable {ts left : List Token} {found : List TimingItem} {timing : ModuleTiming}

theorem continued_item {t : Token} {rest after : List Token} {item : TimingItem}
    (starts : t.kind ≠ .keyword .endspecify)
    (read : (itemAfter timing.specparams t).run rest = .ok (item, after)) :
    continued timing (t :: rest) = timing.add item >>= (continued · after) := by
  rw [continued, items_item starts read]
  cases timing.add item <;> rfl

theorem continued_group {t next : Token} {rest : List Token}
    (ends : t.kind = .keyword .endspecify) (opens : next.kind = .keyword .specify) :
    continued timing (t :: next :: rest) = continued timing rest := by
  have more : atEnd (next :: rest) ≠ true := by simp [atEnd, opens]
  rw [continued, items_ending ends]
  exact (if_neg more).trans (groups_specify opens)

theorem continued_last {t : Token} {rest : List Token} (ends : t.kind = .keyword .endspecify)
    (last : atEnd rest = true) : continued timing (t :: rest) = .ok timing := by
  rw [continued, items_ending ends]
  exact if_pos last

theorem continued_other {t next : Token} {rest : List Token} (ends : t.kind = .keyword .endspecify)
    (inner : next.kind ≠ .endOfInput) (other : next.kind ≠ .keyword .specify) :
    continued timing (t :: next :: rest) = .error (unexpectedAt (next :: rest)) := by
  rw [continued, items_ending ends]
  exact (if_neg (by simpa [atEnd] using inner)).trans (groups_other other)

theorem continued_failed {t : Token} {rest : List Token} {e : SourceError}
    (starts : t.kind ≠ .keyword .endspecify)
    (failed : (itemAfter timing.specparams t).run rest = .error e) :
    continued timing (t :: rest) = .error e := by
  rw [continued, items_failed starts failed]
  rfl

theorem Reached.suffix (reached : Reached ts found timing left) : left <:+ ts := by
  induction reached with
  | start whole => exact whole ▸ List.suffix_cons _ _
  | item _ _ read _ ih => exact ((itemAfter _ _).suffix read).trans ((List.suffix_cons _ _).trans ih)
  | group _ _ _ ih => exact (List.suffix_cons _ _).trans ((List.suffix_cons _ _).trans ih)

theorem Reached.continues (reached : Reached ts found timing left) :
    ModuleTiming.ofTokens ts = continued timing left := by
  induction reached with
  | start whole opens => rw [whole, ModuleTiming.ofTokens, groups_specify opens]
  | item _ starts read added ih => rw [ih, continued_item starts read, added]; rfl
  | group _ ends opens ih => rw [ih, continued_group ends opens]

theorem itemsFrom_item {t : Token} {rest after : List Token} {item : TimingItem}
    (starts : t.kind ≠ .keyword .endspecify)
    (read : (itemAfter timing.specparams t).run rest = .ok (item, after)) :
    itemsFrom timing (t :: rest) =
      timing.add item >>= fun extended => (itemsFrom extended after).map (item :: ·) := by
  rw [itemsFrom, if_neg starts]
  split
  next failed =>
    rw [read] at failed
    cases failed
  next item' after' read' =>
    rw [read] at read'
    cases read'
    cases timing.add item with
    | error e => rfl
    | ok extended =>
      simp only [bind, Except.bind]
      cases itemsFrom extended after <;> rfl

theorem Reached.items (reached : Reached ts found timing left) :
    itemsOf ts = (itemsFrom timing left).map (found ++ ·) := by
  induction reached with
  | @start t rest whole opens =>
    rw [whole, itemsOf, List.tail_cons]
    cases itemsFrom {} rest <;> rfl
  | @item found timing t rest item after extended _ starts read added ih =>
    rw [ih, itemsFrom_item starts read, added]
    simp only [bind, Except.bind]
    cases itemsFrom extended after with
    | error e => rfl
    | ok others => exact congrArg Except.ok (List.append_cons found item others)
  | group _ ends opens ih =>
    rw [ih, itemsFrom, if_pos ends, List.head?_cons, Option.map_some, opens, if_pos rfl]
    rfl

theorem ReadAs.items (read : ReadAs ts found timing) : itemsOf ts = .ok found := by
  obtain ⟨t, left, reached, ends, closed⟩ := read
  have last : left.head?.map (·.kind) ≠ some (.keyword .specify) := by
    cases left with
    | nil => simp
    | cons next more =>
      rw [List.head?_cons, Option.map_some, show next.kind = .endOfInput from eq_of_beq closed]
      simp
  rw [reached.items, itemsFrom, if_pos ends, if_neg last]
  exact congrArg Except.ok (List.append_nil found)

theorem Reached.fails {t : Token} {rest after : List Token} {item : TimingItem} {e : SourceError}
    (reached : Reached ts found timing (t :: rest)) (starts : t.kind ≠ .keyword .endspecify)
    (read : (itemAfter timing.specparams t).run rest = .ok (item, after))
    (refused : timing.add item = .error e) : ModuleTiming.ofTokens ts = .error e := by
  rw [reached.continues, continued_item starts read, refused]
  rfl

theorem ItemsRun.reached {final : ModuleTiming} {ahead : List Token}
    (run : ItemsRun timing ahead final left) (before : Reached ts found timing ahead) :
    ∃ more t, Reached ts (found ++ more) final (t :: left) ∧ t.kind = .keyword .endspecify := by
  induction run generalizing found with
  | ending ends => exact ⟨[], _, by rwa [List.append_nil], ends⟩
  | item starts read added _ ih =>
    obtain ⟨more, t, reached, ends⟩ := ih (.item before starts read added)
    exact ⟨_ :: more, t, by rwa [List.append_cons], ends⟩

theorem GroupsRun.readAs {final : ModuleTiming} {ahead : List Token}
    (run : GroupsRun timing ahead final)
    (before : ∀ t rest, ahead = t :: rest → t.kind = .keyword .specify →
      Reached ts found timing rest) :
    ∃ more, ReadAs ts (found ++ more) final := by
  induction run generalizing found with
  | last opens items ends =>
    obtain ⟨more, t, reached, closes⟩ := items.reached (before _ _ rfl opens)
    exact ⟨more, t, _, reached, closes, ends⟩
  | @more timing t rest gathered after final opens items _ others ih =>
    obtain ⟨more, t, reached, closes⟩ := items.reached (before _ _ rfl opens)
    obtain ⟨last, whole⟩ := ih fun next rest same opens' => by
      subst same
      exact .group reached closes opens'
    exact ⟨more ++ last, by rwa [← List.append_assoc]⟩

theorem readAs_of_ok (ok : ModuleTiming.ofTokens ts = .ok timing) :
    ∃ found, ReadAs ts found timing :=
  (groupsRun_of_ok ok).readAs fun _ _ same opens => .start same opens

end States

end CellTiming.Grammar
