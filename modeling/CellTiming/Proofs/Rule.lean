import CellTiming.Rule
import Mathlib.Data.List.Forall2

/-! What rules take from the front of a list. A statement about a rule relates the
elements it takes to the value it makes of them; it is proved for the parts of a rule
and carried over to their composition. -/
namespace CellTiming

theorem exists_ok_of_toOption {ε α β : Type} {result : Except ε α} {f : α → β} {b : β}
    (found : result.toOption.map f = some b) : ∃ a, result = .ok a ∧ f a = b := by
  cases result with
  | error e => cases found
  | ok a => exact ⟨a, rfl, Option.some.inj found⟩

theorem bind_eq_ok {ε α β : Type} {result : Except ε α} {next : α → Except ε β} {b : β} :
    result >>= next = .ok b ↔ ∃ a, result = .ok a ∧ next a = .ok b := by
  cases result with
  | error e => simp [bind, Except.bind]
  | ok a => simp [bind, Except.bind]

/-- A traversal succeeds where it succeeds at every element. -/
theorem mapM_eq_ok {ε α β : Type} {f : α → Except ε β} {xs : List α} {ys : List β} :
    xs.mapM f = .ok ys ↔ List.Forall₂ (fun x y => f x = .ok y) xs ys := by
  induction xs generalizing ys with
  | nil =>
    rw [List.mapM_nil, List.forall₂_nil_left_iff]
    exact ⟨fun ok => (Except.ok.inj ok).symm, fun none => none ▸ rfl⟩
  | cons x xs ih =>
    rw [List.mapM_cons, bind_eq_ok, List.forall₂_cons_left_iff]
    simp only [bind_eq_ok, ih]
    constructor
    · rintro ⟨y, first, ys, others, ⟨⟩⟩
      exact ⟨y, ys, first, others, rfl⟩
    · rintro ⟨y, ys, first, others, rfl⟩
      exact ⟨y, first, ys, others, rfl⟩

theorem exists_of_forall₂ {α β : Type} {R : α → β → Prop} {xs : List α} {ys : List β}
    (related : List.Forall₂ R xs ys) : ∀ x ∈ xs, ∃ y ∈ ys, R x y := by
  induction related with
  | nil => exact List.forall_mem_nil _
  | @cons x y xs ys first others ih =>
    refine List.forall_mem_cons.mpr ⟨⟨y, List.mem_cons_self, first⟩, fun x member => ?_⟩
    obtain ⟨y', known, found⟩ := ih x member
    exact ⟨y', List.mem_cons_of_mem y known, found⟩

/-- What stands before the first mark in a list is determined. -/
theorem cut_unique {α : Type} {p : α → Prop} {first second rest rest' : List α} {a b : α}
    (before : ∀ x ∈ first, ¬p x) (before' : ∀ x ∈ second, ¬p x) (mark : p a) (mark' : p b)
    (same : first ++ a :: rest = second ++ b :: rest') :
    first = second ∧ a = b ∧ rest = rest' := by
  rcases List.append_eq_append_iff.mp same with ⟨more, rfl, left⟩ | ⟨more, rfl, left⟩
  · cases more with
    | nil => exact ⟨(List.append_nil _).symm, List.cons.inj left⟩
    | cons d more =>
      obtain ⟨rfl, -⟩ := List.cons.inj left
      exact absurd mark (before' _ (List.mem_append_right _ List.mem_cons_self))
  · cases more with
    | nil =>
      obtain ⟨equal, behind⟩ := List.cons.inj left
      exact ⟨List.append_nil _, equal.symm, behind.symm⟩
    | cons d more =>
      obtain ⟨rfl, -⟩ := List.cons.inj left
      exact absurd mark' (before _ (List.mem_append_right _ List.mem_cons_self))

theorem eq_of_first {α : Type} {c : α} {first second rest rest' : List α} (before : c ∉ first)
    (before' : c ∉ second) (same : first ++ c :: rest = second ++ c :: rest') :
    first = second ∧ rest = rest' := by
  obtain ⟨heads, -, tails⟩ := cut_unique (p := (c = ·)) (fun _ member equal => before (equal ▸ member))
    (fun _ member equal => before' (equal ▸ member)) rfl rfl same
  exact ⟨heads, tails⟩

namespace Rule

variable {σ ε α β : Type}

theorem run_bind_ok {rule : Rule σ ε α} {next : α → Rule σ ε β} {ts rest : List σ} {result : β} :
    (rule >>= next).run ts = .ok (result, rest) ↔
      ∃ value middle, rule.run ts = .ok (value, middle) ∧
        (next value).run middle = .ok (result, rest) := by
  rw [run_bind]
  cases found : rule.run ts with
  | error e => simp
  | ok step =>
    constructor
    · intro ok
      exact ⟨step.1, step.2, rfl, ok⟩
    · rintro ⟨value, middle, same, ok⟩
      cases same
      exact ok

theorem run_then {rule : Rule σ ε α} {next : α → Rule σ ε β} {ts middle : List σ} {value : α}
    (ok : rule.run ts = .ok (value, middle)) :
    (rule >>= next).run ts = (next value).run middle := by
  rw [run_bind, ok]

theorem eq_of_run {first second : Rule σ ε α} (same : ∀ ts, first.run ts = second.run ts) :
    first = second := (Rule.mk.injEq ..).mpr (funext same)

instance : LawfulMonad (Rule σ ε) := LawfulMonad.mk' (Rule σ ε)
  (fun rule => eq_of_run fun ts => by
    change (match rule.run ts with | .ok (value, rest) => _ | .error e => _) = _
    cases rule.run ts <;> rfl)
  (fun _ _ => rfl)
  (fun rule _ _ => eq_of_run fun ts => by
    simp only [run_bind]
    cases rule.run ts <;> rfl)

/-- Whenever the rule succeeds, what it took and the value satisfy the relation. -/
def Takes (rule : Rule σ ε α) (P : List σ → α → Prop) : Prop :=
  ∀ ts value rest, rule.run ts = .ok (value, rest) → ∃ used, ts = used ++ rest ∧ P used value

section Takes

variable {rule : Rule σ ε α} {next : α → Rule σ ε β} {P Q : List σ → α → Prop}

theorem Takes.mono (takes : rule.Takes P) (weaker : ∀ used value, P used value → Q used value) :
    rule.Takes Q := by
  intro ts value rest ok
  obtain ⟨used, same, holds⟩ := takes ts value rest ok
  exact ⟨used, same, weaker used value holds⟩

theorem Takes.and (first : rule.Takes P) (second : rule.Takes Q) :
    rule.Takes fun used value => P used value ∧ Q used value := by
  intro ts value rest ok
  obtain ⟨used, same, left⟩ := first ts value rest ok
  obtain ⟨used', same', right⟩ := second ts value rest ok
  have equal : used = used' := List.append_cancel_right (same.symm.trans same')
  exact ⟨used, same, left, equal ▸ right⟩

theorem takes_pure {value : α} (holds : P [] value) : (pure value : Rule σ ε α).Takes P := by
  intro ts value' rest ok
  cases ok
  exact ⟨[], rfl, holds⟩

theorem takes_fail {error : ε} : (fail error : Rule σ ε α).Takes P :=
  fun _ _ _ ok => nomatch ok

theorem takes_failAt {error : List σ → ε} : (failAt error : Rule σ ε α).Takes P :=
  fun _ _ _ ok => nomatch ok

theorem takes_ahead {f : List σ → α} (holds : ∀ value, P [] value) :
    (ahead f : Rule σ ε α).Takes P := by
  intro ts value rest ok
  cases ok
  exact ⟨[], rfl, holds _⟩

theorem Takes.bind {R : α → List σ → β → Prop} (takes : rule.Takes P)
    (then_takes : ∀ value, (next value).Takes (R value)) :
    (rule >>= next).Takes fun used result =>
      ∃ first value second, used = first ++ second ∧ P first value ∧ R value second result := by
  intro ts result rest ok
  obtain ⟨value, middle, head, tail⟩ := run_bind_ok.mp ok
  obtain ⟨first, same, left⟩ := takes ts value middle head
  obtain ⟨second, same', right⟩ := then_takes value middle result rest tail
  exact ⟨first ++ second, by rw [same, same', List.append_assoc], first, value, second, rfl,
    left, right⟩

/-- The last rule of a sequence alone makes its value. -/
theorem takes_last {holds : β → Prop} (last : ∀ value, (next value).Takes fun _ => holds) :
    (rule >>= next).Takes fun _ => holds := by
  intro ts result rest ok
  obtain ⟨used, same⟩ := (rule >>= next).suffix ok
  obtain ⟨value, middle, _, tail⟩ := run_bind_ok.mp ok
  obtain ⟨_, _, made⟩ := last value middle result rest tail
  exact ⟨used, same.symm, made⟩

theorem takeIf_run {test : σ → Bool} {ts rest : List σ} {found : Option σ} :
    (takeIf test : Rule σ ε (Option σ)).run ts = .ok (found, rest) ↔
      (∃ t, found = some t ∧ ts = t :: rest ∧ test t = true) ∨
        (found = none ∧ ts = rest ∧ ∀ t tail, ts = t :: tail → test t = false) := by
  cases ts with
  | nil =>
    constructor
    · intro ok
      cases ok
      exact .inr ⟨rfl, rfl, fun _ _ same => nomatch same⟩
    · rintro (⟨_, _, same, _⟩ | ⟨rfl, rfl, _⟩)
      · cases same
      · rfl
  | cons t tail =>
    cases passes : test t with
    | true =>
      simp only [takeIf, passes, if_true, Except.ok.injEq, Prod.mk.injEq]
      constructor
      · rintro ⟨rfl, rfl⟩
        exact .inl ⟨t, rfl, rfl, passes⟩
      · rintro (⟨t', rfl, same, _⟩ | ⟨_, _, fails⟩)
        · cases same
          exact ⟨rfl, rfl⟩
        · rw [fails t tail rfl] at passes
          contradiction
    | false =>
      simp only [takeIf, passes, Bool.false_eq_true, if_false, Except.ok.injEq, Prod.mk.injEq]
      constructor
      · rintro ⟨rfl, rfl⟩
        refine .inr ⟨rfl, rfl, ?_⟩
        intro t' tail' same
        cases same
        exact passes
      · rintro (⟨t', rfl, same, passes'⟩ | ⟨rfl, rfl, _⟩)
        · cases same
          rw [passes'] at passes
          contradiction
        · exact ⟨rfl, rfl⟩

end Takes

section Repeated

variable {more : σ → List σ → Bool} {rule : σ → Rule σ ε α} {t : σ} {tail : List σ}

theorem repeatedFrom_more (goes : more t tail = true) :
    repeatedFrom more rule (t :: tail) = (rule t).run tail >>= fun step =>
      (repeatedFrom more rule step.2).map fun (values, rest) => (step.1 :: values, rest) := by
  rw [repeatedFrom, if_pos goes]
  split
  next failed =>
    conv => rhs; rw [failed]
    rfl
  next found =>
    conv => rhs; rw [found]
    rfl

theorem repeatedFrom_stop (stops : more t tail = false) :
    repeatedFrom more rule (t :: tail) = .ok ([], t :: tail) := by
  rw [repeatedFrom, if_neg (by simp [stops])]

end Repeated

/-- Values in a row, each behind an element of its own. -/
inductive Row (P : σ → List σ → α → Prop) : List σ → List α → Prop
  | nil : Row P [] []
  | cons {t piece value more values} (head : P t piece value) (tail : Row P more values) :
      Row P (t :: (piece ++ more)) (value :: values)

theorem takes_repeated {first : σ → Bool} {rule : σ → Rule σ ε α} {P : σ → List σ → α → Prop}
    (takes : ∀ t, first t = true → (rule t).Takes (P t)) :
    (repeated first rule).Takes (Row P) := by
  intro ts values rest ok
  change repeatedFrom (fun t _ => first t) rule ts = .ok (values, rest) at ok
  fun_induction repeatedFrom (fun t _ => first t) rule ts generalizing values with
  | case1 =>
    cases ok
    exact ⟨[], rfl, .nil⟩
  | case2 => cases ok
  | case3 t tail passes value middle found _ ih =>
    cases others : repeatedFrom (fun t _ => first t) rule middle with
    | error e => rw [others] at ok; cases ok
    | ok step =>
      rw [others] at ok
      cases ok
      obtain ⟨piece, same, holds⟩ := takes t passes tail value middle found
      obtain ⟨more, same', row⟩ := ih _ others
      exact ⟨t :: (piece ++ more), by rw [same, same']; simp, .cons holds row⟩
  | case4 =>
    cases ok
    exact ⟨[], rfl, .nil⟩

theorem repeated_run_stop {first : σ → Bool} (rule : σ → Rule σ ε α) {ts : List σ}
    (stops : ∀ t tail, ts = t :: tail → first t = false) :
    (repeated first rule).run ts = .ok ([], ts) := by
  change repeatedFrom (fun t _ => first t) rule ts = .ok ([], ts)
  cases ts with
  | nil => rw [repeatedFrom]
  | cons t tail => exact repeatedFrom_stop (stops t tail rfl)

end Rule

end CellTiming
