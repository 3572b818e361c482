/-! Rules of a grammar read a value from the front of a list and leave a suffix of it.
They run one after the other, and the first failure is final. -/
namespace CellTiming

structure Rule (σ ε α : Type) where
  run : List σ → Except ε (α × List σ)
  suffix : ∀ {ts value rest}, run ts = .ok (value, rest) → rest <:+ ts

namespace Rule

variable {σ ε α β : Type}

protected def pure (value : α) : Rule σ ε α where
  run ts := .ok (value, ts)
  suffix h := by cases h; exact List.suffix_rfl

protected def bind (rule : Rule σ ε α) (next : α → Rule σ ε β) : Rule σ ε β where
  run ts :=
    match rule.run ts with
    | .ok (value, rest) => (next value).run rest
    | .error e => .error e
  suffix {ts value rest} h := by
    split at h
    next first middle hf => exact ((next first).suffix h).trans (rule.suffix hf)
    next => contradiction

instance : Monad (Rule σ ε) where
  pure := Rule.pure
  bind := Rule.bind

@[simp] theorem run_pure (value : α) (ts : List σ) :
    (pure value : Rule σ ε α).run ts = .ok (value, ts) := rfl

theorem run_bind (rule : Rule σ ε α) (next : α → Rule σ ε β) (ts : List σ) :
    (rule >>= next).run ts =
      match rule.run ts with
      | .ok (value, rest) => (next value).run rest
      | .error e => .error e := rfl

def fail (error : ε) : Rule σ ε α where
  run _ := .error error
  suffix h := nomatch h

/-- Fails with an error that is made from what lies ahead. -/
def failAt (error : List σ → ε) : Rule σ ε α where
  run ts := .error (error ts)
  suffix h := nomatch h

/-- A function of all that lies ahead, none of which is taken. -/
def ahead (f : List σ → α) : Rule σ ε α where
  run ts := .ok (f ts, ts)
  suffix h := by cases h; exact List.suffix_rfl

/-- Takes the next element if it satisfies a test. -/
def takeIf (test : σ → Bool) : Rule σ ε (Option σ) where
  run
    | t :: rest => .ok (if test t then (some t, rest) else (none, t :: rest))
    | [] => .ok (none, [])
  suffix {ts value rest} h := by
    cases ts with
    | nil => cases h; exact List.suffix_rfl
    | cons t tail =>
      cases ht : test t <;> simp only [ht, if_true] at h <;> cases h
      · exact List.suffix_rfl
      · exact List.suffix_cons ..

/-- The longest run of elements that satisfy a test. -/
def takeWhile (test : σ → Bool) : Rule σ ε (List σ) where
  run ts := .ok (ts.takeWhile test, ts.dropWhile test)
  suffix h := by cases h; exact List.dropWhile_suffix test

/-- Runs a rule; where it fails nothing is taken. -/
def attempt (rule : Rule σ ε α) : Rule σ ε (Option α) where
  run ts :=
    match rule.run ts with
    | .ok (value, rest) => .ok (some value, rest)
    | .error _ => .ok (none, ts)
  suffix {ts value rest} h := by
    split at h
    next hv => cases h; exact rule.suffix hv
    next => cases h; exact List.suffix_rfl

def repeatedFrom (more : σ → List σ → Bool) (rule : σ → Rule σ ε α) (ts : List σ) :
    Except ε (List α × List σ) :=
  match ts with
  | [] => .ok ([], [])
  | t :: tail =>
    if more t tail then
      match h : (rule t).run tail with
      | .error e => .error e
      | .ok (value, rest) =>
        have := ((rule t).suffix h).length_le
        (repeatedFrom more rule rest).map fun (values, rest) => (value :: values, rest)
    else .ok ([], t :: tail)
termination_by ts.length

private theorem repeatedFrom_suffix (more : σ → List σ → Bool) (rule : σ → Rule σ ε α)
    (ts : List σ) :
    ∀ values rest, repeatedFrom more rule ts = .ok (values, rest) → rest <:+ ts := by
  fun_induction repeatedFrom more rule ts with
  | case1 => intro values rest h; cases h; exact List.suffix_rfl
  | case2 => intro values rest h; cases h
  | case3 t tail ht value middle hv _ ih =>
    intro values rest h
    cases hg : repeatedFrom more rule middle with
    | error e => rw [hg] at h; cases h
    | ok found =>
      rw [hg] at h
      cases h
      exact (ih _ _ hg).trans (((rule t).suffix hv).trans (List.suffix_cons t tail))
  | case4 => intro values rest h; cases h; exact List.suffix_rfl

/-- As long as the next element and those after it satisfy a test, takes the one and
runs the rule for it. -/
def repeatedWhile (more : σ → List σ → Bool) (rule : σ → Rule σ ε α) : Rule σ ε (List α) where
  run := repeatedFrom more rule
  suffix h := repeatedFrom_suffix more rule _ _ _ h

/-- As long as the next element satisfies a test, takes it and runs the rule for it. -/
def repeated (first : σ → Bool) (rule : σ → Rule σ ε α) : Rule σ ε (List α) :=
  repeatedWhile (fun t _ => first t) rule

end Rule

end CellTiming
