import CellTiming.Grammar.Rule
import CellTiming.Proofs.Rule

/-! What the rules for single tokens accept, each as an equivalence. -/
namespace CellTiming.TokenRule

variable {ts rest : List Token}

/-- No token of the given kind stands at the front. -/
def NotAhead (kind : Token.Kind) (ts : List Token) : Prop :=
  ∀ t tail, ts = t :: tail → t.kind ≠ kind

theorem notAhead_cons {kind : Token.Kind} {t : Token} {tail : List Token} (other : t.kind ≠ kind) :
    NotAhead kind (t :: tail) := by
  intro t' tail' same
  cases same
  exact other

theorem take?_run {kind : Token.Kind} {found : Option Token} :
    (take? kind).run ts = .ok (found, rest) ↔
      (∃ t, found = some t ∧ ts = t :: rest ∧ t.kind = kind) ∨
        (found = none ∧ ts = rest ∧ NotAhead kind ts) := by
  simp only [take?, Rule.takeIf_run, beq_iff_eq, beq_eq_false_iff_ne, NotAhead]

theorem unexpected_run {α : Type} {value : α} : unexpected.run ts ≠ .ok (value, rest) :=
  fun ok => nomatch ok

theorem take_run {kind : Token.Kind} {t : Token} :
    (take kind).run ts = .ok (t, rest) ↔ ts = t :: rest ∧ t.kind = kind := by
  rw [take, Rule.run_bind_ok]
  constructor
  · rintro ⟨found, middle, head, tail⟩
    rcases take?_run.mp head with ⟨t', rfl, same, matched⟩ | ⟨rfl, _, _⟩
    · cases tail
      exact ⟨same, matched⟩
    · exact absurd tail unexpected_run
  · rintro ⟨same, matched⟩
    exact ⟨some t, rest, take?_run.mpr (.inl ⟨t, rfl, same, matched⟩), rfl⟩

theorem expect_run {symbol : Symbol} {value : Unit} :
    (expect symbol).run ts = .ok (value, rest) ↔
      ∃ t, ts = t :: rest ∧ t.kind = .symbol symbol := by
  rw [expect, Rule.run_bind_ok]
  constructor
  · rintro ⟨t, middle, head, tail⟩
    cases tail
    exact ⟨t, take_run.mp head⟩
  · rintro ⟨t, found⟩
    exact ⟨t, rest, take_run.mpr found, rfl⟩

private theorem isSome_run {kind : Token.Kind} {eaten : Bool} :
    (do return (← take? kind).isSome : TokenRule Bool).run ts = .ok (eaten, rest) ↔
      (eaten = true ∧ ∃ t, ts = t :: rest ∧ t.kind = kind) ∨
        (eaten = false ∧ ts = rest ∧ NotAhead kind ts) := by
  rw [Rule.run_bind_ok]
  constructor
  · rintro ⟨found, middle, head, tail⟩
    rcases take?_run.mp head with ⟨t, rfl, same⟩ | ⟨rfl, same⟩
    · cases tail
      exact .inl ⟨rfl, t, same⟩
    · cases tail
      exact .inr ⟨rfl, same⟩
  · rintro (⟨rfl, t, same⟩ | ⟨rfl, same⟩)
    · exact ⟨some t, rest, take?_run.mpr (.inl ⟨t, rfl, same⟩), rfl⟩
    · exact ⟨none, rest, take?_run.mpr (.inr ⟨rfl, same⟩), rfl⟩

theorem eat_run {symbol : Symbol} {eaten : Bool} :
    (eat symbol).run ts = .ok (eaten, rest) ↔
      (eaten = true ∧ ∃ t, ts = t :: rest ∧ t.kind = .symbol symbol) ∨
        (eaten = false ∧ ts = rest ∧ NotAhead (.symbol symbol) ts) :=
  isSome_run

theorem eatKeyword_run {keyword : Keyword} {eaten : Bool} :
    (eatKeyword keyword).run ts = .ok (eaten, rest) ↔
      (eaten = true ∧ ∃ t, ts = t :: rest ∧ t.kind = .keyword keyword) ∨
        (eaten = false ∧ ts = rest ∧ NotAhead (.keyword keyword) ts) :=
  isSome_run

theorem name_run {text : String} :
    name.run ts = .ok (text, rest) ↔ ∃ t, ts = t :: rest ∧ t.kind = .name ∧ text = t.text := by
  rw [name, Rule.run_bind_ok]
  constructor
  · rintro ⟨t, middle, head, tail⟩
    cases tail
    obtain ⟨same, matched⟩ := take_run.mp head
    exact ⟨t, same, matched, rfl⟩
  · rintro ⟨t, same, matched, rfl⟩
    exact ⟨t, rest, take_run.mpr ⟨same, matched⟩, rfl⟩

theorem number_run {value : Number} :
    number.run ts = .ok (value, rest) ↔
      ∃ t, ts = t :: rest ∧ t.kind = .number ∧ numberOf t = .ok value := by
  rw [number, Rule.run_bind_ok]
  constructor
  · rintro ⟨t, middle, head, tail⟩
    obtain ⟨same, matched⟩ := take_run.mp head
    cases meaning : numberOf t with
    | error e => rw [meaning] at tail; cases tail
    | ok n =>
      rw [meaning] at tail
      cases tail
      exact ⟨t, same, matched, meaning⟩
  · rintro ⟨t, same, matched, meaning⟩
    refine ⟨t, rest, take_run.mpr ⟨same, matched⟩, ?_⟩
    rw [meaning]
    rfl

section Sequence

variable {β : Type} {t : Token}

theorem expect_then {symbol : Symbol} {next : Unit → TokenRule β}
    (kind : t.kind = .symbol symbol) :
    (expect symbol >>= next).run (t :: rest) = (next ()).run rest :=
  Rule.run_then (expect_run.mpr ⟨t, rfl, kind⟩)

theorem eat_then {symbol : Symbol} {next : Bool → TokenRule β} (kind : t.kind = .symbol symbol) :
    (eat symbol >>= next).run (t :: rest) = (next true).run rest :=
  Rule.run_then (eat_run.mpr (.inl ⟨rfl, t, rfl, kind⟩))

theorem eat_skip {symbol : Symbol} {next : Bool → TokenRule β}
    (other : NotAhead (.symbol symbol) ts) :
    (eat symbol >>= next).run ts = (next false).run ts :=
  Rule.run_then (eat_run.mpr (.inr ⟨rfl, rfl, other⟩))

theorem eatKeyword_skip {keyword : Keyword} {next : Bool → TokenRule β}
    (other : NotAhead (.keyword keyword) ts) :
    (eatKeyword keyword >>= next).run ts = (next false).run ts :=
  Rule.run_then (eatKeyword_run.mpr (.inr ⟨rfl, rfl, other⟩))

theorem name_then {next : String → TokenRule β} (kind : t.kind = .name) :
    (name >>= next).run (t :: rest) = (next t.text).run rest :=
  Rule.run_then (name_run.mpr ⟨t, rfl, kind, rfl⟩)

end Sequence

theorem following_takes {α : Type} {separator : Symbol} {rule : TokenRule α}
    {P : List Token → α → Prop} (takes : rule.Takes P) :
    (following separator rule).Takes
      (Rule.Row fun t used value => t.kind = .symbol separator ∧ P used value) := by
  refine Rule.takes_repeated fun t sign ts value rest ok => ?_
  obtain ⟨used, same, holds⟩ := takes ts value rest ok
  exact ⟨used, same, by simpa [Token.isSymbol] using sign, holds⟩

theorem following_run_stop {α : Type} {separator : Symbol} (rule : TokenRule α)
    (stops : NotAhead (.symbol separator) ts) :
    (following separator rule).run ts = .ok ([], ts) := by
  refine Rule.repeated_run_stop _ fun t tail same => ?_
  simpa [Token.isSymbol] using stops t tail same

/-- A row of values is read up to where it ends, if each value is read before what may follow it. -/
theorem following_row {α : Type} {separator : Symbol} {rule : TokenRule α}
    {P : List Token → α → Prop} {Ends : List Token → Prop} {used rest : List Token} {values : List α}
    (each : ∀ {used value rest}, P used value → Ends rest → rule.run (used ++ rest) = .ok (value, rest))
    (separated : ∀ {t}, t.kind = .symbol separator → ∀ rest, Ends (t :: rest))
    (row : Rule.Row (fun t used value => t.kind = .symbol separator ∧ P used value) used values)
    (ends : Ends rest) (stops : NotAhead (.symbol separator) rest) :
    (following separator rule).run (used ++ rest) = .ok (values, rest) := by
  induction row with
  | nil => exact following_run_stop rule stops
  | @cons t piece value more values head tail ih =>
    have behind : Ends (more ++ rest) := by
      cases tail with
      | nil => exact ends
      | cons head _ => exact separated head.1 _
    have goes : t.isSymbol separator = true := by simp [Token.isSymbol, head.1]
    change Rule.repeatedFrom _ _ (more ++ rest) = _ at ih
    change Rule.repeatedFrom _ _ (t :: (piece ++ more) ++ rest) = _
    rw [List.cons_append, List.append_assoc, Rule.repeatedFrom_more goes, each head.2 behind]
    exact congrArg (Except.map _) ih

end CellTiming.TokenRule
