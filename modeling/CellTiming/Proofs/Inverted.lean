import CellTiming.Liberty.Mapping
import CellTiming.Proofs.Otherwise
import CellTiming.Proofs.PlainTexts
import CellTiming.Proofs.PrintedValues

/-! The `when` of an inverted path, which is put together as a text: the negated input, an
ampersand and the condition. Read back, the negation has become the first conjunct of the
outermost row of the condition, so the whole is the conjunction of the two. -/
namespace CellTiming

namespace Condition

/-- A condition in front of the first conjunct of another. -/
def grafted (front : Condition) : Condition → Condition
  | and op left right => and op (grafted front left) right
  | condition => and .single front condition

theorem grafted_alone {condition : Condition} (front : Condition)
    (alone : ∀ op left right, condition ≠ and op left right) :
    grafted front condition = and .single front condition := by
  cases condition with
  | and op left right => exact absurd rfl (alone op left right)
  | literal | not | equals | group => rfl

theorem text_grafted (front condition : Condition) :
    (grafted front condition).text = front.text ++ "&" ++ condition.text := by
  fun_induction grafted front condition with
  | case1 op left right ih => simp only [text, ih, String.append_assoc]
  | case2 => rfl

theorem holdsUnder_grafted (i : Interpretation) (front condition : Condition) :
    (grafted front condition).holdsUnder i = (front.holdsUnder i && condition.holdsUnder i) := by
  fun_induction grafted front condition with
  | case1 op left right ih => rw [holdsUnder, ih, holdsUnder, Bool.and_assoc]
  | case2 => rfl

end Condition

/-- Neither the name of a specparam nor a real number. -/
def Token.isOwn (table : Specparams) (t : Token) : Bool :=
  !t.isReal && (t.kind != .name || (table.lookup t.text).isNone)

theorem Token.isOwn_iff {table : Specparams} {t : Token} :
    t.isOwn table = true ↔
      t.isReal = false ∧ (t.kind = .name → table.lookup t.text = none) := by
  simp [Token.isOwn, Decidable.imp_iff_not_or]

namespace Grammar

open Operators Condition

section Grafting

variable {front condition : Condition}

theorem Built.ne_and {level : Nat} (built : Built level condition) (high : 0 < level) :
    ∀ op left right, condition ≠ .and op left right := by
  induction built with
  | literal | not | group | equals => exact nofun
  | and => exact absurd high (Nat.lt_irrefl 0)
  | lower _ ih => exact ih (Nat.succ_pos _)

theorem Built.grafted (operand : Built 2 front) (built : Built 0 condition) :
    Built 0 (grafted front condition) := by
  generalize ground : 0 = level at built
  induction built with
  | literal | not | group | equals => cases ground
  | and row last ih => exact .and (ih rfl) last
  | lower built =>
    subst ground
    rw [grafted_alone front (built.ne_and Nat.one_pos)]
    exact .and (operand.le (Nat.zero_le 2)) built

end Grafting

section Own

variable {table : Specparams} {used : List Token} {condition : Condition}

/-- Where none of the names is that of a specparam, the specparams are of no account. -/
theorem reads_own (reads : Reads (conditions table) (.operation 0) used condition)
    (own : ∀ t ∈ used, t.isOwn table = true) :
    Reads (conditions []) (.operation 0) used condition := by
  have same : Reads (conditions []) (.operation 0) (used.map id) condition := by
    refine Reads.map (g := conditions table) (h := conditions []) (fun _ => rfl) (fun _ => rfl)
      (fun _ _ => rfl) rfl reads fun t member value meaning => ?_
    simp only [conditions] at meaning ⊢
    split at meaning
    next => exact meaning
    next kind =>
      rw [(Token.isOwn_iff.mp (own t member)).2 kind] at meaning
      exact meaning
    next => cases meaning
  rwa [List.map_id] at same

theorem built_own (reads : Reads (conditions table) (.operation 0) used condition)
    (spelled : ∀ t ∈ used, t.Spelled) (own : ∀ t ∈ used, t.isOwn table = true) :
    Built 0 condition :=
  built_of_reads (reads_own reads own) fun t member =>
    readable_of_unreal (spelled t member) (Token.isOwn_iff.mp (own t member)).1

end Own

/-- The path has no condition, or one that was written without a specparam and without a real
number, or one that was made of such conditions for an `ifnone`. -/
inductive Verbatim (ts : List Token) : Path → Prop
  | plain {path} (none_ : path.condition = none) : Verbatim ts path
  | written {found timing t rest condition path after}
      (reached : Reached ts found timing (t :: rest))
      (read : (itemAfter timing.specparams t).run rest = .ok (.conditioned condition path, after))
      (own : ∀ u ∈ insideParens 0 rest.tail, u.isOwn timing.specparams = true) :
      Verbatim ts { path with condition := some condition }
  | made {found timing t rest line path after condition}
      (reached : Reached ts found timing (t :: rest))
      (read : (itemAfter timing.specparams t).run rest = .ok (.ifnone line path, after))
      (earlier : ∀ other ∈ (timing.conditioned.get? path.key).getD [], Verbatim ts other)
      (made : timing.ifnoneCondition path.key = some condition) :
      Verbatim ts { path with condition := some condition }

section Producing

variable {ts left : List Token} {found : List TimingItem} {timing : ModuleTiming} {path : Path}

theorem Verbatim.built (verbatim : Verbatim ts path) (spelled : ∀ t ∈ ts, t.Spelled) :
    ∀ condition ∈ path.condition, Built 0 condition := by
  induction verbatim with
  | plain none_ => simp [none_]
  | @written _ _ t rest condition _ _ reached read own =>
    refine forall_mem_some ?_
    obtain ⟨_, reads⟩ := itemAfter_enclosed read
    have within : insideParens 0 rest.tail ⊆ ts := fun u member =>
      reached.suffix.subset (List.mem_cons_of_mem t
        (List.mem_of_mem_tail (insideParens_subset 0 rest.tail member)))
    exact built_own reads (fun u member => spelled u (within member)) own
  | made _ _ _ made ih =>
    refine forall_mem_some (built_noneOf made fun condition member => ?_)
    obtain ⟨other, among, has⟩ := List.mem_filterMap.mp member
    exact ih other among condition has

theorem isOwn_of_prefix {table wider : Specparams} {t : Token} (known : table <+: wider)
    (own : t.isOwn wider = true) : t.isOwn table = true := by
  obtain ⟨more, rfl⟩ := known
  obtain ⟨unreal, undeclared⟩ := Token.isOwn_iff.mp own
  refine Token.isOwn_iff.mpr ⟨unreal, fun named => ?_⟩
  have none_ := undeclared named
  rw [List.lookup_append, Option.or_eq_none_iff] at none_
  exact none_.1

/-- Where no condition has a specparam or a real number in it, this is every path. -/
theorem verbatim_of_reached {table : Specparams} (reached : Reached ts found timing left)
    (known : timing.specparams <+: table)
    (own : ∀ t ∈ conditionTokens ts, t.isOwn table = true) :
    (∀ path ∈ timing.paths, Verbatim ts path) ∧
      ∀ path ∈ timing.conditioned.paths, Verbatim ts path := by
  induction reached with
  | start => simp [PathIndex.paths]
  | group _ _ _ ih => exact ih known
  | @item found timing t rest item after extended before _ read added ih =>
    have extends_ := specparams_prefix added
    have declared := extends_.trans known
    obtain ⟨paths, conditioned⟩ := ih declared
    have pushed {path : Path} (new : Verbatim ts path) :
        ∀ other ∈ (timing.conditioned.push path).paths, Verbatim ts other := by
      intro other member
      rcases PathIndex.mem_paths_push.mp member with member | rfl
      · exact conditioned other member
      · exact new
    cases adds_of_ok added with
    | string | value | check => exact ⟨paths, conditioned⟩
    | path =>
      refine ⟨List.forall_mem_append.mpr ⟨paths, ?_⟩, conditioned⟩
      exact List.forall_mem_singleton.mpr (.plain (itemAfter_path read))
    | conditioned =>
      refine ⟨paths, pushed (.written before read fun u member => ?_)⟩
      obtain ⟨word, _⟩ := itemAfter_enclosed read
      obtain ⟨front, same⟩ := before.suffix
      have inside : u ∈ conditionTokens (t :: rest) := by
        rw [conditionTokens, if_pos word]
        exact List.mem_append_left _ member
      exact isOwn_of_prefix declared (own u (same ▸ conditionTokens_append front inside))
    | ifnone made =>
      refine ⟨paths, pushed (.made before read (fun other member => ?_) made)⟩
      exact conditioned other (PathIndex.mem_paths_of_get? member)

end Producing

end Grammar

private def latched : String := "
  specify
    specparam D = 3;
    if (EN == 1'b1 && !(S & R)) (posedge G[2] - => (Q : D)) = D;
    ifnone (G[2] - => Q) = 2;
    (R - *> Q) = 3;
  endspecify"

/-- The `when` of an inverted path is read as a condition that holds where its input does not
and its own condition does. -/
theorem readCondition_of_inverted (text : String) (timing : ModuleTiming) (ts : List Token)
    (path : Path) (ok : ModuleTiming.ofBlock text = .ok timing)
    (tokens : Token.ofString text = .ok ts)
    (member : path ∈ timing.paths ++ timing.conditioned.paths) (inverted : path.inverted = true)
    (verbatim : Grammar.Verbatim ts path) :
    ∃ written value, Liberty.pathWhen path = some written ∧
      Grammar.readCondition written = .ok value ∧
      (∀ values, value.holds values =
        (!values path.input && path.condition.all (·.holds values))) ∧
      ∀ i, value.holdsUnder i =
        (!i.literal path.input && path.condition.all (·.holdsUnder i)) := by
  have plain := Grammar.plain_of_block ok
  have input : SignalName path.input := by
    rcases List.mem_append.mp member with member | member
    · exact (plain.paths path member).input
    · exact (plain.conditioned path member).input
  have legible : Grammar.Legible path.input :=
    ⟨⟨.name, path.input, 0, 0⟩, rfl, ⟨.inl rfl, lexes_of_signalName input⟩, by
      simp [Grammar.conditions]⟩
  have front : Grammar.Built 2 (.not .bang (.literal path.input)) := .not (.literal legible)
  have built := verbatim.built (Token.tokensFrom_spelled tokens)
  cases own : path.condition with
  | none =>
    refine ⟨_, .not .bang (.literal path.input), by rw [Liberty.pathWhen, inverted, own]; rfl,
      (front.le (Nat.zero_le 2)).read, fun values => ?_, fun i => ?_⟩
    · simp [Condition.holds]
    · simp [Condition.holdsUnder]
  | some condition =>
    have whole := front.grafted (built condition own)
    refine ⟨_, _, ?_, whole.read, fun values => ?_, fun i => ?_⟩
    · rw [Liberty.pathWhen, inverted, own, Condition.text_grafted]
      rfl
    · rw [Condition.holds_eq_holdsUnder, Condition.holdsUnder_grafted,
        ← Condition.holds_eq_holdsUnder, ← Condition.holds_eq_holdsUnder]
      rfl
    · rw [Condition.holdsUnder_grafted]
      rfl

theorem readCondition_of_inverted_latched :
    ∃ timing, ModuleTiming.ofBlock latched = .ok timing ∧
      (timing.paths ++ timing.conditioned.paths).map (fun path =>
          (path.inverted, Liberty.pathWhen path)) =
        [(true, some "!R"), (true, some "!G[2]&EN==1'b1&&!(S&R)"),
          (true, some "!G[2]&!(EN==1'b1&&!(S&R))")] ∧
      ∀ path ∈ timing.paths ++ timing.conditioned.paths, ∃ written value,
        Liberty.pathWhen path = some written ∧ Grammar.readCondition written = .ok value ∧
        ∀ values, value.holds values =
          (!values path.input && path.condition.all (·.holds values)) := by
  have cut : (Token.ofString latched).toOption.map (fun ts =>
      (ModuleTiming.ofBlock latched).toOption.map fun timing =>
        ((timing.paths ++ timing.conditioned.paths).map (fun path =>
            (path.inverted, Liberty.pathWhen path)),
          (conditionTokens ts).all (·.isOwn timing.specparams))) =
      some (some ([(true, some "!R"), (true, some "!G[2]&EN==1'b1&&!(S&R)"),
        (true, some "!G[2]&!(EN==1'b1&&!(S&R))")], true)) := by
    decide +kernel
  obtain ⟨ts, tokens, read⟩ := exists_ok_of_toOption cut
  obtain ⟨timing, ok, facts⟩ := exists_ok_of_toOption read
  obtain ⟨whens, own⟩ := Prod.mk.inj facts
  refine ⟨timing, ok, whens, fun path member => ?_⟩
  have reached := ok
  rw [ModuleTiming.ofBlock, tokens] at reached
  obtain ⟨found, _, left, reached, _⟩ := Grammar.readAs_of_ok reached
  obtain ⟨paths, conditioned⟩ :=
    Grammar.verbatim_of_reached reached List.prefix_rfl (List.all_eq_true.mp own)
  have inverted : path.inverted = true := by
    have every : ((timing.paths ++ timing.conditioned.paths).map fun path =>
        (path.inverted, Liberty.pathWhen path)).all (·.1) = true := by
      rw [whens]
      rfl
    exact List.all_eq_true.mp every _ (List.mem_map_of_mem member)
  obtain ⟨written, value, made, again, truth, _⟩ := readCondition_of_inverted latched timing ts path
    ok tokens member inverted (List.forall_mem_append.mpr ⟨paths, conditioned⟩ path member)
  exact ⟨written, value, made, again, truth⟩

end CellTiming
