import CellTiming.Proofs.PathIndex
import CellTiming.Proofs.Reached
import CellTiming.Proofs.Reread

/-! The conditions that a block stores with its paths. Where no specparam takes the place of
a name and no real number is among them, each is what its own text is read as, whether it
was written or made for an `ifnone`. -/
namespace CellTiming

def Token.isReal (t : Token) : Bool :=
  t.kind == .number && (Number.ofString? t.text).any Number.isReal

/-- The tokens before the parenthesis that closes the given number of open ones and one more. -/
def insideParens (depth : Nat) : List Token → List Token
  | [] => []
  | t :: rest =>
    match t.kind with
    | .symbol .leftParen => t :: insideParens (depth + 1) rest
    | .symbol .rightParen => if depth = 0 then [] else t :: insideParens (depth - 1) rest
    | _ => t :: insideParens depth rest

/-- The tokens of the conditions in parentheses behind each `if`. -/
def conditionTokens : List Token → List Token
  | [] => []
  | t :: rest =>
    if t.kind = .keyword .conditional then insideParens 0 rest.tail ++ conditionTokens rest
    else conditionTokens rest

namespace Grammar

open Operators

section Conditions

variable {table : Specparams} {t : Token} {ts used rest : List Token}

theorem insideParens_plain (opens : t.kind ≠ .symbol .leftParen)
    (closes : t.kind ≠ .symbol .rightParen) (depth : Nat) (rest : List Token) :
    insideParens depth (t :: rest) = t :: insideParens depth rest := by
  rw [insideParens]
  split
  next kind => exact absurd kind opens
  next kind => exact absurd kind closes
  next => rfl

theorem insideParens_of_reads {phrase : Phrase Condition} {value : Condition}
    (reads : Reads (conditions table) phrase used value) (depth : Nat) (rest : List Token) :
    insideParens depth (used ++ rest) = used ++ insideParens depth rest := by
  induction reads generalizing depth rest with
  | before sign _ ih =>
    obtain ⟨_, _, kind | kind⟩ := conditions_before sign <;>
      rw [List.cons_append, insideParens_plain (by simp [kind]) (by simp [kind]), ih,
        List.cons_append]
  | @group opening closing used value _ opens closes _ _ ih =>
    have opens : opening.kind = .symbol .leftParen := eq_of_beq opens
    have closes : closing.kind = .symbol .rightParen := eq_of_beq closes
    have ending : insideParens (depth + 1) (closing :: rest) = closing :: insideParens depth rest := by
      rw [insideParens, closes]
      rfl
    rw [List.cons_append, List.append_assoc, insideParens, opens]
    dsimp only
    rw [ih, List.singleton_append, ending]
    simp
  | @atom t value _ single meaning =>
    have opens : t.kind ≠ .symbol .leftParen := by simpa [Token.isSymbol] using single
    have closes : t.kind ≠ .symbol .rightParen := by
      intro kind
      simp [conditions, kind] at meaning
    rw [List.singleton_append, insideParens_plain opens closes, List.singleton_append]
  | operation _ _ ihHead ihTail =>
    rw [List.append_assoc, ihHead, ihTail, List.append_assoc]
  | stop => rfl
  | @join level own apply left t used right more value sign _ _ _ _ ihHead ihTail =>
    have plain : t.kind ≠ .symbol .leftParen ∧ t.kind ≠ .symbol .rightParen := by
      constructor <;> intro kind <;> simp [conditions, kind] at sign
    rw [List.cons_append, List.append_assoc, insideParens_plain plain.1 plain.2, ihHead, ihTail,
      List.cons_append, List.append_assoc]

theorem conditionTokens_append (first : List Token) :
    conditionTokens ts ⊆ conditionTokens (first ++ ts) := by
  induction first with
  | nil => exact List.Subset.refl _
  | cons t first ih =>
    rw [List.cons_append, conditionTokens]
    split
    · exact List.subset_append_of_subset_right _ ih
    · exact ih

theorem insideParens_subset (depth : Nat) (ts : List Token) : insideParens depth ts ⊆ ts := by
  fun_induction insideParens depth ts with
  | case1 => exact List.Subset.refl _
  | case2 _ t rest _ ih => exact List.cons_subset_cons t ih
  | case3 => exact List.nil_subset _
  | case4 _ t rest _ _ ih => exact List.cons_subset_cons t ih
  | case5 _ t rest _ _ ih => exact List.cons_subset_cons t ih

theorem conditionTokens_subset (ts : List Token) : conditionTokens ts ⊆ ts := by
  induction ts with
  | nil => exact List.Subset.refl _
  | cons t rest ih =>
    have tail := List.subset_cons_of_subset t ih
    rw [conditionTokens]
    split
    · refine List.append_subset.mpr ⟨?_, tail⟩
      exact List.Subset.trans (insideParens_subset 0 rest.tail)
        (List.Subset.trans (List.tail_suffix rest).subset (List.subset_cons_self t rest))
    · exact tail

theorem readable_of_unreal (spelled : t.Spelled) (unreal : t.isReal = false) : Readable t := by
  refine .of_real spelled fun kind n read real => ?_
  simp [Token.isReal, kind, read, real] at unreal

/-- The condition of an item is all that stands in the parentheses behind its `if`. -/
theorem itemAfter_enclosed {condition : Condition} {path : Path}
    (read : (itemAfter table t).run ts = .ok (.conditioned condition path, rest)) :
    t.kind = .keyword .conditional ∧
      Reads (conditions table) (.operation 0) (insideParens 0 ts.tail) condition := by
  obtain ⟨_, _, word⟩ := itemAfter_opens table t ts _ rest read
  have word : t.kind = .keyword .conditional := word
  simp only [itemAfter, word] at read
  obtain ⟨_, afterOpening, opened, inside⟩ := Rule.run_bind_ok.mp read
  obtain ⟨opening, rfl, _⟩ := TokenRule.expect_run.mp opened
  obtain ⟨value, afterCondition, conditioned, ending⟩ := Rule.run_bind_ok.mp inside
  obtain ⟨used, rfl, reads, _⟩ := expression_run.mp conditioned
  obtain ⟨_, afterClosing, closed, last⟩ := Rule.run_bind_ok.mp ending
  obtain ⟨closing, rfl, closes⟩ := TokenRule.expect_run.mp closed
  obtain ⟨found, afterPath, _, finish⟩ := Rule.run_bind_ok.mp last
  cases finish
  refine ⟨word, ?_⟩
  have ending : insideParens 0 (closing :: afterClosing) = [] := by
    rw [insideParens, closes]
    rfl
  rw [List.tail_cons, insideParens_of_reads reads, ending, List.append_nil]
  exact reads

theorem itemAfter_conditioned {condition : Condition} {path : Path}
    (read : (itemAfter table t).run ts = .ok (.conditioned condition path, rest)) :
    ∃ used, Reads (conditions table) (.operation 0) used condition ∧
      used ⊆ conditionTokens (t :: ts) := by
  obtain ⟨word, reads⟩ := itemAfter_enclosed read
  refine ⟨_, reads, ?_⟩
  rw [conditionTokens, if_pos word]
  exact List.subset_append_left _ _

end Conditions

section Storing

/-- Every path has a condition that the rules build. -/
def Conditioned (index : PathIndex) : Prop :=
  ∀ path ∈ index.paths, ∃ condition, path.condition = some condition ∧ Built 0 condition

variable {timing extended : ModuleTiming} {item : TimingItem}

theorem Conditioned.push {index : PathIndex} (conditioned : Conditioned index) (path : Path)
    {condition : Condition} (built : Built 0 condition) :
    Conditioned (index.push { path with condition := some condition }) := by
  intro other member
  rcases PathIndex.mem_paths_push.mp member with member | rfl
  · exact conditioned other member
  · exact ⟨condition, rfl, built⟩

theorem Conditioned.add (conditioned : Conditioned timing.conditioned)
    (added : timing.add item = .ok extended)
    (own : ∀ condition path, item = .conditioned condition path → Built 0 condition) :
    Conditioned extended.conditioned := by
  cases adds_of_ok added with
  | string | value | check | path => exact conditioned
  | @conditioned condition path => exact conditioned.push path (own condition path rfl)
  | @ifnone _ path condition made =>
    refine conditioned.push path (built_noneOf made fun earlier member => ?_)
    obtain ⟨other, among, has⟩ := List.mem_filterMap.mp member
    obtain ⟨_, has', built⟩ := conditioned other (PathIndex.mem_paths_of_get? among)
    cases has.symm.trans has'
    exact built

theorem specparams_prefix (added : timing.add item = .ok extended) :
    timing.specparams <+: extended.specparams := by
  cases adds_of_ok added with
  | value => exact List.prefix_append _ _
  | string | check | path | conditioned | ifnone => exact List.prefix_rfl

theorem conditioned_of_reached {ts left : List Token} {found : List TimingItem}
    (spelled : ∀ t ∈ ts, Token.Spelled t) (whole : ∀ t ∈ conditionTokens ts, t.isReal = false)
    (reached : Reached ts found timing left) (undeclared : timing.specparams = []) :
    Conditioned timing.conditioned := by
  induction reached with
  | start => simp [Conditioned, PathIndex.paths]
  | @item found timing t rest item after extended before _ read added ih =>
    -- the table only grows, so it was empty where the condition was read
    have empty : timing.specparams = [] :=
      List.prefix_nil.mp (undeclared ▸ specparams_prefix added)
    refine (ih empty).add added fun condition path same => ?_
    subst same
    obtain ⟨used, reads, inside⟩ := itemAfter_conditioned read
    rw [empty] at reads
    refine built_of_reads reads fun u member => ?_
    obtain ⟨front, same⟩ := before.suffix
    have among : u ∈ conditionTokens ts := same ▸ conditionTokens_append front (inside member)
    exact readable_of_unreal (spelled u (conditionTokens_subset ts among)) (whole u among)
  | group _ _ _ ih => exact ih undeclared

end Storing

end Grammar

private def clocked : String := "
  specify
    if (!(A[1] == 8'hFF & ~B) && C === D) (CLK => Q) = 1.5;
    ifnone (CLK => Q) = 2;
    ifnone (CLK => Q) = 3;
  endspecify"

theorem readCondition_of_stored (text : String) (timing : ModuleTiming) (ts : List Token)
    (ok : ModuleTiming.ofBlock text = .ok timing) (tokens : Token.ofString text = .ok ts)
    (undeclared : timing.specparams = []) (whole : ∀ t ∈ conditionTokens ts, t.isReal = false) :
    ∀ path ∈ timing.conditioned.paths, ∃ condition, path.condition = some condition ∧
      Grammar.readCondition condition.text = .ok condition := by
  rw [ModuleTiming.ofBlock, tokens] at ok
  obtain ⟨found, t, left, reached, _⟩ := Grammar.readAs_of_ok ok
  have conditioned := Grammar.conditioned_of_reached (Token.tokensFrom_spelled tokens) whole reached
    undeclared
  intro path member
  obtain ⟨condition, has, built⟩ := conditioned path member
  exact ⟨condition, has, built.read⟩

theorem readCondition_of_stored_clocked :
    ∃ timing, ModuleTiming.ofBlock clocked = .ok timing ∧
      timing.conditioned.paths.map (·.condition.map (·.text)) =
        [some "!(A[1]==8'hff&~B)&&C===D", some "!(!(A[1]==8'hff&~B)&&C===D)",
          some "!(!(A[1]==8'hff&~B)&&C===D)&!(!(!(A[1]==8'hff&~B)&&C===D))"] ∧
      ∀ path ∈ timing.conditioned.paths, ∃ condition, path.condition = some condition ∧
        Grammar.readCondition condition.text = .ok condition := by
  have read : (ModuleTiming.ofBlock clocked).toOption.map (fun timing =>
      (timing.specparams.map (·.1), timing.conditioned.paths.map (·.condition.map (·.text)))) =
      some ([], [some "!(A[1]==8'hff&~B)&&C===D", some "!(!(A[1]==8'hff&~B)&&C===D)",
          some "!(!(A[1]==8'hff&~B)&&C===D)&!(!(!(A[1]==8'hff&~B)&&C===D))"]) := by
    decide +kernel
  have cut : (Token.ofString clocked).toOption.map
      (fun ts => (conditionTokens ts).all fun t => !t.isReal) = some true := by
    decide +kernel
  obtain ⟨timing, ok, facts⟩ := exists_ok_of_toOption read
  obtain ⟨ts, tokens, unreal⟩ := exists_ok_of_toOption cut
  obtain ⟨names, conditions⟩ := Prod.mk.inj facts
  have whole : ∀ t ∈ conditionTokens ts, t.isReal = false := by simpa using unreal
  exact ⟨timing, ok, conditions, readCondition_of_stored clocked timing ts ok tokens
    (List.map_eq_nil_iff.mp names) whole⟩

end CellTiming
