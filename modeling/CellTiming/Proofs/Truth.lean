import CellTiming.Condition.Basic

/-! The truth of a condition under an assignment to its names and numbers, and what is
left of it once its parentheses are dropped: a list of conjuncts, where a negation
reaches the first conjunct of its operand only, and an equality joins the last conjunct
on its left to the first on its right. -/
namespace CellTiming.Condition

variable {values : String → Bool}

def holds (values : String → Bool) : Condition → Bool
  | literal text => values text
  | not _ operand => !operand.holds values
  | and _ left right => left.holds values && right.holds values
  | equals _ left right => left.holds values == right.holds values
  | group inner => inner.holds values

/-- The lists in a row, the last of the one and the first of the other joined. -/
def meet (join : Condition → Condition → Condition) :
    List Condition → List Condition → List Condition
  | [], right => right
  | [last], first :: right => join last first :: right
  | condition :: left, right => condition :: meet join left right

def conjuncts : Condition → List Condition
  | literal text => [literal text]
  | not op operand => operand.conjuncts.modifyHead (not op)
  | and _ left right => left.conjuncts ++ right.conjuncts
  | equals op left right => meet (equals op) left.conjuncts right.conjuncts
  | group inner => inner.conjuncts

/-- The truth of a condition without its parentheses. -/
def holdsBare (values : String → Bool) (condition : Condition) : Bool :=
  condition.conjuncts.all (holds values)

/-- There is no conjunction in the condition. -/
def isSingle : Condition → Bool
  | literal _ => true
  | not _ operand => operand.isSingle
  | and .. => false
  | equals _ left right => left.isSingle && right.isSingle
  | group inner => inner.isSingle

/-- No negation and no equality is over a conjunction. -/
def isConjunctive : Condition → Bool
  | literal _ => true
  | not _ operand => operand.isSingle
  | and _ left right => left.isConjunctive && right.isConjunctive
  | equals _ left right => left.isSingle && right.isSingle
  | group inner => inner.isConjunctive

/-- Without a conjunction one conjunct is left, and it has the same truth. -/
theorem conjuncts_of_single (condition : Condition) (single : condition.isSingle = true) :
    ∃ conjunct, condition.conjuncts = [conjunct] ∧
      ∀ values, conjunct.holds values = condition.holds values := by
  induction condition with
  | literal text => exact ⟨literal text, rfl, fun _ => rfl⟩
  | not op operand ih =>
    obtain ⟨conjunct, same, truth⟩ := ih single
    exact ⟨not op conjunct, by simp [conjuncts, same], fun values => by simp [holds, truth]⟩
  | and => cases single
  | equals op left right ihLeft ihRight =>
    have ⟨single, single'⟩ : left.isSingle = true ∧ right.isSingle = true := by
      simpa [isSingle] using single
    obtain ⟨first, same, truth⟩ := ihLeft single
    obtain ⟨second, same', truth'⟩ := ihRight single'
    exact ⟨equals op first second, by simp [conjuncts, meet, same, same'],
      fun values => by simp [holds, truth, truth']⟩
  | group inner ih => exact ih single

/-- Parentheses around conjunctions alone make no difference. -/
theorem holdsBare_of_conjunctive (condition : Condition)
    (conjunctive : condition.isConjunctive = true) :
    condition.holdsBare values = condition.holds values := by
  have bare {single : Condition} (found : single.isSingle = true) :
      single.holdsBare values = single.holds values := by
    obtain ⟨conjunct, same, truth⟩ := conjuncts_of_single single found
    simp [holdsBare, same, truth]
  induction condition with
  | literal => simp [holdsBare, conjuncts]
  | not op operand => exact bare conjunctive
  | and op left right ihLeft ihRight =>
    have ⟨conjunctive, conjunctive'⟩ :
        left.isConjunctive = true ∧ right.isConjunctive = true := by
      simpa [isConjunctive] using conjunctive
    rw [holds, ← ihLeft conjunctive, ← ihRight conjunctive']
    exact List.all_append
  | equals op left right => exact bare conjunctive
  | group inner ih => exact ih conjunctive

end CellTiming.Condition
