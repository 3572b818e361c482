import CellTiming.Proofs.Laid
import CellTiming.Proofs.Regroup
import CellTiming.Proofs.TokenRule

/-! The terms of events against the conditions their tokens make. A term is a condition
too, and the text it is rendered as is the condition without its parentheses. -/
namespace CellTiming.Grammar

open Operators Condition

/-- The text a token of a term leaves. -/
def shown (t : Token) : String :=
  match t.kind with
  | .symbol .leftParen | .symbol .rightParen => ""
  | .number => ((Number.ofString? t.text).map Number.text).getD ""
  | _ => t.text

def rendering : List Token → String
  | [] => ""
  | t :: more => shown t ++ rendering more

theorem rendering_append (first second : List Token) :
    rendering (first ++ second) = rendering first ++ rendering second := by
  induction first with
  | nil => simp [rendering]
  | cons t first ih => simp only [List.cons_append, rendering, ih, String.append_assoc]

section Terms

variable {t : Token}

theorem eventTerms_before {apply : String → String} (sign : eventTerms.before t = some apply) :
    apply = (t.text ++ ·) ∧ shown t = t.text ∧
      ∃ op, ∀ table, (conditions table).before t = some (.not op) := by
  simp only [eventTerms] at sign
  split at sign
  next kind =>
    cases sign
    exact ⟨rfl, by simp [shown, kind], .bang, fun _ => by simp [conditions, kind]⟩
  next kind =>
    cases sign
    exact ⟨rfl, by simp [shown, kind], .tilde, fun _ => by simp [conditions, kind]⟩
  next => cases sign

theorem eventTerms_before_none (sign : eventTerms.before t = none) (table : Specparams) :
    (conditions table).before t = none := by
  simp only [conditions]
  split
  next kind => simp [eventTerms, kind] at sign
  next kind => simp [eventTerms, kind] at sign
  next => rfl

theorem eventTerms_between {own : Nat} {apply : String → String → String}
    (sign : eventTerms.between t = some (own, apply)) :
    own = 0 ∧ apply = (fun left right => left ++ t.text ++ right) ∧ shown t = t.text ∧
      ((∃ op, ∀ table, (conditions table).between t = some (0, .and op)) ∨
        ∃ op, ∀ table, (conditions table).between t = some (1, .equals op)) := by
  simp only [eventTerms] at sign
  split at sign
  next kind =>
    cases sign
    exact ⟨rfl, rfl, by simp [shown, kind], .inl ⟨.single, fun _ => by simp [conditions, kind]⟩⟩
  next kind =>
    cases sign
    exact ⟨rfl, rfl, by simp [shown, kind], .inl ⟨.double, fun _ => by simp [conditions, kind]⟩⟩
  next kind =>
    cases sign
    exact ⟨rfl, rfl, by simp [shown, kind], .inr ⟨.logical, fun _ => by simp [conditions, kind]⟩⟩
  next kind =>
    cases sign
    exact ⟨rfl, rfl, by simp [shown, kind], .inr ⟨.cases, fun _ => by simp [conditions, kind]⟩⟩
  next => cases sign

theorem eventTerms_atom {text : String} (meaning : eventTerms.atom t = .ok text) :
    text = shown t ∧ ∀ table, ∃ value, (conditions table).atom t = .ok value := by
  simp only [eventTerms] at meaning
  split at meaning
  next kind =>
    rw [TokenRule.numberOf] at meaning
    cases found : Number.ofString? t.text with
    | none =>
      rw [found] at meaning
      cases meaning
    | some n =>
      rw [found] at meaning
      cases meaning
      refine ⟨by simp [shown, kind, found], fun table => ⟨.literal n.text, ?_⟩⟩
      simp [conditions, kind, TokenRule.numberOf, found, Except.map]
  next kind =>
    cases meaning
    exact ⟨by simp [shown, kind], fun table => ⟨_, by simp [conditions, kind]; rfl⟩⟩
  next => cases meaning

/-- A term is rendered token by token. -/
theorem rendering_of_reads {phrase : Phrase String} {used : List Token} {text : String}
    (reads : Reads eventTerms phrase used text) :
    match phrase with
    | .extension _ left => text = left ++ rendering used
    | _ => text = rendering used := by
  induction reads with
  | before sign _ ih =>
    obtain ⟨rfl, same, _⟩ := eventTerms_before sign
    simp only [rendering, same]
    exact congrArg _ ih
  | @group opening closing used value _ opens closes _ _ ih =>
    have left : shown opening = "" := by
      simp [shown, show opening.kind = _ from eq_of_beq opens]
    have right : shown closing = "" := by
      simp [shown, show closing.kind = _ from eq_of_beq closes]
    have inner : eventTerms.group value = rendering used := ih
    simpa [rendering, rendering_append, left, right] using inner
  | atom _ _ meaning => simpa [rendering] using (eventTerms_atom meaning).1
  | operation _ _ ihHead ihTail =>
    simp only at ihHead ihTail ⊢
    rw [ihTail, ihHead, rendering_append]
  | stop => simp [rendering]
  | join sign _ _ _ _ ihHead ihTail =>
    obtain ⟨_, rfl, same, _⟩ := eventTerms_between sign
    simp only at ihHead ihTail ⊢
    rw [ihTail, ihHead]
    simp only [rendering, rendering_append, same, String.append_assoc]

/-- The operators of a term stand on one level, so its parts are operands. -/
theorem eventTerms_extension {left text : String} {used : List Token} {level : Nat}
    (reads : Reads eventTerms (.extension (level + 1) left) used text) : used = [] := by
  cases reads with
  | stop => rfl
  | join sign binds =>
    obtain ⟨rfl, _⟩ := eventTerms_between sign
    cases binds

/-- What the tokens of a part of a term are in a condition. -/
def MakeCondition (table : Specparams) : Phrase String → List Token → Prop
  | .operand, used | .operation (_ + 1), used =>
    ∃ value, Reads (conditions table) .operand used value
  | .operation 0, used => ∃ conjuncts, Chain table used conjuncts
  | .extension 0 _, used => ∀ first conjuncts, Chain table first conjuncts →
      ∃ more, Chain table (first ++ used) more
  | .extension (_ + 1) _, _ => True

theorem makeCondition_of_reads (table : Specparams) {phrase : Phrase String} {used : List Token}
    {text : String} (reads : Reads eventTerms phrase used text) :
    MakeCondition table phrase used := by
  induction reads with
  | before sign _ ih =>
    obtain ⟨value, operand⟩ := ih
    obtain ⟨_, _, op, found⟩ := eventTerms_before sign
    exact ⟨_, .before (found table) operand⟩
  | @group opening closing _ _ plain opens closes _ _ ih =>
    obtain ⟨conjuncts, chain⟩ := ih
    obtain ⟨value, inner, _⟩ := chain.reads
    have kind : closing.kind = .symbol .rightParen := eq_of_beq closes
    exact ⟨.group value, .group (eventTerms_before_none plain table) opens closes
      (by simp [conditions, kind]) inner⟩
  | atom plain single meaning =>
    obtain ⟨value, found⟩ := (eventTerms_atom meaning).2 table
    exact ⟨value, .atom (eventTerms_before_none plain table) single found⟩
  | @operation level first used left value head tail ihHead ihTail =>
    obtain ⟨operand, reads⟩ := ihHead
    cases level with
    | zero => exact ihTail first [operand] (.ofOperand reads)
    | succ level =>
      rw [eventTerms_extension tail, List.append_nil]
      exact ⟨operand, reads⟩
  | @stop level _ =>
    cases level with
    | zero => exact fun first conjuncts chain => ⟨conjuncts, by rwa [List.append_nil]⟩
    | succ => trivial
  | @join level own apply left t used right more value sign binds _ _ _ ihHead ihTail =>
    cases level with
    | succ => trivial
    | zero =>
      intro first conjuncts chain
      obtain ⟨rfl, _, _, found⟩ := eventTerms_between sign
      obtain ⟨operand, reads⟩ := ihHead
      have shape : first ++ t :: (used ++ more) = first ++ t :: used ++ more := by simp
      rw [shape]
      rcases found with ⟨op, found⟩ | ⟨op, found⟩
      · exact ihTail _ _ (chain.and (found table) (.ofOperand reads))
      · exact ihTail _ _ (chain.equals (found table) (.ofOperand reads))

/-- The tokens of a term are those of a condition. -/
theorem condition_of_term (table : Specparams) {used : List Token} {text : String}
    (reads : Reads eventTerms (.operation 0) used text) :
    ∃ value, Reads (conditions table) (.operation 0) used value := by
  obtain ⟨conjuncts, chain⟩ := makeCondition_of_reads table reads
  obtain ⟨value, whole, _⟩ := chain.reads
  exact ⟨value, whole⟩

end Terms

end CellTiming.Grammar
