import CellTiming.Grammar.Block
import CellTiming.Proofs.EventTerm
import CellTiming.Proofs.Numeral
import CellTiming.Proofs.Places

/-! Conditions without their parentheses. The text that is left of a condition is read
as its conjuncts again, where its numbers are. -/
namespace CellTiming.Grammar

open Operators Condition Token

/-- The text is cut into words that are the conjuncts in a row. -/
def Bears (text : String) (conjuncts : List Condition) : Prop :=
  ∃ tokens, Laid true (words tokens) ∧ writing (words tokens) = text ∧ Chain [] tokens conjuncts

/-- The text is an operand that stands for itself. -/
def Legible (text : String) : Prop :=
  ∃ t : Token, t.text = text ∧ OperandWord t.spelled ∧ (conditions []).atom t = .ok (.literal text)

/-- The token is written as it is spelled, and a number among them is read back. -/
structure Readable (t : Token) : Prop extends Spelled t where
  number : t.kind = .number → ∀ n, Number.ofString? t.text = some n → Legible n.text

/-- A real number is read back. -/
def RealLegible (t : Token) : Prop :=
  t.kind = .number → ∀ n, Number.ofString? t.text = some n → n.isReal = true → Legible n.text

theorem legible_of_number {n : Number} (lexes : Lexes .number n.text)
    (read : Number.ofString? n.text = some n) : Legible n.text := by
  refine ⟨⟨.number, n.text, 0, 0⟩, rfl, ⟨.inr rfl, lexes⟩, ?_⟩
  simp [conditions, TokenRule.numberOf, read, Except.map]

theorem legible_of_integer {t : Token} {n : Number} (read : Number.ofString? t.text = some n)
    (whole : n.isReal = false) : Legible n.text := by
  obtain ⟨lexes, again⟩ := Number.text_of_integer read whole
  exact legible_of_number lexes again

theorem Readable.of_real {t : Token} (spelled : Spelled t) (real : RealLegible t) :
    Readable t where
  toSpelled := spelled
  number kind n read := by
    cases whole : n.isReal with
    | true => exact real kind n read whole
    | false => exact legible_of_integer read whole

section Signs

variable {t : Token}

theorem operator_word (spelled : Spelled t) {symbol : Symbol} (kind : t.kind = .symbol symbol)
    (operator : isOperator symbol = true) :
    t.spelled = symbolWord symbol ∧ shown t = symbol.spelling := by
  have text := spelled.symbol symbol kind
  refine ⟨Prod.ext kind text, ?_⟩
  rw [← text]
  cases symbol <;> first
    | (cases operator; done)
    | simp [shown, kind]

theorem negation_word {apply : Condition → Condition}
    (sign : (conditions []).before t = some apply) (spelled : Spelled t) :
    ∃ symbol, isNegation symbol = true ∧ t.spelled = symbolWord symbol ∧
      shown t = symbol.spelling := by
  obtain ⟨_, _, kind | kind⟩ := conditions_before sign
  · exact ⟨.bang, rfl, operator_word spelled kind rfl⟩
  · exact ⟨.tilde, rfl, operator_word spelled kind rfl⟩

theorem join_word {own : Nat} {apply : Condition → Condition → Condition}
    (sign : (conditions []).between t = some (own, apply)) (spelled : Spelled t) :
    ∃ symbol, isJoin symbol = true ∧ t.spelled = symbolWord symbol ∧
      shown t = symbol.spelling := by
  simp only [conditions] at sign
  split at sign
  next kind => exact ⟨.amp, rfl, operator_word spelled kind rfl⟩
  next kind => exact ⟨.ampAmp, rfl, operator_word spelled kind rfl⟩
  next kind => exact ⟨.eqEq, rfl, operator_word spelled kind rfl⟩
  next kind => exact ⟨.eqEqEq, rfl, operator_word spelled kind rfl⟩
  next => cases sign

end Signs

namespace Bears

variable {text other : String} {first second : List Condition}

theorem ofLegible (legible : Legible text) : Bears text [.literal text] := by
  obtain ⟨t, rfl, operand, meaning⟩ := legible
  refine ⟨[t], .operand operand .nil, by simp [words, writing, Token.spelled], .ofOperand ?_⟩
  have kind : t.kind = .name ∨ t.kind = .number := operand.operand
  refine .atom ?_ ?_ meaning
  · rcases kind with kind | kind <;> simp [conditions, kind]
  · rcases kind with kind | kind <;> simp [Token.isSymbol, kind]

theorem not {t : Token} {op : Negation} (sign : (conditions []).before t = some (.not op))
    (spelled : Spelled t) (bears : Bears text first) :
    Bears (shown t ++ text) (first.modifyHead (.not op)) := by
  obtain ⟨tokens, laid, rfl, chain⟩ := bears
  obtain ⟨symbol, negation, word, same⟩ := negation_word sign spelled
  refine ⟨t :: tokens, ?_, ?_, chain.not sign⟩
  · change Laid true (t.spelled :: words tokens)
    rw [word]
    exact .negation negation laid
  · change t.spelled.2 ++ writing (words tokens) = _
    rw [word, same]
    rfl

/-- Texts side by side, where their conjuncts are joined. -/
theorem join {t : Token} {own : Nat} {apply : Condition → Condition → Condition}
    (sign : (conditions []).between t = some (own, apply)) (spelled : Spelled t)
    {joined : List Condition}
    (chains : ∀ left right, Chain [] left first → Chain [] right second →
      Chain [] (left ++ t :: right) joined)
    (bears : Bears text first) (bears' : Bears other second) :
    Bears (text ++ (shown t ++ other)) joined := by
  obtain ⟨left, laid, rfl, chain⟩ := bears
  obtain ⟨right, laid', rfl, chain'⟩ := bears'
  obtain ⟨symbol, join, word, same⟩ := join_word sign spelled
  have shape : words (left ++ t :: right) = words left ++ symbolWord symbol :: words right := by
    rw [words_append, ← word]
    rfl
  refine ⟨left ++ t :: right, ?_, ?_, chains left right chain chain'⟩
  · rw [shape]
    exact laid.append (.join join laid')
  · rw [shape, writing_append, writing, same]
    rfl

theorem and {t : Token} {op : Conjunction}
    (sign : (conditions []).between t = some (0, .and op)) (spelled : Spelled t)
    (bears : Bears text first) (bears' : Bears other second) :
    Bears (text ++ (shown t ++ other)) (first ++ second) :=
  join sign spelled (fun _ _ chain chain' => chain.and sign chain') bears bears'

theorem equals {t : Token} {op : Equality}
    (sign : (conditions []).between t = some (1, .equals op)) (spelled : Spelled t)
    (bears : Bears text first) (bears' : Bears other second) :
    Bears (text ++ (shown t ++ other)) (meet (.equals op) first second) :=
  join sign spelled (fun _ _ chain chain' => chain.equals sign chain') bears bears'

end Bears

/-- An operand stands for the text it shows. -/
theorem legible_of_atom {t : Token} {value : Condition} (readable : Readable t)
    (meaning : (conditions []).atom t = .ok value) :
    value = .literal (shown t) ∧ Legible (shown t) := by
  simp only [conditions] at meaning
  split at meaning
  next kind =>
    rw [TokenRule.numberOf] at meaning
    cases found : Number.ofString? t.text with
    | none =>
      rw [found] at meaning
      cases meaning
    | some n =>
      rw [found] at meaning
      cases meaning
      have same : shown t = n.text := by simp [shown, kind, found]
      rw [same]
      exact ⟨rfl, readable.number kind n found⟩
  next kind =>
    cases meaning
    have same : shown t = t.text := by simp [shown, kind]
    rw [same]
    have operand : OperandWord t.spelled := ⟨.inl kind, by
      rw [show t.spelled.1 = .name from kind]
      exact readable.name kind⟩
    exact ⟨rfl, t, rfl, operand, by simp [conditions, kind]⟩
  next => cases meaning

/-- What is left of a part of a condition when its tokens are rendered. -/
def LeavesConjuncts : Phrase Condition → List Token → Condition → Prop
  | .extension _ left, used, value => ∀ text, Bears text left.conjuncts →
      Bears (text ++ rendering used) value.conjuncts
  | _, used, value => Bears (rendering used) value.conjuncts

theorem leavesConjuncts_of_reads {phrase : Phrase Condition} {used : List Token}
    {value : Condition} (reads : Reads (conditions []) phrase used value)
    (readable : ∀ t ∈ used, Readable t) : LeavesConjuncts phrase used value := by
  induction reads with
  | before sign _ ih =>
    obtain ⟨op, rfl, _⟩ := conditions_before sign
    exact Bears.not sign (readable _ (by simp)).toSpelled
      (ih fun t member => readable t (by simp [member]))
  | @group opening closing used value _ opens closes _ _ ih =>
    have left : shown opening = "" := by
      simp [shown, show opening.kind = _ from eq_of_beq opens]
    have right : shown closing = "" := by
      simp [shown, show closing.kind = _ from eq_of_beq closes]
    have inner : Bears (rendering used) (Condition.group value).conjuncts :=
      ih fun t member => readable t (by simp [member])
    have same : rendering (opening :: (used ++ [closing])) = rendering used := by
      simp [rendering, rendering_append, left, right]
    change Bears (rendering (opening :: (used ++ [closing]))) (Condition.group value).conjuncts
    rw [same]
    exact inner
  | atom _ _ meaning =>
    obtain ⟨rfl, legible⟩ := legible_of_atom (readable _ (by simp)) meaning
    simpa [LeavesConjuncts, rendering, conjuncts] using Bears.ofLegible legible
  | @operation _ first used _ value _ _ ihHead ihTail =>
    have head := ihHead fun t member => readable t (by simp [member])
    have tail := ihTail fun t member => readable t (by simp [member])
    change Bears (rendering (first ++ used)) value.conjuncts
    rw [rendering_append]
    exact tail _ head
  | stop => exact fun text bears => by simpa [rendering] using bears
  | @join level own apply left t used right more value sign _ _ _ _ ihHead ihTail =>
    intro text bears
    have spelled : Spelled t := (readable t (by simp)).toSpelled
    have head : Bears (rendering used) right.conjuncts :=
      ihHead fun t member => readable t (by simp [member])
    have tail := ihTail fun t member => readable t (by simp [member])
    have shape : text ++ rendering (t :: (used ++ more)) =
        text ++ (shown t ++ rendering used) ++ rendering more := by
      simp only [rendering, rendering_append, String.append_assoc]
    rw [shape]
    refine tail _ ?_
    rcases conditions_between sign with ⟨rfl, op, rfl⟩ | ⟨rfl, op, rfl⟩
    · exact bears.and sign spelled head
    · exact bears.equals sign spelled head

section Reading

/-- The condition that all the tokens make, where no specparam is known. -/
def wholeCondition (ts : List Token) : Except SourceError Condition := do
  let (value, rest) ← (condition []).run ts
  if atEnd rest then return value else .error (unexpectedAt rest)

def readCondition (text : String) : Except SourceError Condition := do
  wholeCondition (← Token.ofString text)

theorem wholeCondition_of_reads {used rest : List Token} {value : Condition}
    (reads : Reads (conditions []) (.operation 0) used value) (stops : Stops (conditions []) 0 rest)
    (ends : atEnd rest = true) : wholeCondition (used ++ rest) = .ok value := by
  have run : (condition []).run (used ++ rest) = .ok (value, rest) :=
    expression_run.mpr ⟨used, rfl, reads, stops⟩
  rw [wholeCondition, run]
  change (if atEnd rest then pure value else _) = _
  rw [if_pos ends]
  rfl

/-- Tokens that are laid out are read again as what they were read as. -/
theorem readCondition_writing {tokens : List Token} {value : Condition}
    (laid : Laid true (words tokens)) (reads : Reads (conditions []) (.operation 0) tokens value) :
    readCondition (writing (words tokens)) = .ok value := by
  obtain ⟨ts, cut, same⟩ := laid.tokens 1 0
  obtain ⟨left, right, rfl, alike, ending⟩ := words_eq_append same
  obtain ⟨last, none, rfl, word, nothing⟩ := words_eq_cons ending
  cases words_eq_nil nothing
  have kind : last.kind = .endOfInput := kind_of_word word
  have stops : Stops (conditions []) 0 [last] :=
    stops_cons _ 0 last [] (by simp [conditions, kind])
  have tokenized : Token.ofString (writing (words tokens)) = .ok (left ++ [last]) := cut
  rw [readCondition, tokenized]
  exact wholeCondition_of_reads (reads.of_words (placeless_conditions []) alike) stops
    (by simp [atEnd, kind])

/-- The conjuncts a text bears are what it is read as. -/
theorem Bears.read {text : String} {conjuncts : List Condition} (bears : Bears text conjuncts) :
    ∃ value, readCondition text = .ok value ∧
      ∀ values, value.holds values = conjuncts.all (holds values) := by
  obtain ⟨tokens, laid, rfl, chain⟩ := bears
  obtain ⟨value, reads, truth⟩ := chain.reads
  exact ⟨value, readCondition_writing laid reads, truth⟩

/-- Texts that are joined bear all that they bear one by one. -/
theorem Bears.joined {texts : List String} {parts : List (List Condition)}
    (bears : List.Forall₂ Bears texts parts) (some_ : texts ≠ []) :
    Bears ("&".intercalate texts) parts.flatten := by
  induction bears with
  | nil => exact absurd rfl some_
  | @cons text part texts parts first others ih =>
    cases others with
    | nil => simpa using first
    | @cons next part' texts parts second others =>
      have spelled : Spelled ⟨.symbol .amp, "&", 0, 0⟩ :=
        ⟨by simp, fun _ same => by cases same; rfl⟩
      have sign : (conditions []).between ⟨.symbol .amp, "&", 0, 0⟩ = some (0, .and .single) := rfl
      have whole := first.and sign spelled (ih (by simp))
      rw [String.intercalate_cons_of_ne_nil (by simp), List.flatten_cons, String.append_assoc]
      exact whole

end Reading

end CellTiming.Grammar
