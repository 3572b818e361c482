import CellTiming.Proofs.Lexeme
import CellTiming.Proofs.Words

/-! Words of a condition laid out without blanks. Where operands and operators take turns,
the text is cut into the same words again. -/
namespace CellTiming

def writing : List Word → String
  | [] => ""
  | word :: more => word.2 ++ writing more

theorem writing_append (first second : List Word) :
    writing (first ++ second) = writing first ++ writing second := by
  induction first with
  | nil => simp [writing]
  | cons word first ih => simp only [List.cons_append, writing, ih, String.append_assoc]

/-- A name or number that is a lexeme by itself. -/
structure OperandWord (word : Word) : Prop where
  operand : word.1 = .name ∨ word.1 = .number
  lexes : Token.Lexes word.1 word.2

def isNegation (symbol : Symbol) : Bool := [.bang, .tilde].contains symbol

def isJoin (symbol : Symbol) : Bool := [.amp, .ampAmp, .eqEq, .eqEqEq].contains symbol

/-- Operands in turn with operators, from a place where an operand may start or not. -/
inductive Laid : Bool → List Word → Prop
  | nil : Laid false []
  | operand {word more} (lexes : OperandWord word) (tail : Laid false more) :
      Laid true (word :: more)
  | negation {symbol more} (sign : isNegation symbol = true) (tail : Laid true more) :
      Laid true (symbolWord symbol :: more)
  | opening {more} (tail : Laid true more) : Laid true (symbolWord .leftParen :: more)
  | join {symbol more} (sign : isJoin symbol = true) (tail : Laid true more) :
      Laid false (symbolWord symbol :: more)
  | closing {more} (tail : Laid false more) : Laid false (symbolWord .rightParen :: more)

theorem Laid.append {start : Bool} {first second : List Word} (laid : Laid start first)
    (other : Laid false second) : Laid start (first ++ second) := by
  induction laid with
  | nil => exact other
  | operand lexes _ ih => exact .operand lexes ih
  | negation sign _ ih => exact .negation sign ih
  | opening _ ih => exact .opening ih
  | join sign _ ih => exact .join sign ih
  | closing _ ih => exact .closing ih

section Cutting

open Token

theorem conditional_of_negation {symbol : Symbol} (sign : isNegation symbol = true) :
    isConditional symbol = true := by
  cases symbol <;> first | rfl | cases sign

theorem conditional_of_join {symbol : Symbol} (sign : isJoin symbol = true) :
    isConditional symbol = true := by
  cases symbol <;> first | rfl | cases sign

theorem toList_writing_cons (word : Word) (more : List Word) :
    (writing (word :: more)).toList = word.2.toList ++ (writing more).toList := by
  rw [writing, String.toList_append]

/-- An operand and what stands before it begin with no letter that would go on a symbol. -/
theorem Laid.apart {laid : List Word} (is : Laid true laid) : Apart (writing laid).toList := by
  intro c cs same
  cases is with
  | operand operand tail =>
    obtain ⟨first, others, spelled, found⟩ := operand.lexes
    rw [toList_writing_cons, spelled] at same
    cases same
    exact letter_of_operand operand.operand found
  | @negation symbol more sign _ =>
    rw [toList_writing_cons, symbolWord, toList_spelling] at same
    cases symbol <;> first
      | (cases sign; done)
      | (cases same; decide)
  | opening =>
    rw [toList_writing_cons, symbolWord, toList_spelling] at same
    cases same
    decide

theorem Laid.ends {laid : List Word} (is : Laid false laid) : Ends (writing laid).toList := by
  intro c cs same
  cases is with
  | nil => cases same
  | @join symbol more sign _ =>
    rw [toList_writing_cons, symbolWord, toList_spelling] at same
    cases symbol <;> first
      | (cases sign; done)
      | (cases same; rfl)
  | closing =>
    rw [toList_writing_cons, symbolWord, toList_spelling] at same
    cases same
    rfl

theorem tokensFrom_lexeme {start : Bool} {c : Char} {cs rest : List Char} {kind : Kind}
    (found : lexeme start c (cs ++ rest) = .ok ⟨kind, cs.length⟩) (line offset : Nat) :
    ∃ next, tokensFrom line offset start (c :: (cs ++ rest)) =
      (tokensFrom line next (!kind.endsOperand) rest).map
        (⟨kind, String.ofList (c :: cs), line, offset⟩ :: ·) := by
  have blank (same : c = '\n' ∨ c = ' ' ∨ c = '\t' ∨ c = '\r') : False := by
    rcases same with rfl | rfl | rfl | rfl <;> cases start <;> cases found
  rw [tokensFrom, if_neg (fun same => blank (.inl same)), if_neg (fun same => blank (.inr same)),
    found]
  simp only [List.take_left, List.drop_left]
  exact ⟨_, rfl⟩

def endWord : Word := (.endOfInput, "")

theorem tokensFrom_word (word : Word) {more : List Word} {start : Bool} {c : Char}
    {cs rest : List Char} (spelled : word.2.toList = c :: cs)
    (found : lexeme start c (cs ++ rest) = .ok ⟨word.1, cs.length⟩) (line offset : Nat)
    (others : ∀ next, ∃ ts, tokensFrom line next (!word.1.endsOperand) rest = .ok ts ∧
      words ts = more) :
    ∃ ts, tokensFrom line offset start (c :: (cs ++ rest)) = .ok ts ∧ words ts = word :: more := by
  obtain ⟨next, step⟩ := tokensFrom_lexeme found line offset
  obtain ⟨ts, tail, same⟩ := others next
  refine ⟨⟨word.1, String.ofList (c :: cs), line, offset⟩ :: ts, by rw [step, tail]; rfl, ?_⟩
  change (word.1, String.ofList (c :: cs)) :: words ts = _
  rw [same, ← spelled, String.ofList_toList]

theorem tokensFrom_symbol {symbol : Symbol} (conditional : isConditional symbol = true)
    {more : List Word} {rest : List Char} (apart : isFinal symbol = true ∨ Apart rest)
    (start : Bool) (line offset : Nat)
    (others : ∀ next, ∃ ts, tokensFrom line next (!(Kind.symbol symbol).endsOperand) rest = .ok ts ∧
      words ts = more) :
    ∃ ts, tokensFrom line offset start (symbol.spelling.toList ++ rest) = .ok ts ∧
      words ts = symbolWord symbol :: more := by
  obtain ⟨c, cs, spelled, found⟩ := lexeme_symbol conditional apart start
  rw [spelled, List.cons_append]
  exact tokensFrom_word (symbolWord symbol) spelled found line offset others

theorem tokensFrom_operand {word : Word} (operand : OperandWord word) {more : List Word}
    {rest : List Char} (ends : Ends rest) (line offset : Nat)
    (others : ∀ next, ∃ ts, tokensFrom line next false rest = .ok ts ∧ words ts = more) :
    ∃ ts, tokensFrom line offset true (word.2.toList ++ rest) = .ok ts ∧
      words ts = word :: more := by
  obtain ⟨c, cs, spelled, found⟩ := operand.lexes
  rw [spelled, List.cons_append]
  have apart : word.1 = .name ∨ word.1 = .number ∨ Apart rest :=
    operand.operand.imp_right .inl
  refine tokensFrom_word word spelled (lexeme_append ends apart found) line offset ?_
  rcases operand.operand with kind | kind <;> rw [kind] <;> exact others

/-- Words that are laid out are cut apart where they were put together. -/
theorem Laid.tokens {start : Bool} {laid : List Word} (is : Laid start laid) (line offset : Nat) :
    ∃ ts, tokensFrom line offset start (writing laid).toList = .ok ts ∧
      words ts = laid ++ [endWord] := by
  induction is generalizing offset with
  | nil =>
    rw [writing, String.toList_empty]
    exact ⟨[⟨.endOfInput, "", line, offset⟩], by rw [tokensFrom], rfl⟩
  | operand operand tail ih =>
    rw [toList_writing_cons]
    exact tokensFrom_operand operand tail.ends line offset (ih ·)
  | @negation symbol more sign tail ih =>
    rw [toList_writing_cons]
    have operandMayStart : (!(Kind.symbol symbol).endsOperand) = true := by
      cases symbol <;> first | rfl | cases sign
    refine tokensFrom_symbol (conditional_of_negation sign) (.inr tail.apart) true line offset ?_
    rw [operandMayStart]
    exact (ih ·)
  | opening tail ih =>
    rw [toList_writing_cons]
    exact tokensFrom_symbol rfl (.inl rfl) true line offset (ih ·)
  | @join symbol more sign tail ih =>
    rw [toList_writing_cons]
    have operandMayStart : (!(Kind.symbol symbol).endsOperand) = true := by
      cases symbol <;> first | rfl | cases sign
    refine tokensFrom_symbol (conditional_of_join sign) (.inr tail.apart) false line offset ?_
    rw [operandMayStart]
    exact (ih ·)
  | closing tail ih =>
    rw [toList_writing_cons]
    exact tokensFrom_symbol rfl (.inl rfl) false line offset (ih ·)

end Cutting

end CellTiming
