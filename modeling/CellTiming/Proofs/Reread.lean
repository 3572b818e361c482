import CellTiming.Proofs.BareText

/-! Conditions are read back from their own text. The rules build operands, rows of
equalities between operands and rows of conjunctions between those, and so does the
condition made for an `ifnone`. Written out, such a condition is cut into words that are
read as the same condition. -/
namespace CellTiming.Operators

variable {α : Type} {g : Operators α}

theorem Reads.joined {own : Nat} {t : Token} {apply : α → α → α} {first second : List Token}
    {left right : α} (sign : g.between t = some (own, apply))
    (row : Reads g (.operation own) first left)
    (last : Reads g (.operation (own + 1)) second right) :
    Reads g (.operation own) (first ++ t :: second) (apply left right) := by
  cases row with
  | operation head tail =>
    have one : Reads g (.extension own left) (t :: (second ++ [])) (apply left right) :=
      .join sign (Nat.le_refl own) last (stops_nil g _) .stop
    rw [List.append_nil] at one
    rw [List.append_assoc]
    refine .operation head (tail.extend one ?_)
    intro t' rest own' apply' same sign'
    cases same
    rw [sign] at sign'
    cases sign'
    exact Nat.lt_succ_self own

theorem Reads.lowered {high low : Nat} {used : List Token} {value : α}
    (reads : Reads g (.operation high) used value) (le : low ≤ high) :
    Reads g (.operation low) used value := by
  cases reads with
  | operation head tail => exact .operation head (tail.lower le)

/-- A row that nothing can extend is an operand. -/
theorem Reads.alone {level : Nat} {used : List Token} {value : α}
    (stops : ∀ ts, Stops g level ts) (reads : Reads g (.operation level) used value) :
    Reads g .operand used value := by
  cases reads with
  | operation head tail =>
    cases tail with
    | stop => rwa [List.append_nil]
    | join sign binds =>
      exact absurd (stops [_] _ [] _ _ rfl sign) (Nat.not_lt_of_le binds)

end CellTiming.Operators

namespace CellTiming.Grammar

open Operators Condition Token

/-- An operand has level two, a row of equalities level one and of conjunctions level zero. -/
inductive Built : Nat → Condition → Prop
  | literal {text} (legible : Legible text) : Built 2 (.literal text)
  | not {op operand} (built : Built 2 operand) : Built 2 (.not op operand)
  | group {inner} (built : Built 0 inner) : Built 2 (.group inner)
  | equals {op left right} (row : Built 1 left) (last : Built 2 right) :
      Built 1 (.equals op left right)
  | and {op left right} (row : Built 0 left) (last : Built 1 right) : Built 0 (.and op left right)
  | lower {level condition} (built : Built (level + 1) condition) : Built level condition

theorem Built.le {high low : Nat} {condition : Condition} (built : Built high condition)
    (le : low ≤ high) : Built low condition := by
  induction le with
  | refl => exact built
  | step _ ih => exact ih built.lower

section Building

/-- What becomes of a part of a condition. A row goes on from what is built up to the level
of the next operator. -/
def Builds : Phrase Condition → List Token → Condition → Prop
  | .operand, _, value => Built 2 value
  | .operation level, _, value => level ≤ 2 → Built level value
  | .extension level left, used, value => ∀ own, Built own left → level ≤ own →
      Stops (conditions []) (own + 1) used → Built level value

theorem builds_of_reads {phrase : Phrase Condition} {used : List Token} {value : Condition}
    (reads : Reads (conditions []) phrase used value) (readable : ∀ t ∈ used, Readable t) :
    Builds phrase used value := by
  induction reads with
  | before sign _ ih =>
    obtain ⟨op, rfl, _⟩ := conditions_before sign
    exact .not (ih fun t member => readable t (by simp [member]))
  | group _ _ _ _ _ ih =>
    exact .group (ih (fun t member => readable t (by simp [member])) (Nat.zero_le 2))
  | atom _ _ meaning =>
    obtain ⟨rfl, legible⟩ := legible_of_atom (readable _ (by simp)) meaning
    exact .literal legible
  | operation _ _ ihHead ihTail =>
    have head := ihHead fun t member => readable t (by simp [member])
    have tail := ihTail fun t member => readable t (by simp [member])
    -- no operator binds as tightly as level two
    exact fun le => tail 2 head le ((conditions_stops _).mono (Nat.le_succ 2))
  | stop => exact fun _ built le _ => built.le le
  | @join level own apply left t used right more value sign binds _ ends _ ihHead ihTail =>
    intro above built _ stops
    have row : Built own left := built.le (Nat.le_of_lt_succ (stops t _ own apply rfl sign))
    have last := ihHead fun t member => readable t (by simp [member])
    have tail := ihTail fun t member => readable t (by simp [member])
    rcases conditions_between sign with ⟨rfl, op, rfl⟩ | ⟨rfl, op, rfl⟩
    · exact tail 0 (.and row (last (by decide))) binds ends
    · exact tail 1 (.equals row (last (by decide))) binds ends

theorem built_of_reads {used : List Token} {value : Condition}
    (reads : Reads (conditions []) (.operation 0) used value)
    (readable : ∀ t ∈ used, Readable t) : Built 0 value :=
  builds_of_reads reads readable (Nat.zero_le 2)

theorem built_noneOf {conditions : List Condition} {none_ : Condition}
    (made : noneOf conditions = some none_) (built : ∀ condition ∈ conditions, Built 0 condition) :
    Built 0 none_ := by
  have negated {condition : Condition} (member : condition ∈ conditions) :
      Built 2 condition.negated := .not (.group (built condition member))
  cases conditions with
  | nil => cases made
  | cons first others =>
    cases made
    refine List.foldlRecOn (others.map Condition.negated) _ ((negated (by simp)).le (by decide)) ?_
    intro row built next member
    obtain ⟨condition, among, rfl⟩ := List.mem_map.mp member
    exact .and built ((negated (by simp [among])).le (by decide))

end Building

section Rereading

/-- The text is cut into tokens that are read as the condition. -/
def Reread (level : Nat) (condition : Condition) : Prop :=
  ∃ tokens, Laid true (words tokens) ∧ writing (words tokens) = condition.text ∧
    Reads (conditions []) (.operation level) tokens condition

theorem Reread.ofOperand {tokens : List Token} {condition : Condition}
    (laid : Laid true (words tokens)) (text : writing (words tokens) = condition.text)
    (reads : Reads (conditions []) .operand tokens condition) : Reread 2 condition := by
  have alone : Reads (conditions []) (.operation 2) (tokens ++ []) condition :=
    .operation reads .stop
  rw [List.append_nil] at alone
  exact ⟨tokens, laid, text, alone⟩

theorem Reread.literal {text : String} (legible : Legible text) : Reread 2 (.literal text) := by
  obtain ⟨t, rfl, operand, meaning⟩ := legible
  have laid : Laid true (words [t]) := .operand operand .nil
  have kind : t.kind = .name ∨ t.kind = .number := operand.operand
  refine .ofOperand laid (by simp [words, writing, Token.spelled, Condition.text])
    (.atom ?_ ?_ meaning)
  · rcases kind with kind | kind <;> simp [conditions, kind]
  · rcases kind with kind | kind <;> simp [Token.isSymbol, kind]

theorem Reread.not {operand : Condition} (op : Negation) (inner : Reread 2 operand) :
    Reread 2 (.not op operand) := by
  obtain ⟨tokens, laid, text, reads⟩ := inner
  obtain ⟨t, symbol, negation, word, spelling, sign⟩ : ∃ (t : Token) (symbol : Symbol),
      isNegation symbol = true ∧ t.spelled = symbolWord symbol ∧ symbol.spelling = op.spelling ∧
        (conditions []).before t = some (.not op) := by
    cases op with
    | bang => exact ⟨⟨.symbol .bang, "!", 0, 0⟩, .bang, rfl, rfl, rfl, rfl⟩
    | tilde => exact ⟨⟨.symbol .tilde, "~", 0, 0⟩, .tilde, rfl, rfl, rfl, rfl⟩
  have shape : words (t :: tokens) = symbolWord symbol :: words tokens := congrArg (· :: _) word
  have laid' : Laid true (words (t :: tokens)) := by
    rw [shape]
    exact .negation negation laid
  refine .ofOperand laid' ?_ (.before sign (reads.alone conditions_stops))
  rw [shape, writing, text]
  exact congrArg (· ++ operand.text) spelling

theorem Reread.group {inner : Condition} (within : Reread 0 inner) : Reread 2 (.group inner) := by
  obtain ⟨tokens, laid, text, reads⟩ := within
  let opening : Token := ⟨.symbol .leftParen, "(", 0, 0⟩
  let closing : Token := ⟨.symbol .rightParen, ")", 0, 0⟩
  have shape : words (opening :: (tokens ++ [closing])) =
      symbolWord .leftParen :: (words tokens ++ [symbolWord .rightParen]) :=
    congrArg (_ :: ·) (words_append tokens [closing])
  have laid' : Laid true (words (opening :: (tokens ++ [closing]))) := by
    rw [shape]
    exact .opening (laid.append (.closing .nil))
  refine .ofOperand laid' ?_ (.group rfl rfl rfl rfl reads)
  rw [shape, writing, writing_append, text, writing, writing, String.append_empty,
    ← String.append_assoc]
  rfl

theorem Reread.join {own : Nat} {apply : Condition → Condition → Condition} {left right : Condition}
    {t : Token} {symbol : Symbol} (join : isJoin symbol = true)
    (word : t.spelled = symbolWord symbol)
    (sign : (conditions []).between t = some (own, apply))
    (text : (apply left right).text = left.text ++ symbol.spelling ++ right.text)
    (row : Reread own left) (last : Reread (own + 1) right) : Reread own (apply left right) := by
  obtain ⟨first, laid, same, reads⟩ := row
  obtain ⟨second, laid', same', reads'⟩ := last
  have shape : words (first ++ t :: second) = words first ++ symbolWord symbol :: words second := by
    rw [words_append, ← word]
    rfl
  refine ⟨first ++ t :: second, ?_, ?_, reads.joined sign reads'⟩
  · rw [shape]
    exact laid.append (.join join laid')
  · rw [shape, writing_append, writing, same, same', text, String.append_assoc]
    rfl

theorem Built.reread {level : Nat} {condition : Condition} (built : Built level condition) :
    Reread level condition := by
  induction built with
  | literal legible => exact .literal legible
  | not _ ih => exact ih.not _
  | group _ ih => exact ih.group
  | @equals op left right _ _ row last =>
    cases op with
    | logical => exact .join (t := ⟨.symbol .eqEq, "==", 0, 0⟩) rfl rfl rfl rfl row last
    | cases => exact .join (t := ⟨.symbol .eqEqEq, "===", 0, 0⟩) rfl rfl rfl rfl row last
  | @and op left right _ _ row last =>
    cases op with
    | single => exact .join (t := ⟨.symbol .amp, "&", 0, 0⟩) rfl rfl rfl rfl row last
    | double => exact .join (t := ⟨.symbol .ampAmp, "&&", 0, 0⟩) rfl rfl rfl rfl row last
  | lower _ ih =>
    obtain ⟨tokens, laid, text, reads⟩ := ih
    exact ⟨tokens, laid, text, reads.lowered (Nat.le_succ _)⟩

theorem Built.read {condition : Condition} (built : Built 0 condition) :
    readCondition condition.text = .ok condition := by
  obtain ⟨tokens, laid, text, reads⟩ := built.reread
  rw [← text]
  exact readCondition_writing laid reads

end Rereading

end CellTiming.Grammar
