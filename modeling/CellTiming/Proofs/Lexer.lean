import CellTiming.Token.Lexer

/-! What cutting a text into tokens gives. -/
namespace CellTiming.Token

/-- What a lexeme can be, by its first character. -/
inductive Cut (start : Bool) (c : Char) (cs : List Char) : Lexeme → Prop
  | word (starts : isNameStart c = true) : Cut start c cs (word c cs)
  | task {found} (dollar : c = '$') (named : task cs = .ok found) : Cut start c cs found
  | unsigned {found} (digit : c.isDigit ∨ (basedLength? (c :: cs)).isSome)
      (read : number (c :: cs) (unsignedLength (c :: cs)) = .ok found) : Cut start c cs found
  | signed {found} (sign : c = '+' ∨ c = '-') (operand : start = true)
      (real : (realLength? cs).isSome)
      (read : number (c :: cs) (1 + unsignedLength cs) = .ok found) : Cut start c cs found
  | string {found} (quote : c = '"') (closed : string cs = .ok found) : Cut start c cs found
  | symbol {symbol} (front : Symbol.atFront? (c :: cs) = some symbol)
      (unsigned : ¬((c = '+' ∨ c = '-') ∧ start ∧ (realLength? cs).isSome)) :
      Cut start c cs ⟨.symbol symbol, symbol.spelling.length - 1⟩

section Cases

variable {start : Bool} {c : Char} {cs : List Char} {found : Lexeme}

theorem cut_of_ok (ok : lexeme start c cs = .ok found) : Cut start c cs found := by
  unfold lexeme at ok
  split at ok
  next starts =>
    cases ok
    exact .word starts
  split at ok
  next dollar => exact .task dollar ok
  split at ok
  next digit => exact .unsigned digit ok
  split at ok
  next signed => exact .signed signed.1 signed.2.1 signed.2.2 ok
  split at ok
  next quote => exact .string quote ok
  split at ok
  next unsigned _ _ _ front =>
    cases ok
    exact .symbol front unsigned
  next => cases ok

theorem task_kind (named : task cs = .ok found) : ∃ task, found.kind = .task task := by
  unfold task at named
  dsimp only at named
  split at named
  next task _ =>
    cases named
    exact ⟨task, rfl⟩
  next => cases named

theorem number_kind {length : Nat} (read : number cs length = .ok found) :
    found.kind = .number := by
  unfold number at read
  split at read
  · cases read
    rfl
  · cases read

theorem string_kind (closed : string cs = .ok found) : found.kind = .string := by
  unfold string at closed
  dsimp only at closed
  split at closed
  · cases closed
    rfl
  · cases closed

theorem word_kind (c : Char) (cs : List Char) :
    (∃ keyword, (word c cs).kind = .keyword keyword) ∨ (word c cs).kind = .name := by
  unfold word
  dsimp only
  split
  next keyword _ => exact .inl ⟨keyword, rfl⟩
  next => exact .inr rfl

/-- The mark of the end is no lexeme. -/
theorem lexeme_kind (ok : lexeme start c cs = .ok found) : found.kind ≠ .endOfInput := by
  cases cut_of_ok ok with
  | word =>
    rcases word_kind c cs with ⟨_, kind⟩ | kind <;> simp [kind]
  | task _ named =>
    obtain ⟨_, kind⟩ := task_kind named
    simp [kind]
  | unsigned _ read | signed _ _ _ read => simp [number_kind read]
  | string _ closed => simp [string_kind closed]
  | symbol => simp

/-- A keyword is a word to its end. -/
theorem keyword_of_lexeme {keyword : Keyword} (ok : lexeme start c cs = .ok found)
    (kind : found.kind = .keyword keyword) :
    found.more = (cs.takeWhile isNameChar).length ∧
      String.ofList (c :: cs.takeWhile isNameChar) = keyword.spelling := by
  cases cut_of_ok ok with
  | word =>
    unfold word at kind ⊢
    dsimp only at kind ⊢
    split at kind
    next keyword' known =>
      cases kind
      have same := List.find?_some known
      exact ⟨rfl, (eq_of_beq same).symm⟩
    next => cases kind
  | task _ named =>
    obtain ⟨_, other⟩ := task_kind named
    simp [other] at kind
  | unsigned _ read | signed _ _ _ read => simp [number_kind read] at kind
  | string _ closed => simp [string_kind closed] at kind
  | symbol => simp at kind

end Cases

/-- The tokens of a text before the mark of its end. -/
theorem tokensFrom_end {line start : Nat} {operandMayStart : Bool} {text : List Char}
    {ts : List Token} (ok : tokensFrom line start operandMayStart text = .ok ts) :
    ∃ init last, ts = init ++ [last] ∧ last.kind = .endOfInput ∧
      ∀ t ∈ init, t.kind ≠ .endOfInput := by
  fun_induction tokensFrom line start operandMayStart text generalizing ts with
  | case1 =>
    cases ok
    exact ⟨[], _, rfl, rfl, by simp⟩
  | case2 _ _ _ _ ih => exact ih ok
  | case3 _ _ _ _ _ _ _ ih => exact ih ok
  | case4 => cases ok
  | case5 line start operandMayStart c cs _ _ kind more found token =>
    rename_i ih
    cases others : tokensFrom line token.stop (!kind.endsOperand) (cs.drop more) with
    | error e => rw [others] at ok; cases ok
    | ok rest =>
      rw [others] at ok
      cases ok
      obtain ⟨init, last, rfl, ending, inner⟩ := ih others
      refine ⟨token :: init, last, rfl, ending, ?_⟩
      intro t member
      rcases List.mem_cons.mp member with rfl | member
      · exact lexeme_kind found
      · exact inner t member

/-- Every token but the mark of the end is a lexeme of the text. -/
theorem lexeme_of_mem {line offset : Nat} {operandMayStart : Bool} {text : List Char}
    {ts : List Token} (ok : tokensFrom line offset operandMayStart text = .ok ts) {t : Token}
    (member : t ∈ ts) (inner : t.kind ≠ .endOfInput) :
    ∃ start c cs found, lexeme start c cs = .ok found ∧ t.kind = found.kind ∧
      t.text = String.ofList (c :: cs.take found.more) := by
  fun_induction tokensFrom line offset operandMayStart text generalizing ts with
  | case1 =>
    cases ok
    cases List.mem_singleton.mp member
    exact absurd rfl inner
  | case2 _ _ _ _ ih => exact ih ok member
  | case3 _ _ _ _ _ _ _ ih => exact ih ok member
  | case4 => cases ok
  | case5 line offset operandMayStart c cs _ _ kind more found token =>
    rename_i ih
    cases others : tokensFrom line token.stop (!kind.endsOperand) (cs.drop more) with
    | error e => rw [others] at ok; cases ok
    | ok rest =>
      rw [others] at ok
      cases ok
      rcases List.mem_cons.mp member with rfl | member
      · exact ⟨_, c, cs, ⟨kind, more⟩, found, rfl, rfl⟩
      · exact ih others member

end CellTiming.Token
