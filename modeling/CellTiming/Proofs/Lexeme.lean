import CellTiming.Proofs.Lexer
import Mathlib

/-! Where lexemes end. What is cut off as a lexeme is one by itself, and stays one before a
blank. An operand ends before a conjunction, an equality sign and a closing parenthesis,
too. -/
namespace CellTiming.Token

def isBlank (c : Char) : Bool := [' ', '\t', '\r', '\n'].contains c

/-- What may stand directly behind an operand of a condition. -/
def isEnding (c : Char) : Bool := ['&', '=', ')'].contains c || isBlank c

/-- Nothing follows, or a character that passes the test does. -/
def Before (test : Char → Bool) (rest : List Char) : Prop :=
  ∀ c cs, rest = c :: cs → test c = true

abbrev Ends : List Char → Prop := Before isEnding

theorem isNameChar_of_start {c : Char} (start : isNameStart c = true) : isNameChar c = true := by
  simp only [isNameStart, Bool.or_eq_true] at start
  simp only [isNameChar, Char.isAlphanum, Bool.or_eq_true]
  rcases start with letter | line
  · exact .inl (.inl (.inl letter))
  · exact .inl (.inr line)

section Ahead

variable {rest : List Char}

theorem mem_of_isEnding {c : Char} (ending : isEnding c = true) :
    c ∈ ['&', '=', ')', ' ', '\t', '\r', '\n'] := by
  simpa [isEnding, isBlank, or_assoc] using ending

theorem Before.ends (blank : Before isBlank rest) : Ends rest := fun c cs same => by
  rw [isEnding, blank c cs same, Bool.or_true]

theorem Before.fails (ends : Ends rest) {p : Char → Bool}
    (none : ['&', '=', ')', ' ', '\t', '\r', '\n'].all (!p ·) = true) :
    ∀ c cs, rest = c :: cs → p c = false := by
  intro c cs same
  simpa using List.all_eq_true.mp none c (mem_of_isEnding (ends c cs same))

theorem Before.ne {test : Char → Bool} {c : Char} {cs : List Char} (before : Before test (c :: cs))
    (other : Char) (fails : test other = false) : c ≠ other := by
  rintro rfl
  exact absurd (before c cs rfl) (by simp [fails])

theorem forall_false_of_any {p : Char → Bool} {text : List Char} (none : text.any p = false) :
    ∀ c ∈ text, p c = false := fun c member =>
  eq_false_of_ne_true (List.any_eq_false.mp none c member)

theorem takeWhile_append_of_fails {p : Char → Bool}
    (fails : ∀ c cs, rest = c :: cs → p c = false) (text : List Char) :
    (text ++ rest).takeWhile p = text.takeWhile p := by
  induction text with
  | nil =>
    cases rest with
    | nil => rfl
    | cons c cs => simp [fails c cs rfl]
  | cons c text ih =>
    rw [List.cons_append, List.takeWhile_cons, List.takeWhile_cons, ih]

theorem drop_takeWhile_append (p : Char → Bool) (text : List Char) :
    (text ++ rest).drop (text.takeWhile p).length = text.drop (text.takeWhile p).length ++ rest :=
  List.drop_append_of_le_length (List.takeWhile_sublist p).length_le

theorem digits_append (ends : Ends rest) (text : List Char) :
    (text ++ rest).takeWhile Char.isDigit = text.takeWhile Char.isDigit :=
  takeWhile_append_of_fails (ends.fails (by decide)) text

theorem head_append (ends : Ends rest) {c : Char} (other : isEnding c = false) (text : List Char) :
    (text ++ rest).head? = some c ↔ text.head? = some c := by
  cases text with
  | nil =>
    cases rest with
    | nil => rfl
    | cons first others => simp [ends.ne c other]
  | cons => rfl

theorem bitSelectLength_append (ends : Ends rest) (text : List Char) :
    bitSelectLength (text ++ rest) = bitSelectLength text := by
  cases text with
  | nil =>
    cases rest with
    | nil => rfl
    | cons c cs => simp [bitSelectLength, ends.ne '[' rfl]
  | cons c text =>
    by_cases opens : c = '['
    · subst opens
      simp only [List.cons_append, bitSelectLength, digits_append ends, drop_takeWhile_append,
        head_append ends (c := ']') rfl]
    · simp [bitSelectLength, opens]

theorem word_append (ends : Ends rest) (c : Char) (text : List Char) :
    word c (text ++ rest) = word c text := by
  simp only [word, takeWhile_append_of_fails (ends.fails (p := isNameChar) (by decide)),
    drop_takeWhile_append, bitSelectLength_append ends]

theorem task_append (ends : Ends rest) (text : List Char) : task (text ++ rest) = task text := by
  simp only [task, takeWhile_append_of_fails (ends.fails (p := Char.isLower) (by decide))]

theorem realLength_append (ends : Ends rest) (text : List Char) :
    realLength? (text ++ rest) = realLength? text := by
  simp only [realLength?, digits_append ends, drop_takeWhile_append]
  cases text.drop (text.takeWhile Char.isDigit).length with
  | nil =>
    cases rest with
    | nil => rfl
    | cons c cs => simp [ends.ne '.' rfl]
  | cons c more =>
    by_cases point : c = '.'
    · subst point
      simp only [List.cons_append, digits_append ends]
    · simp [point]

theorem basedLength_append (ends : Ends rest) (text : List Char) :
    basedLength? (text ++ rest) = basedLength? text := by
  cases text with
  | nil =>
    cases rest with
    | nil => rfl
    | cons c cs => simp [basedLength?, ends.ne '\'' rfl]
  | cons c text =>
    by_cases quote : c = '\''
    · subst quote
      cases text with
      | nil =>
        cases rest with
        | nil => rfl
        | cons c cs =>
          have none : (Number.Base.ofLetter? c).isSome = false :=
            ends.fails (p := fun c => (Number.Base.ofLetter? c).isSome) (by decide) c cs rfl
          simp [basedLength?, none]
      | cons letter text =>
        simp only [List.cons_append, basedLength?,
          takeWhile_append_of_fails (ends.fails (p := isBasedDigit) (by decide))]
    · simp [basedLength?, quote]

theorem unsignedLength_append (ends : Ends rest) (text : List Char) :
    unsignedLength (text ++ rest) = unsignedLength text := by
  simp only [unsignedLength, realLength_append ends, digits_append ends, drop_takeWhile_append,
    basedLength_append ends]

end Ahead

/-- The text is a single lexeme of the given kind. -/
def Lexes (kind : Kind) (text : String) : Prop :=
  ∃ c cs, text.toList = c :: cs ∧ lexeme true c cs = .ok ⟨kind, cs.length⟩

section Symbols

def isOperator (symbol : Symbol) : Bool :=
  [.bang, .tilde, .amp, .ampAmp, .eqEq, .eqEqEq].contains symbol

def isConditional (symbol : Symbol) : Bool :=
  isOperator symbol || [.leftParen, .rightParen].contains symbol

def letters : Symbol → List Char
  | .plus => ['+']
  | .minus => ['-']
  | .assign => ['=']
  | .amp => ['&']
  | .ampAmp => ['&', '&']
  | .tripleAmp => ['&', '&', '&']
  | .eqEq => ['=', '=']
  | .eqEqEq => ['=', '=', '=']
  | .bang => ['!']
  | .tilde => ['~']
  | .parallelPath => ['=', '>']
  | .fullPath => ['*', '>']
  | .leftParen => ['(']
  | .rightParen => [')']
  | .comma => [',']
  | .semicolon => [';']
  | .colon => [':']

theorem toList_spelling (symbol : Symbol) : symbol.spelling.toList = letters symbol := by
  cases symbol <;> rfl

/-- Nothing follows that a symbol could go on with. -/
def Apart (rest : List Char) : Prop := ∀ c cs, rest = c :: cs → c ≠ '&' ∧ c ≠ '=' ∧ c ≠ '>'

theorem Before.apart {rest : List Char} (blank : Before isBlank rest) : Apart rest := by
  rintro c cs rfl
  exact ⟨blank.ne '&' rfl, blank.ne '=' rfl, blank.ne '>' rfl⟩

/-- No longer symbol begins with the symbol. -/
def isFinal (symbol : Symbol) : Bool :=
  [.bang, .tilde, .leftParen, .rightParen].contains symbol

theorem atFront_letters {symbol : Symbol} {rest : List Char}
    (apart : isFinal symbol = true ∨ Apart rest) :
    Symbol.atFront? (letters symbol ++ rest) = some symbol := by
  simp only [Symbol.atFront?, Symbol.longestFirst, toList_spelling]
  rcases apart with final | apart
  · cases symbol <;> first
      | (cases final; done)
      | simp [letters, List.isPrefixOf]
  · cases rest with
    | nil => cases symbol <;> rfl
    | cons c cs =>
      obtain ⟨amp, eq, arrow⟩ := apart c cs rfl
      cases symbol <;> simp [letters, List.isPrefixOf, amp.symm, eq.symm, arrow.symm]

theorem letters_of_atFront {text : List Char} {symbol : Symbol}
    (front : Symbol.atFront? text = some symbol) : letters symbol <+: text := by
  have begins := List.find?_some front
  rw [toList_spelling] at begins
  exact List.isPrefixOf_iff_prefix.mp begins

theorem length_spelling (symbol : Symbol) : symbol.spelling.length = (letters symbol).length := by
  rw [← toList_spelling, String.length_toList]

theorem taken_of_atFront {c : Char} {cs : List Char} {symbol : Symbol}
    (front : Symbol.atFront? (c :: cs) = some symbol) :
    c :: cs.take (symbol.spelling.length - 1) = letters symbol := by
  rw [← List.take_succ_cons, length_spelling, Nat.sub_add_cancel (by cases symbol <;> decide)]
  exact (List.prefix_iff_eq_take.mp (letters_of_atFront front)).symm

theorem plain_of_digit {c : Char} {cs : List Char}
    (digit : c.isDigit ∨ (basedLength? (c :: cs)).isSome) : isNameStart c = false ∧ c ≠ '$' := by
  rcases digit with digit | based
  · simp only [Char.isDigit, Bool.and_eq_true, decide_eq_true_eq, UInt32.le_iff_toNat_le] at digit
    refine ⟨?_, by rintro rfl; simp at digit⟩
    have line : c ≠ '_' := by rintro rfl; simp at digit
    simp only [isNameStart, Char.isAlpha, Char.isUpper, Char.isLower, Bool.or_eq_false_iff,
      Bool.and_eq_false_iff, decide_eq_false_iff_not, UInt32.le_iff_toNat_le]
    simp [line] at digit ⊢
    omega
  · by_cases quote : c = '\''
    · subst quote
      decide
    · simp [basedLength?, quote] at based

theorem Cut.ok {start : Bool} {c : Char} {cs : List Char} {found : Lexeme}
    (cut : Cut start c cs found) : lexeme start c cs = .ok found := by
  cases cut with
  | word starts => rw [lexeme, if_pos starts]
  | task dollar named =>
    subst dollar
    exact named
  | unsigned digit read =>
    obtain ⟨plain, dollar⟩ := plain_of_digit digit
    rw [lexeme, if_neg (by simp [plain]), if_neg dollar, if_pos digit]
    exact read
  | signed sign operand real read =>
    have plain : isNameStart c = false ∧ c ≠ '$' ∧
        ¬(c.isDigit ∨ (basedLength? (c :: cs)).isSome) := by
      rcases sign with rfl | rfl <;> simp [isNameStart, basedLength?]
    obtain ⟨word, dollar, digit⟩ := plain
    rw [lexeme, if_neg (by simp [word]), if_neg dollar, if_neg digit, if_pos ⟨sign, operand, real⟩]
    exact read
  | string quote closed =>
    subst quote
    exact closed
  | @symbol symbol front unsigned =>
    obtain ⟨back, same⟩ := letters_of_atFront front
    have plain : isNameStart c = false ∧ c ≠ '$' ∧ c.isDigit = false ∧ c ≠ '\'' ∧ c ≠ '"' := by
      cases symbol <;> cases same <;> decide
    obtain ⟨word, dollar, digit, based, quote⟩ := plain
    rw [lexeme, if_neg (by simp [word]), if_neg dollar,
      if_neg (by simp [digit, basedLength?, based]), if_neg unsigned, if_neg quote, front]

theorem lexeme_symbol {symbol : Symbol} (conditional : isConditional symbol = true) {rest : List Char}
    (apart : isFinal symbol = true ∨ Apart rest) (start : Bool) :
    ∃ c cs, symbol.spelling.toList = c :: cs ∧
      lexeme start c (cs ++ rest) = .ok ⟨.symbol symbol, cs.length⟩ := by
  have front := atFront_letters apart
  have length := length_spelling symbol
  rw [toList_spelling]
  cases spelled : letters symbol with
  | nil => cases symbol <;> cases spelled
  | cons c cs =>
    rw [spelled] at front length
    have unsigned : c ≠ '+' ∧ c ≠ '-' := by
      cases symbol <;> first
        | (cases conditional; done)
        | (cases spelled; decide)
    have cut : Cut start c (cs ++ rest) ⟨.symbol symbol, symbol.spelling.length - 1⟩ :=
      .symbol front (by simp [unsigned])
    rw [length] at cut
    exact ⟨c, cs, rfl, cut.ok⟩

theorem letter_of_operand {c : Char} {cs : List Char} {found : Lexeme}
    (operand : found.kind = .name ∨ found.kind = .number) (ok : lexeme true c cs = .ok found) :
    c ≠ '&' ∧ c ≠ '=' ∧ c ≠ '>' := by
  cases cut_of_ok ok with
  | word starts => refine ⟨?_, ?_, ?_⟩ <;> rintro rfl <;> cases starts
  | task _ named =>
    obtain ⟨_, kind⟩ := task_kind named
    simp [kind] at operand
  | unsigned digit => refine ⟨?_, ?_, ?_⟩ <;> rintro rfl <;> simp [basedLength?] at digit
  | signed sign => rcases sign with rfl | rfl <;> decide
  | string _ closed => simp [string_kind closed] at operand
  | symbol => simp at operand

end Symbols

section Cutting

/-- The front of a text that passes a test, and what comes instead of the rest. -/
theorem takeWhile_cut (p : Char → Bool) (text : List Char) :
    ∃ front back, text = front ++ back ∧ text.takeWhile p = front ∧
      (∀ c cs, back = c :: cs → p c = false) ∧
      ∀ rest, (∀ c cs, rest = c :: cs → p c = false) → (front ++ rest).takeWhile p = front := by
  refine ⟨text.takeWhile p, text.dropWhile p, List.takeWhile_append_dropWhile.symm, rfl, ?_, ?_⟩
  · intro c cs same
    have head := List.head?_dropWhile_not p text
    rw [same] at head
    simpa using head
  · intro rest fails
    rw [takeWhile_append_of_fails fails, List.takeWhile_idem]

theorem take_left_add (front back : List Char) (n : Nat) :
    (front ++ back).take (front.length + n) = front ++ back.take n := by
  rw [List.take_append, List.take_of_length_le (Nat.le_add_right _ _), Nat.add_sub_cancel_left]

theorem fails_take {p : Char → Bool} {text : List Char} (fails : ∀ c cs, text = c :: cs → p c = false)
    (n : Nat) : ∀ c cs, text.take n = c :: cs → p c = false := by
  intro c cs same
  cases text with
  | nil => simp at same
  | cons first others =>
    cases n with
    | zero => cases same
    | succ n => exact fails c others (by rw [(List.cons.inj same).1])

theorem head_of_take {text : List Char} {n : Nat} {c : Char}
    (head : (text.take n).head? = some c) : text.head? = some c := by
  rw [List.head?_take] at head
  split at head
  · cases head
  · exact head

/-- What is kept of a text ends within its front or behind it. -/
theorem take_within_or_behind (front back : List Char) (n : Nat) :
    (front ++ back).take n = front.take n ∨ ∃ k, (front ++ back).take n = front ++ back.take k := by
  rcases Nat.le_total n front.length with within | behind
  · exact .inl (List.take_append_of_le_length within)
  · obtain ⟨k, rfl⟩ := Nat.exists_eq_add_of_le behind
    exact .inr ⟨k, take_left_add front back k⟩

theorem takeWhile_take {p : Char → Bool} {text front : List Char}
    (taken : text.takeWhile p = front) (n : Nat) : (front.take n).takeWhile p = front.take n := by
  rw [← taken, ← List.take_takeWhile, List.takeWhile_idem]

theorem bitSelectLength_take (text : List Char) (extra : Nat) :
    bitSelectLength (text.take (bitSelectLength text + extra)) = bitSelectLength text ∧
      bitSelectLength text ≤ text.length := by
  cases text with
  | nil => exact ⟨by rw [List.take_nil], Nat.zero_le _⟩
  | cons c cs =>
    by_cases opens : c = '['
    · subst opens
      obtain ⟨digits, back, rfl, taken, fails, again⟩ := takeWhile_cut Char.isDigit cs
      have shape {rest : List Char} (stops : ∀ c cs, rest = c :: cs → c.isDigit = false) :
          bitSelectLength ('[' :: (digits ++ rest)) =
            if digits.length ≠ 0 ∧ rest.head? = some ']' then digits.length + 2 else 0 := by
        simp only [bitSelectLength, again rest stops, List.drop_left]
      rw [shape fails]
      by_cases closed : digits.length ≠ 0 ∧ back.head? = some ']'
      · rw [if_pos closed]
        cases back with
        | nil => simp at closed
        | cons last back =>
          have kept : ('[' :: (digits ++ last :: back)).take (digits.length + 2 + extra) =
              '[' :: (digits ++ (last :: back).take (extra + 1)) := by
            rw [show digits.length + 2 + extra = digits.length + (extra + 1) + 1 by omega,
              List.take_succ_cons, take_left_add]
          rw [kept, shape (fails_take fails _), if_pos ⟨closed.1, by simpa using closed.2⟩]
          exact ⟨rfl, by simp⟩
      · rw [if_neg closed, Nat.zero_add]
        refine ⟨?_, Nat.zero_le _⟩
        cases extra with
        | zero => rfl
        | succ n =>
          rw [List.take_succ_cons]
          rcases take_within_or_behind digits back n with kept | ⟨k, kept⟩
          · simp [bitSelectLength, kept, takeWhile_take taken]
          · rw [kept, shape (fails_take fails k), if_neg]
            exact fun ⟨some_, head⟩ => closed ⟨some_, head_of_take head⟩
    · have none (rest : List Char) : bitSelectLength (c :: rest) = 0 := by
        simp [bitSelectLength, opens]
      rw [none, Nat.zero_add]
      refine ⟨?_, Nat.zero_le _⟩
      cases extra with
      | zero => rfl
      | succ n => exact none (cs.take n)

theorem word_take (c : Char) (cs : List Char) (extra : Nat) :
    word c (cs.take ((word c cs).more + extra)) = word c cs ∧ (word c cs).more ≤ cs.length := by
  obtain ⟨tail, back, rfl, taken, fails, again⟩ := takeWhile_cut isNameChar cs
  cases found : Keyword.ofString? (String.ofList (c :: tail)) with
  | some keyword =>
    have shape {rest : List Char} (stops : ∀ c cs, rest = c :: cs → isNameChar c = false) :
        word c (tail ++ rest) = ⟨.keyword keyword, tail.length⟩ := by
      simp only [word, again rest stops, found]
    rw [shape fails, take_left_add, shape (fails_take fails extra)]
    exact ⟨rfl, by simp⟩
  | none =>
    have shape {rest : List Char} (stops : ∀ c cs, rest = c :: cs → isNameChar c = false) :
        word c (tail ++ rest) = ⟨.name, tail.length + bitSelectLength rest⟩ := by
      simp only [word, again rest stops, found, List.drop_left]
    obtain ⟨select, within⟩ := bitSelectLength_take back extra
    rw [shape fails, Nat.add_assoc, take_left_add, shape (fails_take fails _), select]
    exact ⟨rfl, by simpa using within⟩

theorem task_take {cs : List Char} {found : Lexeme} (ok : task cs = .ok found) (extra : Nat) :
    task (cs.take (found.more + extra)) = .ok found ∧ found.more ≤ cs.length := by
  obtain ⟨name, back, rfl, taken, fails, again⟩ := takeWhile_cut Char.isLower cs
  cases known : CheckTask.ofString? (String.ofList name) with
  | some check =>
    have shape {rest : List Char} (stops : ∀ c cs, rest = c :: cs → c.isLower = false) :
        task (name ++ rest) = .ok ⟨.task check, name.length⟩ := by
      simp only [task, again rest stops, known]
    rw [shape fails] at ok
    cases ok
    rw [take_left_add, shape (fails_take fails extra)]
    exact ⟨rfl, by simp⟩
  | none => simp only [task, taken, known, reduceCtorEq] at ok

/-- A string is whatever stands before its closing quote. -/
theorem lexeme_string (start : Bool) (cs : List Char) : lexeme start '"' cs = string cs := by
  simp [lexeme, isNameStart, basedLength?]

theorem string_cut {cs : List Char} {found : Lexeme} (ok : string cs = .ok found) :
    ∃ body back, cs = body ++ '"' :: back ∧ found = ⟨.string, body.length + 1⟩ ∧ '\n' ∉ body ∧
      ∀ back', string (body ++ '"' :: back') = .ok ⟨.string, body.length + 1⟩ := by
  obtain ⟨body, back, rfl, taken, _, again⟩ := takeWhile_cut (fun c => c != '"' && c != '\n') cs
  rw [string, taken] at ok
  simp only [List.drop_left] at ok
  split at ok
  next closed =>
    cases ok
    obtain ⟨others, rfl⟩ := List.head?_eq_some_iff.mp closed
    refine ⟨body, others, rfl, rfl, fun member => ?_, fun back' => ?_⟩
    · exact absurd (List.mem_takeWhile_imp (taken ▸ member)) (by decide)
    · rw [string, again ('"' :: back') fun c cs same => by simp [← (List.cons.inj same).1]]
      simp
  next => cases ok

section Lengths

variable {cs : List Char}

/-- The length of a real number whose first digits have been counted. -/
def realLengthFrom? (whole : Nat) : List Char → Option Nat
  | '.' :: rest =>
    let fraction := (rest.takeWhile Char.isDigit).length
    if whole ≠ 0 ∧ fraction ≠ 0 then some (whole + 1 + fraction) else none
  | _ => none

theorem realLength_eq (cs : List Char) :
    realLength? cs = realLengthFrom? (cs.takeWhile Char.isDigit).length
      (cs.drop (cs.takeWhile Char.isDigit).length) := by
  unfold realLength? realLengthFrom?
  rfl

theorem realLengthFrom_take_none {whole : Nat} {rest : List Char}
    (none : realLengthFrom? whole rest = none) (n : Nat) :
    realLengthFrom? whole (rest.take n) = Option.none := by
  cases rest with
  | nil => rw [List.take_nil, none]
  | cons c rest =>
    cases n with
    | zero => rfl
    | succ n =>
      rw [List.take_succ_cons]
      by_cases point : c = '.'
      · subst point
        simp only [realLengthFrom?, ite_eq_right_iff, reduceCtorEq, imp_false, not_and] at none ⊢
        intro some_ digit
        refine none some_ fun empty => digit ?_
        rw [← List.take_takeWhile, List.length_eq_zero_iff.mp empty, List.take_nil]
        rfl
      · simp [realLengthFrom?, point]

theorem realLength_take {length : Nat} (real : realLength? cs = some length) (extra : Nat) :
    realLength? (cs.take (length + extra)) = some length ∧ length ≤ cs.length := by
  obtain ⟨whole, back, rfl, taken, fails, again⟩ := takeWhile_cut Char.isDigit cs
  rw [realLength_eq, taken, List.drop_left] at real
  unfold realLengthFrom? at real
  split at real
  next rest =>
    obtain ⟨fraction, others, rfl, taken', fails', again'⟩ := takeWhile_cut Char.isDigit rest
    rw [taken'] at real
    dsimp only at real
    split at real
    next some_ =>
      cases real
      have kept : (whole ++ '.' :: (fraction ++ others)).take
          (whole.length + 1 + fraction.length + extra) =
          whole ++ '.' :: (fraction ++ others.take extra) := by
        rw [show whole.length + 1 + fraction.length + extra =
            whole.length + (fraction.length + extra + 1) by omega, take_left_add,
          List.take_succ_cons, take_left_add]
      have whole' : (whole ++ '.' :: (fraction ++ others.take extra)).takeWhile Char.isDigit = whole :=
        again _ (by rintro _ _ ⟨⟩; rfl)
      rw [kept, realLength_eq, whole', List.drop_left]
      simp only [realLengthFrom?, again' _ (fails_take fails' extra), if_pos some_]
      refine ⟨trivial, ?_⟩
      simp only [List.length_append, List.length_cons]
      omega
    next => cases real
  next => cases real

theorem realLength_take_none (none : realLength? cs = none) (n : Nat) :
    realLength? (cs.take n) = Option.none := by
  obtain ⟨whole, back, rfl, taken, fails, again⟩ := takeWhile_cut Char.isDigit cs
  rw [realLength_eq, taken, List.drop_left] at none
  rcases take_within_or_behind whole back n with kept | ⟨k, kept⟩
  · rw [kept, realLength_eq, takeWhile_take taken, List.drop_length]
    rfl
  · rw [kept, realLength_eq, again _ (fails_take fails k), List.drop_left]
    exact realLengthFrom_take_none none k

theorem basedLength_take {length : Nat} (based : basedLength? cs = some length) (extra : Nat) :
    basedLength? (cs.take (length + extra)) = some length ∧ length ≤ cs.length := by
  unfold basedLength? at based
  split at based
  next letter cs =>
    obtain ⟨digits, back, rfl, taken, fails, again⟩ := takeWhile_cut isBasedDigit cs
    rw [taken] at based
    dsimp only at based
    split at based
    next some_ =>
      cases based
      have kept : ('\'' :: letter :: (digits ++ back)).take (digits.length + 2 + extra) =
          '\'' :: letter :: (digits ++ back.take extra) := by
        rw [show digits.length + 2 + extra = digits.length + extra + 1 + 1 by omega,
          List.take_succ_cons, List.take_succ_cons, take_left_add]
      rw [kept]
      simp only [basedLength?, again _ (fails_take fails extra), if_pos some_]
      exact ⟨trivial, by simp⟩
    next => cases based
  next => cases based

theorem basedLength_take_none (none : basedLength? cs = none) (n : Nat) :
    basedLength? (cs.take n) = Option.none := by
  match cs, n with
  | [], _ => rw [List.take_nil]; rfl
  | _ :: _, 0 => rfl
  | [_], n + 1 => rw [List.take_succ_cons, List.take_nil, none]
  | c :: _ :: _, 1 => by_cases quote : c = '\'' <;> simp [basedLength?, quote]
  | c :: letter :: cs, n + 2 =>
    rw [List.take_succ_cons, List.take_succ_cons]
    by_cases quote : c = '\''
    · subst quote
      simp only [basedLength?, ite_eq_right_iff, reduceCtorEq, imp_false, not_and] at none ⊢
      intro base digit
      refine none base fun empty => digit ?_
      rw [← List.take_takeWhile, List.length_eq_zero_iff.mp empty, List.take_nil]
      rfl
    · simp [basedLength?, quote]

theorem unsignedLength_take (cs : List Char) (extra : Nat) :
    unsignedLength (cs.take (unsignedLength cs + extra)) = unsignedLength cs ∧
      unsignedLength cs ≤ cs.length := by
  unfold unsignedLength
  cases real : realLength? cs with
  | some length =>
    obtain ⟨again, within⟩ := realLength_take real extra
    rw [again]
    exact ⟨rfl, within⟩
  | none =>
    rw [realLength_take_none real]
    obtain ⟨size, back, rfl, taken, fails, again⟩ := takeWhile_cut Char.isDigit cs
    dsimp only
    rw [taken, List.drop_left, Nat.add_assoc, take_left_add, again _ (fails_take fails _),
      List.drop_left, List.length_append]
    cases based : basedLength? back with
    | none =>
      rw [basedLength_take_none based]
      exact ⟨rfl, by simp⟩
    | some length =>
      obtain ⟨again, within⟩ := basedLength_take based extra
      rw [Option.getD_some, again]
      exact ⟨rfl, Nat.add_le_add_left within _⟩

theorem unsignedLength_of_based {length : Nat} (based : basedLength? cs = some length) :
    unsignedLength cs = length := by
  unfold basedLength? at based
  split at based
  next letter cs =>
    change 0 + (basedLength? ('\'' :: letter :: cs)).getD 0 = length
    rw [basedLength?, based, Option.getD_some, Nat.zero_add]
  next => cases based

theorem number_take {c : Char} {length : Nat} {found : Lexeme}
    (ok : number (c :: cs) length = .ok found) (within : length ≤ cs.length + 1) (extra : Nat) :
    length = found.more + 1 ∧ number (c :: cs.take (found.more + extra)) length = .ok found := by
  unfold number at ok
  split at ok
  next some_ =>
    cases ok
    have positive : length ≠ 0 := by
      rintro rfl
      cases some_
    have same : length = length - 1 + 1 := by omega
    refine ⟨same, ?_⟩
    have kept : (c :: cs.take (length - 1 + extra)).take length = (c :: cs).take length := by
      rw [← List.take_succ_cons, List.take_take, Nat.min_eq_left (by omega)]
    rw [number, kept, if_pos some_]
  next => cases ok

end Lengths

/-- Only the longest symbol at the front counts, and it is in what is kept. -/
theorem atFront_take {text : List Char} {symbol : Symbol}
    (front : Symbol.atFront? text = some symbol) {n : Nat} (enough : (letters symbol).length ≤ n) :
    Symbol.atFront? (text.take n) = some symbol := by
  obtain ⟨begins, longer, others, order, none⟩ := List.find?_eq_some_iff_append.mp front
  refine List.find?_eq_some_iff_append.mpr ⟨?_, longer, others, order, fun other member => ?_⟩
  · rw [toList_spelling]
    have within : letters symbol <+: text := letters_of_atFront front
    exact List.isPrefixOf_iff_prefix.mpr
      (List.prefix_of_prefix_length_le within (List.take_prefix n text) (by
        rw [List.length_take]
        exact Nat.le_min.mpr ⟨enough, within.length_le⟩))
  · have absent := none other member
    simp only [Bool.not_eq_true'] at absent ⊢
    rw [Bool.eq_false_iff] at absent ⊢
    exact fun begins => absent <| List.isPrefixOf_iff_prefix.mpr <|
      (List.isPrefixOf_iff_prefix.mp begins).trans (List.take_prefix n text)

/-- What is cut off as a lexeme is the same lexeme by itself, and before a part of what
follows it. -/
theorem lexeme_take {start : Bool} {c : Char} {cs : List Char} {found : Lexeme}
    (ok : lexeme start c cs = .ok found) (extra : Nat) :
    lexeme start c (cs.take (found.more + extra)) = .ok found ∧ found.more ≤ cs.length := by
  cases cut_of_ok ok with
  | word starts =>
    obtain ⟨again, within⟩ := word_take c cs extra
    exact ⟨by rw [(Cut.word starts).ok, again], within⟩
  | task dollar named =>
    obtain ⟨again, within⟩ := task_take named extra
    exact ⟨(Cut.task dollar again).ok, within⟩
  | unsigned digit read =>
    obtain ⟨again, within⟩ := unsignedLength_take (c :: cs) extra
    obtain ⟨length, kept⟩ := number_take read within extra
    rw [length, Nat.add_right_comm, List.take_succ_cons, ← length] at again
    refine ⟨(Cut.unsigned ?_ (again.symm ▸ kept)).ok, by simp at within; omega⟩
    refine digit.imp_right fun based => ?_
    obtain ⟨n, based⟩ := Option.isSome_iff_exists.mp based
    have same := (basedLength_take based extra).1
    rw [← unsignedLength_of_based based, length, Nat.add_right_comm, List.take_succ_cons] at same
    rw [same]
    rfl
  | signed sign operand real read =>
    obtain ⟨n, real⟩ := Option.isSome_iff_exists.mp real
    have whole : unsignedLength cs = n := by rw [unsignedLength, real]
    rw [whole] at read
    obtain ⟨again, within⟩ := realLength_take real extra
    obtain ⟨length, kept⟩ := number_take read (by omega) extra
    obtain rfl : found.more = n := by omega
    have whole' : unsignedLength (cs.take (found.more + extra)) = found.more := by
      rw [unsignedLength, again]
    exact ⟨(Cut.signed sign operand (by rw [again]; rfl) (by rwa [whole'])).ok, within⟩
  | string quote closed =>
    obtain ⟨body, back, rfl, rfl, _, again⟩ := string_cut closed
    refine ⟨(Cut.string quote ?_).ok, by simp⟩
    rw [Nat.add_assoc, take_left_add, Nat.add_comm, List.take_succ_cons]
    exact again _
  | @symbol symbol front unsigned =>
    have within := (letters_of_atFront front).length_le
    rw [← length_spelling, List.length_cons] at within
    have long : symbol.spelling.length ≤ symbol.spelling.length - 1 + extra + 1 := by omega
    rw [length_spelling] at long
    have kept := atFront_take front long
    rw [List.take_succ_cons, ← length_spelling] at kept
    have still : ¬((c = '+' ∨ c = '-') ∧ start ∧
        (realLength? (cs.take (symbol.spelling.length - 1 + extra))).isSome) := by
      rintro ⟨sign, operand, real⟩
      cases whole : realLength? cs with
      | some => exact unsigned ⟨sign, operand, by rw [whole]; rfl⟩
      | none =>
        rw [realLength_take_none whole] at real
        cases real
    exact ⟨(Cut.symbol kept still).ok, Nat.sub_le_of_le_add within⟩

end Cutting

section Lexeme

variable {start : Bool} {c : Char} {cs rest : List Char} {kind : Kind}

theorem number_append {length : Nat}
    (read : number (c :: cs) length = .ok ⟨kind, cs.length⟩) :
    number (c :: (cs ++ rest)) length = .ok ⟨kind, cs.length⟩ := by
  have within : length ≤ (c :: cs).length := by
    rw [number] at read
    split at read
    · simp only [Except.ok.injEq, Lexeme.mk.injEq] at read
      simp only [List.length_cons]
      omega
    · cases read
  rw [number] at read ⊢
  rwa [← List.cons_append, List.take_append_of_le_length within]

theorem string_append {found : Lexeme} (ok : string cs = .ok found) :
    string (cs ++ rest) = .ok found := by
  obtain ⟨body, back, rfl, rfl, _, again⟩ := string_cut ok
  rw [List.append_assoc, List.cons_append, again]

/-- A text that is one lexeme stays one before an ending; only a symbol might go on. -/
theorem lexeme_append (ends : Ends rest) (apart : kind = .name ∨ kind = .number ∨ Apart rest)
    (found : lexeme start c cs = .ok ⟨kind, cs.length⟩) :
    lexeme start c (cs ++ rest) = .ok ⟨kind, cs.length⟩ := by
  refine Cut.ok ?_
  have cut := cut_of_ok found
  generalize whole : (⟨kind, cs.length⟩ : Lexeme) = lexeme at cut ⊢
  cases cut with
  | word starts => exact word_append ends c cs ▸ Cut.word starts
  | task dollar named => exact .task dollar ((task_append ends cs).trans named)
  | unsigned digit read =>
    subst whole
    have based := basedLength_append ends (c :: cs)
    have length := unsignedLength_append ends (c :: cs)
    rw [List.cons_append] at based length
    refine .unsigned (based.symm ▸ digit) ?_
    rw [length]
    exact number_append read
  | signed sign operand real read =>
    subst whole
    refine .signed sign operand (realLength_append ends cs ▸ real) ?_
    rw [unsignedLength_append ends]
    exact number_append read
  | string quote closed => exact .string quote (string_append closed)
  | @symbol symbol front unsigned =>
    obtain ⟨rfl, length⟩ := Lexeme.mk.inj whole
    have spelled : letters symbol = c :: cs := by
      refine (letters_of_atFront front).eq_of_length ?_
      rw [← length_spelling, List.length_cons, length]
      cases symbol <;> rfl
    have apart : Apart rest := by simpa using apart
    refine .symbol ?_ (by rwa [realLength_append ends])
    rw [← List.cons_append, ← spelled]
    exact atFront_letters (.inr apart)

end Lexeme

section Spelling

/-- A name is its own lexeme, a symbol is written as it is spelled. -/
structure Spelled (t : Token) : Prop where
  name : t.kind = .name → Lexes .name t.text
  symbol : ∀ symbol, t.kind = .symbol symbol → t.text = symbol.spelling

theorem spelled_of_lexeme {start : Bool} {c : Char} {cs : List Char} {found : Lexeme}
    (ok : lexeme start c cs = .ok found) (line offset : Nat) :
    Spelled ⟨found.kind, String.ofList (c :: cs.take found.more), line, offset⟩ := by
  have neither (name : found.kind ≠ .name) (symbol : ∀ symbol, found.kind ≠ .symbol symbol) :
      Spelled ⟨found.kind, String.ofList (c :: cs.take found.more), line, offset⟩ :=
    ⟨fun same => absurd same name, fun other same => absurd same (symbol other)⟩
  cases cut_of_ok ok with
  | word starts =>
    refine ⟨fun name => ?_, fun symbol other => ?_⟩
    · obtain ⟨again, within⟩ := word_take c cs 0
      rw [Nat.add_zero] at again
      have kept : (cs.take (word c cs).more).length = (word c cs).more :=
        List.length_take_of_le within
      refine ⟨c, cs.take (word c cs).more, String.toList_ofList, ?_⟩
      rw [(Cut.word starts).ok, again, kept, ← show (word c cs).kind = .name from name]
    · rcases word_kind c cs with ⟨_, kind⟩ | kind <;> cases kind.symm.trans other
  | task _ named =>
    obtain ⟨_, kind⟩ := task_kind named
    exact neither (by simp [kind]) (by simp [kind])
  | unsigned _ read | signed _ _ _ read =>
    exact neither (by simp [number_kind read]) (by simp [number_kind read])
  | string _ closed => exact neither (by simp [string_kind closed]) (by simp [string_kind closed])
  | @symbol symbol front =>
    refine ⟨by simp, fun _ other => ?_⟩
    cases other
    change String.ofList (c :: cs.take (symbol.spelling.length - 1)) = _
    rw [taken_of_atFront front, ← toList_spelling, String.ofList_toList]

theorem tokensFrom_spelled {line start : Nat} {operandMayStart : Bool} {text : List Char}
    {ts : List Token} (ok : tokensFrom line start operandMayStart text = .ok ts) :
    ∀ t ∈ ts, Spelled t := by
  intro t member
  by_cases ending : t.kind = .endOfInput
  · exact ⟨by simp [ending], by simp [ending]⟩
  · obtain ⟨_, c, cs, found, cut, kind, text⟩ := lexeme_of_mem ok member ending
    obtain ⟨_, _, line, offset⟩ := t
    cases kind
    cases text
    exact spelled_of_lexeme cut line offset

end Spelling

end CellTiming.Token
