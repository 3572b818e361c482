import CellTiming.Proofs.Constant
import CellTiming.Proofs.DeclaredValues
import CellTiming.Proofs.Literal
import CellTiming.Proofs.Reread
import CellTiming.Proofs.Spacing

/-! Constant expressions as trees. A tree is written out with any blanks and with parentheses
around any of its parts, those around the right side of a sum being needed. The text is cut
into the words of an expression that has the value of the tree, although the sign before a
real may be in one lexeme with it. -/
namespace CellTiming

inductive Sign
  | plus
  | minus

namespace Sign

def letter : Sign → Char
  | plus => '+'
  | minus => '-'

def symbol : Sign → Symbol
  | plus => .plus
  | minus => .minus

def apply : Sign → Number → Number
  | plus => id
  | minus => Number.neg

def join : Sign → Number → Number → Number
  | plus => Number.add
  | minus => Number.sub

end Sign

inductive Formula
  | literal (n : Number)
  | name (text : String)
  | signed (sign : Sign) (operand : Formula)
  | joined (sign : Sign) (left right : Formula)

/-- A name has the value it is declared with; only the placeholder needs no declaration. -/
def Formula.value (table : Specparams) : Formula → Option Number
  | literal n => some n
  | name text =>
    (table.lookup text).or (if text = Grammar.placeholder then some (Number.ofInt 0) else none)
  | signed sign operand => (operand.value table).map sign.apply
  | joined sign left right => do return sign.join (← left.value table) (← right.value table)

namespace Token

/-- From one place of a text to a later one, with the words between them. -/
def Leads (start : Bool) (text : List Char) (between : List Word) (stop : Bool)
    (rest : List Char) : Prop :=
  ∀ line offset, ∃ ts line' offset', tokensFrom line offset start text =
    (tokensFrom line' offset' stop rest).map (ts ++ ·) ∧ words ts = between

section Leading

variable {start middle stop : Bool} {text more rest gap : List Char} {first second : List Word}

theorem Leads.trans (leads : Leads start text first middle more)
    (others : Leads middle more second stop rest) : Leads start text (first ++ second) stop rest := by
  intro line offset
  obtain ⟨ts, line', offset', step, same⟩ := leads line offset
  obtain ⟨us, line'', offset'', step', same'⟩ := others line' offset'
  refine ⟨ts ++ us, line'', offset'', ?_, by rw [words_append, same, same']⟩
  rw [step, step']
  cases tokensFrom line'' offset'' stop rest with
  | error e => rfl
  | ok found => exact congrArg Except.ok (List.append_assoc ts us found).symm

theorem leads_gap (blank : ∀ c ∈ gap, isBlank c = true) (start : Bool) (rest : List Char) :
    Leads start (gap ++ rest) [] start rest := by
  intro line offset
  obtain ⟨line', offset', step⟩ := tokensFrom_gap blank line offset start rest
  refine ⟨[], line', offset', ?_, rfl⟩
  rw [step]
  cases tokensFrom line' offset' start rest <;> rfl

theorem leads_lexeme {c : Char} {cs : List Char} {kind : Kind}
    (found : lexeme start c (cs ++ rest) = .ok ⟨kind, cs.length⟩) :
    Leads start (c :: (cs ++ rest)) [(kind, String.ofList (c :: cs))] (!kind.endsOperand) rest := by
  intro line offset
  obtain ⟨next, step⟩ := tokensFrom_lexeme found line offset
  exact ⟨[⟨kind, String.ofList (c :: cs), line, offset⟩], line, next, step, rfl⟩

theorem leads_severed {c : Char} {cs : List Char} {kind : Kind} (severed : Severed (c :: cs) rest)
    (plain : kind ≠ .string) (found : lexeme start c cs = .ok ⟨kind, cs.length⟩) :
    Leads start (c :: cs ++ rest) [(kind, String.ofList (c :: cs))] (!kind.endsOperand) rest := by
  refine leads_lexeme ((lexeme_severed severed ?_).trans found)
  rintro rfl
  exact plain (string_kind found)

/-- No longer symbol begins with the symbol. -/
def isSingle (symbol : Symbol) : Bool :=
  [.plus, .minus, .leftParen, .rightParen, .comma, .semicolon].contains symbol

theorem leads_symbol {symbol : Symbol} {c : Char} (ends : isSingle symbol = true ∨ Apart rest)
    (spelled : letters symbol = [c])
    (alone : ¬((c = '+' ∨ c = '-') ∧ start ∧ (realLength? rest).isSome)) :
    Leads start (c :: rest) [symbolWord symbol] (!(Kind.symbol symbol).endsOperand) rest := by
  have front : Symbol.atFront? (letters symbol ++ rest) = some symbol := by
    rcases ends with single | apart
    · simp only [Symbol.atFront?, Symbol.longestFirst, toList_spelling]
      cases symbol <;> first
        | (cases single; done)
        | simp [letters, List.isPrefixOf]
    · exact atFront_letters (.inr apart)
  rw [spelled, List.singleton_append] at front
  have found : lexeme start c ([] ++ rest) = .ok ⟨.symbol symbol, ([] : List Char).length⟩ := by
    have cut : Cut start c rest ⟨.symbol symbol, symbol.spelling.length - 1⟩ := .symbol front alone
    rw [length_spelling, spelled] at cut
    exact cut.ok
  have word : symbolWord symbol = (.symbol symbol, String.ofList [c]) := by
    rw [symbolWord, ← spelled, ← toList_spelling, String.ofList_toList]
  rw [word]
  exact leads_lexeme found

theorem realLength_none {c : Char} (other : c.isDigit = false) (cs : List Char) :
    realLength? (c :: cs) = none := by
  rw [realLength_eq, List.takeWhile_cons, other]
  unfold realLengthFrom?
  simp only [Bool.false_eq_true, if_false, List.length_nil, List.drop_zero]
  split <;> simp

/-- Nothing before the text can go on with it. -/
def Follows (rest : List Char) : Prop := ∀ v ∈ rest.head?, ∀ u, fuses u v = false

theorem Follows.severed (follows : Follows rest) (text : List Char) : Severed text rest :=
  fun u _ v head => follows v head u

theorem Follows.append_gap (follows : Follows rest) (blank : ∀ c ∈ gap, isBlank c = true) :
    Follows (gap ++ rest) := by
  cases gap with
  | nil => exact follows
  | cons c gap =>
    rintro v ⟨⟩
    exact fuses_blank_right (blank c List.mem_cons_self)

theorem follows_cons {c : Char}
    (plain : (isNameChar c || ['[', ']', '.', '\'', '&', '=', '>'].contains c) = false)
    (rest : List Char) : Follows (c :: rest) := by
  rintro v ⟨⟩
  exact fuses_right plain

end Leading

end Token

namespace Formula

open Token Operators Grammar

inductive Place
  | operand
  | row

def Place.phrase : Place → Phrase Number
  | operand => .operand
  | row => .operation 0

/-- The texts of a tree, where it is an operand and where it is a row of operands. -/
inductive Written : Place → Formula → List Char → Prop
  | literal {n text} (literal : Number.Literal text n) : Written .operand (.literal n) text
  | name {text} (lexes : Lexes .name text) : Written .operand (.name text) text.toList
  | signed {sign gap operand text} (blank : ∀ c ∈ gap, isBlank c = true)
      (written : Written .operand operand text) :
      Written .operand (.signed sign operand) (sign.letter :: (gap ++ text))
  | group {front back formula text} (blank : ∀ c ∈ front, isBlank c = true)
      (blank' : ∀ c ∈ back, isBlank c = true) (written : Written .row formula text) :
      Written .operand formula ('(' :: (front ++ (text ++ (back ++ [')']))))
  | alone {operand text} (written : Written .operand operand text) : Written .row operand text
  | joined {sign before after left right first second} (blank : ∀ c ∈ before, isBlank c = true)
      (blank' : ∀ c ∈ after, isBlank c = true) (row : Written .row left first)
      (last : Written .operand right second) :
      Written .row (.joined sign left right)
        (first ++ (before ++ sign.letter :: (after ++ second)))

/-- The literals and names have texts. -/
inductive Writable : Formula → Prop
  | literal {n text} (literal : Number.Literal text n) : Writable (.literal n)
  | name {text} (lexes : Lexes .name text) : Writable (.name text)
  | signed {sign operand} (within : Writable operand) : Writable (.signed sign operand)
  | joined {sign left right} (first : Writable left) (second : Writable right) :
      Writable (.joined sign left right)

theorem Writable.written {formula : Formula} (writable : Writable formula) :
    ∃ text, Written .operand formula text := by
  have none : ∀ c ∈ ([] : List Char), isBlank c = true := by simp
  induction writable with
  | literal literal => exact ⟨_, .literal literal⟩
  | name lexes => exact ⟨_, .name lexes⟩
  | signed _ ih =>
    obtain ⟨text, written⟩ := ih
    exact ⟨_, .signed none written⟩
  | joined _ _ ih ih' =>
    obtain ⟨first, row⟩ := ih
    obtain ⟨second, last⟩ := ih'
    exact ⟨_, .group none none (.joined none none (.alone row) last)⟩

/-- The words of a text that stand for a value, whatever follows it. -/
def Stands (table : Specparams) (place : Place) (text : List Char) (value : Number) : Prop :=
  ∃ used, Reads (constants table) place.phrase used value ∧
    ∀ rest, Follows rest → Leads true (text ++ rest) (words used) false rest

section Standing

variable {table : Specparams} {place : Place} {formula : Formula} {text : List Char} {value : Number}

theorem stands_literal (literal : Number.Literal text value) : Stands table .operand text value := by
  obtain ⟨c, cs, rfl⟩ := List.exists_cons_of_ne_nil literal.ne_nil
  refine ⟨[⟨.number, String.ofList (c :: cs), 1, 0⟩], .atom rfl rfl ?_, fun rest follows => ?_⟩
  · exact numberOf_ok.mpr (by rw [Number.ofString?, String.toList_ofList]; exact literal.read)
  · exact leads_severed (follows.severed _) (by simp) (literal.lexeme true)

theorem stands_name {name : String} (lexes : Lexes .name name)
    (known : (Formula.name name).value table = some value) :
    Stands table .operand name.toList value := by
  obtain ⟨c, cs, spelled, found⟩ := lexes
  have text : String.ofList (c :: cs) = name := by rw [← spelled, String.ofList_toList]
  refine ⟨[⟨.name, String.ofList (c :: cs), 1, 0⟩], .atom rfl rfl ?_, fun rest follows => ?_⟩
  · change specparamValue table ⟨.name, String.ofList (c :: cs), 1, 0⟩ = .ok value
    rw [specparamValue, text]
    simp only [Formula.value] at known
    cases declared : table.lookup name with
    | some n =>
      rw [declared] at known
      cases known
      rfl
    | none =>
      rw [declared, Option.none_or] at known
      split at known
      next same =>
        cases known
        simp [same]
      next => cases known
  · rw [spelled]
    exact leads_severed (follows.severed _) (by simp) found

theorem stands_group {front back : List Char} (blank : ∀ c ∈ front, isBlank c = true)
    (blank' : ∀ c ∈ back, isBlank c = true) (stands : Stands table .row text value) :
    Stands table .operand ('(' :: (front ++ (text ++ (back ++ [')'])))) value := by
  obtain ⟨used, reads, leads⟩ := stands
  refine ⟨symbolToken .leftParen :: (used ++ [symbolToken .rightParen]),
    .group rfl rfl rfl rfl reads, fun rest _ => ?_⟩
  have closed : Follows (back ++ ')' :: rest) := (follows_cons rfl rest).append_gap blank'
  have opens : Leads true ('(' :: (front ++ (text ++ (back ++ ')' :: rest))))
      [symbolWord .leftParen] true (text ++ (back ++ ')' :: rest)) :=
    (leads_symbol (.inl rfl) rfl (by simp)).trans (leads_gap blank true _)
  have closes : Leads false (back ++ ')' :: rest) [symbolWord .rightParen] false rest :=
    (leads_gap blank' false _).trans (leads_symbol (.inl rfl) rfl (by simp))
  have whole := opens.trans ((leads _ closed).trans closes)
  simpa [words_append] using whole

/-- A sign that is not directly before a real stands alone. -/
theorem leads_sign (sign : Sign) {start : Bool} {gap rest : List Char}
    (blank : ∀ c ∈ gap, isBlank c = true)
    (apart : start = true → realLength? (gap ++ rest) = none) :
    Leads start (sign.letter :: (gap ++ rest)) [symbolWord sign.symbol] true rest := by
  have alone : ¬((sign.letter = '+' ∨ sign.letter = '-') ∧ start ∧
      (realLength? (gap ++ rest)).isSome) := by
    rintro ⟨_, operand, real⟩
    rw [apart operand] at real
    cases real
  have first : Leads start (sign.letter :: (gap ++ rest)) [symbolWord sign.symbol] true
      (gap ++ rest) := by
    cases sign <;> exact leads_symbol (.inl rfl) rfl alone
  exact first.trans (leads_gap blank true rest)

theorem stands_apart {gap : List Char} (sign : Sign) (blank : ∀ c ∈ gap, isBlank c = true)
    (apart : ∀ rest, Follows rest → realLength? (gap ++ (text ++ rest)) = none)
    (stands : Stands table .operand text value) :
    Stands table .operand (sign.letter :: (gap ++ text)) (sign.apply value) := by
  obtain ⟨used, reads, leads⟩ := stands
  refine ⟨symbolToken sign.symbol :: used, .before ?_ reads, fun rest follows => ?_⟩
  · cases sign <;> rfl
  · have first : Leads true (sign.letter :: (gap ++ (text ++ rest))) [symbolWord sign.symbol] true
        (text ++ rest) := leads_sign sign blank fun _ => apart rest follows
    simpa using first.trans (leads rest follows)

/-- Directly before a real the sign is part of the number. -/
theorem stands_real (sign : Sign) (literal : Number.Literal text value)
    (real : (realLength? text).isSome = true) :
    Stands table .operand (sign.letter :: text) (sign.apply value) := by
  have read : Number.ofChars? (sign.letter :: text) = some (sign.apply value) := by
    obtain ⟨plus, minus⟩ := literal.signed real
    cases sign with
    | plus => exact plus
    | minus => exact minus
  have found : lexeme true sign.letter text = .ok ⟨.number, text.length⟩ := by
    have sign : sign.letter = '+' ∨ sign.letter = '-' := by cases sign <;> simp [Sign.letter]
    refine (Cut.signed sign rfl real (Number.number_whole ?_ read)).ok
    rw [unsignedLength, literal.realLength real, Nat.add_comm, List.length_cons]
  refine ⟨[⟨.number, String.ofList (sign.letter :: text), 1, 0⟩], .atom rfl rfl ?_,
    fun rest follows => leads_severed (follows.severed _) (by simp) found⟩
  exact numberOf_ok.mpr (by rw [Number.ofString?, String.toList_ofList]; exact read)

theorem stands_joined {before after first second : List Char} {left right : Number} (sign : Sign)
    (blank : ∀ c ∈ before, isBlank c = true) (blank' : ∀ c ∈ after, isBlank c = true)
    (row : Stands table .row first left) (last : Stands table .operand second right) :
    Stands table .row (first ++ (before ++ sign.letter :: (after ++ second)))
      (sign.join left right) := by
  obtain ⟨used, reads, leads⟩ := row
  obtain ⟨more, reads', leads'⟩ := last
  have between : (constants table).between (symbolToken sign.symbol) = some (0, sign.join) := by
    cases sign <;> rfl
  have alone : Reads (constants table) (.operation 1) (more ++ []) right := .operation reads' .stop
  rw [List.append_nil] at alone
  refine ⟨used ++ symbolToken sign.symbol :: more, reads.joined between alone, fun rest follows => ?_⟩
  have follows' : Follows (before ++ sign.letter :: (after ++ (second ++ rest))) := by
    refine Follows.append_gap ?_ blank
    cases sign <;> exact follows_cons rfl _
  have joins : Leads false (before ++ sign.letter :: (after ++ (second ++ rest)))
      [symbolWord sign.symbol] true (second ++ rest) :=
    (leads_gap blank false _).trans (leads_sign sign blank' nofun)
  have whole := (leads _ follows').trans (joins.trans (leads' rest follows))
  simpa [words_append] using whole

theorem isNameStart_of_lexeme {start : Bool} {c : Char} {cs : List Char} {found : Lexeme}
    (ok : lexeme start c cs = .ok found) (name : found.kind = .name) : isNameStart c = true := by
  cases cut_of_ok ok with
  | word starts => exact starts
  | task _ named =>
    obtain ⟨_, kind⟩ := task_kind named
    simp [kind] at name
  | unsigned _ read | signed _ _ _ read => simp [number_kind read] at name
  | string _ closed => simp [string_kind closed] at name
  | symbol => cases name

/-- Of the operands only literals begin with a digit. -/
theorem Written.literal_of_digit {c : Char} {cs : List Char}
    (written : Written .operand formula (c :: cs)) (digit : c.isDigit = true) :
    ∃ n, formula = .literal n ∧ Number.Literal (c :: cs) n := by
  generalize same : c :: cs = text at written
  cases written with
  | @literal n text literal => exact ⟨n, rfl, literal⟩
  | name lexes =>
    obtain ⟨first, others, spelled, found⟩ := lexes
    cases same.trans spelled
    have starts := isNameStart_of_lexeme found rfl
    have plain := (@plain_of_digit c cs (.inl digit)).1
    rw [plain] at starts
    cases starts
  | @signed sign => cases sign <;> cases same <;> cases digit
  | group =>
    cases same
    cases digit

theorem Written.ne_nil {place : Place} (written : Written place formula text) : text ≠ [] := by
  induction written with
  | literal literal => exact literal.ne_nil
  | name lexes =>
    obtain ⟨c, cs, spelled, _⟩ := lexes
    simp [spelled]
  | signed | group => simp
  | alone _ ih => exact ih
  | joined => simp

/-- No text of an expression goes on a symbol. -/
theorem Written.apart {place : Place} (written : Written place formula text) (rest : List Char) :
    Apart (text ++ rest) := by
  induction written generalizing rest with
  | literal literal =>
    obtain ⟨c, cs, rfl⟩ := List.exists_cons_of_ne_nil literal.ne_nil
    rintro _ _ ⟨⟩
    exact letter_of_operand (.inr rfl) (literal.lexeme true)
  | name lexes =>
    obtain ⟨c, cs, spelled, found⟩ := lexes
    rw [spelled]
    rintro _ _ ⟨⟩
    exact letter_of_operand (.inl rfl) found
  | @signed sign =>
    rintro _ _ ⟨⟩
    cases sign <;> decide
  | group =>
    rintro _ _ ⟨⟩
    decide
  | alone _ ih => exact ih rest
  | joined _ _ _ _ ih _ =>
    rw [List.append_assoc]
    exact ih _

/-- A sign means the same whether it stands apart from its operand or not. -/
theorem stands_signed {gap : List Char} (sign : Sign) (blank : ∀ c ∈ gap, isBlank c = true)
    (written : Written .operand formula text) (known : formula.value table = some value)
    (stands : Stands table .operand text value) :
    Stands table .operand (sign.letter :: (gap ++ text)) (sign.apply value) := by
  cases gap with
  | cons c gap =>
    have other : c.isDigit = false := by
      have each : ∀ c ∈ [' ', '\t', '\r', '\n'], c.isDigit = false :=
    forall_false_of_any (by decide)
      exact each c (by simpa [isBlank] using blank c List.mem_cons_self)
    exact stands_apart sign blank (fun rest _ => realLength_none other _) stands
  | nil =>
    obtain ⟨c, cs, rfl⟩ := List.exists_cons_of_ne_nil written.ne_nil
    by_cases real : (realLength? (c :: cs)).isSome = true
    · have digit : c.isDigit = true := by
        by_contra other
        rw [realLength_none (by simpa using other)] at real
        cases real
      obtain ⟨n, rfl, literal⟩ := written.literal_of_digit digit
      cases known
      exact stands_real sign literal real
    · refine stands_apart sign blank (fun rest follows => ?_) stands
      have same := realLength_severed (follows.severed (c :: cs)) fun none => by cases none
      exact same.trans (by simpa using real)

theorem Written.stands (written : Written place formula text)
    (known : formula.value table = some value) : Stands table place text value := by
  induction written generalizing value with
  | literal literal =>
    cases known
    exact stands_literal literal
  | name lexes => exact stands_name lexes known
  | @signed sign gap operand text blank written ih =>
    obtain ⟨inner, found, rfl⟩ := Option.map_eq_some_iff.mp known
    exact stands_signed sign blank written found (ih found)
  | group blank blank' _ ih => exact stands_group blank blank' (ih known)
  | alone _ ih =>
    obtain ⟨used, reads, leads⟩ := ih known
    have alone : Reads (constants table) (.operation 0) (used ++ []) value := .operation reads .stop
    rw [List.append_nil] at alone
    exact ⟨used, alone, leads⟩
  | @joined sign before after left right first second blank blank' _ _ ihRow ihLast =>
    simp only [Formula.value, Option.bind_eq_bind, Option.bind_eq_some_iff, Option.pure_def,
      Option.some.injEq] at known
    obtain ⟨a, found, b, found', rfl⟩ := known
    exact stands_joined sign blank blank' (ihRow found) (ihLast found')

end Standing

end Formula

end CellTiming
