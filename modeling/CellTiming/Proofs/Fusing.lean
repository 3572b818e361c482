import CellTiming.Proofs.Lexeme
import CellTiming.Source.Extract
import Mathlib.Data.List.Chain

/-! Where a text can be cut. Two characters fuse if some lexeme, or some macro, has the one
directly before the other. No lexeme but a string goes on over two characters that do not fuse,
so what it is does not depend on what stands behind them. -/
namespace CellTiming.Token

/-- The first character may stand directly before the second inside a lexeme or a macro. -/
def fuses (u v : Char) : Bool :=
  isNameChar u && (isNameChar v || v == '[') ||
  u.isDigit && (v == '.' || v == '\'' || v == ']') ||
  (u == '.' || u == '[' || u == '+' || u == '-') && v.isDigit ||
  u == '\'' && (Number.Base.ofLetter? v).isSome || u == Source.backtick && isNameChar v ||
  u == '&' && v == '&' || u == '=' && (v == '=' || v == '>') || u == '*' && v == '>'

/-- What stands on both sides of the cut between two texts does not fuse. -/
def Severed (text rest : List Char) : Prop :=
  ∀ u ∈ text.getLast?, ∀ v ∈ rest.head?, fuses u v = false

instance (text rest : List Char) : Decidable (Severed text rest) :=
  decidable_of_iff ((text.getLast?.all fun u => rest.head?.all fun v => !fuses u v) = true) <| by
    simp [Severed, Option.all_eq_true]

section Cut

variable {text rest : List Char}

theorem Severed.suffix {tail : List Char} (severed : Severed text rest) (behind : tail <:+ text) :
    Severed tail rest := by
  obtain ⟨front, rfl⟩ := behind
  intro u last
  exact severed u (List.mem_getLast?_append_of_mem_getLast? last)

theorem Severed.before {piece more : List Char} (severed : Severed text (piece ++ more)) :
    Severed text piece := by
  intro u last v head
  refine severed u last v ?_
  rw [List.head?_append, Option.mem_def.mp head]
  rfl

theorem Severed.absurd {u v : Char} (severed : Severed text rest) (last : u ∈ text.getLast?)
    (head : v ∈ rest.head?) (fused : fuses u v = true) : False := by
  rw [severed u last v head] at fused
  cases fused

theorem isNameChar_of_digit {c : Char} (digit : c.isDigit = true) : isNameChar c = true := by
  simp [isNameChar, Char.isAlphanum, digit]

theorem isAlpha_of_toLower {c : Char} (letter : c.toLower.isAlpha = true) : c.isAlpha = true := by
  by_cases upper : c.isUpper = true
  · rw [Char.isAlpha, upper, Bool.true_or]
  · have small : ¬(c.val ≥ 'A'.val ∧ c.val ≤ 'Z'.val) := by simpa [Char.isUpper] using upper
    rwa [Char.toLower, dif_neg small] at letter

theorem isNameChar_of_letter {c : Char} (letter : c.toLower.isAlpha = true) : isNameChar c = true := by
  simp [isNameChar, Char.isAlphanum, isAlpha_of_toLower letter]

theorem isNameChar_of_base {c : Char} (base : (Number.Base.ofLetter? c).isSome = true) :
    isNameChar c = true := by
  obtain ⟨found, known⟩ := Option.isSome_iff_exists.mp base
  have same : found.letter = c.toLower := by simpa using List.find?_some known
  have letters : ∀ base : Number.Base, base.letter.isAlpha = true := by rintro (_ | _) <;> decide
  exact isNameChar_of_letter (same ▸ letters found)

theorem isNameChar_of_basedDigit {c : Char} (digit : isBasedDigit c = true) :
    isNameChar c = true := by
  rw [isBasedDigit, Bool.or_eq_true, beq_iff_eq] at digit
  rcases digit with digit | rfl
  · unfold Number.digitValue? at digit
    dsimp only at digit
    split at digit
    next decimal => exact isNameChar_of_digit (by simpa [Char.isDigit, Char.le_def] using decimal)
    next =>
      split at digit
      next hex =>
        obtain ⟨least, most⟩ := hex
        have lower : c.toLower.isLower = true := by
          have most : c.toLower ≤ 'z' := Char.le_trans most (by decide)
          simpa [Char.isLower, Char.le_def] using And.intro least most
        exact isNameChar_of_letter (by rw [Char.isAlpha, lower, Bool.or_true])
      next => cases digit
  · rfl

theorem isNameChar_of_lower {c : Char} (lower : c.isLower = true) : isNameChar c = true := by
  simp [isNameChar, Char.isAlphanum, Char.isAlpha, lower]

/-- A character that goes on with nothing. -/
theorem fuses_right {v : Char}
    (plain : (isNameChar v || ['[', ']', '.', '\'', '&', '=', '>'].contains v) = false) (u : Char) :
    fuses u v = false := by
  rw [Bool.or_eq_false_iff, List.contains_eq_mem, decide_eq_false_iff_not] at plain
  have digit : v.isDigit = false := by
    by_contra digit
    exact absurd (isNameChar_of_digit (by simpa using digit)) (by simp [plain.1])
  have base : Number.Base.ofLetter? v = none := by
    by_contra base
    exact absurd (isNameChar_of_base (Option.isSome_iff_ne_none.mpr base)) (by simp [plain.1])
  simp only [List.mem_cons, not_or] at plain
  simp [fuses, plain, digit, base]

/-- A character that nothing goes on with. -/
theorem fuses_left {u : Char}
    (plain : (isNameChar u || ['.', '[', '+', '-', '\'', Source.backtick, '&', '=', '*'].contains u) =
      false) (v : Char) : fuses u v = false := by
  rw [Bool.or_eq_false_iff, List.contains_eq_mem, decide_eq_false_iff_not] at plain
  have digit : u.isDigit = false := by
    by_contra digit
    exact absurd (isNameChar_of_digit (by simpa using digit)) (by simp [plain.1])
  simp only [List.mem_cons, not_or] at plain
  simp [fuses, plain, digit]

theorem fuses_blank_right {v : Char} (blank : isBlank v = true) (u : Char) : fuses u v = false := by
  have each : ∀ v ∈ [' ', '\t', '\r', '\n'],
      (isNameChar v || ['[', ']', '.', '\'', '&', '=', '>'].contains v) = false :=
    forall_false_of_any (by decide)
  exact fuses_right (each v (by simpa [isBlank] using blank)) u

theorem fuses_blank_left {u : Char} (blank : isBlank u = true) (v : Char) : fuses u v = false := by
  have each : ∀ u ∈ [' ', '\t', '\r', '\n'],
      (isNameChar u || ['.', '[', '+', '-', '\'', Source.backtick, '&', '=', '*'].contains u) =
        false :=
    forall_false_of_any (by decide)
  exact fuses_left (each u (by simpa [isBlank] using blank)) v

theorem takeWhile_severed {p : Char → Bool} (fuse : ∀ u v, p u = true → p v = true → fuses u v = true)
    (severed : Severed text rest) (stops : text = [] → ∀ v ∈ rest.head?, p v = false) :
    (text ++ rest).takeWhile p = text.takeWhile p := by
  induction text with
  | nil =>
    cases rest with
    | nil => rfl
    | cons v rest => simp [stops rfl v rfl]
  | cons c text ih =>
    rw [List.cons_append, List.takeWhile_cons, List.takeWhile_cons]
    split
    next passes =>
      refine congrArg (c :: ·) (ih (severed.suffix (List.suffix_cons c text)) ?_)
      rintro rfl v head
      by_contra other
      exact severed.absurd rfl head (fuse c v passes (by simpa using other))
    next => rfl

theorem fuses_name {u v : Char} (first : isNameChar u = true) (second : isNameChar v = true) :
    fuses u v = true := by
  simp [fuses, first, second]

theorem fuses_digit {u v : Char} (first : u.isDigit = true) (second : v.isDigit = true) :
    fuses u v = true := fuses_name (isNameChar_of_digit first) (isNameChar_of_digit second)

theorem digits_severed (severed : Severed text rest)
    (stops : text = [] → ∀ v ∈ rest.head?, v.isDigit = false) :
    (text ++ rest).takeWhile Char.isDigit = text.takeWhile Char.isDigit :=
  takeWhile_severed (fun _ _ => fuses_digit) severed stops

theorem passes_of_drop {p : Char → Bool} (left : text.drop (text.takeWhile p).length = []) :
    ∀ c ∈ text, p c = true := by
  have whole : text.takeWhile p = text :=
    (List.takeWhile_prefix p).eq_of_length_le (List.drop_eq_nil_iff.mp left)
  exact fun c member => List.mem_takeWhile_imp (whole.symm ▸ member)

theorem fuses_after_digit {u v : Char} (digit : u.isDigit = true)
    (sign : v = '.' ∨ v = '\'' ∨ v = ']') : fuses u v = true := by
  rcases sign with rfl | rfl | rfl <;> simp [fuses, digit]

theorem fuses_before_digit {u v : Char} (digit : v.isDigit = true)
    (sign : u = '.' ∨ u = '[' ∨ u = '+' ∨ u = '-') : fuses u v = true := by
  rcases sign with rfl | rfl | rfl | rfl <;> simp [fuses, digit]

theorem fuses_select {u : Char} (name : isNameChar u = true) : fuses u '[' = true := by
  simp [fuses, name]

theorem fuses_quote {v : Char} (base : (Number.Base.ofLetter? v).isSome = true) :
    fuses '\'' v = true := by
  simp [fuses, base]

theorem realLength_severed (severed : Severed text rest)
    (stops : text = [] → ∀ v ∈ rest.head?, v.isDigit = false) :
    realLength? (text ++ rest) = realLength? text := by
  rw [realLength_eq, realLength_eq, digits_severed severed stops, drop_takeWhile_append]
  have behind := severed.suffix (List.drop_suffix (text.takeWhile Char.isDigit).length text)
  cases left : text.drop (text.takeWhile Char.isDigit).length with
  | nil =>
    -- all of the text are digits, which a point behind them would fuse with
    rw [List.nil_append]
    cases rest with
    | nil => rfl
    | cons v rest =>
      by_cases point : v = '.'
      · subst point
        rcases List.eq_nil_or_concat text with rfl | ⟨front, u, rfl⟩
        · simp [realLengthFrom?]
        · have digit := passes_of_drop left u (by simp)
          exact (severed.absurd (by simp) rfl (fuses_after_digit digit (.inl rfl))).elim
      · simp [realLengthFrom?, point]
  | cons c more =>
    rw [left] at behind
    by_cases point : c = '.'
    · subst point
      have digits := digits_severed (behind.suffix (List.suffix_cons '.' more)) (by
        rintro rfl v head
        by_contra digit
        rw [Bool.not_eq_false] at digit
        exact behind.absurd rfl head (fuses_before_digit digit (.inl rfl)))
      simp only [List.cons_append, realLengthFrom?, digits]
    · simp [realLengthFrom?, point]

theorem basedLength_severed (severed : Severed text rest)
    (stops : text = [] → rest.head? ≠ some '\'') :
    basedLength? (text ++ rest) = basedLength? text := by
  match text, severed, stops with
  | [], _, stops =>
    cases rest with
    | nil => rfl
    | cons v rest => simp [basedLength?, show v ≠ '\'' from fun same => stops rfl (by rw [same]; rfl)]
  | [c], severed, _ =>
    by_cases quote : c = '\''
    · subst quote
      cases rest with
      | nil => rfl
      | cons v rest =>
        have other : (Number.Base.ofLetter? v).isSome = false := by
          by_contra base
          rw [Bool.not_eq_false] at base
          exact severed.absurd rfl rfl (fuses_quote base)
        simp [basedLength?, other]
    · simp [basedLength?, quote]
  | c :: letter :: text, severed, _ =>
    by_cases quote : c = '\''
    · subst quote
      by_cases base : (Number.Base.ofLetter? letter).isSome = true
      · have behind := severed.suffix (List.suffix_cons '\'' (letter :: text))
        have digits : (text ++ rest).takeWhile isBasedDigit = text.takeWhile isBasedDigit := by
          refine takeWhile_severed (fun u v first second => ?_)
            (behind.suffix (List.suffix_cons letter text)) ?_
          · exact fuses_name (isNameChar_of_basedDigit first) (isNameChar_of_basedDigit second)
          · rintro rfl v head
            by_contra digit
            rw [Bool.not_eq_false] at digit
            exact behind.absurd rfl head
              (fuses_name (isNameChar_of_base base) (isNameChar_of_basedDigit digit))
        simp only [List.cons_append, basedLength?, digits]
      · simp [basedLength?, base]
    · simp [basedLength?, quote]

theorem unsignedLength_severed (severed : Severed text rest) (some_ : text ≠ []) :
    unsignedLength (text ++ rest) = unsignedLength text := by
  have behind := severed.suffix (List.drop_suffix (text.takeWhile Char.isDigit).length text)
  have based := basedLength_severed behind (by
    intro none quote
    rcases List.eq_nil_or_concat text with rfl | ⟨front, u, rfl⟩
    · exact some_ rfl
    · have digit := passes_of_drop none u (by simp)
      exact severed.absurd (by simp) quote (fuses_after_digit digit (.inr (.inl rfl))))
  simp only [unsignedLength, realLength_severed severed (fun none => absurd none some_),
    digits_severed severed (fun none => absurd none some_), drop_takeWhile_append, based]

theorem bitSelectLength_severed (severed : Severed text rest)
    (stops : text = [] → rest.head? ≠ some '[') :
    bitSelectLength (text ++ rest) = bitSelectLength text := by
  cases text with
  | nil =>
    cases rest with
    | nil => rfl
    | cons v rest => simp [bitSelectLength, show v ≠ '[' from fun same => stops rfl (by rw [same]; rfl)]
  | cons c text =>
    by_cases opens : c = '['
    · subst opens
      have digits := digits_severed (severed.suffix (List.suffix_cons '[' text)) (by
        rintro rfl v head
        by_contra digit
        rw [Bool.not_eq_false] at digit
        exact severed.absurd rfl head (fuses_before_digit digit (.inr (.inl rfl))))
      simp only [List.cons_append, bitSelectLength, digits, drop_takeWhile_append]
      cases left : text.drop (text.takeWhile Char.isDigit).length with
      | cons => rfl
      | nil =>
        rw [List.nil_append, if_neg, if_neg (by simp)]
        rintro ⟨some_, closed⟩
        rcases List.eq_nil_or_concat text with rfl | ⟨front, u, rfl⟩
        · exact some_ rfl
        · have digit := passes_of_drop left u (by simp)
          exact (severed.suffix (List.suffix_cons '[' _)).absurd (by simp) closed
            (fuses_after_digit digit (.inr (.inr rfl)))
    · simp [bitSelectLength, opens]

theorem word_severed {c : Char} (starts : isNameStart c = true) (severed : Severed (c :: text) rest) :
    word c (text ++ rest) = word c text := by
  have name := isNameChar_of_start starts
  have behind := severed.suffix (List.suffix_cons c text)
  have tail : (text ++ rest).takeWhile isNameChar = text.takeWhile isNameChar := by
    refine takeWhile_severed (fun _ _ => fuses_name) behind ?_
    rintro rfl v head
    by_contra other
    rw [Bool.not_eq_false] at other
    exact severed.absurd rfl head (fuses_name name other)
  have select := bitSelectLength_severed
    (behind.suffix (List.drop_suffix (text.takeWhile isNameChar).length text)) (by
      intro left opens
      rcases List.eq_nil_or_concat (c :: text) with none | ⟨front, u, same⟩
      · cases none
      · have last : isNameChar u = true := by
          have member : u ∈ c :: text := by simp [same]
          rcases List.mem_cons.mp member with rfl | member
          · exact name
          · exact passes_of_drop left u member
        exact severed.absurd (by simp [same]) opens (fuses_select last))
  simp only [word, tail, drop_takeWhile_append, select]

theorem task_severed {c : Char} (severed : Severed (c :: text) rest)
    (dollar : c = '$') : task (text ++ rest) = task text := by
  subst dollar
  have tail : (text ++ rest).takeWhile Char.isLower = text.takeWhile Char.isLower := by
    refine takeWhile_severed (fun u v first second => ?_)
      (severed.suffix (List.suffix_cons '$' text)) ?_
    · exact fuses_name (isNameChar_of_lower first) (isNameChar_of_lower second)
    · rintro rfl v head
      by_contra lower
      rw [Bool.not_eq_false] at lower
      exact severed.absurd rfl head (fuses_name rfl (isNameChar_of_lower lower))
  simp only [task, tail]

/-- A run of characters that each fuse with the next lies on one side of a cut. -/
theorem prefix_severed {pattern : List Char} (run : pattern.IsChain fun u v => fuses u v = true)
    (severed : Severed text rest) (some_ : text ≠ []) :
    pattern <+: text ++ rest ↔ pattern <+: text := by
  refine ⟨fun begins => ?_, fun begins => begins.trans (List.prefix_append text rest)⟩
  obtain ⟨back, same⟩ := begins
  rcases List.append_eq_append_iff.mp same with ⟨more, whole, _⟩ | ⟨more, rfl, rfl⟩
  · exact ⟨more, whole.symm⟩
  · cases more with
    | nil => exact (List.append_nil text).symm ▸ List.prefix_rfl
    | cons v more =>
      have last := List.getLast?_eq_some_getLast some_
      exact (severed.absurd last rfl ((List.isChain_append.mp run).2.2 _ last v rfl)).elim

theorem atFront_severed {c : Char} (severed : Severed (c :: text) rest) :
    Symbol.atFront? (c :: (text ++ rest)) = Symbol.atFront? (c :: text) := by
  have run (symbol : Symbol) : (letters symbol).IsChain fun u v => fuses u v = true := by
    cases symbol <;> simp [letters, fuses]
  unfold Symbol.atFront?
  refine congrArg (Symbol.longestFirst.find? ·) (funext fun symbol => ?_)
  rw [Bool.eq_iff_iff, List.isPrefixOf_iff_prefix, List.isPrefixOf_iff_prefix, toList_spelling,
    ← List.cons_append]
  exact prefix_severed (run symbol) severed (List.cons_ne_nil c text)

theorem number_severed {length : Nat} (within : length ≤ text.length) :
    number (text ++ rest) length = number text length := by
  rw [number, number, List.take_append_of_le_length within]

/-- A lexeme that is no string is not changed by what comes behind a cut. -/
theorem lexeme_severed {start : Bool} {c : Char} (severed : Severed (c :: text) rest)
    (plain : c ≠ '"') : lexeme start c (text ++ rest) = lexeme start c text := by
  have behind := severed.suffix (List.suffix_cons c text)
  have based := basedLength_severed severed (fun none => by cases none)
  have length := unsignedLength_severed severed (List.cons_ne_nil c text)
  rw [List.cons_append] at based length
  unfold lexeme
  rw [based, length]
  split
  next starts => rw [word_severed starts severed]
  split
  next dollar => exact task_severed severed dollar
  split
  next => exact number_severed (unsignedLength_take (c :: text) 0).2
  by_cases sign : c = '+' ∨ c = '-'
  · have real := realLength_severed behind (by
      rintro rfl v head
      by_contra digit
      rw [Bool.not_eq_false] at digit
      exact severed.absurd rfl head (fuses_before_digit digit (.inr (.inr sign))))
    rw [real]
    split
    next signed =>
      have some_ : text ≠ [] := by
        rintro rfl
        cases signed.2.2
      have within : 1 + unsignedLength text ≤ (c :: text).length := by
        rw [Nat.add_comm]
        exact Nat.succ_le_succ (unsignedLength_take text 0).2
      rw [unsignedLength_severed behind some_]
      exact number_severed within
    next => simp only [atFront_severed severed]
  · simp only [sign, false_and, if_false, atFront_severed severed]

/-- No lexeme but a string holds a character that goes on with nothing before it. -/
theorem notMem_of_solitary {start : Bool} {c v : Char} {cs : List Char} {found : Lexeme}
    (solitary : ∀ u, fuses u v = false) (plain : c ≠ '"') (other : c ≠ v)
    (ok : lexeme start c cs = .ok found) : v ∉ c :: cs.take found.more := by
  rintro (_ | ⟨_, inside⟩)
  · exact other rfl
  obtain ⟨front, back, same, _⟩ := List.eq_append_cons_of_mem inside
  have short : front.length < found.more := by
    have length := congrArg List.length same
    simp only [List.length_take, List.length_append, List.length_cons] at length
    omega
  -- the lexeme is the same if the text ends before that character
  have whole : cs = front ++ v :: (back ++ cs.drop found.more) := by
    rw [← List.cons_append, ← List.append_assoc, ← same, List.take_append_drop]
  have severed : Severed (c :: front) (v :: (back ++ cs.drop found.more)) := by
    rintro u _ _ ⟨⟩
    exact solitary u
  have alone := @lexeme_severed _ _ start _ severed plain
  rw [← whole, ok] at alone
  exact Nat.not_le_of_lt short (lexeme_take alone.symm 0).2

end Cut

end CellTiming.Token
