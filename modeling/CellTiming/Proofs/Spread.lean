import CellTiming.Proofs.Cuts
import CellTiming.Proofs.Spacing
import CellTiming.Source.Modules
import Mathlib.Data.List.Forall2

/-! One more space. Between characters that do not fuse, and outside strings, a space more or less
makes no difference to the words that a text is cut into. -/
namespace CellTiming

namespace Token

/-- Quotes open and close strings; a line break ends them. -/
def quoteStep (opened : Bool) (c : Char) : Bool := c != '\n' && (opened ^^ (c == '"'))

def inString (opened : Bool) (text : List Char) : Bool := text.foldl quoteStep opened

/-- The words of tokens, or the kind of what is wrong. -/
def outcome (cut : Except SourceError (List Token)) : Except SourceError.Kind (List Word) :=
  (cut.map words).mapError SourceError.kind

def lexed (start : Bool) (text : List Char) : Except SourceError.Kind (List Word) :=
  outcome (tokensFrom 1 0 start text)

def Flaw.kind : Flaw → SourceError.Kind
  | illegalCharacter => .illegalCharacter
  | malformedNumber _ => .malformedNumber

section Lexed

variable {start : Bool} {c : Char} {cs : List Char}

theorem outcome_cons (t : Token) (cut : Except SourceError (List Token)) :
    outcome (cut.map (t :: ·)) = (outcome cut).map (t.spelled :: ·) := by
  cases cut <;> rfl

theorem outcome_flaw (flaw : Flaw) (line : Nat) :
    outcome (.error (flaw.toError line c cs)) = .error flaw.kind := by
  cases flaw <;> rfl

theorem lexed_eq (line offset : Nat) (start : Bool) (text : List Char) :
    outcome (tokensFrom line offset start text) = lexed start text := by
  suffices every : ∀ line' offset', outcome (tokensFrom line offset start text) =
      outcome (tokensFrom line' offset' start text) from every 1 0
  fun_induction tokensFrom line offset start text with
  | case1 =>
    intro line' offset'
    rw [tokensFrom]
    rfl
  | case2 _ _ _ _ ih =>
    intro line' offset'
    rw [tokensFrom, if_pos rfl]
    exact ih _ _
  | case3 _ _ _ c cs feed blank ih =>
    intro line' offset'
    rw [tokensFrom, if_neg feed, if_pos blank]
    exact ih _ _
  | case4 _ _ _ c cs feed dark flaw found =>
    intro line' offset'
    rw [tokensFrom, if_neg feed, if_neg dark, found, outcome_flaw, outcome_flaw]
  | case5 line start operandMayStart c cs feed dark kind more found token =>
    rename_i ih
    intro line' offset'
    conv => rhs; rw [tokensFrom, if_neg feed, if_neg dark, found]
    dsimp only
    rw [outcome_cons, outcome_cons, ih line' _]
    rfl

theorem lexed_blank (blank : isBlank c = true) : lexed start (c :: cs) = lexed start cs := by
  obtain ⟨line, offset, step⟩ := tokensFrom_blank blank 1 0 start cs
  rw [lexed, step, lexed_eq]

theorem lexed_lexeme (dark : isBlank c = false) : lexed start (c :: cs) =
    match lexeme start c cs with
    | .error flaw => .error flaw.kind
    | .ok ⟨kind, more⟩ => (lexed (!kind.endsOperand) (cs.drop more)).map
        ((kind, String.ofList (c :: cs.take more)) :: ·) := by
  have other : c ≠ '\n' ∧ ¬(c = ' ' ∨ c = '\t' ∨ c = '\r') := by
    simp [isBlank] at dark
    simp [dark]
  rw [lexed, tokensFrom, if_neg other.1, if_neg other.2]
  cases found : lexeme start c cs with
  | error flaw => exact outcome_flaw flaw 1
  | ok found =>
    dsimp only
    rw [outcome_cons, lexed_eq]
    rfl

end Lexed

section Strings

variable {c : Char} {cs : List Char} {opened : Bool}

theorem inString_append (opened : Bool) (first second : List Char) :
    inString opened (first ++ second) = inString (inString opened first) second :=
  List.foldl_append

theorem inString_plain {text : List Char} (plain : '"' ∉ text) : inString false text = false := by
  induction text with
  | nil => rfl
  | cons c text ih =>
    obtain ⟨other, others⟩ := not_or.mp (mt List.mem_cons.mpr plain)
    have step : quoteStep false c = false := by simp [quoteStep, Ne.symm other]
    rw [inString, List.foldl_cons, step]
    exact ih others

/-- What stands in a string goes on to the quote that closes it or to the end of its line. -/
theorem inString_closed {text : List Char} (closed : inString true text = false) :
    ∃ body c rest, text = body ++ c :: rest ∧ '"' ∉ body ∧ '\n' ∉ body ∧
      (c = '"' ∨ c = '\n') ∧ inString false rest = false := by
  induction text with
  | nil => cases closed
  | cons c text ih =>
    rw [inString, List.foldl_cons] at closed
    by_cases ends : c = '"' ∨ c = '\n'
    · have step : quoteStep true c = false := by rcases ends with rfl | rfl <;> rfl
      rw [step] at closed
      exact ⟨[], c, text, rfl, by simp, by simp, ends, closed⟩
    · obtain ⟨quote, feed⟩ := not_or.mp ends
      have step : quoteStep true c = true := by simp [quoteStep, quote, feed]
      rw [step] at closed
      obtain ⟨body, d, rest, rfl, plain, single, ends, behind⟩ := ih closed
      exact ⟨c :: body, d, rest, rfl, by simp [plain, Ne.symm quote], by simp [single, Ne.symm feed],
        ends, behind⟩

/-- A string is closed by a quote and by nothing else on its line. -/
theorem string_ended {body : List Char} {c : Char} (plain : '"' ∉ body) (single : '\n' ∉ body)
    (ends : c = '"' ∨ c = '\n') (rest : List Char) : string (body ++ c :: rest) =
      if c = '"' then .ok ⟨.string, body.length + 1⟩ else .error .illegalCharacter := by
  have all : ∀ d ∈ body, (d != '"' && d != '\n') = true := by
    intro d member
    simp [ne_of_mem_of_not_mem member plain, ne_of_mem_of_not_mem member single]
  rcases ends with rfl | rfl <;> simp [string, List.takeWhile_append_of_pos all]

theorem inString_blank (blank : isBlank c = true) (text : List Char) :
    inString false (c :: text) = inString false text := by
  have other : c ≠ '"' := by
    rintro rfl
    cases blank
  rw [inString, List.foldl_cons, show quoteStep false c = false by simp [quoteStep, other]]
  rfl

theorem inString_open {body : List Char} (plain : '"' ∉ body) (single : '\n' ∉ body) :
    inString true body = true := by
  induction body with
  | nil => rfl
  | cons d body ih =>
    obtain ⟨quote, plain⟩ := not_or.mp (mt List.mem_cons.mpr plain)
    obtain ⟨feed, single⟩ := not_or.mp (mt List.mem_cons.mpr single)
    have step : quoteStep true d = true := by simp [quoteStep, Ne.symm quote, Ne.symm feed]
    rw [inString, List.foldl_cons, step]
    exact ih plain single

/-- A lexeme closes the string it opens. -/
theorem inString_lexeme {start : Bool} {found : Lexeme} (ok : lexeme start c cs = .ok found) :
    inString false (c :: cs.take found.more) = false := by
  by_cases quote : c = '"'
  · subst quote
    rw [lexeme_string, string] at ok
    obtain ⟨body, back, rfl, taken, _, _⟩ := takeWhile_cut (fun d => d != '"' && d != '\n') cs
    have inner : ∀ d ∈ body, (d != '"' && d != '\n') = true := by
      intro d member
      rw [← taken] at member
      have passes := List.mem_takeWhile_imp member
      exact passes
    have opened : inString true body = true :=
      inString_open (fun member => absurd (inner _ member) (by decide))
        fun member => absurd (inner _ member) (by decide)
    simp only [taken, List.drop_left] at ok
    split at ok
    next closed =>
      cases ok
      obtain ⟨others, rfl⟩ := List.head?_eq_some_iff.mp closed
      have whole : (body ++ '"' :: others).take (body.length + 1) = body ++ ['"'] := by
        rw [List.take_length_add_append]
        rfl
      change inString true ((body ++ '"' :: others).take (body.length + 1)) = false
      rw [whole, inString_append, opened]
      rfl
    next => cases ok
  · have solitary (u : Char) : fuses u '"' = false := fuses_right rfl u
    exact inString_plain (notMem_of_solitary solitary quote quote ok)

theorem inString_behind {start : Bool} {found : Lexeme} (ok : lexeme start c cs = .ok found) :
    inString false (cs.drop found.more) = inString false (c :: cs) := by
  conv => rhs; rw [← List.take_append_drop found.more cs, ← List.cons_append]
  rw [inString_append, inString_lexeme ok]

end Strings

theorem lexed_space {start : Bool} {front back : List Char} (severed : Severed front back)
    (outside : inString false front = false) :
    lexed start (front ++ ' ' :: back) = lexed start (front ++ back) := by
  have apart : Severed front (' ' :: back) := by
    rintro u _ _ ⟨⟩
    exact fuses_blank_right rfl u
  match front with
  | [] => exact lexed_blank rfl
  | c :: front =>
    rw [List.cons_append, List.cons_append]
    by_cases blank : isBlank c = true
    · rw [lexed_blank blank, lexed_blank blank]
      rw [inString_blank blank] at outside
      exact lexed_space (severed.suffix (List.suffix_cons c front)) outside
    · rw [Bool.not_eq_true] at blank
      rw [lexed_lexeme blank, lexed_lexeme blank]
      by_cases quote : c = '"'
      · subst quote
        obtain ⟨body, d, rest, rfl, plain, single, ends, behind⟩ := inString_closed outside
        simp only [lexeme_string, List.append_assoc, List.cons_append,
          string_ended plain single ends]
        rcases ends with rfl | rfl
        · have tail : rest <:+ '"' :: (body ++ '"' :: rest) := ⟨'"' :: (body ++ ['"']), by simp⟩
          have same := @lexed_space (!Kind.string.endsOperand) _ _ (severed.suffix tail) behind
          simp [take_left_add, same]
        · rfl
      · rw [lexeme_severed apart quote, lexeme_severed severed quote]
        cases found : lexeme start c front with
        | error flaw => rfl
        | ok found' =>
          have within := (lexeme_take found 0).2
          have behind := (inString_behind found).trans outside
          have tail : front.drop found'.more <:+ c :: front :=
            (List.drop_suffix _ front).trans (List.suffix_cons c front)
          have same := @lexed_space (!found'.kind.endsOperand) _ _ (severed.suffix tail) behind
          simp only [List.take_append_of_le_length within, List.drop_append_of_le_length within,
            same]
termination_by front.length

end Token

namespace Source

/-- Neither a lexeme or macro nor a string goes on from the one text into the other. -/
structure Loose (front back : List Char) : Prop where
  severed : Token.Severed front back
  closed : quoted false front = false
  single : '\n' ∉ front

/-- A line with at most one more space, where nothing goes on over it. -/
inductive Spread : List Char → List Char → Prop
  | same (text : List Char) : Spread text text
  | space {front back : List Char} (loose : Loose front back) :
      Spread (front ++ back) (front ++ ' ' :: back)

def SourceLine.Spread (line line' : SourceLine) : Prop :=
  line.number = line'.number ∧ Source.Spread line.text.toList line'.text.toList

/-- The blocks of the same module from the same lines, with more spaces in some. -/
def Block.Spread (block block' : Block) : Prop :=
  block.module = block'.module ∧ List.Forall₂ SourceLine.Spread block.lines block'.lines

section Words

variable {before text text' rest : List Char} {texts texts' : List (List Char)}

theorem inString_line {opened : Bool} {line : List Char} (single : '\n' ∉ line) :
    Token.inString opened line = quoted opened line := by
  induction line generalizing opened with
  | nil => rfl
  | cons c line ih =>
    obtain ⟨other, others⟩ := not_or.mp (mt List.mem_cons.mpr single)
    have step : Token.quoteStep opened c = (opened ^^ (c == '"')) := by
      rw [Token.quoteStep, bne_iff_ne.mpr (Ne.symm other), Bool.true_and]
    rw [Token.inString, List.foldl_cons, step]
    exact ih others

/-- A line begins behind the text. -/
def LineStart (before : List Char) : Prop := before = [] ∨ ∃ front, before = front ++ ['\n']

theorem Spread.lexed {start : Bool} (spread : Spread text text') (starts : LineStart before)
    (ends : ∀ v ∈ rest.head?, v = '\n') :
    Token.lexed start (before ++ (text' ++ rest)) = Token.lexed start (before ++ (text ++ rest)) := by
  cases spread with
  | same => rfl
  | @space front back loose =>
    have severed : Token.Severed (before ++ front) (back ++ rest) := by
      intro u last v head
      rcases List.eq_nil_or_concat front with rfl | ⟨front, d, rfl⟩
      · rcases starts with rfl | ⟨front, rfl⟩
        · cases last
        · obtain rfl : '\n' = u := by simpa using last
          exact Token.fuses_blank_left rfl v
      · obtain rfl : d = u := by simpa [← List.append_assoc] using last
        cases back with
        | nil =>
          rw [ends v head]
          exact Token.fuses_blank_right rfl d
        | cons w back =>
          obtain rfl : w = v := by simpa using head
          exact loose.severed d (by simp) w rfl
    have outside : Token.inString false front = false :=
      (inString_line loose.single).trans loose.closed
    have outside' : Token.inString false (before ++ front) = false := by
      rcases starts with rfl | ⟨front, rfl⟩
      · exact outside
      · rw [Token.inString_append, Token.inString_append]
        exact outside
    have same := @Token.lexed_space start (before ++ front) (back ++ rest) severed outside'
    simpa using same

theorem lexed_lines (start : Bool) (spread : List.Forall₂ Spread texts texts')
    (starts : LineStart before) :
    Token.lexed start (before ++ ['\n'].intercalate texts') =
      Token.lexed start (before ++ ['\n'].intercalate texts) := by
  induction spread generalizing before with
  | nil => rfl
  | @cons text text' texts texts' first others ih =>
    cases others with
    | nil =>
      have none : ∀ v ∈ ([] : List Char).head?, v = '\n' := nofun
      simpa using first.lexed starts none
    | @cons next next' texts texts' second others =>
      rw [List.intercalate_cons_cons, List.intercalate_cons_cons, List.append_assoc,
        List.append_assoc, first.lexed starts (by simp), ← List.append_assoc text,
        ← List.append_assoc before, ih (.inr ⟨before ++ text, (List.append_assoc _ _ _).symm⟩)]
      rw [List.append_assoc before, List.append_assoc text]

end Words

section Timing

variable {block block' : Block} {blocks blocks' : List Block}

theorem kind_placeless (error : SourceError) : error.placeless.kind = error.kind := by
  cases error <;> rfl

theorem kind_of_lexed {text text' : String}
    (same : Token.lexed true text'.toList = Token.lexed true text.toList) :
    (ModuleTiming.ofBlock text').mapError SourceError.kind =
      (ModuleTiming.ofBlock text).mapError SourceError.kind := by
  unfold Token.lexed Token.outcome at same
  unfold ModuleTiming.ofBlock Token.ofString
  cases cut : Token.tokensFrom 1 0 true text.toList with
  | error flaw =>
    rw [cut] at same
    cases cut' : Token.tokensFrom 1 0 true text'.toList with
    | error flaw' =>
      rw [cut'] at same
      exact congrArg Except.error (Except.error.inj same)
    | ok => rw [cut'] at same; cases same
  | ok ts =>
    rw [cut] at same
    cases cut' : Token.tokensFrom 1 0 true text'.toList with
    | error => rw [cut'] at same; cases same
    | ok ts' =>
      rw [cut'] at same
      have alike := congrArg (Except.mapError SourceError.kind)
        (ModuleTiming.ofTokens_of_words (Except.ok.inj same))
      have forget (read : Except SourceError ModuleTiming) :
          (read.mapError SourceError.placeless).mapError SourceError.kind =
            read.mapError SourceError.kind := by
        cases read with
        | error flaw => exact congrArg Except.error (kind_placeless flaw)
        | ok => rfl
      rwa [forget, forget] at alike

theorem Block.Spread.timing (spread : block.Spread block') :
    block'.timing.mapError Failure.kind = block.timing.mapError Failure.kind := by
  have texts : List.Forall₂ Source.Spread (block.lines.map fun line => line.text.toList)
      (block'.lines.map fun line => line.text.toList) := by
    rw [List.forall₂_map_left_iff, List.forall₂_map_right_iff]
    exact spread.2.imp fun _ _ line => line.2
  have same := lexed_lines true texts (.inl rfl)
  rw [List.nil_append, List.nil_append, ← Block.toList_text, ← Block.toList_text] at same
  have kinds := kind_of_lexed same
  unfold Block.timing
  rw [spread.1]
  cases read : ModuleTiming.ofBlock block.text with
  | error flaw =>
    cases read' : ModuleTiming.ofBlock block'.text with
    | error flaw' =>
      rw [read, read'] at kinds
      exact congrArg Except.error (Except.error.inj kinds)
    | ok => rw [read, read'] at kinds; cases kinds
  | ok found =>
    cases read' : ModuleTiming.ofBlock block'.text with
    | error => rw [read, read'] at kinds; cases kinds
    | ok found' =>
      rw [read, read'] at kinds
      cases kinds
      rfl

theorem mapM_mapError {α β ε κ : Type} (f : α → Except ε β) (kind : ε → κ) (xs : List α) :
    (xs.mapM f).mapError kind = xs.mapM fun x => (f x).mapError kind := by
  induction xs with
  | nil => rfl
  | cons x xs ih =>
    rw [List.mapM_cons, List.mapM_cons, ← ih]
    cases f x <;> cases xs.mapM f <;> rfl

theorem timings_of_spread (spread : List.Forall₂ Block.Spread blocks blocks') :
    (blocks'.mapM Block.timing).mapError Failure.kind =
      (blocks.mapM Block.timing).mapError Failure.kind := by
  rw [mapM_mapError, mapM_mapError]
  induction spread with
  | nil => rfl
  | cons first _ ih => rw [List.mapM_cons, List.mapM_cons, first.timing, ih]

end Timing

end Source

end CellTiming
