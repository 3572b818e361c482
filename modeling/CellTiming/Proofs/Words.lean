import CellTiming.Proofs.Operators

/-! The words of tokens are the tokens less where they stand. What operators make of an
expression depends on its words alone. -/
namespace CellTiming

abbrev Word := Token.Kind × String

def Token.spelled (t : Token) : Word := (t.kind, t.text)

def words (ts : List Token) : List Word := ts.map Token.spelled

def symbolWord (symbol : Symbol) : Word := (.symbol symbol, symbol.spelling)

def taskWord (task : CheckTask) : Word := (.task task, "$" ++ task.spelling)

def nameWord (name : String) : Word := (.name, name)

/-- A token that is only known by its word. -/
def Token.ofWord (word : Word) : Token := ⟨word.1, word.2, 1, 0⟩

def symbolToken (symbol : Symbol) : Token := .ofWord (symbolWord symbol)

@[simp] theorem symbolToken_kind (symbol : Symbol) : (symbolToken symbol).kind = .symbol symbol := rfl

@[simp] theorem words_nil : words [] = [] := rfl

@[simp] theorem words_symbol (symbol : Symbol) (ts : List Token) :
    words (symbolToken symbol :: ts) = symbolWord symbol :: words ts := rfl

/-- The error as if it were in the first line. -/
def SourceError.placeless : SourceError → SourceError
  | .structural _ text => .structural 1 text
  | .malformedNumber _ literal => .malformedNumber 1 literal
  | .illegalCharacter _ character => .illegalCharacter 1 character
  | .unexpected _ token => .unexpected 1 token
  | .specparamRedefined _ name => .specparamRedefined 1 name
  | .specparamUndeclared _ name => .specparamUndeclared 1 name
  | .ifnoneUncovered _ => .ifnoneUncovered 1

def Token.placeless (t : Token) : Token := { t with line := 1, start := 0 }

@[simp] theorem Token.placeless_kind (t : Token) : t.placeless.kind = t.kind := rfl

@[simp] theorem Token.placeless_text (t : Token) : t.placeless.text = t.text := rfl

@[simp] theorem Token.placeless_isSymbol (t : Token) (symbol : Symbol) :
    t.placeless.isSymbol symbol = t.isSymbol symbol := rfl

theorem Token.placeless_eq {t t' : Token} (same : t.spelled = t'.spelled) :
    t.placeless = t'.placeless := by
  rw [placeless, placeless, show t.kind = t'.kind from congrArg Prod.fst same,
    show t.text = t'.text from congrArg Prod.snd same]

def ofWords (words : List Word) : List Token := words.map Token.ofWord

theorem ofWords_append (first second : List Word) :
    ofWords (first ++ second) = ofWords first ++ ofWords second :=
  List.map_append

theorem words_ofWords (ws : List Word) : words (ofWords ws) = ws := by
  rw [words, ofWords, List.map_map]
  exact List.map_id ws

theorem ofWords_words (ts : List Token) : ofWords (words ts) = ts.map Token.placeless := by
  rw [words, ofWords, List.map_map]
  rfl

theorem words_placeless (ts : List Token) : words (ts.map Token.placeless) = words ts := by
  rw [words, List.map_map]
  rfl

section Words

variable {ts : List Token}

theorem words_append (first second : List Token) :
    words (first ++ second) = words first ++ words second :=
  List.map_append

theorem words_eq_nil (same : words ts = []) : ts = [] := List.map_eq_nil_iff.mp same

theorem words_eq_cons {word : Word} {more : List Word} (same : words ts = word :: more) :
    ∃ t rest, ts = t :: rest ∧ t.spelled = word ∧ words rest = more :=
  List.map_eq_cons_iff.mp same

theorem words_eq_append {first second : List Word} (same : words ts = first ++ second) :
    ∃ left right, ts = left ++ right ∧ words left = first ∧ words right = second :=
  List.map_eq_append_iff.mp same

theorem Token.kind_of_word {t : Token} {word : Word} (same : t.spelled = word) : t.kind = word.1 :=
  congrArg Prod.fst same

theorem Token.text_of_word {t : Token} {word : Word} (same : t.spelled = word) : t.text = word.2 :=
  congrArg Prod.snd same

theorem words_eq_symbol {ts : List Token} {symbol : Symbol} {more : List Word}
    (same : words ts = symbolWord symbol :: more) :
    ∃ t rest, ts = t :: rest ∧ t.kind = .symbol symbol ∧ words rest = more := by
  obtain ⟨t, rest, rfl, word, others⟩ := words_eq_cons same
  exact ⟨t, rest, rfl, Token.kind_of_word word, others⟩

theorem words_eq_name {ts : List Token} {name : String} {more : List Word}
    (same : words ts = nameWord name :: more) :
    ∃ t rest, ts = t :: rest ∧ t.kind = .name ∧ t.text = name ∧ words rest = more := by
  obtain ⟨t, rest, rfl, word, others⟩ := words_eq_cons same
  exact ⟨t, rest, rfl, Token.kind_of_word word, Token.text_of_word word, others⟩

theorem words_eq_end {ts : List Token} {e : List Word} {symbol : Symbol}
    (same : words ts = e ++ [symbolWord symbol]) :
    ∃ body t, ts = body ++ [t] ∧ words body = e ∧ t.kind = .symbol symbol := by
  obtain ⟨body, last, rfl, alike, ending⟩ := words_eq_append same
  obtain ⟨t, none, rfl, kind, nothing⟩ := words_eq_symbol ending
  cases words_eq_nil nothing
  exact ⟨body, t, rfl, alike, kind⟩

end Words

namespace Operators

variable {α : Type} {g : Operators α}

/-- Operators and atoms do not depend on places. -/
structure Placeless (g : Operators α) : Prop where
  before : ∀ t : Token, g.before t.placeless = g.before t
  between : ∀ t : Token, g.between t.placeless = g.between t
  atom : ∀ t : Token, g.atom t.placeless = (g.atom t).mapError SourceError.placeless

section Alike

variable {t t' : Token} (placeless : g.Placeless) (same : t.spelled = t'.spelled)

include placeless same

theorem Placeless.before_eq : g.before t = g.before t' := by
  rw [← placeless.before, ← placeless.before t', Token.placeless_eq same]

theorem Placeless.between_eq : g.between t = g.between t' := by
  rw [← placeless.between, ← placeless.between t', Token.placeless_eq same]

theorem Placeless.atom_eq {value : α} (meaning : g.atom t = .ok value) : g.atom t' = .ok value := by
  have alike := (placeless.atom t).symm.trans
    ((congrArg g.atom (Token.placeless_eq same)).trans (placeless.atom t'))
  rw [meaning] at alike
  cases found : g.atom t' with
  | error e =>
    rw [found] at alike
    cases alike
  | ok value' =>
    rw [found] at alike
    exact congrArg Except.ok (Except.ok.inj alike).symm

end Alike

theorem Stops.of_words (placeless : g.Placeless) {level : Nat} {ts ts' : List Token}
    (stops : Stops g level ts) (same : words ts = words ts') : Stops g level ts' := by
  rintro t rest own apply rfl sign
  obtain ⟨t', rest', rfl, word, _⟩ := words_eq_cons same
  exact stops t' rest' own apply rfl (placeless.between_eq word ▸ sign)

theorem Reads.of_words (placeless : g.Placeless) {phrase : Phrase α} {used used' : List Token} {value : α}
    (reads : Reads g phrase used value) (same : words used' = words used) :
    Reads g phrase used' value := by
  have symbol {t t' : Token} {sign : Symbol} (word : t'.spelled = t.spelled) {is : Bool}
      (holds : t.isSymbol sign = is) : t'.isSymbol sign = is := by
    rw [← holds, Token.isSymbol, Token.isSymbol, Token.kind_of_word word]
    rfl
  induction reads generalizing used' with
  | before sign _ ih =>
    obtain ⟨t', rest, rfl, word, same⟩ := words_eq_cons same
    exact .before (placeless.before_eq word ▸ sign) (ih same)
  | group plain opens closes ends _ ih =>
    obtain ⟨opening, rest, rfl, word, same⟩ := words_eq_cons same
    obtain ⟨inner, last, rfl, within, single⟩ := words_eq_append (same.trans (words_append _ _))
    obtain ⟨closing, none, rfl, word', nothing⟩ := words_eq_cons single
    cases words_eq_nil nothing
    exact .group (placeless.before_eq word ▸ plain) (symbol word opens) (symbol word' closes)
      (placeless.between_eq word' ▸ ends) (ih within)
  | atom plain single meaning =>
    obtain ⟨t', rest, rfl, word, nothing⟩ := words_eq_cons same
    cases words_eq_nil nothing
    exact .atom (placeless.before_eq word ▸ plain) (symbol word single)
      (placeless.atom_eq word.symm meaning)
  | operation _ _ ihHead ihTail =>
    obtain ⟨first, more, rfl, head, tail⟩ := words_eq_append (same.trans (words_append _ _))
    exact .operation (ihHead head) (ihTail tail)
  | stop =>
    cases words_eq_nil same
    exact .stop
  | join sign binds _ ends _ ihHead ihTail =>
    obtain ⟨t', rest, rfl, word, same⟩ := words_eq_cons same
    obtain ⟨right, more, rfl, head, tail⟩ := words_eq_append (same.trans (words_append _ _))
    exact .join (placeless.between_eq word ▸ sign) binds (ihHead head)
      (ends.of_words placeless tail.symm) (ihTail tail)

end Operators

end CellTiming
