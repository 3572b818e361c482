import CellTiming.Proofs.Formula
import CellTiming.Proofs.Reached

/-! Declarations of specparams. Whatever tree the expression of a declaration was written
from, the value of the tree is stored, computed with the values declared before. -/
namespace CellTiming.Formula

open Token Operators Grammar TokenRule

/-- `specparam name = formula;` with any blanks. -/
inductive Declares (name : String) (formula : Formula) : List Char → Prop
  | mk {front before after behind text} (named : Lexes .name name) (apart : front ≠ [])
      (blank : ∀ gap ∈ [front, before, after, behind], ∀ c ∈ gap, isBlank c = true)
      (written : Written .row formula text) :
      Declares name formula (Keyword.specparam.spelling.toList ++ (front ++ (name.toList ++
        (before ++ '=' :: (after ++ (text ++ (behind ++ [';'])))))))

/-- Declarations with blanks before each, and the specparams before and after them. -/
inductive Declarations : Specparams → List Char → Specparams → Prop
  | none {table} : Declarations table [] table
  | cons {table later name formula value gap text more} (blank : ∀ c ∈ gap, isBlank c = true)
      (declares : Declares name formula text) (fresh : table.lookup name = Option.none)
      (known : formula.value table = some value)
      (others : Declarations (table ++ [(name, value)]) more later) :
      Declarations table (gap ++ (text ++ more)) later

variable {table : Specparams} {timing : ModuleTiming} {name : String} {formula : Formula}
  {text : List Char} {value : Number}

section Cutting

theorem lexeme_keyword (keyword : Keyword) (start : Bool) :
    ∃ c cs, keyword.spelling.toList = c :: cs ∧
      lexeme start c cs = .ok ⟨.keyword keyword, cs.length⟩ := by
  have spelled : keyword.spelling.toList.head?.any isNameStart = true := by
    cases keyword <;> decide
  have letters : ∀ c ∈ keyword.spelling.toList, isNameChar c = true := by
    refine List.all_eq_true.mp ?_
    cases keyword <;> decide
  have known : Keyword.ofString? keyword.spelling = some keyword := by
    cases keyword <;> decide
  cases same : keyword.spelling.toList with
  | nil =>
    rw [same] at spelled
    cases spelled
  | cons c cs =>
    rw [same] at spelled letters
    have starts : isNameStart c = true := by simpa using spelled
    have tail : cs.takeWhile isNameChar = cs :=
      List.takeWhile_eq_self_iff.mpr (List.forall_mem_cons.mp letters).2
    refine ⟨c, cs, rfl, ?_⟩
    rw [(Cut.word starts).ok, word, tail, ← same, String.ofList_toList, known]

theorem leads_keyword (keyword : Keyword) (start : Bool) {rest : List Char}
    (severed : Severed keyword.spelling.toList rest) :
    Leads start (keyword.spelling.toList ++ rest) [(.keyword keyword, keyword.spelling)] true
      rest := by
  obtain ⟨c, cs, spelled, found⟩ := lexeme_keyword keyword start
  have text : keyword.spelling = String.ofList (c :: cs) := by rw [← spelled, String.ofList_toList]
  rw [spelled] at severed ⊢
  rw [text]
  exact leads_severed severed nofun found

theorem severed_gap {gap : List Char} (some_ : gap ≠ []) (blank : ∀ c ∈ gap, isBlank c = true)
    (text rest : List Char) : Severed text (gap ++ rest) := by
  obtain ⟨c, gap, rfl⟩ := List.exists_cons_of_ne_nil some_
  rintro u _ _ ⟨⟩
  exact fuses_blank_right (blank c List.mem_cons_self) u

theorem leads_name {rest : List Char} (lexes : Lexes .name name) (ends : Ends rest) :
    Leads true (name.toList ++ rest) [nameWord name] false rest := by
  obtain ⟨c, cs, spelled, found⟩ := lexes
  have word : nameWord name = (.name, String.ofList (c :: cs)) := by
    rw [nameWord, ← spelled, String.ofList_toList]
  rw [word, spelled]
  exact leads_lexeme (lexeme_append ends (.inl rfl) found)

theorem ends_assign {gap : List Char} (blank : ∀ c ∈ gap, isBlank c = true) (rest : List Char) :
    Ends (gap ++ '=' :: rest) := by
  cases gap with
  | nil =>
    rintro _ _ ⟨⟩
    rfl
  | cons c gap =>
    rintro _ _ ⟨⟩
    rw [isEnding, blank c List.mem_cons_self, Bool.or_true]

theorem apart_gap {gap rest : List Char} (blank : ∀ c ∈ gap, isBlank c = true)
    (apart : Apart rest) : Apart (gap ++ rest) := by
  cases gap with
  | nil => exact apart
  | cons c gap =>
    have before : Before isBlank (c :: gap ++ rest) := by
      rintro _ _ ⟨⟩
      exact blank c List.mem_cons_self
    exact before.apart

/-- A declaration is cut into its words, whatever stands behind it. -/
theorem Declares.leads (declares : Declares name formula text)
    (known : formula.value table = some value) :
    ∃ used, Reads (constants table) (.operation 0) used value ∧ ∀ start rest,
      Leads start (text ++ rest) (specparamWords name (words used)) true rest := by
  cases declares with
  | @mk front before after behind text named apart blank written =>
    simp only [List.mem_cons, List.not_mem_nil, or_false, forall_eq_or_imp, forall_eq] at blank
    obtain ⟨blank₁, blank₂, blank₃, blank₄⟩ := blank
    obtain ⟨used, reads, leads⟩ := written.stands known
    refine ⟨used, reads, fun start rest => ?_⟩
    have ends : Leads false (behind ++ ';' :: rest) [symbolWord .semicolon] true rest :=
      (leads_gap blank₄ false _).trans (leads_symbol (.inl rfl) rfl (by simp))
    have body := leads _ ((follows_cons (c := ';') rfl rest).append_gap blank₄)
    have assigned : Leads false (before ++ '=' :: (after ++ (text ++ (behind ++ ';' :: rest))))
        [symbolWord .assign] true (text ++ (behind ++ ';' :: rest)) :=
      (leads_gap blank₂ false _).trans
        ((leads_symbol (.inr ?_) rfl (by simp)).trans (leads_gap blank₃ true _))
    · have opens : Leads start (Keyword.specparam.spelling.toList ++ (front ++ (name.toList ++
          (before ++ '=' :: (after ++ (text ++ (behind ++ ';' :: rest)))))))
          [(.keyword .specparam, Keyword.specparam.spelling)] true
          (name.toList ++ (before ++ '=' :: (after ++ (text ++ (behind ++ ';' :: rest))))) :=
        (leads_keyword .specparam start (severed_gap apart blank₁ _ _)).trans
          (leads_gap blank₁ true _)
      have names := leads_name named (ends_assign blank₂ (after ++ (text ++ (behind ++ ';' :: rest))))
      simpa [specparamWords, Keyword.spelling] using opens.trans (names.trans (assigned.trans (body.trans ends)))
    · exact apart_gap blank₃ (written.apart _)

end Cutting

section Reading

variable {body after : List Token} {keyword x sign semicolon : Token}

theorem not_string {used : List Token} (reads : Reads (constants table) (.operation 0) used value) :
    ∀ t ∈ used, t.kind ≠ .string := by
  refine reads.forall_mem ?_ ?_ ?_ ?_ ?_
  · intro t apply sign
    rcases constants_before sign with kind | kind <;> simp [kind]
  · intro t found sign
    rcases constants_between sign with kind | kind <;> simp [kind]
  · intro t n meaning
    rcases constants_atom meaning with kind | kind <;> simp [kind]
  · intro t opens
    simp [eq_of_beq opens]
  · intro t closes
    simp [eq_of_beq closes]

theorem itemAfter_of_reads (opens : keyword.kind = .keyword .specparam) (named : x.kind = .name)
    (assigns : sign.kind = .symbol .assign) (ends : semicolon.kind = .symbol .semicolon)
    (reads : Reads (constants table) (.operation 0) body value) (after : List Token) :
    (itemAfter table keyword).run (x :: sign :: (body ++ semicolon :: after)) =
      .ok (.specparam x.line x.text (some value), after) := by
  have unquoted : NotAhead .string (body ++ semicolon :: after) := by
    obtain ⟨t, tail, rfl⟩ := List.exists_cons_of_ne_nil reads.operation_ne_nil
    exact notAhead_cons (not_string reads t List.mem_cons_self)
  have plain : (take? .string).run (body ++ semicolon :: after) =
      .ok (none, body ++ semicolon :: after) := take?_run.mpr (.inr ⟨rfl, rfl, unquoted⟩)
  have stops := constants_stops table ends nofun nofun after
  rw [itemAfter, opens]
  change (specparam table).run _ = _
  rw [specparam, Rule.run_then (take_run.mpr ⟨rfl, named⟩), expect_then assigns,
    Rule.run_then plain, Option.isSome_none, if_neg Bool.false_ne_true,
    Rule.run_then (constant_run reads stops), expect_then ends]
  rfl

/-- The words of a declaration are read up to the semicolon and store its value. -/
theorem stored_of_words {used ts : List Token} (fresh : timing.specparams.lookup name = none)
    (reads : Reads (constants timing.specparams) (.operation 0) used value)
    (same : words ts = specparamWords name (words used)) :
    ∃ opening body semicolon, ts = opening ++ (body ++ [semicolon]) ∧
      semicolon.kind = .symbol .semicolon ∧
      ∀ after, (constant timing.specparams).run (body ++ semicolon :: after) =
          .ok (value, semicolon :: after) ∧
        (items timing (ts ++ after)).map (·.val) =
          (items { timing with specparams := timing.specparams ++ [(name, value)] } after).map
            (·.val) := by
  obtain ⟨keyword, ts, rfl, opens, same⟩ := words_eq_cons same
  obtain ⟨x, ts, rfl, named, written, same⟩ := words_eq_name same
  obtain ⟨sign, ts, rfl, assigns, same⟩ := words_eq_symbol same
  obtain ⟨body, semicolon, rfl, alike, ends⟩ := words_eq_end same
  subst written
  have reads' := reads.of_words (placeless_constants timing.specparams) alike
  refine ⟨[keyword, x, sign], body, semicolon, rfl, ends, fun after => ⟨?_, ?_⟩⟩
  · exact constant_run reads' (constants_stops _ ends nofun nofun after)
  · have kind : keyword.kind = .keyword .specparam := Token.kind_of_word opens
    have item := itemAfter_of_reads kind named assigns ends reads' after
    have added : timing.add (.specparam x.line x.text (some value)) =
        .ok { timing with specparams := timing.specparams ++ [(x.text, value)] } := by
      simp [ModuleTiming.add, fresh]
    have shape : keyword :: x :: sign :: (body ++ [semicolon]) ++ after =
        keyword :: x :: sign :: (body ++ semicolon :: after) := by simp
    rw [shape, items_item (by simp [kind]) item, added]
    rfl

end Reading

section Blocks

theorem Declarations.stored {later : Specparams} (declarations : Declarations table text later)
    (timing : ModuleTiming) (same : timing.specparams = table) :
    ∃ between, (∀ rest, Leads true (text ++ rest) between true rest) ∧ ∀ ts after,
      words ts = between →
        (items timing (ts ++ after)).map (·.val) =
          (items { timing with specparams := later } after).map (·.val) := by
  induction declarations generalizing timing with
  | none =>
    refine ⟨[], fun rest => @leads_gap [] (by simp) true rest, fun ts after none => ?_⟩
    rw [words_eq_nil none, ← same]
    rfl
  | @cons table later name formula value gap text more blank declares fresh known _ ih =>
    subst same
    obtain ⟨used, reads, leads⟩ := declares.leads known
    obtain ⟨others, leads', stored⟩ :=
      ih { timing with specparams := timing.specparams ++ [(name, value)] } rfl
    refine ⟨specparamWords name (words used) ++ others, fun rest => ?_, fun ts after alike => ?_⟩
    · simpa using (leads_gap blank true _).trans ((leads true _).trans (leads' rest))
    · obtain ⟨front, back, rfl, first, second⟩ := words_eq_append alike
      obtain ⟨_, _, _, _, _, continues⟩ := stored_of_words fresh reads first
      rw [List.append_assoc, (continues _).2, stored back after second]

/-- A block of declarations holds the specparams they add up to. -/
theorem ofBlock_declarations {front back last : List Char} (some_ : front ≠ [])
    (blank : ∀ gap ∈ [front, back, last], ∀ c ∈ gap, isBlank c = true)
    (declarations : Declarations [] text table) :
    ModuleTiming.ofBlock (String.ofList (Keyword.specify.spelling.toList ++ (front ++ (text ++
      (back ++ (Keyword.endspecify.spelling.toList ++ last)))))) = .ok { specparams := table } := by
  obtain ⟨between, leads, stored⟩ := declarations.stored {} rfl
  simp only [List.mem_cons, List.not_mem_nil, or_false, forall_eq_or_imp, forall_eq] at blank
  obtain ⟨blank₁, blank₂, blank₃⟩ := blank
  have opens := (leads_keyword .specify true (severed_gap some_ blank₁ _ (text ++
    (back ++ (Keyword.endspecify.spelling.toList ++ last))))).trans (leads_gap blank₁ true _)
  have nothing : Follows [] := by rintro _ ⟨⟩
  have ended := leads_gap blank₃ true []
  have closes := leads_keyword .endspecify true ((nothing.append_gap blank₃).severed _)
  rw [List.append_nil] at closes ended
  obtain ⟨all, line, offset, cut, written⟩ :=
    (opens.trans ((leads _).trans ((leads_gap blank₂ true _).trans (closes.trans ended)))) 1 0
  rw [tokensFrom] at cut
  simp only [List.nil_append, List.append_nil, List.singleton_append] at written
  obtain ⟨head, rest, rfl, opening, inside⟩ := words_eq_cons written
  obtain ⟨ts, others, rfl, first, behind⟩ := words_eq_append inside
  obtain ⟨closing, none, rfl, ending, nothing⟩ := words_eq_cons behind
  cases words_eq_nil nothing
  have tokens : Token.ofString (String.ofList (Keyword.specify.spelling.toList ++ (front ++ (text ++
      (back ++ (Keyword.endspecify.spelling.toList ++ last)))))) =
      .ok (head :: (ts ++ closing :: [⟨.endOfInput, "", line, offset⟩])) := by
    rw [Token.ofString, String.toList_ofList, cut]
    simp [Except.map]
  rw [ModuleTiming.ofBlock, tokens]
  change groups {} _ = _
  rw [groups_specify (Token.kind_of_word opening), continued, stored _ _ first,
    items_ending (Token.kind_of_word ending)]
  rfl

end Blocks

/-- The expression of a declaration is read up to the semicolon, and the value of its tree is
the one value that is stored. -/
theorem declared_value (declares : Declares name formula text)
    (fresh : timing.specparams.lookup name = none)
    (known : formula.value timing.specparams = some value)
    (line offset : Nat) (start : Bool) (behind : List Char) :
    ∃ opening body semicolon line' offset',
      Token.tokensFrom line offset start (text ++ behind) =
        (Token.tokensFrom line' offset' true behind).map (opening ++ (body ++ [semicolon]) ++ ·) ∧
      semicolon.kind = .symbol .semicolon ∧
      ∀ after, (constant timing.specparams).run (body ++ semicolon :: after) =
          .ok (value, semicolon :: after) ∧
        (items timing (opening ++ (body ++ [semicolon]) ++ after)).map (·.val) =
          (items { timing with specparams := timing.specparams ++ [(name, value)] } after).map
            (·.val) := by
  obtain ⟨used, reads, leads⟩ := declares.leads known
  obtain ⟨ts, line', offset', cut, same⟩ := leads start behind line offset
  obtain ⟨opening, body, semicolon, rfl, ends, stored⟩ := stored_of_words fresh reads same
  exact ⟨opening, body, semicolon, line', offset', cut, ends, stored⟩

private def real (whole fraction : List Char) : Number :=
  Number.ofReal (Decimal.ofDigits false whole fraction 0)

/-- `1.5 - -(T) + -0.25` -/
private def chain : Formula :=
  .joined .plus
    (.joined .minus (.literal (real ['1'] ['5'])) (.signed .minus (.name "T")))
    (.signed .minus (.literal (real ['0'] ['2', '5'])))

private def three : ModuleTiming := { specparams := [("T", Number.ofInt 3)] }

private theorem chain_written : Written .row chain "1.5--(T)+ -0.25".toList := by
  have none : ∀ c ∈ ([] : List Char), isBlank c = true := by simp
  have blank : ∀ c ∈ [' '], isBlank c = true := by simp [isBlank]
  have first : Written .operand (.literal (real ['1'] ['5'])) "1.5".toList :=
    .literal (@Number.literal_pointed ['1'] ['5'] rfl rfl)
  have name : Written .operand (.name "T") "T".toList := .name ⟨'T', [], rfl, by decide⟩
  have negated : Written .operand (.signed .minus (.name "T")) "-(T)".toList :=
    .signed none (.group none none (.alone name))
  have last : Written .operand (.signed .minus (.literal (real ['0'] ['2', '5']))) "-0.25".toList :=
    .signed none (.literal (@Number.literal_pointed ['0'] ['2', '5'] rfl rfl))
  exact .joined none blank (.joined none none (.alone first) negated) last

theorem declared_value_chain :
    Declares "X" chain "specparam X=1.5--(T)+ -0.25;".toList ∧
      three.specparams.lookup "X" = none ∧
      ∃ value, chain.value three.specparams = some value ∧ value.text = "4.25" ∧
        ∃ opening body semicolon line offset,
          Token.tokensFrom 1 0 true ("specparam X=1.5--(T)+ -0.25;".toList ++ "endspecify".toList) =
            (Token.tokensFrom line offset true "endspecify".toList).map
              (opening ++ (body ++ [semicolon]) ++ ·) ∧
          ∀ after, (constant three.specparams).run (body ++ semicolon :: after) =
              .ok (value, semicolon :: after) ∧
            (items three (opening ++ (body ++ [semicolon]) ++ after)).map (·.val) =
              (items { three with specparams := three.specparams ++ [("X", value)] } after).map
                (·.val) := by
  have declares : Declares "X" chain "specparam X=1.5--(T)+ -0.25;".toList :=
    @Declares.mk "X" chain [' '] [] [] [] _ ⟨'X', [], rfl, by decide⟩ (by simp)
      (by simp [isBlank]) chain_written
  have printed : (chain.value three.specparams).map Number.text = some "4.25" := by decide +kernel
  obtain ⟨value, known, text⟩ := Option.map_eq_some_iff.mp printed
  obtain ⟨opening, body, semicolon, line, offset, cut, _, stored⟩ :=
    @declared_value three _ _ _ _ declares rfl known 1 0 true "endspecify".toList
  exact ⟨declares, rfl, value, known, text, opening, body, semicolon, line, offset, cut, stored⟩

end CellTiming.Formula
