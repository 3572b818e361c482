import CellTiming.Proofs.CallPlace
import CellTiming.Proofs.CombinedChecks
import CellTiming.Proofs.Declaration

/-! A group of a block that is ended and followed by another one. Nothing reaches over the end of a
line in a text that can be cut into words alone, and nothing over the end of a group, behind which
all that has been read is still known: the two groups may be one. -/
namespace CellTiming

namespace Token

open Formula (leads_keyword severed_gap)

section Lines

variable {start middle stop : Bool} {c : Char} {cs text more : List Char} {found : Lexeme}
  {between others : List Word}

/-- No lexeme goes on over the end of its line. -/
theorem lexeme_feed (ok : lexeme start c cs = .ok found) (rest : List Char) :
    lexeme start c (cs ++ '\n' :: rest) = .ok found := by
  by_cases quote : c = '"'
  · subst quote
    rw [lexeme_string] at ok ⊢
    obtain ⟨body, back, rfl, rfl, _, again⟩ := string_cut ok
    rw [List.append_assoc, List.cons_append]
    exact again (back ++ '\n' :: rest)
  · have severed : Severed (c :: cs) ('\n' :: rest) := by
      rintro u _ _ ⟨⟩
      exact fuses_blank_right rfl u
    exact (lexeme_severed severed quote).trans ok

/-- Whether a sign behind the words may begin a number. -/
def startBehind : Bool → List Word → Bool
  | start, [] => start
  | _, word :: words => startBehind (!word.1.endsOperand) words

theorem startBehind_concat (start : Bool) (words : List Word) (word : Word) :
    startBehind start (words ++ [word]) = !word.1.endsOperand := by
  induction words generalizing start with
  | nil => rfl
  | cons first words ih => exact ih _

/-- The lines of the text are cut into the words, whatever lines follow. -/
def Lines (start : Bool) (text : List Char) (between : List Word) (stop : Bool) : Prop :=
  ∀ rest, Leads start (text ++ '\n' :: rest) between stop rest

theorem Lines.append (lines : Lines start text between middle)
    (further : Lines middle more others stop) :
    Lines start (text ++ '\n' :: more) (between ++ others) stop := by
  intro rest
  rw [List.append_assoc, List.cons_append]
  exact (lines _).trans (further rest)

theorem lines_keyword (keyword : Keyword) (start : Bool) :
    Lines start keyword.spelling.toList [(.keyword keyword, keyword.spelling)] true := by
  intro rest
  have feed : ∀ c ∈ ['\n'], isBlank c = true := List.forall_mem_singleton.mpr rfl
  exact (leads_keyword keyword start (severed_gap (List.cons_ne_nil _ _) feed _ rest)).trans
    (leads_gap feed true rest)

theorem Lines.lexeme (ok : Token.lexeme start c text = .ok found)
    (lines : Lines (!found.kind.endsOperand) (text.drop found.more) between stop) :
    Lines start (c :: text) ((found.kind, String.ofList (c :: text.take found.more)) :: between)
      stop := by
  intro rest
  have whole : text ++ '\n' :: rest =
      text.take found.more ++ (text.drop found.more ++ '\n' :: rest) := by
    rw [← List.append_assoc, List.take_append_drop]
  have within : found.more ≤ text.length := (lexeme_take ok 0).2
  have ok' : Token.lexeme start c
      (text.take found.more ++ (text.drop found.more ++ '\n' :: rest)) =
        .ok ⟨found.kind, (text.take found.more).length⟩ := by
    rw [← whole, lexeme_feed ok, List.length_take_of_le within]
  rw [List.cons_append, whole]
  exact (leads_lexeme ok').trans (lines rest)

/-- A text that can be cut into words alone is so before other lines. -/
theorem lines_of_lexed {start : Bool} {text : List Char} {ws : List Word}
    (ok : lexed start text = .ok ws) : ∃ between,
      Lines start text between (startBehind start between) := by
  match text with
  | [] => exact ⟨[], fun rest => @leads_gap ['\n'] (List.forall_mem_singleton.mpr rfl) start rest⟩
  | c :: text =>
    by_cases blank : isBlank c = true
    · rw [lexed_blank blank] at ok
      obtain ⟨between, lines⟩ := lines_of_lexed ok
      refine ⟨between, fun rest => ?_⟩
      exact (@leads_gap [c] (List.forall_mem_singleton.mpr blank) start _).trans (lines rest)
    · rw [Bool.not_eq_true] at blank
      rw [lexed_lexeme blank] at ok
      cases read : lexeme start c text with
      | error flaw =>
        rw [read] at ok
        cases ok
      | ok found =>
        rw [read] at ok
        dsimp only at ok
        cases tail : lexed (!found.kind.endsOperand) (text.drop found.more) with
        | error flaw =>
          rw [tail] at ok
          cases ok
        | ok behind =>
          obtain ⟨between, lines⟩ := lines_of_lexed tail
          exact ⟨_, lines.lexeme read⟩
termination_by text.length

def keywordWord (keyword : Keyword) : Word := (.keyword keyword, keyword.spelling)

/-- A group is cut into the words of its lines between the two that mark it. -/
theorem lexed_group (lines : Lines true text between stop) :
    lexed true (Keyword.specify.spelling.toList ++
        '\n' :: (text ++ '\n' :: Keyword.endspecify.spelling.toList)) =
      .ok (keywordWord .specify :: (between ++ [keywordWord .endspecify, (.endOfInput, "")])) := by
  have severed : Severed Keyword.endspecify.spelling.toList [] := by rintro _ _ _ ⟨⟩
  have closing := leads_keyword .endspecify stop severed
  rw [List.append_nil] at closing
  have whole := ((lines_keyword .specify true).append lines _).trans closing
  rw [List.append_assoc, List.cons_append] at whole
  have nothing : lexed true [] = .ok [(.endOfInput, "")] := by
    rw [lexed, tokensFrom]
    rfl
  rw [lexed_of_leads whole, nothing]
  exact congrArg Except.ok (by simp [keywordWord])

theorem lexed_of_ofString {text : String} {ts : List Token} (cut : ofString text = .ok ts) :
    lexed true text.toList = .ok (words ts) := by
  have cut' : tokensFrom 1 0 true text.toList = .ok ts := cut
  rw [lexed, cut']
  rfl

end Lines

end Token

namespace Grammar

variable {timing : ModuleTiming} {front back : List Token} {ending opening : Token}

/-- Every end of a group stands behind an item or at the front of its group. -/
theorem ending_reached (ends : ending.kind = .keyword .endspecify)
    (once : EndsOnce (front ++ ending :: back))
    (ok : ModuleTiming.ofTokens (front ++ ending :: back) = .ok timing) :
    ∃ found state, Reached (front ++ ending :: back) found state (ending :: back) := by
  have outer : ending.kind ∉ .symbol .semicolon :: statementKinds := by
    simp [ends, statementKinds, innerKinds, listKinds, argumentKinds]
  exact head_reached ok once (heads_of_kind outer) (by simp [ends]) (by simp [ends])
    (fun _ _ => trivial) rfl

theorem ofTokens_unbroken (ends : ending.kind = .keyword .endspecify)
    (opens : opening.kind = .keyword .specify)
    (once : EndsOnce (front ++ ending :: opening :: back))
    (ok : ModuleTiming.ofTokens (front ++ ending :: opening :: back) = .ok timing) :
    ModuleTiming.ofTokens (front ++ back) = .ok timing ∧
      ∃ w ∈ front.getLast?, w.kind = .keyword .specify ∨ w.kind = .symbol .semicolon := by
  obtain ⟨found, state, reached⟩ := ending_reached ends once ok
  obtain ⟨front', whole, again⟩ := reached.elsewhere
  obtain rfl := List.append_cancel_right whole
  obtain ⟨before, same, last⟩ := reached.previous
  obtain rfl := List.append_cancel_right same
  refine ⟨?_, last⟩
  rw [(again back).continues, ← continued_group ends opens, ← reached.continues, ok]

end Grammar

open Token in
theorem ofWords_unbroken {front back : List Word} {timing : ModuleTiming}
    (once : EndsOnce (ofWords (front ++ keywordWord .endspecify :: keywordWord .specify :: back)))
    (read : ModuleTiming.ofTokens (ofWords (front ++
      keywordWord .endspecify :: keywordWord .specify :: back)) = .ok timing) :
    ModuleTiming.ofTokens (ofWords (front ++ back)) = .ok timing ∧
      ∀ start, startBehind start front = true := by
  rw [ofWords_append] at once read
  have ends : (ofWord (keywordWord .endspecify)).kind = .keyword .endspecify := rfl
  have opens : (ofWord (keywordWord .specify)).kind = .keyword .specify := rfl
  obtain ⟨joined, w, final, kind⟩ := Grammar.ofTokens_unbroken ends opens once read
  refine ⟨ofWords_append front back ▸ joined, fun start => ?_⟩
  rw [ofWords, List.getLast?_map] at final
  obtain ⟨word, last, rfl⟩ := Option.map_eq_some_iff.mp final
  obtain ⟨init, rfl⟩ := List.getLast?_eq_some_iff.mp last
  rw [startBehind_concat]
  rcases kind with kind | kind
  · rw [show word.1 = _ from kind]
    rfl
  · rw [show word.1 = _ from kind]
    rfl

open Token in
/-- What stands in two groups, the one right behind the other, may stand in one: the timing is the
same. -/
theorem ofBlock_unbroken {first second : String} {ts us : List Token} {timing : ModuleTiming}
    (cut : Token.ofString first = .ok ts) (cut' : Token.ofString second = .ok us)
    (ok : ModuleTiming.ofBlock
      ("\n".intercalate ["specify", first, "endspecify", "specify", second, "endspecify"]) =
        .ok timing) :
    ModuleTiming.ofBlock ("\n".intercalate ["specify", first, second, "endspecify"]) =
      .ok timing := by
  obtain ⟨front, lines⟩ := lines_of_lexed (lexed_of_ofString cut)
  obtain ⟨back, lines'⟩ := lines_of_lexed (lexed_of_ofString cut')
  have broken := lexed_group (lines.append (((lines_keyword .endspecify _).append
    (lines_keyword .specify true)).append lines'))
  have text : ("\n".intercalate ["specify", first, "endspecify", "specify", second,
      "endspecify"]).toList = Keyword.specify.spelling.toList ++ '\n' ::
        ((first.toList ++ '\n' :: ((Keyword.endspecify.spelling.toList ++ '\n' ::
          Keyword.specify.spelling.toList) ++ '\n' :: second.toList)) ++
            '\n' :: Keyword.endspecify.spelling.toList) := by
    simp [Keyword.spelling]
  obtain ⟨ws, cutAll, read, once⟩ := words_of_ofBlock ok
  obtain rfl := Except.ok.inj (broken.symm.trans (text ▸ cutAll))
  have split : keywordWord .specify :: (front ++ ([keywordWord .endspecify] ++
      [keywordWord .specify] ++ back) ++ [keywordWord .endspecify, (.endOfInput, "")]) =
      (keywordWord .specify :: front) ++ (keywordWord .endspecify :: keywordWord .specify ::
        (back ++ [keywordWord .endspecify, (.endOfInput, "")])) := by
    simp
  obtain ⟨joined, fresh⟩ := ofWords_unbroken (split ▸ once) (split ▸ read)
  have lines' : Lines (startBehind true front) second.toList back _ := (fresh true).symm ▸ lines'
  have whole := lexed_group (lines.append lines')
  refine ofBlock_of_words (Eq.trans (congrArg (lexed true) ?_) whole) ?_
  · simp [Keyword.spelling]
  · rw [List.append_assoc]
    exact joined

/-- Two groups, the second of which asks for what the first declares. -/
private def guardedHalf : String := "specparam T = 2;\nendspecify specify\nif (E) (A => Q) = T;"

private def defaultHalf : String := "ifnone (A => Q) = T + 1;\n$setup(D, C, T);"

theorem ofBlock_unbroken_default :
    ∃ timing, ModuleTiming.ofBlock ("\n".intercalate
        ["specify", guardedHalf, "endspecify", "specify", defaultHalf, "endspecify"]) = .ok timing ∧
      ModuleTiming.ofBlock ("\n".intercalate ["specify", guardedHalf, defaultHalf, "endspecify"]) =
        .ok timing ∧
      timing.specparams.length = 1 ∧ timing.conditioned.paths.length = 2 ∧
      timing.checks.length = 1 := by
  have cut : (Token.ofString guardedHalf).toOption.map List.length = some 20 := by
    decide +kernel
  have cut' : (Token.ofString defaultHalf).toOption.map List.length = some 21 := by
    decide +kernel
  have read : (ModuleTiming.ofBlock ("\n".intercalate ["specify", guardedHalf, "endspecify",
      "specify", defaultHalf, "endspecify"])).toOption.map (fun timing => (timing.specparams.length,
        timing.conditioned.paths.length, timing.checks.length)) = some (1, 2, 1) := by
    decide +kernel
  obtain ⟨_, tokens, _⟩ := exists_ok_of_toOption cut
  obtain ⟨_, tokens', _⟩ := exists_ok_of_toOption cut'
  obtain ⟨timing, ok, counted⟩ := exists_ok_of_toOption read
  obtain ⟨declared, guarded, checked⟩ := by simpa using counted
  exact ⟨timing, ok, ofBlock_unbroken tokens tokens' ok, declared, guarded, checked⟩

end CellTiming
