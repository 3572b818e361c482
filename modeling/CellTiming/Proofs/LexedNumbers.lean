import CellTiming.Proofs.Failures

/-! The numbers among the tokens of a text. A number has been read once when it was cut off, so
its span reads as a number again, and what can be wrong with a block that has tokens is where
they stand and what its names stand for. -/
namespace CellTiming

open TokenRule (numberOf)

namespace Token

theorem reads_of_number {cs : List Char} {length : Nat} {found : Lexeme}
    (read : number cs length = .ok found) :
    found.more = length - 1 ∧ (Number.ofChars? (cs.take length)).isSome = true := by
  unfold number at read
  split at read
  next some =>
    cases read
    exact ⟨rfl, some⟩
  next => cases read

/-- A lexeme that is a number has been read as one. -/
theorem reads_of_lexeme {start : Bool} {c : Char} {cs : List Char} {found : Lexeme}
    (ok : lexeme start c cs = .ok found) (kind : found.kind = .number) :
    (Number.ofChars? (c :: cs.take found.more)).isSome = true := by
  have whole {length : Nat} (some : 0 < length) (read : number (c :: cs) length = .ok found) :
      (Number.ofChars? (c :: cs.take found.more)).isSome = true := by
    obtain ⟨more, reads⟩ := reads_of_number read
    rwa [more, ← List.take_succ_cons, Nat.sub_add_cancel some]
  cases cut_of_ok ok with
  | word =>
    rcases word_kind c cs with ⟨_, other⟩ | other <;> simp [other] at kind
  | task _ named =>
    obtain ⟨_, other⟩ := task_kind named
    simp [other] at kind
  | unsigned digit read => exact whole (unsignedLength_pos digit) read
  | signed _ _ _ read => exact whole (by omega) read
  | string _ closed => simp [string_kind closed] at kind
  | symbol => simp at kind

variable {text : String} {ts : List Token} {t : Token}

theorem number_of_token (lexed : ofString text = .ok ts) (member : t ∈ ts)
    (kind : t.kind = .number) : ∃ n, Number.ofString? t.text = some n := by
  obtain ⟨_, c, cs, found, ok, same, spelled⟩ := lexeme_of_mem lexed member (by simp [kind])
  have reads := reads_of_lexeme ok (same ▸ kind)
  rw [spelled, Number.ofString?, String.toList_ofList]
  exact Option.isSome_iff_exists.mp reads

end Token

namespace TokenRule

variable {ts : List Token} {e : SourceError}

theorem take_failed {kind : Token.Kind} (failed : (take kind).run ts = .error e) :
    e = unexpectedAt ts := by
  rw [take, Rule.run_bind] at failed
  cases looked : (take? kind).run ts with
  | error e' =>
    rw [looked] at failed
    cases ts <;> cases looked
  | ok step =>
    rw [looked] at failed
    obtain ⟨found, rest⟩ := step
    rcases take?_run.mp looked with ⟨t, rfl, _, _⟩ | ⟨rfl, rfl, _⟩
    · cases failed
    · cases failed
      rfl

theorem number_failed (failed : number.run ts = .error e) :
    e = unexpectedAt ts ∨ ∃ t rest, ts = t :: rest ∧ t.kind = .number ∧ numberOf t = .error e := by
  rw [number, Rule.run_bind] at failed
  cases taken : (take .number).run ts with
  | error e' =>
    rw [taken] at failed
    cases failed
    exact .inl (take_failed taken)
  | ok step =>
    obtain ⟨t, rest⟩ := step
    obtain ⟨rfl, kind⟩ := take_run.mp taken
    rw [taken] at failed
    cases read : numberOf t with
    | ok n =>
      simp only [read] at failed
      cases failed
    | error e' =>
      simp only [read] at failed
      cases failed
      exact .inr ⟨t, rest, rfl, kind, read⟩

end TokenRule

theorem numberOf_of_reads {t : Token} {n : Number} (reads : Number.ofString? t.text = some n) :
    numberOf t = .ok n := by
  rw [numberOf, reads]

/-- What is wrong with a block that has tokens is no fault of its characters. -/
theorem kind_of_error {text : String} {ts : List Token} {e : SourceError}
    (lexed : Token.ofString text = .ok ts) (failed : ModuleTiming.ofTokens ts = .error e) :
    e.kind ∈ [.unexpected, .specparamRedefined, .specparamUndeclared, .ifnoneUncovered] := by
  obtain ⟨t, member, causes⟩ := Grammar.causedIn_of_ofTokens (ended_of_tokens lexed) failed
  cases causes with
  | malformed kind unread =>
    obtain ⟨n, reads⟩ := Token.number_of_token lexed member kind
    rw [unread] at reads
    cases reads
  | misplaced | ending | redefined | undeclared | uncovered => simp [SourceError.kind]

/-- No number that the tokens of a text hold is refused when it is read from its span again, and
a text that has tokens fails for a token out of place, for a specparam declared twice or not at
all, or for an `ifnone` that covers nothing. -/
theorem ofBlock_error_kinds (text : String) (short : text.utf8ByteSize < 2 ^ 32) (ts : List Token)
    (lexed : Token.ofString text = .ok ts) :
    (∀ t ∈ ts, t.kind = .number →
      ∃ n, Number.ofString? (t.span.text text) = some n ∧ numberOf t = .ok n) ∧
    (∀ here, here <:+ ts → ∀ line literal,
      TokenRule.number.run here ≠ .error (.malformedNumber line literal)) ∧
    ∀ e, ModuleTiming.ofBlock text = .error e →
      e.kind ∈ [.unexpected, .specparamRedefined, .specparamUndeclared, .ifnoneUncovered] := by
  refine ⟨fun t member kind => ?_, fun here within line literal failed => ?_, fun e failed => ?_⟩
  · obtain ⟨n, reads⟩ := Token.number_of_token lexed member kind
    rw [(Token.text_of_token lexed short member).2.2]
    exact ⟨n, reads, numberOf_of_reads reads⟩
  · rcases TokenRule.number_failed failed with same | ⟨t, rest, rfl, kind, refused⟩
    · cases here <;> cases same
    · obtain ⟨n, reads⟩ := Token.number_of_token lexed (within.subset List.mem_cons_self) kind
      rw [numberOf_of_reads reads] at refused
      cases refused
  · rw [ModuleTiming.ofBlock, lexed] at failed
    exact kind_of_error lexed failed

private def misspelled : String :=
  "specify specparam s = \"µs\"; specparam tpd = 8'hF_f + -1.50;\n(A => Y) = tdp;\nendspecify"

theorem ofBlock_error_kinds_misspelled :
    ∃ ts, Token.ofString misspelled = .ok ts ∧
      (ts.filter (·.kind == .number)).map (·.text) = ["8'hF_f", "-1.50"] ∧
      (∀ t ∈ ts, t.kind = .number →
        ∃ n, Number.ofString? (t.span.text misspelled) = some n ∧ numberOf t = .ok n) ∧
      ∃ e, ModuleTiming.ofBlock misspelled = .error e ∧ e = .specparamUndeclared 2 "tdp" ∧
        e.kind ∈ [.unexpected, .specparamRedefined, .specparamUndeclared, .ifnoneUncovered] := by
  have cut : (Token.ofString misspelled).toOption.map
      (fun ts => (ts.filter (·.kind == .number)).map (·.text)) = some ["8'hF_f", "-1.50"] := by
    decide +kernel
  have refused : (ModuleTiming.ofBlock misspelled).map (fun _ => ()) =
      .error (.specparamUndeclared 2 "tdp") := by decide +kernel
  obtain ⟨ts, lexed, written⟩ := exists_ok_of_toOption cut
  obtain ⟨numbers, _, kinds⟩ := ofBlock_error_kinds misspelled (by decide) ts lexed
  refine ⟨ts, lexed, written, numbers, ?_⟩
  cases failed : ModuleTiming.ofBlock misspelled with
  | ok timing =>
    rw [failed] at refused
    cases refused
  | error e =>
    rw [failed] at refused
    exact ⟨e, rfl, Except.error.inj refused, kinds e failed⟩

end CellTiming
