import CellTiming.Proofs.ItemPlaces
import CellTiming.Proofs.Laid

/-! The layout of a text. Its tokens may be written out again with any blanks between them:
they are cut apart as the same words, so the timing that is read from them is the same. -/
namespace CellTiming

namespace Token

section Gaps

variable {rest gap : List Char}

theorem tokensFrom_blank {c : Char} (blank : isBlank c = true) (line offset : Nat) (start : Bool)
    (rest : List Char) :
    ∃ line' offset', tokensFrom line offset start (c :: rest) = tokensFrom line' offset' start rest := by
  have blank : c = ' ' ∨ c = '\t' ∨ c = '\r' ∨ c = '\n' := by simpa [isBlank] using blank
  by_cases feed : c = '\n'
  · exact ⟨line + 1, offset + 1, by rw [tokensFrom, if_pos feed]⟩
  · have other : c = ' ' ∨ c = '\t' ∨ c = '\r' := by simpa [feed] using blank
    exact ⟨line, offset + 1, by rw [tokensFrom, if_neg feed, if_pos other]⟩

theorem tokensFrom_gap (blank : ∀ c ∈ gap, isBlank c = true) (line offset : Nat) (start : Bool)
    (rest : List Char) :
    ∃ line' offset', tokensFrom line offset start (gap ++ rest) =
      tokensFrom line' offset' start rest := by
  induction gap generalizing line offset with
  | nil => exact ⟨line, offset, rfl⟩
  | cons c gap ih =>
    obtain ⟨blank, others⟩ := List.forall_mem_cons.mp blank
    obtain ⟨line', offset', step⟩ := tokensFrom_blank blank line offset start (gap ++ rest)
    obtain ⟨line'', offset'', same⟩ := ih others line' offset'
    exact ⟨line'', offset'', step.trans same⟩

end Gaps

/-- The texts of tokens with blanks before each and after the last. The mark of the end has
no text. -/
inductive Spaced : List Token → List Char → Prop
  | ending {t gap} (blank : ∀ c ∈ gap, isBlank c = true) : Spaced [t] gap
  | token {t ts gap rest} (blank : ∀ c ∈ gap, isBlank c = true) (apart : Before isBlank rest)
      (others : Spaced ts rest) : Spaced (t :: ts) (gap ++ (t.text.toList ++ rest))

theorem Spaced.ne_nil {ts : List Token} {text : List Char} (spaced : Spaced ts text) : ts ≠ [] := by
  cases spaced <;> simp

theorem Spaced.tokens {line start : Nat} {operandMayStart : Bool} {text spacious : List Char}
    {ts : List Token} (ok : tokensFrom line start operandMayStart text = .ok ts)
    (spaced : Spaced ts spacious) (line' start' : Nat) :
    ∃ ts', tokensFrom line' start' operandMayStart spacious = .ok ts' ∧ words ts' = words ts := by
  fun_induction tokensFrom line start operandMayStart text
    generalizing ts spacious line' start' with
  | case1 line start operandMayStart =>
    cases ok
    cases spaced with
    | @ending _ gap blank =>
      obtain ⟨last, offset, step⟩ := tokensFrom_gap blank line' start' operandMayStart []
      rw [List.append_nil, tokensFrom] at step
      exact ⟨_, step, rfl⟩
    | token _ _ others => exact absurd rfl others.ne_nil
  | case2 _ _ _ _ ih => exact ih ok spaced line' start'
  | case3 _ _ _ _ _ _ _ ih => exact ih ok spaced line' start'
  | case4 => cases ok
  | case5 line start operandMayStart c cs _ _ kind more found token =>
    rename_i ih
    cases following : tokensFrom line token.stop (!kind.endsOperand) (cs.drop more) with
    | error e => rw [following] at ok; cases ok
    | ok tokens =>
      rw [following] at ok
      cases ok
      cases spaced with
      | ending =>
        obtain ⟨_, _, same, _⟩ := tokensFrom_end following
        simp at same
      | @token _ _ gap rest blank apart others =>
        obtain ⟨line'', offset, step⟩ := tokensFrom_gap blank line' start' operandMayStart
          (token.text.toList ++ rest)
        -- the lexeme is the same by itself, and so is it before a blank
        obtain ⟨alone, within⟩ := lexeme_take found 0
        rw [Nat.add_zero] at alone
        have again : lexeme operandMayStart c (cs.take more ++ rest) =
            .ok ⟨kind, (cs.take more).length⟩ := by
          refine lexeme_append apart.ends (.inr (.inr apart.apart)) ?_
          rwa [List.length_take_of_le within]
        have spelled : token.text.toList = c :: cs.take more := String.toList_ofList
        rw [step, spelled, List.cons_append]
        exact tokensFrom_word (kind, token.text) spelled again line'' offset
          fun next => ih following others line'' next

end Token

/-- Tokens written out with the given blanks in front and behind each. -/
def spaced (front : String) (ts : List Token) (gaps : List String) : String :=
  front ++ String.join (List.zipWith (fun t gap => t.text ++ gap) ts gaps)

/-- There are blanks between any two tokens, and blanks or nothing at both ends. -/
structure Gaps (ts : List Token) (front : String) (gaps : List String) : Prop where
  count : gaps.length + 1 = ts.length
  blank : ∀ gap ∈ front :: gaps, gap.toList.all Token.isBlank = true
  apart : ∀ gap ∈ gaps.dropLast, gap ≠ ""

theorem spaced_cons (front gap : String) (t : Token) (ts : List Token) (gaps : List String) :
    (spaced front (t :: ts) (gap :: gaps)).toList =
      front.toList ++ (t.text.toList ++ (spaced gap ts gaps).toList) := by
  simp [spaced, String.join_cons, String.append_assoc]

theorem spaced_nil (front : String) (ts : List Token) : spaced front ts [] = front := by
  simp [spaced]

section Writing

variable {ts : List Token} {t : Token} {front gap : String} {gaps : List String}

theorem Gaps.tail (between : Gaps (t :: ts) front (gap :: gaps)) : Gaps ts gap gaps where
  count := Nat.succ.inj between.count
  blank := (List.forall_mem_cons.mp between.blank).2
  apart other member := by
    cases gaps with
    | nil => cases member
    | cons => exact between.apart other (List.mem_cons_of_mem gap member)

theorem Gaps.before (between : Gaps (t :: ts) front (gap :: gaps)) :
    Token.Before Token.isBlank (spaced gap ts gaps).toList := by
  intro c cs same
  cases spelled : gap.toList with
  | cons first others =>
    rw [spaced, String.toList_append, spelled] at same
    cases same
    exact List.all_eq_true.mp (between.blank gap (by simp)) c (by simp [spelled])
  | nil =>
    cases gaps with
    | nil =>
      rw [spaced_nil, spelled] at same
      cases same
    | cons => exact absurd (String.toList_eq_nil_iff.mp spelled) (between.apart gap (by simp))

theorem Gaps.spaced (between : Gaps ts front gaps) :
    Token.Spaced ts (spaced front ts gaps).toList := by
  induction gaps generalizing ts front with
  | nil =>
    obtain ⟨t, rfl⟩ := List.length_eq_one_iff.mp between.count.symm
    rw [spaced_nil]
    exact .ending (List.all_eq_true.mp (between.blank front (by simp)))
  | cons gap gaps ih =>
    cases ts with
    | nil => cases between.count
    | cons t ts =>
      rw [spaced_cons]
      exact .token (List.all_eq_true.mp (between.blank front (by simp))) between.before
        (ih between.tail)

end Writing

private def dense : String :=
  "specify if(A&B[1])(A=>Q)=-1.5;ifnone(A=>Q)=(4'd3,1-0.5);$width(posedge A,0.25);endspecify"

theorem ofBlock_spaced (text : String) (ts : List Token) (front : String) (gaps : List String)
    (tokens : Token.ofString text = .ok ts) (between : Gaps ts front gaps) :
    (∃ ts', Token.ofString (spaced front ts gaps) = .ok ts' ∧ words ts' = words ts) ∧
      (ModuleTiming.ofBlock (spaced front ts gaps)).mapError SourceError.placeless =
        (ModuleTiming.ofBlock text).mapError SourceError.placeless := by
  obtain ⟨ts', tokens', same⟩ := Token.Spaced.tokens tokens between.spaced 1 0
  have tokenized : Token.ofString (spaced front ts gaps) = .ok ts' := tokens'
  refine ⟨⟨ts', tokenized, same⟩, ?_⟩
  rw [ModuleTiming.ofBlock, ModuleTiming.ofBlock, tokenized, tokens]
  exact ModuleTiming.ofTokens_of_words same

theorem ofBlock_spaced_dense :
    ∃ ts, Token.ofString dense = .ok ts ∧ Gaps ts "\r" (List.replicate 39 " \t\n") ∧
      (∃ ts', Token.ofString (spaced "\r" ts (List.replicate 39 " \t\n")) = .ok ts' ∧
        words ts' = words ts) ∧
      ∃ timing, ModuleTiming.ofBlock dense = .ok timing ∧
        ModuleTiming.ofBlock (spaced "\r" ts (List.replicate 39 " \t\n")) = .ok timing := by
  have lexed : (Token.ofString dense).toOption.map List.length = some 40 := by decide +kernel
  have read : (ModuleTiming.ofBlock dense).toOption.map (fun _ => ()) = some () := by decide +kernel
  obtain ⟨ts, tokens, count⟩ := exists_ok_of_toOption lexed
  obtain ⟨timing, ok, _⟩ := exists_ok_of_toOption read
  have between : Gaps ts "\r" (List.replicate 39 " \t\n") := by
    refine ⟨by rw [List.length_replicate, count], ?_, ?_⟩
    · intro gap member
      rcases List.mem_cons.mp member with rfl | member
      · rfl
      · rw [List.eq_of_mem_replicate member]
        rfl
    · intro gap member
      rw [List.eq_of_mem_replicate (List.dropLast_subset _ member)]
      decide
  obtain ⟨same, equal⟩ := ofBlock_spaced dense ts _ _ tokens between
  refine ⟨ts, tokens, between, same, timing, ok, ?_⟩
  rw [ok] at equal
  generalize ModuleTiming.ofBlock (spaced "\r" ts (List.replicate 39 " \t\n")) = result at equal ⊢
  cases result with
  | error e => cases equal
  | ok found => exact congrArg Except.ok (Except.ok.inj equal)

end CellTiming
