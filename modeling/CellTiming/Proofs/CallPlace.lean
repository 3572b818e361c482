import CellTiming.Proofs.Exchange
import CellTiming.Proofs.Spread
import CellTiming.Proofs.Tiling

/-! Where calls stand in a block. A task heads an item, so there is a semicolon or the word that
opens the group before it, and no name and no string goes on into its dollar sign. -/
namespace CellTiming

namespace Token

section Lexemes

variable {start : Bool} {c : Char} {cs : List Char} {found : Lexeme}

/-- A keyword is read as far as its word goes. -/
theorem keyword_ends {keyword : Keyword} (ok : lexeme start c cs = .ok found)
    (kind : found.kind = .keyword keyword) :
    ∀ v ∈ (cs.drop found.more).head?, isNameChar v = false := by
  obtain ⟨tail, back, rfl, taken, fails, _⟩ := takeWhile_cut isNameChar cs
  rw [(keyword_of_lexeme ok kind).1, taken, List.drop_left]
  intro v head
  obtain ⟨others, rfl⟩ := List.head?_eq_some_iff.mp head
  exact fails v others rfl

end Lexemes

/-- The text between an offset and a token, with the tokens in it. No string goes on behind it,
and it ends in a blank or with the last of the tokens. -/
structure Ahead (offset : Nat) (front rest : List Char) (before : List Token) (t : Token) : Prop where
  place : t.start = offset + (Text.encoded front).length
  outside : inString false front = false
  covers : before ≠ [] → front ≠ []
  last : ∀ u ∈ front.getLast?, isBlank u = true ∨ ∃ w ∈ before.getLast?,
    u ∈ w.text.toList.getLast? ∧
      ∀ keyword, w.kind = .keyword keyword → ∀ v ∈ rest.head?, isNameChar v = false

section Run

variable {offset line : Nat} {start : Bool} {c : Char} {front rest text : List Char}
  {before after ts : List Token} {t first : Token}

theorem Ahead.blank (blank : isBlank c = true) (ahead : Ahead (offset + 1) front rest before t) :
    Ahead offset (c :: front) rest before t := by
  obtain ⟨place, outside, -, last⟩ := ahead
  refine ⟨?_, ?_, by simp, fun u member => ?_⟩
  · have single : (Text.encoded [c]).length = 1 := (encoded_blank (by simpa using blank)).1
    rw [place, ← List.singleton_append, Text.encoded_append, List.length_append, single]
    omega
  · exact (inString_blank blank front).trans outside
  · cases front with
    | nil =>
      cases member
      exact .inl blank
    | cons d front => exact last u (by rwa [List.getLast?_cons_cons] at member)

theorem Ahead.token (spelled : first.text.toList ≠ [])
    (closed : inString false first.text.toList = false)
    (ends : ∀ keyword, first.kind = .keyword keyword → ∀ v ∈ (front ++ rest).head?,
      isNameChar v = false)
    (ahead : Ahead first.stop front rest before t) :
    Ahead first.start (first.text.toList ++ front) rest (first :: before) t := by
  obtain ⟨place, outside, behind, last⟩ := ahead
  refine ⟨?_, ?_, fun _ => by simp [spelled], fun u member => ?_⟩
  · have length := length_text first
    have order := start_le_stop first
    rw [Text.encoded_append, List.length_append]
    omega
  · rw [inString_append, closed]
    exact outside
  · cases front with
    | nil =>
      obtain rfl : before = [] := by
        by_contra more
        exact behind more rfl
      rw [List.append_nil] at member
      exact .inr ⟨first, rfl, member, ends⟩
    | cons d front =>
      rw [List.getLast?_append_of_ne_nil _ (List.cons_ne_nil d front)] at member
      rcases last u member with blank | ⟨w, known, word⟩
      · exact .inl blank
      · have still : w ∈ ([first] ++ before).getLast? :=
          List.mem_getLast?_append_of_mem_getLast? known
        exact .inr ⟨w, still, word⟩

theorem ahead_of_tokens (ok : tokensFrom line offset start text = .ok ts)
    (split : ts = before ++ t :: after) :
    ∃ front rest, text = front ++ rest ∧ Ahead offset front rest before t := by
  fun_induction tokensFrom line offset start text generalizing ts before with
  | case1 line offset =>
    cases ok
    obtain ⟨rfl, rfl⟩ : before = [] ∧ t = ⟨.endOfInput, "", line, offset⟩ := by
      cases before with
      | nil => exact ⟨rfl, (List.cons.inj split).1.symm⟩
      | cons => simp at split
    exact ⟨[], [], rfl, rfl, rfl, by simp, by simp⟩
  | case2 line offset start cs ih =>
    obtain ⟨front, rest, rfl, ahead⟩ := ih ok split
    exact ⟨'\n' :: front, rest, rfl, ahead.blank rfl⟩
  | case3 line offset start c cs _ blank ih =>
    obtain ⟨front, rest, rfl, ahead⟩ := ih ok split
    exact ⟨c :: front, rest, rfl, ahead.blank (by rcases blank with rfl | rfl | rfl <;> rfl)⟩
  | case4 => cases ok
  | case5 line offset start c cs _ _ kind more found token =>
    rename_i ih
    cases following : tokensFrom line token.stop (!kind.endsOperand) (cs.drop more) with
    | error e => rw [following] at ok; cases ok
    | ok tokens =>
      rw [following] at ok
      cases ok
      cases before with
      | nil =>
        obtain ⟨rfl, -⟩ := List.cons.inj split
        exact ⟨[], c :: cs, rfl, rfl, rfl, by simp, by simp⟩
      | cons first before =>
        obtain ⟨same, split⟩ := List.cons.inj split
        rw [← same]
        obtain ⟨front, rest, whole, ahead⟩ := ih following split
        have spelled : token.text.toList = c :: cs.take more := String.toList_ofList
        refine ⟨token.text.toList ++ front, rest, ?_, .token ?_ ?_ ?_ ahead⟩
        · rw [spelled, List.append_assoc, ← whole, List.cons_append, List.take_append_drop]
        · simp [spelled]
        · rw [spelled]
          exact inString_lexeme found
        · rw [← whole]
          exact fun keyword kind => keyword_ends found kind

end Run

end Token

namespace Grammar

/-- The last token that the rule takes is a semicolon. -/
def EndsStatement {α : Type} (rule : TokenRule α) : Prop :=
  rule.Takes fun used _ => ∃ w ∈ used.getLast?, w.kind = .symbol .semicolon

theorem endsStatement_itemAfter (table : Specparams) (t : Token) :
    EndsStatement (itemAfter table t) := by
  refine (takesStatement_itemAfter table t).mono ?_
  rintro _ _ ⟨body, stop, rfl, _, ends⟩
  exact ⟨stop, List.getLast?_concat, ends⟩

theorem Reached.previous {ts left : List Token} {found : List TimingItem} {timing : ModuleTiming}
    (reached : Reached ts found timing left) : ∃ front, ts = front ++ left ∧
      ∃ w ∈ front.getLast?, w.kind = .keyword .specify ∨ w.kind = .symbol .semicolon := by
  cases reached with
  | @start t rest whole opens => exact ⟨[t], whole, t, rfl, .inl opens⟩
  | @item _ timing t rest item after _ before starts read added =>
    obtain ⟨front, whole⟩ := before.suffix
    obtain ⟨used, rfl, w, last, kind⟩ := endsStatement_itemAfter timing.specparams t _ _ _ read
    refine ⟨front ++ t :: used, by simp [← whole], w, ?_, .inr kind⟩
    have behind : w ∈ ([t] ++ used).getLast? := List.mem_getLast?_append_of_mem_getLast? last
    exact List.mem_getLast?_append_of_mem_getLast? behind
  | @group _ _ t next _ before ends opens =>
    obtain ⟨front, whole⟩ := before.suffix
    exact ⟨front ++ [t, next], by simp [← whole], next, by simp, .inl opens⟩

end Grammar

/-- A place for a call: no name and no string goes on into the dollar sign there. -/
structure CallPlace (front : String) : Prop where
  apart : Token.Severed front.toList ['$']
  outside : Token.inString false front.toList = false

/-- The text has the word of the task behind the front. -/
def CallAt (text front : String) (task : CheckTask) : Prop :=
  ∃ ts, Token.ofString text = .ok ts ∧
    ∃ t ∈ ts, t.kind = .task task ∧ t.start = front.utf8ByteSize

instance (text front : String) (task : CheckTask) : Decidable (CallAt text front task) :=
  decidable_of_iff ((Token.ofString text).toOption.any fun ts => ts.any fun t =>
    t.kind = .task task ∧ t.start = front.utf8ByteSize) <| by
      rw [CallAt]
      cases Token.ofString text <;> simp [Except.toOption]

open Token in
/-- Every task of a block stands where a call may. -/
theorem callPlace_of_ofBlock {front text : String} {task : CheckTask} {timing : ModuleTiming}
    (ok : ModuleTiming.ofBlock (front ++ text) = .ok timing)
    (called : CallAt (front ++ text) front task) (starts : text.toList.head? = some '$') :
    CallPlace front := by
  obtain ⟨ts, cut, t, member, named, place⟩ := called
  obtain ⟨before, after, split⟩ := List.append_of_mem member
  obtain ⟨ts', cut', run, once⟩ := groupsRun_of_ofBlock ok
  obtain rfl : ts' = ts := Except.ok.inj (cut'.symm.trans cut)
  have read : ModuleTiming.ofTokens ts' = .ok timing := by
    rw [ModuleTiming.ofBlock, cut] at ok
    exact ok
  obtain ⟨found, state, reached⟩ := Grammar.task_reached read once named split
  obtain ⟨used, whole, w, previous, kind⟩ := reached.previous
  obtain rfl : used = before := List.append_cancel_right (whole.symm.trans split)
  obtain ⟨ahead, rest, same, stands⟩ := ahead_of_tokens cut split
  rw [String.toList_append] at same
  have length : (Text.encoded front.toList).length = (Text.encoded ahead).length := by
    rw [Text.length_encoded, ← place, stands.place, Nat.zero_add]
  obtain ⟨rfl, rfl⟩ := Text.front_of_length same length
  refine ⟨fun u last v dollar => ?_, stands.outside⟩
  cases dollar
  rcases stands.last u last with blank | ⟨w', known, spelled, ends⟩
  · exact fuses_blank_left blank '$'
  · obtain rfl : w' = w := Option.some.inj (known.symm.trans previous)
    rcases kind with specify | semicolon
    · exact absurd (ends _ specify '$' starts) (by decide)
    · have inside : w' ∈ ts' := split ▸ List.mem_append_left _ (List.mem_of_getLast? known)
      rw [(tokensFrom_spelled cut w' inside).symbol _ semicolon] at spelled
      cases spelled
      decide

end CellTiming
