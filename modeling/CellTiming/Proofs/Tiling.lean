import CellTiming.Proofs.LineFeed
import CellTiming.Proofs.Rule
import CellTiming.Token.Span

/-! The tokens of a text cover it but for blanks. Their spans are ranges of bytes between
characters, one behind the other, and where cutting fails the text before that place is cut
into tokens by itself. -/
namespace CellTiming

namespace Text

def bytes (text : String) : List UInt8 := text.toByteArray.data.toList

/-- The line of an offset, counted from one by the line feeds before it. -/
def lineAt (text : String) (offset : Nat) : Nat := 1 + ((bytes text).take offset).count 0x0a

def encoded (cs : List Char) : List UInt8 := cs.flatMap String.utf8EncodeChar

theorem bytes_eq (text : String) : bytes text = encoded text.toList := by
  rw [bytes, ← String.utf8Encode_toList, List.utf8Encode, encoded]
  simp

theorem length_encoded (text : String) : (encoded text.toList).length = text.utf8ByteSize := by
  rw [← bytes_eq]
  rfl

theorem encoded_append (cs ds : List Char) : encoded (cs ++ ds) = encoded cs ++ encoded ds :=
  List.flatMap_append

theorem count_feed (c : Char) :
    (String.utf8EncodeChar c).count 0x0a = if c = '\n' then 1 else 0 := by
  have feed : c = '\n' ↔ c.val.toNat = 10 := by
    rw [Char.ext_iff, ← UInt32.toNat_inj]
    rfl
  have byte (n : Nat) : UInt8.ofNat n = 0x0a ↔ n % 256 = 10 := by
    rw [← UInt8.toNat_inj]
    rfl
  have valid := c.valid
  simp only [String.utf8EncodeChar, feed]
  split
  next => simp only [List.count_cons, List.count_nil, beq_iff_eq, byte]; grind
  split
  next => simp only [List.count_cons, List.count_nil, beq_iff_eq, byte]; grind
  split <;> simp only [List.count_cons, List.count_nil, beq_iff_eq, byte] <;> grind

theorem count_encoded (cs : List Char) : (encoded cs).count 0x0a = cs.count '\n' := by
  induction cs with
  | nil => rfl
  | cons c cs ih =>
    rw [encoded, List.flatMap_cons, List.count_append, count_feed, ← encoded, ih, List.count_cons,
      Nat.add_comm]
    simp only [beq_iff_eq]

theorem lineAt_append (front back : String) :
    lineAt (front ++ back) front.utf8ByteSize = 1 + front.toList.count '\n' := by
  rw [lineAt, bytes_eq, String.toList_append, encoded_append, ← length_encoded, List.take_left,
    count_encoded]

theorem cutBytes_append (front back : List Char) :
    Span.cutBytes? (encoded front).length (front ++ back) = some (front, back) := by
  induction front with
  | nil => cases back <;> simp [encoded, Span.cutBytes?]
  | cons c front ih =>
    have size : (encoded (c :: front)).length = c.utf8Size + (encoded front).length := by
      rw [encoded, List.flatMap_cons, List.length_append, String.length_utf8EncodeChar, ← encoded]
    obtain ⟨n, some_⟩ := Nat.exists_eq_add_of_lt (Char.utf8Size_pos c)
    have rest : n + (encoded front).length + 1 - c.utf8Size = (encoded front).length := by omega
    rw [size, show c.utf8Size + (encoded front).length = n + (encoded front).length + 1 by omega,
      List.cons_append, Span.cutBytes?, if_pos (by omega), rest, ih]
    rfl

theorem front_of_length {front front' back back' : List Char}
    (same : front ++ back = front' ++ back')
    (length : (encoded front).length = (encoded front').length) : front = front' ∧ back = back' := by
  have cut := cutBytes_append front back
  rw [same, length, cutBytes_append] at cut
  exact Prod.mk.inj (Option.some.inj cut.symm)

end Text

namespace Token

/-- The bytes of spaces, tabs, carriage returns and line feeds. -/
def blankBytes : List UInt8 := [0x20, 0x09, 0x0d, 0x0a]

def spans (t : Token) (offset : Nat) : Prop :=
  t.span.start.toNat ≤ offset ∧ offset < t.span.stop.toNat

/-- The tokens lie one behind the other and only blanks lie between them. -/
structure Tiles (text : String) (ts : List Token) : Prop where
  ending : ∃ init last, ts = init ++ [last] ∧ last.kind = .endOfInput ∧
    last.span = .ofOffsets text.utf8ByteSize text.utf8ByteSize ∧
    ∀ t ∈ init, t.kind ≠ .endOfInput ∧ t.span.start < t.span.stop
  increasing : ts.Pairwise fun t t' => t.span.stop ≤ t'.span.start
  boundary : ∀ t ∈ ts, String.Pos.Raw.IsValid text ⟨t.span.start.toNat⟩ ∧
    String.Pos.Raw.IsValid text ⟨t.span.stop.toNat⟩
  covered : ∀ t ∈ ts, t.span.text text = t.text
  blank : ∀ offset byte, (Text.bytes text)[offset]? = some byte →
    (∀ t ∈ ts, ¬ t.spans offset) → byte ∈ blankBytes
  line : ∀ t ∈ ts, t.line = Text.lineAt text t.span.start.toNat

/-- The error names a character or a number that stands at the front of the text and does not
reach beyond its line. -/
inductive FailsAt (back : List Char) : SourceError → Prop
  | illegalCharacter {line c} (first : back.head? = some c) (single : c ≠ '\n') :
      FailsAt back (.illegalCharacter line c)
  | malformedNumber {line literal} (some_ : literal ≠ "") (front : literal.toList <+: back)
      (single : '\n' ∉ literal.toList) : FailsAt back (.malformedNumber line literal)

section Run

/-- Tokens and the blanks between them, from a line and an offset on. -/
inductive Tiled : Nat → Nat → List Char → List Token → Prop
  | ending {line offset gap} (blank : ∀ c ∈ gap, isBlank c = true) :
      Tiled line offset gap [⟨.endOfInput, "", line + gap.count '\n', offset + gap.length⟩]
  | token {line offset gap t rest ts} (blank : ∀ c ∈ gap, isBlank c = true)
      (opens : t.line = line + gap.count '\n') (starts : t.start = offset + gap.length)
      (kind : t.kind ≠ .endOfInput) (some_ : t.text ≠ "") (single : '\n' ∉ t.text.toList)
      (word : ∀ keyword, t.kind = .keyword keyword → t.text = keyword.spelling)
      (others : Tiled t.line t.stop rest ts) :
      Tiled line offset (gap ++ (t.text.toList ++ rest)) (t :: ts)

variable {line offset : Nat} {text : List Char} {ts : List Token}

theorem Tiled.after_blank {c : Char} (blank : isBlank c = true)
    (tiled : Tiled (line + if c = '\n' then 1 else 0) (offset + 1) text ts) :
    Tiled line offset (c :: text) ts := by
  have feeds (gap : List Char) : line + (c :: gap).count '\n' =
      (line + if c = '\n' then 1 else 0) + gap.count '\n' := by
    rw [List.count_cons]
    simp only [beq_iff_eq]
    omega
  have bytes (gap : List Char) : offset + (c :: gap).length = offset + 1 + gap.length := by
    rw [List.length_cons]
    omega
  cases tiled with
  | ending inner =>
    rw [← feeds, ← bytes]
    exact .ending (List.forall_mem_cons.mpr ⟨blank, inner⟩)
  | @token _ _ gap t rest ts inner opens starts kind some_ single word others =>
    rw [← feeds] at opens
    rw [← bytes] at starts
    have blanks : ∀ c' ∈ c :: gap, isBlank c' = true := List.forall_mem_cons.mpr ⟨blank, inner⟩
    exact .token blanks opens starts kind some_ single word others

theorem spelling_of_keyword {start : Bool} {c : Char} {cs : List Char} {found : Lexeme}
    {keyword : Keyword} (ok : lexeme start c cs = .ok found) (kind : found.kind = .keyword keyword) :
    String.ofList (c :: cs.take found.more) = keyword.spelling := by
  obtain ⟨more, spelled⟩ := keyword_of_lexeme ok kind
  rw [more, ← spelled, ← List.prefix_iff_eq_take.mp (List.takeWhile_prefix isNameChar)]

theorem tiled_of_tokens {operandMayStart : Bool}
    (ok : tokensFrom line offset operandMayStart text = .ok ts) : Tiled line offset text ts := by
  fun_induction tokensFrom line offset operandMayStart text generalizing ts with
  | case1 =>
    cases ok
    exact .ending (List.forall_mem_nil _)
  | case2 line offset operandMayStart cs ih =>
    exact .after_blank rfl (ih ok)
  | case3 line offset operandMayStart c cs feed blank ih =>
    refine .after_blank (by rcases blank with rfl | rfl | rfl <;> rfl) ?_
    rw [if_neg feed]
    exact ih ok
  | case4 => cases ok
  | case5 line offset operandMayStart c cs _ _ kind more found token =>
    rename_i ih
    cases following : tokensFrom line token.stop (!kind.endsOperand) (cs.drop more) with
    | error e => rw [following] at ok; cases ok
    | ok tokens =>
      rw [following] at ok
      cases ok
      have spelled : token.text.toList = c :: cs.take more := String.toList_ofList
      have whole : c :: cs = [] ++ (token.text.toList ++ cs.drop more) := by
        rw [spelled, List.nil_append, List.cons_append, List.take_append_drop]
      rw [whole]
      refine .token (by simp) rfl rfl (lexeme_kind found) ?_ ?_ ?_ (ih following)
      · intro empty
        rw [empty] at spelled
        cases spelled
      · rw [spelled]
        exact feed_notMem_lexeme found
      · exact fun keyword kind => spelling_of_keyword found kind

theorem encoded_blank {gap : List Char} (blank : ∀ c ∈ gap, isBlank c = true) :
    (Text.encoded gap).length = gap.length ∧ ∀ byte ∈ Text.encoded gap, byte ∈ blankBytes := by
  induction gap with
  | nil => simp [Text.encoded]
  | cons c gap ih =>
    obtain ⟨first, others⟩ := List.forall_mem_cons.mp blank
    obtain ⟨length, bytes⟩ := ih others
    have single : ∃ byte ∈ blankBytes, String.utf8EncodeChar c = [byte] := by
      have choices : c = ' ' ∨ c = '\t' ∨ c = '\r' ∨ c = '\n' := by simpa [isBlank] using first
      rcases choices with rfl | rfl | rfl | rfl <;> exact ⟨_, by decide, rfl⟩
    obtain ⟨byte, member, single⟩ := single
    have split : Text.encoded (c :: gap) = byte :: Text.encoded gap := by
      rw [Text.encoded, List.flatMap_cons, single, ← Text.encoded, List.singleton_append]
    rw [split]
    exact ⟨by rw [List.length_cons, List.length_cons, length], List.forall_mem_cons.mpr ⟨member, bytes⟩⟩

theorem length_text (t : Token) : (Text.encoded t.text.toList).length = t.stop - t.start := by
  rw [Text.length_encoded, stop, Nat.add_sub_cancel_left]

theorem start_le_stop (t : Token) : t.start ≤ t.stop := Nat.le_add_right _ _

theorem Tiled.place (tiled : Tiled line offset text ts) :
    ∀ t ∈ ts, ∃ front back, text = front ++ (t.text.toList ++ back) ∧
      t.start = offset + (Text.encoded front).length ∧ t.line = line + front.count '\n' := by
  induction tiled with
  | @ending line offset gap blank =>
    refine List.forall_mem_singleton.mpr ⟨gap, [], ?_, ?_, rfl⟩
    · simp
    · rw [(encoded_blank blank).1]
  | @token line offset gap first rest ts blank opens starts _ _ single _ _ ih =>
    refine List.forall_mem_cons.mpr ⟨⟨gap, rest, rfl, ?_, opens⟩, fun t member => ?_⟩
    · rw [(encoded_blank blank).1, starts]
    · obtain ⟨front, back, rfl, start, line⟩ := ih t member
      refine ⟨gap ++ (first.text.toList ++ front), back, by simp only [List.append_assoc], ?_, ?_⟩
      · have length := length_text first
        have order := start_le_stop first
        rw [Text.encoded_append, Text.encoded_append, List.length_append, List.length_append,
          (encoded_blank blank).1]
        omega
      · rw [line, opens, List.count_append, List.count_append, List.count_eq_zero.mpr single]
        omega

theorem Tiled.spelled (tiled : Tiled line offset text ts) : ∀ t ∈ ts, '\n' ∉ t.text.toList ∧
    ∀ keyword, t.kind = .keyword keyword → t.text = keyword.spelling := by
  induction tiled with
  | ending => simp
  | token _ _ _ _ _ single word _ ih => exact List.forall_mem_cons.mpr ⟨⟨single, word⟩, ih⟩

theorem Tiled.last (tiled : Tiled line offset text ts) :
    ∃ init last, ts = init ++ [last] ∧ last.kind = .endOfInput ∧ last.text = "" ∧
      last.start = offset + (Text.encoded text).length ∧ last.line = line + text.count '\n' ∧
      ∀ t ∈ init, t.kind ≠ .endOfInput ∧ t.text ≠ "" := by
  induction tiled with
  | ending blank => exact ⟨[], _, rfl, rfl, rfl, by rw [(encoded_blank blank).1], rfl, by simp⟩
  | @token line offset gap first rest ts blank opens starts kind some_ single _ _ ih =>
    obtain ⟨init, last, rfl, ending, empty, start, feeds, inner⟩ := ih
    refine ⟨first :: init, last, rfl, ending, empty, ?_, ?_,
      List.forall_mem_cons.mpr ⟨⟨kind, some_⟩, inner⟩⟩
    · have length := length_text first
      have order := start_le_stop first
      rw [Text.encoded_append, Text.encoded_append, List.length_append, List.length_append,
        (encoded_blank blank).1]
      omega
    · rw [feeds, opens, List.count_append, List.count_append, List.count_eq_zero.mpr single]
      omega

theorem Tiled.increasing (tiled : Tiled line offset text ts) :
    (∀ t ∈ ts, offset ≤ t.start) ∧ ts.Pairwise fun t t' => t.stop ≤ t'.start := by
  induction tiled with
  | ending => simp
  | @token line offset gap first rest ts _ _ starts _ _ _ _ _ ih =>
    have order := start_le_stop first
    refine ⟨List.forall_mem_cons.mpr ⟨by omega, fun t member => ?_⟩, List.pairwise_cons.mpr ih⟩
    have after := ih.1 t member
    omega

theorem Tiled.blank (tiled : Tiled line offset text ts) {i : Nat} {byte : UInt8}
    (at_ : (Text.encoded text)[i]? = some byte)
    (outside : ∀ t ∈ ts, ¬ (t.start ≤ offset + i ∧ offset + i < t.stop)) : byte ∈ blankBytes := by
  induction tiled generalizing i with
  | ending blank => exact (encoded_blank blank).2 byte (List.mem_of_getElem? at_)
  | @token line offset gap first rest ts blank _ starts _ _ _ _ _ ih =>
    have gaps := (encoded_blank blank).1
    have length := length_text first
    have order := start_le_stop first
    have apart := outside first (List.mem_cons_self ..)
    rw [Text.encoded_append, Text.encoded_append] at at_
    by_cases before : i < gap.length
    · rw [List.getElem?_append_left (by omega)] at at_
      exact (encoded_blank blank).2 byte (List.mem_of_getElem? at_)
    · rw [List.getElem?_append_right (by omega), List.getElem?_append_right (by omega)] at at_
      refine ih at_ fun t member inside => outside t (List.mem_cons_of_mem _ member) ?_
      omega

end Run

section Failure

variable {start : Bool} {c : Char} {cs : List Char}

theorem unsignedLength_pos (digit : c.isDigit ∨ (basedLength? (c :: cs)).isSome) :
    0 < unsignedLength (c :: cs) := by
  unfold unsignedLength
  split
  next length real =>
    unfold realLength? at real
    dsimp only at real
    split at real
    · split at real
      · cases real
        omega
      · cases real
    · cases real
  next =>
    dsimp only
    rcases digit with digit | based
    · rw [List.takeWhile_cons_of_pos digit, List.length_cons]
      omega
    · obtain ⟨length, based⟩ := Option.isSome_iff_exists.mp based
      have plain : ((c :: cs).takeWhile Char.isDigit).length = 0 := by
        by_cases quote : c = '\''
        · subst quote
          rfl
        · simp [basedLength?, quote] at based
      rw [plain, List.drop_zero, based, Option.getD_some, Nat.zero_add]
      unfold basedLength? at based
      split at based
      · dsimp only at based
        split at based
        · cases based
          omega
        · cases based
      · cases based

theorem number_error {length : Nat} {flaw : Flaw} (failed : number cs length = .error flaw) :
    flaw = .malformedNumber length := by
  unfold number at failed
  split at failed <;> cases failed
  rfl

theorem malformed_length {length : Nat} (failed : lexeme start c cs = .error (.malformedNumber length)) :
    0 < length ∧ '\n' ∉ (c :: cs).take length := by
  unfold lexeme at failed
  split at failed
  next => cases failed
  split at failed
  next =>
    unfold task at failed
    dsimp only at failed
    split at failed <;> cases failed
  split at failed
  next digit =>
    cases number_error failed
    exact ⟨unsignedLength_pos digit, feed_notMem_unsigned _⟩
  split at failed
  next signed =>
    cases number_error failed
    refine ⟨by omega, ?_⟩
    rw [Nat.add_comm, List.take_succ_cons]
    rcases signed.1 with rfl | rfl <;> simpa using feed_notMem_unsigned cs
  split at failed
  next =>
    unfold string at failed
    dsimp only at failed
    split at failed <;> cases failed
  next => split at failed <;> cases failed

theorem failsAt_of_lexeme {flaw : Flaw} (failed : lexeme start c cs = .error flaw) (other : c ≠ '\n')
    (line : Nat) :
    FailsAt (c :: cs) (flaw.toError line c cs) ∧ (flaw.toError line c cs).line = line := by
  cases flaw with
  | illegalCharacter => exact ⟨.illegalCharacter rfl other, rfl⟩
  | malformedNumber length =>
    obtain ⟨some_, single⟩ := malformed_length failed
    refine ⟨.malformedNumber ?_ ?_ ?_, rfl⟩
    · obtain ⟨n, rfl⟩ := Nat.exists_eq_succ_of_ne_zero some_.ne'
      rw [List.take_succ_cons]
      exact fun empty => by simpa using congrArg String.toList empty
    · rw [String.toList_ofList]
      exact List.take_prefix _ _
    · rwa [String.toList_ofList]

/-- A lexeme stays one where the text behind it ends early. -/
theorem lexeme_before {found : Lexeme} {front back : List Char} (ok : lexeme start c cs = .ok found)
    (rest : cs.drop found.more = front ++ back) :
    lexeme start c (cs.take found.more ++ front) = .ok ⟨found.kind, (cs.take found.more).length⟩ := by
  obtain ⟨alone, within⟩ := lexeme_take ok front.length
  rw [List.take_add, rest, List.take_left] at alone
  rw [List.length_take_of_le within]
  exact alone

/-- What stands before a flaw is cut by itself. -/
theorem failsAt_of_tokens {line offset : Nat} {operandMayStart : Bool} {text : List Char}
    {e : SourceError} (failed : tokensFrom line offset operandMayStart text = .error e) :
    ∃ front back, text = front ++ back ∧
      (∃ ts, tokensFrom line offset operandMayStart front = .ok ts) ∧
      e.line = line + front.count '\n' ∧ FailsAt back e := by
  fun_induction tokensFrom line offset operandMayStart text with
  | case1 => cases failed
  | case2 line offset operandMayStart cs ih =>
    obtain ⟨front, back, rfl, ⟨ts, ok⟩, place, fails⟩ := ih failed
    refine ⟨'\n' :: front, back, rfl, ⟨ts, ?_⟩, ?_, fails⟩
    · rw [tokensFrom, if_pos rfl, ok]
    · rw [place, List.count_cons_self, Nat.add_assoc, Nat.add_comm 1]
  | case3 line offset operandMayStart c cs feed blank ih =>
    obtain ⟨front, back, rfl, ⟨ts, ok⟩, place, fails⟩ := ih failed
    refine ⟨c :: front, back, rfl, ⟨ts, ?_⟩, ?_, fails⟩
    · rw [tokensFrom, if_neg feed, if_pos blank, ok]
    · rw [place, List.count_cons_of_ne feed]
  | case4 line offset operandMayStart c cs feed blank flaw broken =>
    cases failed
    obtain ⟨fails, place⟩ := failsAt_of_lexeme broken feed line
    exact ⟨[], c :: cs, rfl, ⟨_, by rw [tokensFrom]⟩, place, fails⟩
  | case5 line offset operandMayStart c cs feed blank kind more found token =>
    rename_i ih
    cases others : tokensFrom line token.stop (!kind.endsOperand) (cs.drop more) with
    | ok ts => rw [others] at failed; cases failed
    | error e =>
      rw [others] at failed
      cases failed
      obtain ⟨front, back, rest, ⟨ts, ok⟩, place, fails⟩ := ih others
      have whole : cs = cs.take more ++ (front ++ back) := by
        rw [← rest, List.take_append_drop]
      refine ⟨c :: (cs.take more ++ front), back, ?_, ⟨token :: ts, ?_⟩, ?_, fails⟩
      · rw [List.cons_append, List.append_assoc, ← whole]
      · rw [tokensFrom, if_neg feed, if_neg blank, lexeme_before found rest]
        dsimp only
        rw [List.take_left, List.drop_left, ok]
        rfl
      · rw [place, ← List.cons_append, List.count_append,
          List.count_eq_zero.mpr (feed_notMem_lexeme found), Nat.zero_add]

end Failure

section Spans

variable {text : String} {ts : List Token}

theorem place_of_token (ok : ofString text = .ok ts) {t : Token} (member : t ∈ ts) :
    ∃ front back, text = front ++ (t.text ++ back) ∧ t.start = front.utf8ByteSize ∧
      t.line = Text.lineAt text t.start := by
  obtain ⟨front, back, whole, start, line⟩ := (tiled_of_tokens ok).place t member
  have joined : text = .ofList front ++ (t.text ++ .ofList back) := by
    rw [← String.toList_inj, whole, String.toList_append, String.toList_append,
      String.toList_ofList, String.toList_ofList]
  have size : t.start = (String.ofList front).utf8ByteSize := by
    rw [start, ← Text.length_encoded, String.toList_ofList, Nat.zero_add]
  have feeds := Text.lineAt_append (.ofList front) (t.text ++ .ofList back)
  rw [← joined, ← size, String.toList_ofList] at feeds
  exact ⟨.ofList front, .ofList back, joined, size, by rw [line, feeds]⟩

theorem stop_le (ok : ofString text = .ok ts) {t : Token} (member : t ∈ ts) :
    t.stop ≤ text.utf8ByteSize := by
  obtain ⟨front, back, whole, start, _⟩ := place_of_token ok member
  rw [whole, stop, start, String.utf8ByteSize_append, String.utf8ByteSize_append]
  omega

/-- The offsets of a token whose text is short enough for them. -/
theorem span_offsets (ok : ofString text = .ok ts) (short : text.utf8ByteSize < 2 ^ 32) {t : Token}
    (member : t ∈ ts) : t.span.start.toNat = t.start ∧ t.span.stop.toNat = t.stop := by
  have within := stop_le ok member
  have order := start_le_stop t
  exact ⟨UInt32.toNat_ofNat_of_lt' (by simp only [UInt32.size]; omega),
    UInt32.toNat_ofNat_of_lt' (by simp only [UInt32.size]; omega)⟩

/-- A token begins and ends between characters, and its text stands from the one place to
the other. -/
theorem text_of_token (ok : ofString text = .ok ts) (short : text.utf8ByteSize < 2 ^ 32) {t : Token}
    (member : t ∈ ts) : String.Pos.Raw.IsValid text ⟨t.span.start.toNat⟩ ∧
      String.Pos.Raw.IsValid text ⟨t.span.stop.toNat⟩ ∧ t.span.text text = t.text := by
  obtain ⟨first, last⟩ := span_offsets ok short member
  obtain ⟨front, back, whole, start, _⟩ := place_of_token ok member
  have order : ¬ t.span.stop < t.span.start := by
    rw [UInt32.lt_iff_toNat_lt, first, last]
    exact Nat.not_lt_of_le (start_le_stop t)
  have opens : Span.cutBytes? t.start text.toList =
      some (front.toList, t.text.toList ++ back.toList) := by
    rw [start, ← Text.length_encoded, whole, String.toList_append, String.toList_append,
      Text.cutBytes_append]
  have closes : Span.cutBytes? (t.stop - t.start) (t.text.toList ++ back.toList) =
      some (t.text.toList, back.toList) := by
    rw [← length_text, Text.cutBytes_append]
  rw [first, last, String.Pos.Raw.isValid_iff_exists_append,
    String.Pos.Raw.isValid_iff_exists_append]
  refine ⟨⟨front, t.text ++ back, whole, ?_⟩, ⟨front ++ t.text, back, ?_, ?_⟩, ?_⟩
  · rw [start]
    rfl
  · rw [whole, String.append_assoc]
  · rw [stop, start, ← String.utf8ByteSize_append]
    rfl
  · rw [Span.text, if_neg order, first, last, opens]
    simp [closes]

theorem tiles_of_tokens (ok : ofString text = .ok ts) (short : text.utf8ByteSize < 2 ^ 32) :
    Tiles text ts := by
  have tiled := tiled_of_tokens ok
  have offsets {t} (member : t ∈ ts) := span_offsets ok short member
  refine ⟨?ending, ?increasing, ?boundary, ?covered, ?blank, ?line⟩
  case ending =>
    obtain ⟨init, last, rfl, kind, empty, start, _, inner⟩ := tiled.last
    rw [Text.length_encoded, Nat.zero_add] at start
    refine ⟨init, last, rfl, kind, ?_, fun t member => ⟨(inner t member).1, ?_⟩⟩
    · rw [span, stop, start, empty]
      rfl
    · obtain ⟨opens, closes⟩ := offsets (List.mem_append_left _ member)
      rw [UInt32.lt_iff_toNat_lt, opens, closes, stop]
      have some_ : t.text.utf8ByteSize ≠ 0 := by
        simpa using (inner t member).2
      omega
  case increasing =>
    refine tiled.increasing.2.imp_of_mem fun first second order => ?_
    rw [UInt32.le_iff_toNat_le, (offsets first).2, (offsets second).1]
    exact order
  case boundary =>
    intro t member
    obtain ⟨opens, closes, _⟩ := text_of_token ok short member
    exact ⟨opens, closes⟩
  case covered => exact fun t member => (text_of_token ok short member).2.2
  case blank =>
    intro offset byte at_ outside
    rw [Text.bytes_eq] at at_
    refine tiled.blank at_ fun t member inside => outside t member ?_
    rw [spans, (offsets member).1, (offsets member).2]
    simpa using inside
  case line =>
    intro t member
    obtain ⟨_, _, _, _, line⟩ := place_of_token ok member
    rw [line, (offsets member).1]

/-- A text of less than 2^32 bytes is covered by its tokens but for blanks. What stands before
the place where cutting fails is cut by itself. -/
theorem ofString_tiles (text : String) (short : text.utf8ByteSize < 2 ^ 32) :
    (∀ ts, ofString text = .ok ts → Tiles text ts) ∧
      ∀ e, ofString text = .error e → ∃ front back, text = front ++ back ∧
        (∃ ts, ofString front = .ok ts) ∧ e.line = Text.lineAt text front.utf8ByteSize ∧
        FailsAt back.toList e := by
  refine ⟨fun ts ok => tiles_of_tokens ok short, fun e failed => ?_⟩
  obtain ⟨front, back, whole, ⟨ts, ok⟩, line, fails⟩ := failsAt_of_tokens failed
  have joined : text = .ofList front ++ .ofList back := by
    rw [← String.ofList_append, ← whole, String.ofList_toList]
  refine ⟨.ofList front, .ofList back, joined, ⟨ts, ?_⟩, ?_, ?_⟩
  · rw [ofString, String.toList_ofList, ok]
  · rw [joined, Text.lineAt_append, line, String.toList_ofList]
  · rwa [String.toList_ofList]

theorem ofString_tiles_accented :
    (∃ ts, ofString "A\t\"\u00e9\"\r\n =4" = .ok ts ∧ Tiles "A\t\"\u00e9\"\r\n =4" ts ∧
      ts.map (fun t => (t.line, t.span)) = [(1, ⟨0, 1⟩), (1, ⟨2, 6⟩), (2, ⟨9, 10⟩), (2, ⟨10, 11⟩),
        (2, ⟨11, 11⟩)]) ∧
    ∃ e front back, ofString "\"\u00e9\"\n 2'b4;" = .error e ∧ "\"\u00e9\"\n 2'b4;" = front ++ back ∧
      (∃ ts, ofString front = .ok ts) ∧
      e.line = Text.lineAt "\"\u00e9\"\n 2'b4;" front.utf8ByteSize ∧ FailsAt back.toList e ∧
      e = .malformedNumber 2 "2'b4" := by
  have lexed : (ofString "A\t\"\u00e9\"\r\n =4").toOption.map
      (·.map fun t => (t.line, t.span)) = some [(1, ⟨0, 1⟩), (1, ⟨2, 6⟩), (2, ⟨9, 10⟩),
        (2, ⟨10, 11⟩), (2, ⟨11, 11⟩)] := by decide +kernel
  have refused : ofString "\"\u00e9\"\n 2'b4;" = .error (.malformedNumber 2 "2'b4") := by
    decide +kernel
  obtain ⟨ts, ok, spans⟩ := exists_ok_of_toOption lexed
  obtain ⟨front, back, whole, before, line, fails⟩ :=
    (ofString_tiles "\"\u00e9\"\n 2'b4;" (by decide)).2 _ refused
  exact ⟨⟨ts, ok, (ofString_tiles _ (by decide)).1 ts ok, spans⟩,
    _, front, back, refused, whole, before, line, fails, rfl⟩

end Spans

end Token

end CellTiming
