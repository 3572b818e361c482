import CellTiming.Proofs.DeclaredValues
import CellTiming.Proofs.RealText
import CellTiming.Proofs.StoredConditions

/-! Specparams in conditions, where the text of the value takes the place of the name. An
integer without a sign whose digits fit its width, and a real below ten to the sixteenth
power, has a text that is a single token and is read as the value. A condition that names
no other specparams is read again from its own text. -/
namespace CellTiming

namespace Number

/-- The numbers whose texts are literals. -/
def isPrintable (n : Number) : Bool :=
  match n.value with
  | .int value =>
    0 ≤ value && (Nat.toDigits n.base.radix value.toNat).length * n.base.bitsPerDigit ≤ n.width
  | .real value => value.isFinite && value.abs < 1e16

/-- The text is cut into one token, and it is read as the number again. -/
def ReadsBack (n : Number) : Prop :=
  ofString? n.text = some n ∧ ∃ t last, Token.ofString n.text = .ok [t, last] ∧
    t.kind = .number ∧ t.text = n.text ∧ last.kind = .endOfInput

section Text

variable {n : Number}

theorem WellFormed.text (formed : n.WellFormed) (printable : n.isPrintable = true) :
    Token.Lexes .number n.text ∧ ofString? n.text = some n := by
  obtain ⟨width, base, value | value⟩ := n
  · obtain ⟨bounded, whole, _, most⟩ := formed
    simp only [isPrintable, Bool.and_eq_true, decide_eq_true_eq] at printable
    obtain ⟨nonneg, fits⟩ := printable
    obtain ⟨value, rfl⟩ := Int.eq_ofNat_of_zero_le nonneg
    have read := ofChars_numeral bounded whole (ofDigits_of_fits fits most)
    refine ⟨lexes_text whole read, ?_⟩
    rwa [ofString?, toList_text]
  · simp only [isPrintable, Bool.and_eq_true, decide_eq_true_eq] at printable
    rw [show (⟨width, base, .real value⟩ : Number) = ofReal value from formed]
    exact text_of_real printable.1 printable.2

theorem ReadsBack.of_text (lexes : Token.Lexes .number n.text) (read : ofString? n.text = some n) :
    n.ReadsBack := by
  have laid : Laid true [(.number, n.text)] := .operand ⟨.inr rfl, lexes⟩ .nil
  obtain ⟨ts, cut, same⟩ := laid.tokens 1 0
  obtain ⟨t, rest, rfl, word, more⟩ := words_eq_cons same
  obtain ⟨last, none, rfl, ending, nothing⟩ := words_eq_cons more
  cases words_eq_nil nothing
  rw [writing, writing, String.append_empty] at cut
  exact ⟨read, t, last, cut, congrArg Prod.fst word, congrArg Prod.snd word,
    congrArg Prod.fst ending⟩

end Text

end Number

namespace Operators

variable {α : Type} {g h : Operators α} {f : Token → Token}

/-- Tokens are exchanged for others that mean the same. -/
theorem Reads.map (before : ∀ t, h.before (f t) = g.before t)
    (between : ∀ t, h.between (f t) = g.between t)
    (symbol : ∀ t symbol, (f t).isSymbol symbol = t.isSymbol symbol) (group : h.group = g.group)
    {phrase : Phrase α} {used : List Token} {value : α} (reads : Reads g phrase used value)
    (atom : ∀ t ∈ used, ∀ value, g.atom t = .ok value → h.atom (f t) = .ok value) :
    Reads h phrase (used.map f) value := by
  induction reads with
  | before sign _ ih =>
    exact .before ((before _).trans sign) (ih fun t member => atom t (by simp [member]))
  | group plain opens closes ends _ ih =>
    rw [List.map_cons, List.map_append, ← group]
    exact .group ((before _).trans plain) ((symbol _ _).trans opens) ((symbol _ _).trans closes)
      ((between _).trans ends) (ih fun t member => atom t (by simp [member]))
  | atom plain single meaning =>
    exact .atom ((before _).trans plain) ((symbol _ _).trans single) (atom _ (by simp) _ meaning)
  | operation _ _ ihHead ihTail =>
    rw [List.map_append]
    exact .operation (ihHead fun t member => atom t (by simp [member]))
      (ihTail fun t member => atom t (by simp [member]))
  | stop => exact .stop
  | join sign binds _ ends _ ihHead ihTail =>
    rw [List.map_cons, List.map_append]
    refine .join ((between _).trans sign) binds
      (ihHead fun t member => atom t (by simp [member])) ?_
      (ihTail fun t member => atom t (by simp [member]))
    intro t rest own apply same sign
    obtain ⟨t', rest', rfl, rfl, _⟩ := List.map_eq_cons_iff.mp same
    exact ends t' rest' own apply rfl ((between t').symm.trans sign)

end Operators

/-- The token is no value, or the text of its value is a literal. -/
def Token.isPrintable (table : Specparams) (t : Token) : Bool :=
  match t.kind with
  | .number => (Number.ofString? t.text).all Number.isPrintable
  | .name => (table.lookup t.text).all Number.isPrintable
  | _ => true

/-- The text of a specparam in place of its name. -/
def Token.withValue (table : Specparams) (t : Token) : Token :=
  match t.kind, table.lookup t.text with
  | .name, some n => { t with kind := .number, text := n.text }
  | _, _ => t

namespace Grammar

open Operators

section Naming

variable {table : Specparams} {t : Token} {n : Number}

theorem withValue_of_declared (named : t.kind = .name) (declared : table.lookup t.text = some n) :
    t.withValue table = { t with kind := .number, text := n.text } := by
  simp [Token.withValue, named, declared]

theorem withValue_of_other (other : t.kind ≠ .name ∨ table.lookup t.text = none) :
    t.withValue table = t := by
  rw [Token.withValue]
  split
  next named declared => simp [named, declared] at other
  next => rfl

/-- A name becomes a number, every other kind stays. -/
theorem withValue_kind (table : Specparams) (t : Token) :
    (t.withValue table).kind = t.kind ∨
      t.kind = .name ∧ (t.withValue table).kind = .number := by
  rw [Token.withValue]
  split
  next named _ => exact .inr ⟨named, rfl⟩
  next => exact .inl rfl

theorem readable_withValue (sound : Sound table) (spelled : t.Spelled)
    (printable : t.isPrintable table = true) : Readable (t.withValue table) := by
  by_cases other : t.kind ≠ .name ∨ table.lookup t.text = none
  · rw [withValue_of_other other]
    refine ⟨spelled, fun kind n read => ?_⟩
    simp only [Token.isPrintable, kind, read, Option.all_some] at printable
    obtain ⟨lexes, again⟩ := (Number.wellFormed_of_ofChars read).text printable
    exact legible_of_number lexes again
  · simp only [ne_eq, not_or, Classical.not_not] at other
    obtain ⟨named, declared⟩ := other
    obtain ⟨n, declared⟩ := Option.ne_none_iff_exists'.mp declared
    simp only [Token.isPrintable, named, declared, Option.all_some] at printable
    obtain ⟨lexes, read⟩ := (sound.lookup declared).text printable
    rw [withValue_of_declared named declared]
    refine ⟨⟨by simp, by simp⟩, fun _ n' read' => ?_⟩
    cases read.symm.trans read'
    exact legible_of_number lexes read

theorem atom_withValue (sound : Sound table) (printable : t.isPrintable table = true)
    {value : Condition} (meaning : (conditions table).atom t = .ok value) :
    (conditions []).atom (t.withValue table) = .ok value := by
  simp only [conditions] at meaning
  split at meaning
  next kind =>
    rw [withValue_of_other (.inl (by simp [kind]))]
    simpa [conditions, kind] using meaning
  next kind =>
    cases meaning
    cases declared : table.lookup t.text with
    | none =>
      rw [withValue_of_other (.inr declared)]
      simp [conditions, kind]
    | some n =>
      simp only [Token.isPrintable, kind, declared, Option.all_some] at printable
      obtain ⟨_, read⟩ := (sound.lookup declared).text printable
      rw [withValue_of_declared kind declared]
      simp [conditions, TokenRule.numberOf, read, Except.map]
  next => cases meaning

/-- A condition is read as if the values were written in place of the names. -/
theorem reads_withValue (sound : Sound table) {used : List Token} {condition : Condition}
    (reads : Reads (conditions table) (.operation 0) used condition)
    (printable : ∀ t ∈ used, t.isPrintable table = true) :
    Reads (conditions []) (.operation 0) (used.map (Token.withValue table)) condition := by
  refine Reads.map (g := conditions table) (h := conditions []) ?_ ?_ ?_ rfl reads
    fun t member value meaning =>
      atom_withValue sound (printable t member) meaning
  · intro t
    rcases withValue_kind table t with kind | ⟨named, kind⟩ <;> simp [conditions, *]
  · intro t
    rcases withValue_kind table t with kind | ⟨named, kind⟩ <;> simp [conditions, *]
  · intro t symbol
    rcases withValue_kind table t with kind | ⟨named, kind⟩ <;> simp [Token.isSymbol, *]

theorem built_of_named (sound : Sound table) {used : List Token} {condition : Condition}
    (reads : Reads (conditions table) (.operation 0) used condition)
    (spelled : ∀ t ∈ used, t.Spelled) (printable : ∀ t ∈ used, t.isPrintable table = true) :
    Built 0 condition := by
  refine built_of_reads (reads_withValue sound reads printable) fun other member => ?_
  obtain ⟨t, among, rfl⟩ := List.mem_map.mp member
  exact readable_withValue sound (spelled t among) (printable t among)

end Naming

end Grammar

private def weighed : String := "
  specify
    specparam W = 4'b0011 + 2;
    specparam R = 0.5 - 2;
    if (A === W && !(B == R)) (CLK => Q) = 1.5;
  endspecify"

private def unprintable : String := "
  specify
    specparam X = -1;
    specparam Y = 4'b1111 + 1;
    specparam Z = 10000000000000000.0;
    if (A == X) (CLK => Q) = 1;
  endspecify"

/-- The values of a block that are printable are read back from their texts, and so is every
condition that a part of the block is read as with some of the specparams, where it names
only such values. -/
theorem specparams_read_back (text : String) (timing : ModuleTiming) (ts : List Token)
    (ok : ModuleTiming.ofBlock text = .ok timing) (tokens : Token.ofString text = .ok ts) :
    (∀ entry ∈ timing.specparams,
      (entry.2.isPrintable = true → entry.2.ReadsBack) ∧
      ∀ value, entry.2.value = .int value → value < 0 →
        Number.ofString? entry.2.text = none) ∧
    ∀ table us condition rest, table <+: timing.specparams → us <:+ ts →
      (Grammar.condition table).run us = .ok (condition, rest) →
      (∀ t ∈ insideParens 0 us, t.isPrintable table = true) →
      Grammar.readCondition condition.text = .ok condition := by
  rw [ModuleTiming.ofBlock, tokens] at ok
  obtain ⟨found, t, left, reached, _⟩ := Grammar.readAs_of_ok ok
  have sound := Grammar.sound_of_reached reached
  refine ⟨fun entry member => ⟨fun printable => ?_, fun value same negative => ?_⟩,
    fun table us condition rest front back run printable => ?_⟩
  · obtain ⟨lexes, read⟩ := (sound entry member).text printable
    exact .of_text lexes read
  · obtain ⟨name, width, base, _⟩ := entry
    cases same
    exact Number.text_of_negative negative
  · obtain ⟨used, rfl, reads, _⟩ := Operators.expression_run.mp run
    have inside : used ⊆ insideParens 0 (used ++ rest) := by
      rw [Grammar.insideParens_of_reads reads]
      exact List.subset_append_left _ _
    refine (Grammar.built_of_named (fun entry member => sound entry (front.subset member)) reads
      (fun t member => ?_) fun t member => printable t (inside member)).read
    exact Token.tokensFrom_spelled tokens t (back.subset (List.mem_append_left rest member))

theorem specparams_read_back_weighed :
    ∃ timing ts condition rest, ModuleTiming.ofBlock weighed = .ok timing ∧
      Token.ofString weighed = .ok ts ∧
      timing.specparams.map (fun entry => (entry.1, entry.2.text)) =
        [("W", "4'b101"), ("R", "-1.5")] ∧
      (∀ entry ∈ timing.specparams, entry.2.ReadsBack) ∧
      (Grammar.condition timing.specparams).run (ts.drop 17) = .ok (condition, rest) ∧
      condition.text = "A===4'b101&&!(B==-1.5)" ∧
      Grammar.readCondition condition.text = .ok condition := by
  have cut : (Token.ofString weighed).toOption.map (fun ts =>
      (ModuleTiming.ofBlock weighed).toOption.map fun timing =>
        (timing.specparams.map (fun entry => (entry.1, entry.2.text)),
          timing.specparams.all (·.2.isPrintable),
          (insideParens 0 (ts.drop 17)).all (·.isPrintable timing.specparams),
          ((Grammar.condition timing.specparams).run (ts.drop 17)).toOption.map (·.1.text))) =
      some (some ([("W", "4'b101"), ("R", "-1.5")], true, true,
        some "A===4'b101&&!(B==-1.5)")) := by
    decide +kernel
  obtain ⟨ts, tokens, read⟩ := exists_ok_of_toOption cut
  obtain ⟨timing, ok, facts⟩ := exists_ok_of_toOption read
  simp only [Prod.mk.injEq] at facts
  obtain ⟨values, printable, named, rendered⟩ := facts
  obtain ⟨⟨condition, rest⟩, run, text⟩ := exists_ok_of_toOption rendered
  obtain ⟨back, again⟩ := specparams_read_back weighed timing ts ok tokens
  refine ⟨timing, ts, condition, rest, ok, tokens, values, fun entry member => ?_, run, text, ?_⟩
  · exact (back entry member).1 (List.all_eq_true.mp printable entry member)
  · exact again timing.specparams (ts.drop 17) condition rest List.prefix_rfl
      (List.drop_suffix 17 ts) run (List.all_eq_true.mp named)

/-- Signs, sums that are too wide and reals that are too large are no part of a literal. -/
theorem unprintable_unread :
    ∃ timing, ModuleTiming.ofBlock unprintable = .ok timing ∧
      timing.specparams.map (fun entry => (entry.1, entry.2.text)) =
        [("X", "-1"), ("Y", "4'b10000"), ("Z", "10000000000000000")] ∧
      (∀ entry ∈ timing.specparams, ¬ entry.2.ReadsBack) ∧
      timing.conditioned.paths.map (·.condition.map (·.text)) = [some "A==-1"] ∧
      (Grammar.readCondition "A==-1").toOption = none := by
  have read : (ModuleTiming.ofBlock unprintable).toOption.map (fun timing =>
      (timing.specparams.map (fun entry => (entry.1, entry.2.text)),
        timing.specparams.all (fun entry => (Number.ofString? entry.2.text).isNone),
        timing.conditioned.paths.map (·.condition.map (·.text)))) =
      some ([("X", "-1"), ("Y", "4'b10000"), ("Z", "10000000000000000")], true,
        [some "A==-1"]) := by
    decide +kernel
  obtain ⟨timing, ok, facts⟩ := exists_ok_of_toOption read
  simp only [Prod.mk.injEq] at facts
  obtain ⟨values, unread, conditions⟩ := facts
  refine ⟨timing, ok, values, fun entry member reads => ?_, conditions, by decide +kernel⟩
  have none := List.all_eq_true.mp unread entry member
  rw [reads.1] at none
  cases none

end CellTiming
