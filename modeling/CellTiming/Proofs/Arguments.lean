import CellTiming.Proofs.Formula
import CellTiming.Proofs.Horizon

/-! The arguments of a call, cut apart at its commas. An event or a delay that a check is read
from is one of the pieces, and it is the same event or delay wherever else such a piece stands. -/
namespace CellTiming

/-- The arguments of a call with commas between them. -/
def listed {α : Type} (comma : α) (arguments : List (List α)) : List α :=
  [comma].intercalate arguments

def further {α : Type} (comma : α) (arguments : List (List α)) : List α :=
  arguments.flatMap (comma :: ·)

section Listed

variable {α β : Type} (comma : α) (piece : List α) (others : List (List α))

theorem listed_cons : listed comma (piece :: others) = piece ++ further comma others := by
  induction others generalizing piece with
  | nil => simp [listed, further]
  | cons next others ih =>
    have tail := ih next
    rw [listed] at tail ⊢
    rw [List.intercalate_cons_cons, tail]
    simp [further]

theorem further_cons :
    further comma (piece :: others) = comma :: (piece ++ further comma others) :=
  List.flatMap_cons

theorem map_further (f : α → β) :
    (further comma others).map f = further (f comma) (others.map (List.map f)) := by
  simp [further, List.map_flatMap, List.flatMap_map]

theorem map_listed (f : α → β) :
    (listed comma others).map f = listed (f comma) (others.map (List.map f)) := by
  cases others with
  | nil => rfl
  | cons piece others =>
    rw [List.map_cons, listed_cons, listed_cons, List.map_append, map_further]

theorem of_mem_listed {comma x : α} {arguments : List (List α)} (member : x ∈ listed comma arguments) :
    x = comma ∨ ∃ piece ∈ arguments, x ∈ piece := by
  cases arguments with
  | nil => cases member
  | cons first others =>
    rw [listed_cons, List.mem_append, further, List.mem_flatMap] at member
    rcases member with inside | ⟨piece, known, inside⟩
    · exact .inr ⟨first, List.mem_cons_self, inside⟩
    · exact (List.mem_cons.mp inside).imp_right fun inside =>
        ⟨piece, List.mem_cons_of_mem first known, inside⟩

theorem subset_listed {comma : α} {arguments : List (List α)} {piece : List α}
    (member : piece ∈ arguments) : piece ⊆ listed comma arguments := by
  cases arguments with
  | nil => cases member
  | cons first others =>
    intro x inside
    rw [listed_cons, List.mem_append, further, List.mem_flatMap]
    rcases List.mem_cons.mp member with rfl | known
    · exact .inl inside
    · exact .inr ⟨piece, known, List.mem_cons_of_mem comma inside⟩

end Listed

/-- Neither a comma nor a semicolon is among the tokens. -/
def Piece (ts : List Token) : Prop :=
  ∀ t ∈ ts, t.kind ≠ .symbol .comma ∧ t.kind ≠ .symbol .semicolon

namespace Grammar

open TokenRule

variable {α β : Type} {table : Specparams}

/-- The tokens are read as the value wherever the argument ends. -/
structure Argument (rule : TokenRule α) (used : List Token) (value : α) : Prop where
  balanced : Balanced argumentKinds used
  reads : ∀ t rest, endsArgument t = true → rule.run (used ++ t :: rest) = .ok (value, t :: rest)

theorem Argument.piece {rule : TokenRule α} {used : List Token} {value : α}
    (argument : Argument rule used value) : Piece used :=
  argument.balanced.forall_mem
    (p := fun kind => kind ≠ .symbol .comma ∧ kind ≠ .symbol .semicolon) (by decide)

/-- A rule that reads arguments up to where they end. -/
structure ReadsArgument (rule : TokenRule α) : Prop where
  bracketed : Bracketed argumentKinds rule
  seen : rule.Local argumentEnd

theorem readsArgument_event : ReadsArgument event := ⟨bracketed_event, local_event⟩

theorem readsArgument_delay (table : Specparams) : ReadsArgument (delayValue table) :=
  ⟨bracketed_delayValue table, local_delayValue table⟩

section Reading

variable {rule : TokenRule α} {next : α → TokenRule β} {comma t : Token}
  {piece more ts rest : List Token} {result : β} {value : α}

theorem ReadsArgument.argument (reads : ReadsArgument rule) (ends : endsArgument t = true)
    (ok : rule.run ts = .ok (value, t :: rest)) :
    ∃ used, ts = used ++ t :: rest ∧ Argument rule used value := by
  obtain ⟨used, rfl, again⟩ := reads.seen ts value _ ok
  obtain ⟨used', same, balanced⟩ := reads.bracketed _ _ _ ok
  cases List.append_cancel_right same
  refine ⟨used, rfl, balanced, fun t' rest' ends' => again _ (.inr ?_)⟩
  exact ⟨by simpa using ends, by simpa using ends'⟩

/-- An argument before a comma is the piece before it. -/
theorem ReadsArgument.cut (reads : ReadsArgument rule) (separate : Piece piece)
    (kind : comma.kind = .symbol .comma)
    (ok : (rule >>= fun value => expect .comma >>= fun _ => next value).run (piece ++ comma :: more) =
      .ok (result, rest)) :
    ∃ value, Argument rule piece value ∧ (next value).run more = .ok (result, rest) := by
  obtain ⟨value, middle, head, tail⟩ := Rule.run_bind_ok.mp ok
  obtain ⟨_, more', separator, others⟩ := Rule.run_bind_ok.mp tail
  obtain ⟨t, rfl, kind'⟩ := expect_run.mp separator
  obtain ⟨used, same, argument⟩ := reads.argument (by simp [endsArgument, Token.isSymbol, kind']) head
  obtain ⟨rfl, -, rfl⟩ := cut_unique (p := fun t : Token => t.kind = .symbol .comma)
    (fun t member => (separate t member).1) (fun t member => (argument.piece t member).1) kind kind'
    same
  exact ⟨value, argument, others⟩

theorem Argument.before_comma (argument : Argument rule piece value)
    (kind : comma.kind = .symbol .comma) (next : α → TokenRule β) (more : List Token) :
    (rule >>= fun value => expect .comma >>= fun _ => next value).run (piece ++ comma :: more) =
      (next value).run more := by
  rw [Rule.run_then (argument.reads comma more (by simp [endsArgument, Token.isSymbol, kind])),
    expect_then kind]

end Reading

/-- The arguments behind the limits, each with its comma. -/
structure ReadsTail (table : Specparams) (closing : Token) (used : List Token)
    (tail : Option String × CheckConditions) : Prop where
  balanced : Balanced listKinds used
  reads : ∀ rest, (checkTail table).run (used ++ closing :: rest) = .ok (tail, closing :: rest)

section Limits

/-- The first token, if there is one, is a comma. -/
def Continues (ts : List Token) : Prop := ∀ t tail, ts = t :: tail → t.kind = .symbol .comma

theorem continues_further {comma : Token} (kind : comma.kind = .symbol .comma)
    (others : List (List Token)) : Continues (further comma others) := by
  cases others with
  | nil => exact nofun
  | cons piece others =>
    rintro t tail same
    rw [further_cons] at same
    cases same
    exact kind

theorem takes_if_comma {next : Bool → TokenRule α}
    (alone : (next false).Takes fun used _ => used = []) :
    (eat .comma >>= next).Takes fun used _ => Continues used := by
  intro ts value rest ok
  obtain ⟨eaten, middle, head, tail⟩ := Rule.run_bind_ok.mp ok
  rcases eat_run.mp head with ⟨rfl, t, rfl, kind⟩ | ⟨rfl, rfl, _⟩
  · obtain ⟨used, rfl⟩ := (next true).suffix tail
    refine ⟨t :: used, rfl, ?_⟩
    rintro _ _ ⟨⟩
    exact kind
  · obtain ⟨used, same, rfl⟩ := alone _ _ _ tail
    exact ⟨[], same, nofun⟩

theorem checkTail_continues (table : Specparams) :
    (checkTail table).Takes fun used _ => Continues used :=
  takes_if_comma (Rule.takes_pure rfl)

theorem lastNotifier_continues : lastNotifier.Takes fun used _ => Continues used :=
  takes_if_comma (Rule.takes_pure rfl)

/-- Pieces before commas are cut off in one way only. -/
theorem cut_first {first second rest rest' : List Token} (plain : Piece first) (plain' : Piece second)
    (continues : Continues rest) (continues' : Continues rest')
    (same : first ++ rest = second ++ rest') : first = second ∧ rest = rest' := by
  have fails {piece : List Token} (plain : Piece piece) :
      ∀ t ∈ piece, (!t.isSymbol .comma) = true := fun t member => by
    simpa [Token.isSymbol] using (plain t member).1
  have stops {rest : List Token} (continues : Continues rest) :
      rest.takeWhile (!·.isSymbol .comma) = [] := by
    cases rest with
    | nil => rfl
    | cons t rest => simp [Token.isSymbol, continues t rest rfl]
  have front := congrArg (List.takeWhile (!·.isSymbol .comma)) same
  rw [List.takeWhile_append_of_pos (fails plain), List.takeWhile_append_of_pos (fails plain'),
    stops continues, stops continues', List.append_nil, List.append_nil] at front
  subst front
  exact ⟨rfl, List.append_cancel_left same⟩

theorem ends_of_continues {others : List Token} {closing : Token} (more : Continues others)
    (closes : closing.kind = .symbol .rightParen) (rest : List Token) :
    ∃ t after, others ++ closing :: rest = t :: after ∧ endsArgument t = true := by
  cases others with
  | nil => exact ⟨closing, rest, rfl, by simp [endsArgument, Token.isSymbol, closes]⟩
  | cons t others => exact ⟨t, _, rfl, by simp [endsArgument, Token.isSymbol, more t others rfl]⟩

theorem Argument.before_tail {rule : TokenRule α} {piece others : List Token} {value : α}
    {closing : Token} (argument : Argument rule piece value) (more : Continues others)
    (closes : closing.kind = .symbol .rightParen) (rest : List Token) :
    rule.run (piece ++ (others ++ closing :: rest)) = .ok (value, others ++ closing :: rest) := by
  obtain ⟨t, after, same, ends⟩ := ends_of_continues more closes rest
  rw [same]
  exact argument.reads t after ends

/-- The last limit is the piece before the remaining arguments. -/
theorem ReadsArgument.last {rule : TokenRule α} {tailRule : TokenRule β} {closing : Token}
    {piece others ts rest : List Token} {value : α} {tail : β} (reads : ReadsArgument rule)
    (separate : Piece piece) (more : Continues others) (closes : closing.kind = .symbol .rightParen)
    (continues : tailRule.Takes fun used _ => Continues used)
    (head : rule.run (piece ++ (others ++ closing :: rest)) = .ok (value, ts))
    (ending : tailRule.run ts = .ok (tail, closing :: rest)) :
    Argument rule piece value ∧ ts = others ++ closing :: rest := by
  obtain ⟨used, rfl, continued⟩ := continues _ _ _ ending
  obtain ⟨t, after, same, ends⟩ := ends_of_continues continued closes rest
  rw [same] at head
  obtain ⟨first, whole, argument⟩ := reads.argument ends head
  rw [← same, ← List.append_assoc, ← List.append_assoc] at whole
  obtain ⟨rfl, rfl⟩ := cut_first separate argument.piece more continued
    (List.append_cancel_right whole)
  exact ⟨argument, rfl⟩

end Limits

section Checks

variable {comma closing : Token} {r d s h : List Token} {others : List (List Token)}
  {rest : List Token} {check : TimingCheck}
  {make : Event → Event → Triple → Triple → Option String → CheckConditions → TimingCheck}

/-- The two events and limits of a check, and the arguments behind them. -/
def twoLimits (table : Specparams)
    (make : Event → Event → Triple → Triple → Option String → CheckConditions → TimingCheck) :
    TokenRule TimingCheck := do
  let reference ← event
  expect .comma
  let data ← event
  expect .comma
  let first ← delayValue table
  expect .comma
  let second ← delayValue table
  let (notifier, conditions) ← checkTail table
  return make reference data first second notifier conditions

theorem setuphold_eq (table : Specparams) : setuphold table = twoLimits table .setuphold := rfl

theorem recrem_eq (table : Specparams) : recrem table .recrem =
    twoLimits table fun reference data recovery removal notifier conditions =>
      .recrem reference data recovery removal notifier conditions .recrem := rfl

theorem extendedRecovery_eq (table : Specparams) : recrem table .extendedRecovery =
    twoLimits table fun reference data removal recovery notifier conditions =>
      .recrem reference data recovery removal notifier conditions .extendedRecovery := rfl

structure TwoLimits (table : Specparams) (comma closing : Token) (r d s h : List Token)
    (others : List (List Token)) (reference data : Event) (first second : Triple)
    (tail : Option String × CheckConditions) : Prop where
  reference : Argument event r reference
  data : Argument event d data
  first : Argument (delayValue table) s first
  second : Argument (delayValue table) h second
  tail : ReadsTail table closing (further comma others) tail

section Kinds

variable (separates : comma.kind = .symbol .comma) (closes : closing.kind = .symbol .rightParen)

include separates closes

theorem twoLimits_cut (pieces : ∀ piece ∈ [r, d, s, h], Piece piece)
    (ok : (twoLimits table make).run (listed comma (r :: d :: s :: h :: others) ++ closing :: rest) =
      .ok (check, closing :: rest)) :
    ∃ reference data first second tail, check = make reference data first second tail.1 tail.2 ∧
      TwoLimits table comma closing r d s h others reference data first second tail := by
  obtain ⟨plainR, plainD, plainS, plainH⟩ : Piece r ∧ Piece d ∧ Piece s ∧ Piece h := by
    simpa using pieces
  simp only [listed_cons, further_cons, List.append_assoc, List.cons_append] at ok
  obtain ⟨reference, readR, ok⟩ := readsArgument_event.cut plainR separates ok
  obtain ⟨data, readD, ok⟩ := readsArgument_event.cut plainD separates ok
  obtain ⟨first, readS, ok⟩ := (readsArgument_delay table).cut plainS separates ok
  obtain ⟨second, middle, limit, ending⟩ := Rule.run_bind_ok.mp ok
  obtain ⟨tail, _, ending, made⟩ := Rule.run_bind_ok.mp ending
  cases made
  obtain ⟨readH, rfl⟩ := (readsArgument_delay table).last plainH (continues_further separates others)
    closes (checkTail_continues table) limit ending
  obtain ⟨used, same, balanced⟩ := (bracketed_checkParts table).checkTail _ _ _ ending
  cases List.append_cancel_right same
  obtain ⟨used', same', again⟩ := (local_checkParts table).checkTail _ _ _ ending
  cases List.append_cancel_right same'
  exact ⟨reference, data, first, second, tail, rfl, readR, readD, readS, readH, balanced,
    fun rest' => again _ rfl⟩

theorem TwoLimits.run {reference data : Event} {first second : Triple}
    {tail : Option String × CheckConditions}
    (limits : TwoLimits table comma closing r d s h others reference data first second tail)
    (make : Event → Event → Triple → Triple → Option String → CheckConditions → TimingCheck)
    (rest : List Token) :
    (twoLimits table make).run (listed comma (r :: d :: s :: h :: others) ++ closing :: rest) =
      .ok (make reference data first second tail.1 tail.2, closing :: rest) := by
  simp only [listed_cons, further_cons, List.append_assoc, List.cons_append]
  rw [twoLimits, limits.reference.before_comma separates, limits.data.before_comma separates,
    limits.first.before_comma separates,
    Rule.run_then (limits.second.before_tail (continues_further separates others) closes rest),
    Rule.run_then (limits.tail.reads rest)]
  rfl

theorem simpleCheck_of_arguments {a b l : List Token} {first second : Event} {limit : Triple}
    (left : Argument event a first) (right : Argument event b second)
    (bound : Argument (delayValue table) l limit)
    (make : Event → Event → Triple → Option String → TimingCheck) (rest : List Token) :
    (simpleCheck table make).run (listed comma [a, b, l] ++ closing :: rest) =
      .ok (make first second limit none, closing :: rest) := by
  have none : lastNotifier.run (further comma [] ++ closing :: rest) = .ok (none, closing :: rest) :=
    eat_skip (notAhead_cons (by simp [closes]))
  simp only [listed_cons, further_cons, List.append_assoc, List.cons_append]
  rw [simpleCheck, left.before_comma separates, right.before_comma separates,
    Rule.run_then (bound.before_tail (continues_further separates []) closes rest),
    Rule.run_then none]
  rfl

/-- A notifier is the only argument behind a single limit. -/
theorem simpleCheck_short {make : Event → Event → Triple → Option String → TimingCheck}
    (pieces : ∀ piece ∈ [r, d, s], Piece piece)
    (ok : (simpleCheck table make).run (listed comma (r :: d :: s :: others) ++ closing :: rest) =
      .ok (check, closing :: rest)) : others.length ≤ 1 := by
  obtain ⟨plainR, plainD, plainS⟩ : Piece r ∧ Piece d ∧ Piece s := by simpa using pieces
  simp only [listed_cons, further_cons, List.append_assoc, List.cons_append] at ok
  obtain ⟨_, _, ok⟩ := readsArgument_event.cut plainR separates ok
  obtain ⟨_, _, ok⟩ := readsArgument_event.cut plainD separates ok
  obtain ⟨limit, middle, bound, ending⟩ := Rule.run_bind_ok.mp ok
  obtain ⟨notifier, _, ending, made⟩ := Rule.run_bind_ok.mp ending
  cases made
  obtain ⟨_, rfl⟩ := (readsArgument_delay table).last plainS (continues_further separates others)
    closes lastNotifier_continues bound ending
  match others with
  | [] => exact Nat.zero_le 1
  | [_] => exact Nat.le_refl 1
  | piece :: next :: more =>
    simp only [further_cons, List.append_assoc, List.cons_append] at ending
    rw [lastNotifier, eat_then separates] at ending
    have named : Bracketed [.name] (optional name) := bracketed_optional (bracketed_name (by decide))
    obtain ⟨used, same, balanced⟩ := named _ _ _ ending
    have none := balanced.forall_mem (p := fun kind => kind ≠ .symbol .comma) (by decide)
    have whole : piece ++ comma :: (next ++ further comma more) = used :=
      List.append_cancel_right (by simpa using same)
    exact absurd separates (none comma (by simp [← whole]))

end Kinds

end Checks

section Calls

variable {task : CheckTask} {r d s h back after : List Token} {arguments others : List (List Token)}
  {check : TimingCheck}

/-- A call behind the name of its task. -/
def callBody (arguments : List (List Token)) : List Token :=
  symbolToken .leftParen :: (listed (symbolToken .comma) arguments ++
    [symbolToken .rightParen, symbolToken .semicolon])

def callTokens (task : CheckTask) (arguments : List (List Token)) : List Token :=
  .ofWord (taskWord task) :: callBody arguments

/-- The call is read as the check, whatever follows it. -/
def ReadsCall (table : Specparams) (task : CheckTask) (arguments : List (List Token))
    (check : TimingCheck) : Prop :=
  ∀ back, (timingCheck table task).run (callBody arguments ++ back) = .ok (check, back)

theorem further_plain (pieces : ∀ piece ∈ others, Piece piece) :
    ∀ t ∈ further (symbolToken .comma) others, t.kind ≠ .symbol .semicolon := by
  intro t member
  obtain ⟨piece, known, inside⟩ := List.mem_flatMap.mp member
  rcases List.mem_cons.mp inside with rfl | inside
  · simp
  · exact (pieces piece known t inside).2

theorem listed_plain (pieces : ∀ piece ∈ arguments, Piece piece) :
    ∀ t ∈ listed (symbolToken .comma) arguments, t.kind ≠ .symbol .semicolon := by
  cases arguments with
  | nil => simp [listed]
  | cons piece others =>
    obtain ⟨first, rest⟩ := List.forall_mem_cons.mp pieces
    rw [listed_cons]
    exact List.forall_mem_append.mpr ⟨fun t member => (first t member).2, further_plain rest⟩

/-- A call ends with the semicolon that ends its text. -/
theorem call_cut (pieces : ∀ piece ∈ arguments, Piece piece)
    (ok : (timingCheck table task).run (callBody arguments ++ back) = .ok (check, after)) :
    after = back ∧ ∀ rest, (checkArguments table
      (argumentCount (listed (symbolToken .comma) arguments)) task).run
        (listed (symbolToken .comma) arguments ++ symbolToken .rightParen :: rest) =
          .ok (check, symbolToken .rightParen :: rest) := by
  obtain ⟨opening, used, closing, semicolon, same, _, closes, ends, balanced, read⟩ :=
    timingCheck_run.mp ok
  obtain ⟨-, same⟩ := List.cons.inj same
  have plain := balanced.forall_mem (p := fun kind => kind ≠ .symbol .semicolon) (by decide)
  have plain' : ∀ t ∈ used ++ [closing], t.kind ≠ .symbol .semicolon :=
    List.forall_mem_append.mpr ⟨plain, by simp [closes]⟩
  have plain'' : ∀ t ∈ listed (symbolToken .comma) arguments ++ [symbolToken .rightParen],
      t.kind ≠ .symbol .semicolon :=
    List.forall_mem_append.mpr ⟨listed_plain pieces, by simp⟩
  have cut : (listed (symbolToken .comma) arguments ++ [symbolToken .rightParen]) ++
      symbolToken .semicolon :: back = (used ++ [closing]) ++ semicolon :: after := by
    simpa using same
  obtain ⟨whole, -, rfl⟩ := cut_unique (p := fun t : Token => t.kind = .symbol .semicolon)
    plain'' plain' rfl ends cut
  obtain ⟨rfl, last⟩ := List.append_inj' whole rfl
  cases last
  exact ⟨rfl, read⟩

theorem readsCall_of_arguments (balanced : Balanced listKinds (listed (symbolToken .comma) arguments))
    (read : ∀ rest, (checkArguments table
      (argumentCount (listed (symbolToken .comma) arguments)) task).run
        (listed (symbolToken .comma) arguments ++ symbolToken .rightParen :: rest) =
          .ok (check, symbolToken .rightParen :: rest)) : ReadsCall table task arguments check := by
  intro back
  exact timingCheck_run.mpr ⟨symbolToken .leftParen, listed (symbolToken .comma) arguments,
    symbolToken .rightParen, symbolToken .semicolon, by simp [callBody], rfl, rfl, rfl, balanced, read⟩

theorem balanced_listed {piece : List Token} (first : Balanced listKinds piece)
    (rest : Balanced listKinds (further (symbolToken .comma) others)) :
    Balanced listKinds (listed (symbolToken .comma) (piece :: others)) := by
  rw [listed_cons]
  exact .append first rest

theorem balanced_further {piece : List Token} (first : Balanced listKinds piece)
    (rest : Balanced listKinds (further (symbolToken .comma) others)) :
    Balanced listKinds (further (symbolToken .comma) (piece :: others)) := by
  rw [further_cons]
  exact .append (.token (by decide)) (.append first rest)

theorem readsCall_simple {a b l : List Token} {first second : Event} {limit : Triple}
    {make : Event → Event → Triple → Option String → TimingCheck}
    (task_ : ∀ count, checkArguments table count task = simpleCheck table make)
    (left : Argument event a first) (right : Argument event b second)
    (bound : Argument (delayValue table) l limit) :
    ReadsCall table task [a, b, l] (make first second limit none) := by
  refine readsCall_of_arguments ?_ fun rest => ?_
  · exact balanced_listed left.balanced.list
      (balanced_further right.balanced.list (balanced_further bound.balanced.list .nil))
  · rw [task_]
    exact simpleCheck_of_arguments rfl rfl left right bound make rest

theorem readsCall_of_run
    (ok : (timingCheck table task).run (callBody arguments ++ back) = .ok (check, back)) :
    ReadsCall table task arguments check := by
  obtain ⟨used, same, _, again⟩ := closed_timingCheck table task _ _ _ ok
  cases List.append_cancel_right same
  exact again

/-- A check for setup and hold and the two checks of its parts are read from the same pieces. -/
theorem setuphold_parts (pieces : ∀ piece ∈ r :: d :: s :: h :: others, Piece piece)
    (ok : (timingCheck table .setuphold).run (callBody (r :: d :: s :: h :: others) ++ back) =
      .ok (check, after)) :
    ∃ reference data setup hold notifier conditions,
      ReadsCall table .setuphold (r :: d :: s :: h :: others)
        (.setuphold reference data setup hold notifier conditions) ∧
      ReadsCall table .setup [d, r, s] (.setup data reference setup none) ∧
      ReadsCall table .hold [r, d, h] (.hold reference data hold none) := by
  obtain ⟨rfl, read⟩ := call_cut pieces ok
  have limited := read []
  rw [checkArguments, setuphold_eq] at limited
  have four : ∀ piece ∈ [r, d, s, h], Piece piece := fun piece member =>
    pieces piece (List.mem_append_left others member)
  obtain ⟨reference, data, setup, hold, tail, rfl, limits⟩ := twoLimits_cut rfl rfl four limited
  exact ⟨reference, data, setup, hold, tail.1, tail.2, readsCall_of_run ok,
    readsCall_simple (fun _ => rfl) limits.data limits.reference limits.first,
    readsCall_simple (fun _ => rfl) limits.reference limits.data limits.second⟩

/-- The long form of a recovery check is read from the pieces of a check for recovery and
removal, which has the two limits the other way round. -/
theorem recovery_reordered (pieces : ∀ piece ∈ r :: d :: s :: h :: others, Piece piece)
    (long : others ≠ [])
    (ok : (timingCheck table .recovery).run (callBody (r :: d :: s :: h :: others) ++ back) =
      .ok (check, after)) :
    ∃ reference data recovery removal notifier conditions,
      ReadsCall table .recovery (r :: d :: s :: h :: others)
        (.recrem reference data recovery removal notifier conditions .extendedRecovery) ∧
      ReadsCall table .recrem (r :: d :: h :: s :: others)
        (.recrem reference data recovery removal notifier conditions .recrem) := by
  obtain ⟨rfl, read⟩ := call_cut pieces ok
  have limited := read []
  have four : ∀ piece ∈ [r, d, s, h], Piece piece := fun piece member =>
    pieces piece (List.mem_append_left others member)
  rw [checkArguments] at limited
  split at limited
  next =>
    rw [extendedRecovery_eq] at limited
    obtain ⟨reference, data, removal, recovery, tail, rfl, limits⟩ :=
      twoLimits_cut rfl rfl four limited
    have swapped : TwoLimits table (symbolToken .comma) (symbolToken .rightParen) r d h s others
        reference data recovery removal tail :=
      ⟨limits.reference, limits.data, limits.second, limits.first, limits.tail⟩
    refine ⟨reference, data, recovery, removal, tail.1, tail.2, readsCall_of_run ok, ?_⟩
    refine readsCall_of_arguments ?_ fun rest => ?_
    · exact balanced_listed limits.reference.balanced.list
        (balanced_further limits.data.balanced.list
          (balanced_further limits.second.balanced.list
            (balanced_further limits.first.balanced.list limits.tail.balanced)))
    · rw [checkArguments, recrem_eq]
      exact swapped.run rfl rfl _ rest
  next =>
    have three : ∀ piece ∈ [r, d, s], Piece piece := fun piece member =>
      four piece (List.mem_append_left [h] member)
    have short := simpleCheck_short rfl rfl three limited
    rw [List.length_cons] at short
    exact absurd (List.eq_nil_of_length_eq_zero (by omega)) long

end Calls

end Grammar

end CellTiming
