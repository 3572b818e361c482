import CellTiming.Grammar.Operators
import CellTiming.Proofs.TokenRule

/-! The expressions that operators read, as a relation between tokens and values that
does not mention how they are found. An expression takes the longest reading: no
operator of its level or above follows it. The rules accept exactly these readings. -/
namespace CellTiming.Operators

variable {α : Type}

/-- The parts of an expression; an extension is what may follow its first operand. -/
inductive Phrase (α : Type)
  | operand
  | operation (level : Nat)
  | extension (level : Nat) (left : α)

/-- No operator of at least the given level stands at the front. -/
def Stops (g : Operators α) (level : Nat) (ts : List Token) : Prop :=
  ∀ t rest own apply, ts = t :: rest → g.between t = some (own, apply) → own < level

/-- The tokens form the phrase and have the value. -/
inductive Reads (g : Operators α) : Phrase α → List Token → α → Prop
  | before {t apply used value} (sign : g.before t = some apply)
      (rest : Reads g .operand used value) : Reads g .operand (t :: used) (apply value)
  | group {opening closing used value} (plain : g.before opening = none)
      (opens : opening.isSymbol .leftParen = true) (closes : closing.isSymbol .rightParen = true)
      (ends : g.between closing = none) (inner : Reads g (.operation 0) used value) :
      Reads g .operand (opening :: (used ++ [closing])) (g.group value)
  | atom {t value} (plain : g.before t = none) (single : t.isSymbol .leftParen = false)
      (meaning : g.atom t = .ok value) : Reads g .operand [t] value
  | operation {level first used left value} (head : Reads g .operand first left)
      (tail : Reads g (.extension level left) used value) :
      Reads g (.operation level) (first ++ used) value
  | stop {level left} : Reads g (.extension level left) [] left
  | join {level own apply left t used right more value}
      (sign : g.between t = some (own, apply)) (binds : level ≤ own)
      (head : Reads g (.operation (own + 1)) used right) (ends : Stops g (own + 1) more)
      (tail : Reads g (.extension level (apply left right)) more value) :
      Reads g (.extension level left) (t :: (used ++ more)) value

theorem stops_nil (g : Operators α) (level : Nat) : Stops g level [] :=
  fun _ _ _ _ same => nomatch same

theorem stops_cons (g : Operators α) (level : Nat) (t : Token) (rest : List Token)
    (single : g.between t = none) : Stops g level (t :: rest) := by
  intro t' rest' own apply same sign
  cases same
  rw [single] at sign
  contradiction

theorem Stops.mono {g : Operators α} {low high : Nat} {ts : List Token} (stops : Stops g low ts)
    (le : low ≤ high) : Stops g high ts :=
  fun t rest own apply same sign => Nat.lt_of_lt_of_le (stops t rest own apply same sign) le

theorem Stops.append {g : Operators α} {level : Nat} {first rest : List Token}
    (stops : Stops g level first) (after : Stops g level rest) : Stops g level (first ++ rest) := by
  cases first with
  | nil => exact after
  | cons t tail =>
    intro t' rest' own apply same sign
    cases same
    exact stops t tail own apply rfl sign

theorem Stops.left {g : Operators α} {level : Nat} {first rest : List Token}
    (stops : Stops g level (first ++ rest)) : Stops g level first := by
  intro t tail own apply same sign
  subst same
  exact stops t (tail ++ rest) own apply rfl sign

/-- Nothing binds less than level zero, so what stops it is no operator at all. -/
theorem Stops.between_none {g : Operators α} {t : Token} {rest : List Token}
    (stops : Stops g 0 (t :: rest)) : g.between t = none := by
  cases sign : g.between t with
  | none => rfl
  | some found => exact absurd (stops t rest found.1 found.2 rfl sign) (Nat.not_lt_zero _)

theorem Reads.operand_ne_nil {g : Operators α} {used : List Token} {value : α}
    (reads : Reads g .operand used value) : used ≠ [] := by
  cases reads <;> simp

theorem Reads.operation_ne_nil {g : Operators α} {level : Nat} {used : List Token} {value : α}
    (reads : Reads g (.operation level) used value) : used ≠ [] := by
  cases reads with
  | operation head tail =>
    intro empty
    exact head.operand_ne_nil (List.append_eq_nil_iff.mp empty).1

/-- The tokens of a phrase are operators, atoms and parentheses. -/
theorem Reads.forall_mem {g : Operators α} {p : Token → Prop}
    (before : ∀ {t apply}, g.before t = some apply → p t)
    (between : ∀ {t found}, g.between t = some found → p t)
    (atom : ∀ {t value}, g.atom t = .ok value → p t)
    (opening : ∀ {t : Token}, t.isSymbol .leftParen = true → p t)
    (closing : ∀ {t : Token}, t.isSymbol .rightParen = true → p t)
    {phrase : Phrase α} {used : List Token} {value : α} (reads : Reads g phrase used value) :
    ∀ t ∈ used, p t := by
  induction reads with
  | before sign _ ih => exact List.forall_mem_cons.mpr ⟨before sign, ih⟩
  | group _ opens closes _ _ ih =>
    refine List.forall_mem_cons.mpr ⟨opening opens, List.forall_mem_append.mpr ⟨ih, ?_⟩⟩
    exact List.forall_mem_singleton.mpr (closing closes)
  | atom _ _ meaning => exact List.forall_mem_singleton.mpr (atom meaning)
  | operation _ _ ihHead ihTail => exact List.forall_mem_append.mpr ⟨ihHead, ihTail⟩
  | stop => simp
  | join sign _ _ _ _ ihHead ihTail =>
    exact List.forall_mem_cons.mpr ⟨between sign, List.forall_mem_append.mpr ⟨ihHead, ihTail⟩⟩

/-- A result without the proof that a suffix is left. -/
def bare {ts : List Token} (result : Except SourceError (Step α ts)) :
    Except SourceError (α × List Token) :=
  result.map (·.val)

theorem suffix_of_bare {ts rest : List Token} {value : α} {result : Except SourceError (Step α ts)}
    (ok : bare result = .ok (value, rest)) : rest <:+ ts := by
  cases result with
  | error e => cases ok
  | ok step =>
    obtain ⟨step, suffix⟩ := step
    cases ok
    exact suffix

section Equations

variable {g : Operators α}

theorem operand_before {t : Token} {apply : α → α} (sign : g.before t = some apply)
    (rest : List Token) :
    bare (operand g (t :: rest)) = bare (operand g rest) >>= fun step =>
      .ok (apply step.1, step.2) := by
  rw [operand, sign]
  dsimp only
  cases operand g rest <;> rfl

theorem operand_group {t : Token} (plain : g.before t = none)
    (opens : t.isSymbol .leftParen = true) (rest : List Token) :
    bare (operand g (t :: rest)) = bare (operation g 0 rest) >>= fun step =>
      (TokenRule.expect .rightParen >>= fun _ => pure (g.group step.1)).run step.2 := by
  rw [operand, plain]
  dsimp only
  rw [if_pos opens]
  cases operation g 0 rest with
  | error e => rfl
  | ok step =>
    obtain ⟨⟨value, inner⟩, suffix⟩ := step
    change bare (close inner >>= _) = (TokenRule.expect .rightParen >>= _).run inner
    cases inner with
    | nil => rfl
    | cons closing after =>
      by_cases closes : closing.kind = .symbol .rightParen <;>
        simp [close, Token.isSymbol, TokenRule.expect, TokenRule.take, TokenRule.take?, Rule.takeIf,
          Rule.run_bind, closes] <;> rfl

theorem operand_atom {t : Token} (plain : g.before t = none)
    (single : t.isSymbol .leftParen ≠ true) (rest : List Token) :
    bare (operand g (t :: rest)) = (g.atom t).map (·, rest) := by
  rw [operand, plain]
  dsimp only
  rw [if_neg single]
  cases g.atom t <;> rfl

theorem operation_eq (level : Nat) (ts : List Token) :
    bare (operation g level ts) = bare (operand g ts) >>= fun step =>
      bare (extend g level step.1 step.2) := by
  rw [operation]
  cases operand g ts with
  | error e => rfl
  | ok step =>
    change bare (extend g level step.val.1 step.val.2 >>= _) = bare (extend g level step.val.1 step.val.2)
    cases extend g level step.val.1 step.val.2 <;> rfl

theorem extend_join {level own : Nat} {t : Token} {apply : α → α → α}
    (sign : g.between t = some (own, apply)) (binds : level ≤ own) (left : α) (rest : List Token) :
    bare (extend g level left (t :: rest)) = bare (operation g (own + 1) rest) >>= fun step =>
      bare (extend g level (apply left step.1) step.2) := by
  rw [extend, sign]
  dsimp only
  rw [if_pos binds]
  cases operation g (own + 1) rest with
  | error e => rfl
  | ok step =>
    change bare (extend g level (apply left step.val.1) step.val.2 >>= _) =
      bare (extend g level (apply left step.val.1) step.val.2)
    cases extend g level (apply left step.val.1) step.val.2 <;> rfl

theorem stops_loose {level own : Nat} {t : Token} {apply : α → α → α}
    (sign : g.between t = some (own, apply)) (loose : ¬ level ≤ own) (rest : List Token) :
    Stops g level (t :: rest) := by
  intro t' rest' own' apply' same sign'
  cases same
  rw [sign] at sign'
  cases sign'
  omega

theorem extend_stop {level : Nat} {ts : List Token} (stops : Stops g level ts) (left : α) :
    bare (extend g level left ts) = .ok (left, ts) := by
  cases ts with
  | nil =>
    rw [extend]
    rfl
  | cons t rest =>
    rw [extend]
    split
    next own apply sign =>
      rw [if_neg (Nat.not_le_of_lt (stops t rest own apply rfl sign))]
      rfl
    next => rfl

end Equations

/-- Induction along the calls of the rules. What is read behind an operand is read from the
tokens that the operand leaves, and an extension that is not joined stops. -/
theorem rules_induction {g : Operators α} {onOperand : List Token → Prop}
    {onOperation : Nat → List Token → Prop} {onExtension : Nat → α → List Token → Prop}
    (nil : onOperand [])
    (before : ∀ t rest apply, g.before t = some apply → onOperand rest → onOperand (t :: rest))
    (group : ∀ t rest, g.before t = none → t.isSymbol .leftParen = true → onOperation 0 rest →
      onOperand (t :: rest))
    (atom : ∀ t rest, g.before t = none → t.isSymbol .leftParen ≠ true → onOperand (t :: rest))
    (operation : ∀ level ts, onOperand ts →
      (∀ left after, bare (operand g ts) = .ok (left, after) → onExtension level left after) →
      onOperation level ts)
    (stop : ∀ level left ts, Stops g level ts → onExtension level left ts)
    (join : ∀ level left t rest own apply, g.between t = some (own, apply) → level ≤ own →
      onOperation (own + 1) rest →
      (∀ right after, bare (Operators.operation g (own + 1) rest) = .ok (right, after) →
        onExtension level (apply left right) after) →
      onExtension level left (t :: rest)) :
    (∀ ts, onOperand ts) ∧ (∀ level ts, onOperation level ts) ∧
      ∀ level left ts, onExtension level left ts := by
  apply operand.mutual_induct g
  case case1 => exact nil
  case case2 => exact fun t rest apply sign ih => before t rest apply sign ih
  case case3 => exact fun t rest plain opens ih => group t rest plain opens ih
  case case4 => exact fun t rest plain single => atom t rest plain single
  case case5 =>
    exact fun level ts head tail => operation level ts head fun left after found =>
      tail left after (suffix_of_bare found)
  case case6 => exact fun level left => stop level left [] (stops_nil g level)
  case case7 =>
    exact fun level left t rest own apply sign binds head tail =>
      join level left t rest own apply sign binds head fun right after found =>
        tail right after (suffix_of_bare found)
  case case8 =>
    exact fun level left t rest own apply sign loose =>
      stop level left (t :: rest) (stops_loose sign loose rest)
  case case9 =>
    exact fun level left t rest single =>
      stop level left (t :: rest) (stops_cons g level t rest single)

/-- What the rules accept is a reading, and nothing that follows could extend it. -/
theorem reads_of_ok (g : Operators α) :
    (∀ ts value rest, bare (operand g ts) = .ok (value, rest) →
      ∃ used, ts = used ++ rest ∧ Reads g .operand used value) ∧
    (∀ level ts value rest, bare (operation g level ts) = .ok (value, rest) →
      ∃ used, ts = used ++ rest ∧ Reads g (.operation level) used value ∧ Stops g level rest) ∧
    (∀ level left ts value rest, bare (extend g level left ts) = .ok (value, rest) →
      ∃ used, ts = used ++ rest ∧ Reads g (.extension level left) used value ∧
        Stops g level rest) := by
  apply rules_induction (g := g)
  case nil =>
    intro value rest ok
    rw [operand] at ok
    cases ok
  case before =>
    intro t rest apply sign ih value after ok
    rw [operand_before sign] at ok
    obtain ⟨step, found, same⟩ := bind_eq_ok.mp ok
    cases same
    obtain ⟨used, whole, reads⟩ := ih _ _ found
    exact ⟨t :: used, congrArg (t :: ·) whole, .before sign reads⟩
  case group =>
    intro t rest plain opens ih value after ok
    rw [operand_group plain opens] at ok
    obtain ⟨step, found, closed⟩ := bind_eq_ok.mp ok
    obtain ⟨_, last, expected, finish⟩ := Rule.run_bind_ok.mp closed
    obtain ⟨closing, ahead, kind⟩ := TokenRule.expect_run.mp expected
    cases finish
    obtain ⟨used, whole, reads, stops⟩ := ih _ _ found
    rw [ahead] at whole stops
    exact ⟨t :: (used ++ [closing]), by simp [whole],
      .group plain opens (beq_iff_eq.mpr kind) stops.between_none reads⟩
  case atom =>
    intro t rest plain single value after ok
    rw [operand_atom plain single] at ok
    cases meaning : g.atom t with
    | error e =>
      rw [meaning] at ok
      cases ok
    | ok found =>
      rw [meaning] at ok
      cases ok
      exact ⟨[t], rfl, .atom plain (by simpa using single) meaning⟩
  case operation =>
    intro level ts ihHead ihTail value rest ok
    rw [operation_eq] at ok
    obtain ⟨⟨left, ahead⟩, found, extended⟩ := bind_eq_ok.mp ok
    obtain ⟨first, rfl, head⟩ := ihHead _ _ found
    obtain ⟨used, rfl, tail, stops⟩ := ihTail left ahead found _ _ extended
    exact ⟨first ++ used, (List.append_assoc _ _ _).symm, .operation head tail, stops⟩
  case stop =>
    intro level left ts stops value rest ok
    rw [extend_stop stops] at ok
    cases ok
    exact ⟨[], rfl, .stop, stops⟩
  case join =>
    intro level left t rest own apply sign binds ihHead ihTail value after ok
    rw [extend_join sign binds] at ok
    obtain ⟨⟨right, ahead⟩, found, extended⟩ := bind_eq_ok.mp ok
    obtain ⟨used, rfl, head, ends⟩ := ihHead _ _ found
    obtain ⟨more, rfl, tail, stops⟩ := ihTail right ahead found _ _ extended
    exact ⟨t :: (used ++ more), by simp, .join sign binds head ends.left tail, stops⟩

/-- The rules accept every reading that what follows cannot extend. -/
theorem ok_of_reads {g : Operators α} {phrase : Phrase α} {used : List Token} {value : α}
    (reads : Reads g phrase used value) :
    match phrase with
    | .operand => ∀ rest, bare (operand g (used ++ rest)) = .ok (value, rest)
    | .operation level => ∀ rest, Stops g level rest →
        bare (operation g level (used ++ rest)) = .ok (value, rest)
    | .extension level left => ∀ rest, Stops g level rest →
        bare (extend g level left (used ++ rest)) = .ok (value, rest) := by
  induction reads with
  | before sign _ ih =>
    intro rest
    rw [List.cons_append, operand_before sign, ih]
    rfl
  | @group opening closing used value plain opens closes ends _ ih =>
    intro rest
    rw [List.cons_append, List.append_assoc, List.singleton_append, operand_group plain opens,
      ih (closing :: rest) (stops_cons g 0 closing rest ends)]
    exact TokenRule.expect_then (eq_of_beq closes)
  | atom plain single meaning =>
    intro rest
    rw [List.singleton_append, operand_atom plain (by simp [single]), meaning]
    rfl
  | @operation level first used left value _ _ ihHead ihTail =>
    intro rest stops
    rw [List.append_assoc, operation_eq, ihHead]
    exact ihTail rest stops
  | stop =>
    intro rest stops
    exact extend_stop stops _
  | @join level own apply left t used right more value sign binds _ ends _ ihHead ihTail =>
    intro rest stops
    have follows : Stops g (own + 1) (more ++ rest) :=
      ends.append (stops.mono (Nat.le_succ_of_le binds))
    rw [List.cons_append, List.append_assoc, extend_join sign binds, ihHead _ follows]
    exact ihTail rest stops

theorem expression_run {g : Operators α} {ts rest : List Token} {value : α} :
    g.expression.run ts = .ok (value, rest) ↔
      ∃ used, ts = used ++ rest ∧ Reads g (.operation 0) used value ∧ Stops g 0 rest := by
  constructor
  · exact (reads_of_ok g).2.1 0 ts value rest
  · rintro ⟨used, rfl, reads, stops⟩
    exact ok_of_reads reads rest stops

theorem continuing_run {g : Operators α} {left : α} {ts rest : List Token} {value : α} :
    (g.continuing left).run ts = .ok (value, rest) ↔
      ∃ used, ts = used ++ rest ∧ Reads g (.extension 0 left) used value ∧ Stops g 0 rest := by
  constructor
  · exact (reads_of_ok g).2.2 0 left ts value rest
  · rintro ⟨used, rfl, reads, stops⟩
    exact ok_of_reads reads rest stops

end CellTiming.Operators
