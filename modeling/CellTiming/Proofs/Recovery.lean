import CellTiming.Proofs.ArgumentForms

/-! The two forms of a recovery check. The number of arguments that is counted ahead of a call is
the number of arguments it has, whatever parentheses stand in them, so the long form is read where
there are nine arguments and the short form where there are three or four. -/
namespace CellTiming.Grammar

open Operators TokenRule

section Tails

variable (table : Specparams)

/-- `[, notifier]` -/
theorem listOf_lastNotifier : ListOf Followed lastNotifier
    (OrNone (Before (WritesSlot WritesName) NoneLeft) none) := by
  have list := argumentOf_notifier.perhaps listOf_pure none
  rwa [bind_pure] at list

/-- The arguments behind the limits of a check with two of them. -/
inductive WritesTail (table : Specparams) :
    List (List Token) → Option String × CheckConditions → Prop
  | none : WritesTail table [] (none, {})
  | notifier {n notifier} (last : WritesSlot WritesName n notifier) :
      WritesTail table [n] (notifier, {})
  | conditions {n s c notifier timestamp timecheck} (last : WritesSlot WritesName n notifier)
      (stamp : WritesSlot (WritesCondition table) s timestamp)
      (check : WritesSlot (WritesCondition table) c timecheck) :
      WritesTail table [n, s, c] (notifier, { timestamp, timecheck })
  | delayed {n s c r d notifier timestamp timecheck delayedReference delayedData}
      (last : WritesSlot WritesName n notifier)
      (stamp : WritesSlot (WritesCondition table) s timestamp)
      (check : WritesSlot (WritesCondition table) c timecheck)
      (reference : WritesSlot (WritesCondition table) r delayedReference)
      (data : WritesSlot (WritesCondition table) d delayedData) :
      WritesTail table [n, s, c, r, d]
        (notifier, { timestamp, timecheck, delayedReference, delayedData })

theorem listOf_checkTail : ListOf Followed (checkTail table) (WritesTail table) := by
  have slot := argumentOf_optionalCondition table
  have list := argumentOf_notifier.perhaps (fun notifier =>
    slot.perhaps (fun timestamp => slot.further fun timecheck =>
      slot.perhaps (fun delayedReference => slot.further fun delayedData =>
        listOf_pure (notifier, CheckConditions.mk timestamp timecheck delayedReference delayedData))
        (notifier, { timestamp, timecheck }))
      (notifier, {})) (none, {})
  refine list.iff fun pieces tail => ⟨?_, ?_⟩
  · rintro (_ | ⟨⟨last, (_ | ⟨⟨stamp, ⟨check, (_ | ⟨⟨reference, ⟨data, ⟨⟩⟩⟩⟩)⟩⟩⟩)⟩⟩)
    · exact .none
    · exact .notifier last
    · exact .conditions last stamp check
    · exact .delayed last stamp check reference data
  · rintro (_ | last | ⟨last, stamp, check⟩ | ⟨last, stamp, check, reference, data⟩)
    · exact .none
    · exact .some (.piece last .none)
    · exact .some (.piece last (.some (.piece stamp (.piece check .none))))
    · exact .some (.piece last (.some (.piece stamp (.piece check
        (.some (.piece reference (.piece data .none)))))))

end Tails

section Checks

variable (table : Specparams)

/-- `first, second, limit [, notifier]` -/
inductive WritesSimple (table : Specparams)
    (make : Event → Event → Triple → Option String → TimingCheck) :
    List (List Token) → TimingCheck → Prop
  | plain {a b l first second limit} (left : WritesEvent a first) (right : WritesEvent b second)
      (bound : WritesDelay table l limit) :
      WritesSimple table make [a, b, l] (make first second limit none)
  | notified {a b l n first second limit notifier} (left : WritesEvent a first)
      (right : WritesEvent b second) (bound : WritesDelay table l limit)
      (last : WritesSlot WritesName n notifier) :
      WritesSimple table make [a, b, l, n] (make first second limit notifier)

theorem listOf_simpleCheck (make : Event → Event → Triple → Option String → TimingCheck) :
    ListOf Joined (simpleCheck table make) (WritesSimple table make) := by
  have list := argumentOf_event.list fun first => argumentOf_event.further fun second =>
    (argumentOf_delay table).further fun limit => listOf_lastNotifier.map (make first second limit)
  refine list.iff fun pieces check => ⟨?_, ?_⟩
  · rintro ⟨left, ⟨right, ⟨bound, ⟨_, (_ | ⟨⟨last, ⟨⟩⟩⟩), rfl⟩⟩⟩⟩
    · exact .plain left right bound
    · exact .notified left right bound last
  · rintro (⟨left, right, bound⟩ | ⟨left, right, bound, last⟩)
    · exact .piece left (.piece right (.piece bound ⟨_, .none, rfl⟩))
    · exact .piece left (.piece right (.piece bound ⟨_, .some (.piece last .none), rfl⟩))

/-- `reference, data, first, second` and the arguments behind the limits -/
inductive WritesTwoLimits (table : Specparams)
    (make : Event → Event → Triple → Triple → Option String → CheckConditions → TimingCheck) :
    List (List Token) → TimingCheck → Prop
  | limits {r d l h others reference data first second tail} (left : WritesEvent r reference)
      (right : WritesEvent d data) (lower : WritesDelay table l first)
      (upper : WritesDelay table h second) (behind : WritesTail table others tail) :
      WritesTwoLimits table make (r :: d :: l :: h :: others)
        (make reference data first second tail.1 tail.2)

theorem listOf_twoLimits
    (make : Event → Event → Triple → Triple → Option String → CheckConditions → TimingCheck) :
    ListOf Joined (twoLimits table make) (WritesTwoLimits table make) := by
  have list := argumentOf_event.list fun reference => argumentOf_event.further fun data =>
    (argumentOf_delay table).further fun first => (argumentOf_delay table).further fun second =>
    (listOf_checkTail table).map fun tail => make reference data first second tail.1 tail.2
  refine list.iff fun pieces check => ⟨?_, ?_⟩
  · rintro ⟨left, ⟨right, ⟨lower, ⟨upper, ⟨_, behind, rfl⟩⟩⟩⟩⟩
    exact .limits left right lower upper behind
  · rintro ⟨left, right, lower, upper, behind⟩
    exact .piece left (.piece right (.piece lower (.piece upper ⟨_, behind, rfl⟩)))

end Checks

section Calls

/-- A call whose arguments, cut apart at its outermost commas, have the form. -/
structure WrittenCall (F : List (List Token) → TimingCheck → Prop) (check : TimingCheck) where
  opening : TokenOf (.symbol .leftParen)
  arguments : List Token
  closing : TokenOf (.symbol .rightParen)
  semicolon : TokenOf (.symbol .semicolon)
  form : F (topLevel 0 arguments) check

def WrittenCall.tokens {F : List (List Token) → TimingCheck → Prop} {check : TimingCheck}
    (call : WrittenCall F check) : List Token :=
  call.opening.val :: (call.arguments ++ [call.closing.val, call.semicolon.val])

variable {table : Specparams} {task : CheckTask} {F : Nat → List (List Token) → TimingCheck → Prop}
  {ts rest : List Token} {check : TimingCheck}

section Forms

variable (forms : ∀ count, ListOf Joined (checkArguments table count task) (F count))

include forms

theorem WrittenCall.count (call : WrittenCall (fun pieces => F pieces.length pieces) check) :
    argumentCount call.arguments = (topLevel 0 call.arguments).length :=
  (joined_topLevel 0 call.arguments).argumentCount ((forms _).balanced call.form)

theorem WrittenCall.balanced (call : WrittenCall (fun pieces => F pieces.length pieces) check) :
    Balanced listKinds call.arguments :=
  (joined_topLevel 0 call.arguments).balanced ((forms _).balanced call.form)

/-- The count that is taken ahead of a call is the number of its arguments. -/
theorem WrittenCall.counted (call : WrittenCall (fun pieces => F pieces.length pieces) check)
    (rest : List Token) :
    countArguments 0 1 (call.tokens ++ rest) = (topLevel 0 call.arguments).length := by
  have shape : call.tokens ++ rest = call.opening.val ::
      (call.arguments ++ call.closing.val :: call.semicolon.val :: rest) := by simp [tokens]
  rw [shape, (call.balanced forms).count call.opening.property call.closing.property, call.count forms]

/-- A call is accepted if its arguments have the form for their number, and only then. -/
theorem timingCheck_written : (timingCheck table task).run ts = .ok (check, rest) ↔
    ∃ call : WrittenCall (fun pieces => F pieces.length pieces) check, ts = call.tokens ++ rest := by
  rw [timingCheck_run]
  constructor
  · rintro ⟨opening, arguments, closing, semicolon, rfl, opens, closes, ends, _, read⟩
    obtain ⟨used, same, pieces, joined, form⟩ := (forms _).takes _ _ _ (read [])
    cases List.append_cancel_right same
    have balanced := (forms _).balanced form
    rw [joined.argumentCount balanced] at form
    refine ⟨⟨⟨opening, opens⟩, arguments, ⟨closing, closes⟩, ⟨semicolon, ends⟩, ?_⟩, ?_⟩
    · rw [joined.topLevel balanced]
      exact form
    · simp [WrittenCall.tokens]
  · rintro ⟨call, rfl⟩
    refine ⟨call.opening, call.arguments, call.closing, call.semicolon, by simp [WrittenCall.tokens],
      call.opening.property, call.closing.property, call.semicolon.property, call.balanced forms,
      fun rest' => ?_⟩
    rw [call.count forms]
    exact (forms _).reads call.form (joined_topLevel 0 call.arguments) call.closing.property rest'

end Forms

end Calls

section Recovery

/-- The arguments of a recovery check. There are nine in the long form, in which the removal limit
stands before the recovery limit. -/
inductive RecoveryForm (table : Specparams) : List (List Token) → TimingCheck → Prop
  | limit {r d l reference data limit} (left : WritesEvent r reference)
      (right : WritesEvent d data) (bound : WritesDelay table l limit) :
      RecoveryForm table [r, d, l] (.recovery reference data limit none)
  | notified {r d l n reference data limit notifier} (left : WritesEvent r reference)
      (right : WritesEvent d data) (bound : WritesDelay table l limit)
      (last : WritesSlot WritesName n notifier) :
      RecoveryForm table [r, d, l, n] (.recovery reference data limit notifier)
  | long {r d third fourth n s c r' d' reference data removal recovery notifier timestamp timecheck
      delayedReference delayedData} (left : WritesEvent r reference) (right : WritesEvent d data)
      (lower : WritesDelay table third removal) (upper : WritesDelay table fourth recovery)
      (last : WritesSlot WritesName n notifier)
      (stamp : WritesSlot (WritesCondition table) s timestamp)
      (check : WritesSlot (WritesCondition table) c timecheck)
      (behind : WritesSlot (WritesCondition table) r' delayedReference)
      (behind' : WritesSlot (WritesCondition table) d' delayedData) :
      RecoveryForm table [r, d, third, fourth, n, s, c, r', d']
        (.recrem reference data recovery removal notifier
          { timestamp, timecheck, delayedReference, delayedData } .extendedRecovery)

variable {table : Specparams} {pieces : List (List Token)} {check : TimingCheck}

/-- The arguments that are read where a recovery check has the given number of them. -/
def recoveryArguments (table : Specparams) (count : Nat) : List (List Token) → TimingCheck → Prop :=
  if count = extendedRecoveryArguments then
    WritesTwoLimits table fun reference data removal recovery notifier conditions =>
      .recrem reference data recovery removal notifier conditions .extendedRecovery
  else WritesSimple table .recovery

theorem recoveryForm_iff :
    RecoveryForm table pieces check ↔ recoveryArguments table pieces.length pieces check := by
  rw [recoveryArguments]
  constructor
  · rintro (⟨left, right, bound⟩ | ⟨left, right, bound, last⟩ |
      ⟨left, right, lower, upper, last, stamp, check, behind, behind'⟩)
    · rw [if_neg (by simp [extendedRecoveryArguments])]
      exact .plain left right bound
    · rw [if_neg (by simp [extendedRecoveryArguments])]
      exact .notified left right bound last
    · rw [if_pos (by simp [extendedRecoveryArguments])]
      exact .limits left right lower upper (.delayed last stamp check behind behind')
  · intro form
    split at form
    next long =>
      obtain ⟨left, right, lower, upper, tail⟩ := form
      cases tail with
      | delayed last stamp check behind behind' =>
        exact .long left right lower upper last stamp check behind behind'
      | _ => simp [extendedRecoveryArguments] at long
    next short =>
      cases form with
      | plain left right bound => exact .limit left right bound
      | notified left right bound last => exact .notified left right bound last

theorem listOf_recovery (table : Specparams) (count : Nat) :
    ListOf Joined (checkArguments table count .recovery) (recoveryArguments table count) := by
  rw [checkArguments, recoveryArguments]
  split
  · rw [extendedRecovery_eq]
    exact listOf_twoLimits table _
  · exact listOf_simpleCheck table _

theorem RecoveryForm.length_iff (form : RecoveryForm table pieces check) :
    pieces.length ∈ [3, 4, 9] ∧ (check.kind = .recrem ↔ pieces.length = extendedRecoveryArguments) ∧
      (check.kind = .recovery ↔ pieces.length ≠ extendedRecoveryArguments) := by
  cases form <;> simp [TimingCheck.kind, extendedRecoveryArguments]

/-- A recovery check is accepted with three, four or nine arguments that have the form for their
number, whatever stands in them and behind the check. The number is what is counted ahead, and the
check has two limits exactly if it is nine. -/
theorem recovery_forms (table : Specparams) {t : Token} (named : t.kind = .task .recovery)
    (ts rest : List Token) :
    (∀ item, (itemAfter table t).run ts = .ok (item, rest) ↔
      ∃ check, ∃ call : WrittenCall (RecoveryForm table) check,
        item = .check check ∧ ts = call.tokens ++ rest) ∧
    ∀ check, ∀ call : WrittenCall (RecoveryForm table) check, ts = call.tokens ++ rest →
      countArguments 0 1 ts = (topLevel 0 call.arguments).length ∧
        (topLevel 0 call.arguments).length ∈ [3, 4, 9] ∧
        (check.kind = .recrem ↔ (topLevel 0 call.arguments).length = 9) ∧
        (check.kind = .recovery ↔ (topLevel 0 call.arguments).length ≠ 9) := by
  have forms : RecoveryForm table = fun pieces => recoveryArguments table pieces.length pieces :=
    funext fun _ => funext fun _ => propext recoveryForm_iff
  have called : itemAfter table t = do return .check (← timingCheck table .recovery) := by
    rw [itemAfter, named]
  refine ⟨fun item => ?_, ?_⟩
  · rw [called, Rule.run_bind_ok, forms]
    constructor
    · rintro ⟨check, _, read, made⟩
      cases made
      obtain ⟨call, rfl⟩ := (timingCheck_written (listOf_recovery table)).mp read
      exact ⟨check, call, rfl, rfl⟩
    · rintro ⟨check, call, rfl, rfl⟩
      exact ⟨check, rest, (timingCheck_written (listOf_recovery table)).mpr ⟨call, rfl⟩, rfl⟩
  · rw [forms]
    rintro check call rfl
    exact ⟨call.counted (listOf_recovery table) rest, (recoveryForm_iff.mpr call.form).length_iff⟩

theorem recovery_forms_long : ∃ ts check rest, ∃ call : WrittenCall (RecoveryForm []) check,
    Token.ofString "(posedge (R & !(C)), G, ((1)), (2:3:4), , , D === (1'b1), , );" = .ok ts ∧
      (itemAfter [] ⟨.task .recovery, "$recovery", 1, 0⟩).run ts = .ok (.check check, rest) ∧
      ts = call.tokens ++ rest ∧ countArguments 0 1 ts = 9 ∧ check.kind = .recrem := by
  have read : (Token.ofString
      "(posedge (R & !(C)), G, ((1)), (2:3:4), , , D === (1'b1), , );").toOption.map (fun ts =>
        ((itemAfter [] ⟨.task .recovery, "$recovery", 1, 0⟩).run ts).toOption.map fun found =>
          match found.1 with
          | .check check => some check.kind
          | _ => none) = some (some (some .recrem)) := by decide +kernel
  obtain ⟨ts, lexed, run⟩ := exists_ok_of_toOption read
  obtain ⟨⟨item, rest⟩, ok, kind⟩ := exists_ok_of_toOption run
  obtain ⟨accepted, counted⟩ := recovery_forms [] (t := ⟨.task .recovery, "$recovery", 1, 0⟩) rfl ts rest
  obtain ⟨check, call, rfl, same⟩ := (accepted item).mp ok
  have long : check.kind = .recrem := Option.some.inj kind
  obtain ⟨ahead, _, two, _⟩ := counted check call same
  exact ⟨ts, check, rest, call, lexed, ok, same, ahead.trans (two.mp long), long⟩

end Recovery

end CellTiming.Grammar
