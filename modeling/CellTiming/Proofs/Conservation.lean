import CellTiming.Proofs.Block
import CellTiming.Proofs.ItemMarks
import CellTiming.Proofs.Lexer
import Mathlib.Data.List.Forall2

/-! Nothing of a block is lost, stored twice or filed in a wrong list: the timing read
from a text has one entry for each item of the text, known by the tokens that only items
are made of. -/
namespace CellTiming

/-- The kinds of check a task is read as; the long form of `$recovery` also has a removal limit. -/
def CheckTask.kinds : CheckTask → List TimingCheck.Kind
  | setup => [.setup]
  | hold => [.hold]
  | setuphold => [.setuphold]
  | skew => [.skew]
  | recovery => [.recovery, .recrem]
  | period => [.period]
  | width => [.width]
  | recrem => [.recrem]

def Token.task? (t : Token) : Option CheckTask :=
  match t.kind with
  | .task task => some task
  | _ => none

def Token.opensConditioned (t : Token) : Bool :=
  t.kind == .keyword .conditional || t.kind == .keyword .ifnone

def Token.declares (t : Token) : Bool := t.kind == .keyword .specparam

/-- The names that `specparam` declares, but for those of strings. -/
def declaredNames : List Token → List String
  | [] => []
  | t :: rest =>
    if t.declares then
      match rest with
      | name :: _ :: value :: _ =>
        if value.kind = .string then declaredNames rest else name.text :: declaredNames rest
      | _ => declaredNames rest
    else declaredNames rest

/-- The timing holds what the tokens write, item by item. -/
structure Accounts (ts : List Token) (timing : ModuleTiming) : Prop where
  checks : List.Forall₂ (fun task check => check.kind ∈ task.kinds)
    (ts.filterMap Token.task?) timing.checks
  conditioned : ts.countP Token.opensConditioned = timing.conditioned.paths.length
  arrows : ts.countP (·.kind.isPath) = timing.paths.length + timing.conditioned.paths.length
  specparams : ts.countP Token.declares =
    timing.specparams.length + ts.countP (·.kind == .string)
  names : timing.specparams.map (·.1) = declaredNames ts

/-- What one timing has beyond another is as much as the tokens write. -/
structure Counts (ts : List Token) (before after : ModuleTiming) : Prop where
  checks : ∃ more, after.checks = before.checks ++ more ∧
    List.Forall₂ (fun task check => check.kind ∈ task.kinds) (ts.filterMap Token.task?) more
  conditioned : after.conditioned.paths.length =
    before.conditioned.paths.length + ts.countP Token.opensConditioned
  arrows : after.paths.length + after.conditioned.paths.length =
    before.paths.length + before.conditioned.paths.length + ts.countP (·.kind.isPath)
  specparams : after.specparams.length + ts.countP (·.kind == .string) =
    before.specparams.length + ts.countP Token.declares

structure Grows (ts : List Token) (before after : ModuleTiming) : Prop
    extends Counts ts before after where
  names : ∃ declared, after.specparams.map (·.1) = before.specparams.map (·.1) ++ declared ∧
    ∀ more, declaredNames (ts ++ more) = declared ++ declaredNames more

namespace Grammar

theorem simpleCheck_kind (table : Specparams)
    {make : Event → Event → Triple → Option String → TimingCheck} {kind : TimingCheck.Kind}
    (made : ∀ first second limit notifier, (make first second limit notifier).kind = kind) :
    (simpleCheck table make).Takes fun _ check => check.kind = kind :=
  Rule.takes_last fun first => Rule.takes_last fun _ => Rule.takes_last fun second =>
    Rule.takes_last fun _ => Rule.takes_last fun limit => Rule.takes_last fun notifier =>
    Rule.takes_pure (made first second limit notifier)

theorem recrem_kind (table : Specparams) (form : RecremForm) :
    (recrem table form).Takes fun _ check => check.kind = .recrem := by
  refine Rule.takes_last fun _ => Rule.takes_last fun _ => Rule.takes_last fun _ =>
    Rule.takes_last fun _ => Rule.takes_last fun _ => Rule.takes_last fun _ =>
    Rule.takes_last fun _ => Rule.takes_last fun _ => ?_
  cases form <;> exact Rule.takes_pure rfl

theorem checkArguments_kind (table : Specparams) (arguments : Nat) (task : CheckTask) :
    (checkArguments table arguments task).Takes fun _ check => check.kind ∈ task.kinds := by
  have single {rule : TokenRule TimingCheck} (kind : TimingCheck.Kind)
      (made : rule.Takes fun _ check => check.kind = kind) (listed : kind ∈ task.kinds) :
      rule.Takes fun _ check => check.kind ∈ task.kinds :=
    made.mono fun _ _ same => same ▸ listed
  cases task with
  | setup => exact single _ (simpleCheck_kind table fun _ _ _ _ => rfl) (by decide)
  | hold => exact single _ (simpleCheck_kind table fun _ _ _ _ => rfl) (by decide)
  | setuphold =>
    refine single .setuphold ?_ (by decide)
    exact Rule.takes_last fun _ => Rule.takes_last fun _ => Rule.takes_last fun _ =>
      Rule.takes_last fun _ => Rule.takes_last fun _ => Rule.takes_last fun _ =>
      Rule.takes_last fun _ => Rule.takes_last fun _ => Rule.takes_pure rfl
  | skew => exact single _ (simpleCheck_kind table fun _ _ _ _ => rfl) (by decide)
  | recovery =>
    rw [checkArguments]
    split
    · exact single _ (recrem_kind table .extendedRecovery) (by decide)
    · exact single _ (simpleCheck_kind table fun _ _ _ _ => rfl) (by decide)
  | period =>
    refine single .period ?_ (by decide)
    exact Rule.takes_last fun _ => Rule.takes_last fun _ => Rule.takes_last fun _ =>
      Rule.takes_last fun _ => Rule.takes_pure rfl
  | width =>
    refine single .width ?_ (by decide)
    refine Rule.takes_last fun _ => Rule.takes_last fun _ => Rule.takes_last fun _ =>
      Rule.takes_last fun _ => ?_
    split
    · exact Rule.takes_last fun _ => Rule.takes_last fun _ => Rule.takes_pure rfl
    · exact Rule.takes_pure rfl
  | recrem => exact single _ (recrem_kind table .recrem) (by decide)

theorem timingCheck_kind (table : Specparams) (task : CheckTask) :
    (timingCheck table task).Takes fun _ check => check.kind ∈ task.kinds := by
  refine Rule.takes_last fun arguments => Rule.takes_last fun _ => ?_
  have made := checkArguments_kind table arguments task
  intro ts value rest ok
  obtain ⟨check, middle, head, tail⟩ := Rule.run_bind_ok.mp ok
  obtain ⟨used, same, kind⟩ := made ts check middle head
  obtain ⟨_, last, first, ending⟩ := Rule.run_bind_ok.mp tail
  obtain ⟨_, end_, second, finish⟩ := Rule.run_bind_ok.mp ending
  cases finish
  obtain ⟨closing, same', _⟩ := TokenRule.expect_run.mp first
  obtain ⟨semicolon, same'', _⟩ := TokenRule.expect_run.mp second
  exact ⟨used ++ [closing, semicolon], by rw [same, same', same'']; simp, kind⟩

end Grammar

section Items

/-- The marks among the tokens of an item. -/
inductive ItemMarks : List Token → TimingItem → Prop
  | check {t task check} (named : t.kind = .task task) (kind : check.kind ∈ task.kinds) :
      ItemMarks [t] (.check check)
  | path {arrow path} (leads : arrow.kind.isPath = true) : ItemMarks [arrow] (.path path)
  | conditioned {word arrow condition path} (opens : word.kind = .keyword .conditional)
      (leads : arrow.kind.isPath = true) : ItemMarks [word, arrow] (.conditioned condition path)
  | ifnone {word arrow line path} (opens : word.kind = .keyword .ifnone)
      (leads : arrow.kind.isPath = true) : ItemMarks [word, arrow] (.ifnone line path)
  | string {word text line name} (opens : word.kind = .keyword .specparam)
      (quoted : text.kind = .string) : ItemMarks [word, text] (.specparam line name none)
  | value {word line name value} (opens : word.kind = .keyword .specparam) :
      ItemMarks [word] (.specparam line name (some value))

def TimingItem.declared : TimingItem → List String
  | .specparam _ name (some _) => [name]
  | _ => []

/-- The tokens are those of the item, whatever follows them. -/
structure ItemTokens (used : List Token) (item : TimingItem) : Prop where
  marks : ItemMarks (marks used) item
  names : ∀ more, declaredNames (used ++ more) = item.declared ++ declaredNames more

theorem countP_marks {p : Token → Bool} (marked : ∀ t, p t = true → t.kind.isMark = true)
    (ts : List Token) : ts.countP p = (marks ts).countP p := by
  rw [marks, List.countP_filter]
  refine List.countP_congr fun t _ => ?_
  simp only [Bool.and_eq_true]
  exact ⟨fun holds => ⟨holds, marked t holds⟩, And.left⟩

theorem filterMap_marks (ts : List Token) :
    ts.filterMap Token.task? = (marks ts).filterMap Token.task? := by
  induction ts with
  | nil => rfl
  | cons t ts ih =>
    rw [marks_cons]
    cases marked : t.kind.isMark with
    | true => simp only [List.filterMap_cons, ih, if_true]
    | false =>
      have none : t.task? = none := by
        unfold Token.task?
        split
        · simp_all [Token.Kind.isMark]
        · rfl
      simpa [none] using ih

theorem declaredNames_skip {t : Token} (undeclared : t.declares = false) (ts : List Token) :
    declaredNames (t :: ts) = declaredNames ts := by
  simp [declaredNames, undeclared]

theorem declaredNames_string {word name assign text : Token} (declares : word.declares = true)
    (quoted : text.kind = .string) (more : List Token) :
    declaredNames (word :: name :: assign :: text :: more) =
      declaredNames (name :: assign :: text :: more) := by
  rw [declaredNames]
  simp only [declares, quoted, if_true]

theorem declaredNames_value {word name assign first : Token} (declares : word.declares = true)
    (unquoted : first.kind ≠ .string) (more : List Token) :
    declaredNames (word :: name :: assign :: first :: more) =
      name.text :: declaredNames (name :: assign :: first :: more) := by
  rw [declaredNames]
  simp only [declares, unquoted, if_true, if_false]

theorem declaredNames_silent (used : List Token) (silent : ∀ t ∈ marks used, t.declares = false)
    (more : List Token) : declaredNames (used ++ more) = declaredNames more := by
  induction used with
  | nil => rfl
  | cons t used ih =>
    have undeclared : t.declares = false := by
      cases declares : t.declares with
      | false => rfl
      | true =>
        have marked : t.kind.isMark = true := by rw [eq_of_beq declares]; rfl
        have := silent t (by simp [marks_cons, marked])
        rw [declares] at this
        contradiction
    rw [List.cons_append, declaredNames_skip undeclared]
    refine ih fun t' member => silent t' ?_
    rw [marks_cons]
    split
    · exact List.mem_cons_of_mem t member
    · exact member

private theorem undeclaring_of {t : Token} {kind : Token.Kind} (is : t.kind = kind)
    (other : kind ≠ .keyword .specparam) : t.declares = false := by
  simpa [Token.declares, is] using other

private theorem marks_keep {t : Token} {used : List Token} (marked : t.kind.isMark = true) :
    marks (t :: used) = t :: marks used := by
  simp [marks_cons, marked]

private theorem marks_drop {t : Token} {used : List Token} (plain : t.kind.isMark = false) :
    marks (t :: used) = marks used := by
  simp [marks_cons, plain]

/-- Only a specparam declares a name. -/
theorem ItemMarks.undeclaring {found : List Token} {item : TimingItem} (marks : ItemMarks found item)
    (cell : item.sort ≠ none) : ∀ t ∈ found, t.declares = false := by
  have arrow {t : Token} (leads : t.kind.isPath = true) : t.declares = false := by
    cases declares : t.declares with
    | false => rfl
    | true =>
      rw [eq_of_beq declares] at leads
      contradiction
  cases marks with
  | check named => exact List.forall_mem_singleton.mpr (undeclaring_of named nofun)
  | path leads => exact List.forall_mem_singleton.mpr (arrow leads)
  | conditioned opens leads | ifnone opens leads =>
    exact List.forall_mem_cons.mpr
      ⟨undeclaring_of opens (by decide), List.forall_mem_singleton.mpr (arrow leads)⟩
  | string | value => exact absurd rfl cell

theorem ItemTokens.of_marks {used : List Token} {item : TimingItem}
    (found : ItemMarks (CellTiming.marks used) item) (cell : item.sort ≠ none) :
    ItemTokens used item where
  marks := found
  names more := by
    have nothing : item.declared = [] := by
      cases item with
      | specparam => exact absurd rfl cell
      | check | path | conditioned | ifnone => rfl
    rw [declaredNames_silent used (found.undeclaring cell), nothing, List.nil_append]

section Specparams

variable {word name assign : Token} (opens : word.kind = .keyword .specparam)
  (nameKind : name.kind = .name) (assignKind : assign.kind = .symbol .assign)

include opens nameKind assignKind

theorem itemTokens_string {text semicolon : Token} (textKind : text.kind = .string)
    (semicolonKind : semicolon.kind = .symbol .semicolon) (line : Nat) :
    ItemTokens [word, name, assign, text, semicolon] (.specparam line name.text none) := by
  have found : marks [name, assign, text, semicolon] = [text] := by
    simp [marks_cons, nameKind, assignKind, textKind, semicolonKind, Token.Kind.isMark]
  refine ⟨?_, fun more => ?_⟩
  · rw [marks_keep (by rw [opens]; rfl), found]
    exact .string opens textKind
  · refine (declaredNames_string (by simp [Token.declares, opens]) textKind (semicolon :: more)).trans ?_
    refine declaredNames_silent [name, assign, text, semicolon] ?_ more
    simpa [found] using undeclaring_of textKind (by decide)

theorem itemTokens_value {first : Token} {others : List Token} (quiet : marks (first :: others) = [])
    (unquoted : first.kind ≠ .string) (line : Nat) (value : Number) :
    ItemTokens (word :: name :: assign :: first :: others)
      (.specparam line name.text (some value)) := by
  have found : marks (name :: assign :: first :: others) = [] := by
    rw [marks_drop (by rw [nameKind]; rfl), marks_drop (by rw [assignKind]; rfl), quiet]
  refine ⟨?_, fun more => ?_⟩
  · rw [marks_keep (by rw [opens]; rfl), found]
    exact .value opens
  · refine (declaredNames_value (by simp [Token.declares, opens]) unquoted (others ++ more)).trans ?_
    have silent := declaredNames_silent (name :: assign :: first :: others) (by simp [found]) more
    exact congrArg (name.text :: ·) silent

end Specparams

namespace Grammar

theorem specparam_tokens (table : Specparams) {t : Token} (opens : t.kind = .keyword .specparam) :
    (specparam table).Takes fun used item => ItemTokens (t :: used) item := by
  intro ts item rest ok
  obtain ⟨name, afterName, named, assignment⟩ := Rule.run_bind_ok.mp ok
  obtain ⟨rfl, nameKind⟩ := TokenRule.take_run.mp named
  obtain ⟨_, afterAssign, assigned, content⟩ := Rule.run_bind_ok.mp assignment
  obtain ⟨assign, rfl, assignKind⟩ := TokenRule.expect_run.mp assigned
  obtain ⟨text, afterText, quoted, ending⟩ := Rule.run_bind_ok.mp content
  rcases TokenRule.take?_run.mp quoted with ⟨text, rfl, rfl, textKind⟩ | ⟨rfl, rfl, unquoted⟩
  · obtain ⟨_, afterSemicolon, ended, finish⟩ := Rule.run_bind_ok.mp ending
    obtain ⟨semicolon, rfl, semicolonKind⟩ := TokenRule.expect_run.mp ended
    cases finish
    exact ⟨[name, assign, text, semicolon], rfl,
      itemTokens_string opens nameKind assignKind textKind semicolonKind name.line⟩
  · obtain ⟨value, afterValue, computed, closing⟩ := Rule.run_bind_ok.mp ending
    obtain ⟨used, rfl, quiet⟩ := quiet_constant table _ _ _ computed
    obtain ⟨_, afterSemicolon, ended, finish⟩ := Rule.run_bind_ok.mp closing
    obtain ⟨semicolon, rfl, semicolonKind⟩ := TokenRule.expect_run.mp ended
    cases finish
    have silent : marks (used ++ [semicolon]) = [] := by
      rw [marks_append, quiet, marks_drop (by rw [semicolonKind]; rfl)]
      rfl
    -- The value has a first token, though it may be the semicolon for all that is known here.
    obtain ⟨first, others, same, unquotedFirst⟩ :
        ∃ first others, used ++ [semicolon] = first :: others ∧ first.kind ≠ .string := by
      cases used with
      | nil => exact ⟨semicolon, [], rfl, by simp [semicolonKind]⟩
      | cons first tail => exact ⟨first, tail ++ [semicolon], rfl, unquoted first _ rfl⟩
    refine ⟨name :: assign :: (used ++ [semicolon]), by simp, ?_⟩
    rw [same] at silent ⊢
    exact itemTokens_value opens nameKind assignKind silent unquotedFirst name.line value

/-- What follows the first token of an item adds its marks to that of the first. -/
theorem Marked.tokens {rule : TokenRule TimingItem} {t : Token}
    (marked : Marked rule fun found item => ItemMarks (marks [t] ++ found) item ∧ item.sort ≠ none) :
    rule.Takes fun used item => ItemTokens (t :: used) item :=
  Rule.Takes.mono marked fun used _ found => .of_marks (marks_append [t] used ▸ found.1) found.2

theorem itemAfter_tokens (table : Specparams) (t : Token) :
    (itemAfter table t).Takes fun used item => ItemTokens (t :: used) item := by
  unfold itemAfter
  split
  case h_1 opens => exact specparam_tokens table opens
  case h_2 opens =>
    have own : marks [t] = [t] := marks_keep (by rw [opens]; rfl)
    refine Marked.tokens ((quiet_expect rfl).bind fun _ => (quiet_condition table).bind fun _ =>
      (quiet_expect rfl).bind fun _ => (marked_path table).return ?_)
    rintro _ path ⟨arrow, rfl, leads⟩
    refine ⟨?_, nofun⟩
    rw [own]
    exact .conditioned opens leads
  case h_3 opens =>
    have own : marks [t] = [t] := marks_keep (by rw [opens]; rfl)
    refine Marked.tokens ((marked_path table).return ?_)
    rintro _ path ⟨arrow, rfl, leads⟩
    refine ⟨?_, nofun⟩
    rw [own]
    exact .ifnone opens leads
  case h_4 opens =>
    have own : marks [t] = [] := marks_drop (by rw [opens]; rfl)
    refine Marked.tokens ((marked_pathBody table).return ?_)
    rintro _ path ⟨arrow, rfl, leads⟩
    refine ⟨?_, nofun⟩
    rw [own]
    exact .path leads
  case h_5 task opens =>
    have own : marks [t] = [t] := marks_keep (by rw [opens]; rfl)
    have checked : Marked (timingCheck table task) fun found check =>
        found = [] ∧ check.kind ∈ task.kinds :=
      (quiet_timingCheck table task).and (timingCheck_kind table task)
    refine Marked.tokens (checked.return ?_)
    rintro _ check ⟨rfl, kind⟩
    refine ⟨?_, nofun⟩
    rw [own]
    exact .check opens kind
  case h_6 => exact Rule.takes_fail

end Grammar

end Items

section Growth

theorem Grows.refl (timing : ModuleTiming) : Grows [] timing timing where
  checks := ⟨[], by simp, .nil⟩
  conditioned := rfl
  arrows := rfl
  specparams := rfl
  names := ⟨[], by simp, fun _ => rfl⟩

theorem Grows.append {used more : List Token} {before middle after : ModuleTiming}
    (first : Grows used before middle) (second : Grows more middle after) :
    Grows (used ++ more) before after where
  checks := by
    obtain ⟨left, same, found⟩ := first.checks
    obtain ⟨right, same', found'⟩ := second.checks
    refine ⟨left ++ right, by rw [same', same, List.append_assoc], ?_⟩
    rw [List.filterMap_append]
    exact List.rel_append found found'
  conditioned := by
    rw [second.conditioned, first.conditioned, List.countP_append, Nat.add_assoc]
  arrows := by
    rw [second.arrows, first.arrows, List.countP_append, Nat.add_assoc]
  specparams := by
    have left := first.specparams
    have right := second.specparams
    rw [List.countP_append, List.countP_append]
    omega
  names := by
    obtain ⟨left, same, found⟩ := first.names
    obtain ⟨right, same', found'⟩ := second.names
    refine ⟨left ++ right, by rw [same', same, List.append_assoc], fun rest => ?_⟩
    rw [List.append_assoc, found, found', List.append_assoc]

theorem Counts.of_marks {used : List Token} {before after : ModuleTiming}
    (counts : Counts (marks used) before after) : Counts used before after where
  checks := by
    rw [filterMap_marks]
    exact counts.checks
  conditioned := by
    rw [countP_marks]
    · exact counts.conditioned
    · intro t holds
      simp only [Token.opensConditioned, Bool.or_eq_true, beq_iff_eq] at holds
      rcases holds with same | same <;> rw [same] <;> rfl
  arrows := by
    rw [countP_marks]
    · exact counts.arrows
    · intro t holds
      simp only [Token.Kind.isPath, Bool.or_eq_true, beq_iff_eq] at holds
      rcases holds with same | same <;> rw [same] <;> rfl
  specparams := by
    have string (t : Token) (holds : (t.kind == .string) = true) : t.kind.isMark = true := by
      rw [eq_of_beq holds]
      rfl
    have declares (t : Token) (holds : t.declares = true) : t.kind.isMark = true := by
      rw [eq_of_beq holds]
      rfl
    rw [countP_marks string, countP_marks declares]
    exact counts.specparams

theorem grows_quiet {used : List Token} (quiet : marks used = []) (timing : ModuleTiming) :
    Grows used timing timing where
  toCounts := by
    refine .of_marks ?_
    rw [quiet]
    exact (Grows.refl timing).toCounts
  names := ⟨[], by simp, declaredNames_silent used (by simp [quiet])⟩

theorem insert_paths_length (path : Path) (groups : List PathGroup) :
    ((PathIndex.insert path groups).flatMap (·.paths)).length =
      (groups.flatMap (·.paths)).length + 1 := by
  induction groups with
  | nil => rfl
  | cons group groups ih =>
    rw [PathIndex.insert]
    split
    · simp only [List.flatMap_cons, List.length_append, List.length_singleton]
      omega
    · simp only [List.flatMap_cons, List.length_append, ih]
      omega

theorem push_paths_length (index : PathIndex) (path : Path) :
    (index.push path).paths.length = index.paths.length + 1 :=
  insert_paths_length path index.groups

theorem declared_add {item : TimingItem} {before after : ModuleTiming}
    (added : before.add item = .ok after) :
    after.specparams.map (·.1) = before.specparams.map (·.1) ++ item.declared := by
  cases Grammar.adds_of_ok added with
  | value => exact List.map_append
  | string | check | path | conditioned | ifnone => exact (List.append_nil _).symm

private theorem arrow_cases {t : Token} (leads : t.kind.isPath = true) :
    t.kind = .symbol .parallelPath ∨ t.kind = .symbol .fullPath := by
  simpa [Token.Kind.isPath] using leads

theorem counts_push {word leading : Token}
    (opens : word.kind = .keyword .conditional ∨ word.kind = .keyword .ifnone)
    (leads : leading.kind.isPath = true) (before : ModuleTiming) (path : Path) :
    Counts [word, leading] before
      { before with conditioned := before.conditioned.push path } := by
  refine ⟨⟨[], by simp, ?_⟩, ?_, ?_, ?_⟩ <;>
    rcases opens with opens | opens <;> rcases arrow_cases leads with leads | leads <;>
    simp [push_paths_length, Token.task?, Token.opensConditioned, Token.declares,
      Token.Kind.isPath, opens, leads, Nat.add_assoc]

/-- The marks of an item count as the one entry it adds. -/
theorem counts_add {found : List Token} {item : TimingItem} {before after : ModuleTiming}
    (marks : ItemMarks found item) (added : before.add item = .ok after) :
    Counts found before after := by
  cases marks with
  | @check t task check named kind =>
    cases added
    refine ⟨⟨[check], rfl, ?_⟩, ?_, ?_, ?_⟩
    · simpa [Token.task?, named] using kind
    · simp [Token.opensConditioned, named]
    · simp [Token.Kind.isPath, named]
    · simp [Token.declares, named]
  | path leads =>
    cases added
    refine ⟨⟨[], by simp, ?_⟩, ?_, ?_, ?_⟩ <;>
      rcases arrow_cases leads with leads | leads <;>
      simp [Token.task?, Token.opensConditioned, Token.declares, Token.Kind.isPath, leads]
    all_goals omega
  | @conditioned word arrow condition path opens leads =>
    cases added
    exact counts_push (.inl opens) leads before _
  | @ifnone word arrow line path opens leads =>
    cases Grammar.adds_of_ok added with
    | ifnone => exact counts_push (.inr opens) leads before _
  | string opens quoted =>
    cases added
    refine ⟨⟨[], by simp, ?_⟩, ?_, ?_, ?_⟩
    · simp [Token.task?, opens, quoted]
    · simp [Token.opensConditioned, opens, quoted]
    · simp [Token.Kind.isPath, opens, quoted]
    · simp [Token.declares, opens, quoted]
  | value opens =>
    cases Grammar.adds_of_ok added with
    | value =>
      refine ⟨⟨[], by simp, ?_⟩, ?_, ?_, ?_⟩
      · simp [Token.task?, opens]
      · simp [Token.opensConditioned, opens]
      · simp [Token.Kind.isPath, opens]
      · simp [Token.declares, opens]

theorem grows_add {used : List Token} {item : TimingItem} {before after : ModuleTiming}
    (tokens : ItemTokens used item) (added : before.add item = .ok after) :
    Grows used before after where
  toCounts := (counts_add tokens.marks added).of_marks
  names := ⟨item.declared, declared_add added, tokens.names⟩

end Growth

namespace Grammar

theorem ItemsRun.grows {timing final : ModuleTiming} {ts left : List Token}
    (run : ItemsRun timing ts final left) :
    ∃ used, ts = used ++ left ∧ Grows used timing final := by
  induction run with
  | @ending timing t rest ends =>
    refine ⟨[t], rfl, grows_quiet ?_ timing⟩
    simp [marks_cons, ends, Token.Kind.isMark]
  | @item timing t rest item after extended final left _ read added _ ih =>
    obtain ⟨used, rfl, tokens⟩ := itemAfter_tokens timing.specparams t rest item after read
    obtain ⟨more, rfl, grows⟩ := ih
    exact ⟨(t :: used) ++ more, by simp, (grows_add tokens added).append grows⟩

theorem GroupsRun.grows {timing final : ModuleTiming} {ts : List Token}
    (run : GroupsRun timing ts final) :
    ∃ used left, ts = used ++ left ∧ atEnd left = true ∧ Grows used timing final := by
  have opening {t : Token} (opens : t.kind = .keyword .specify) : marks [t] = [] := by
    simp [marks_cons, opens, Token.Kind.isMark]
  induction run with
  | @last timing t rest gathered after opens items ends =>
    obtain ⟨used, rfl, grows⟩ := items.grows
    exact ⟨[t] ++ used, after, by simp, ends, (grows_quiet (opening opens) timing).append grows⟩
  | @more timing t rest gathered after final opens items _ _ ih =>
    obtain ⟨used, rfl, grows⟩ := items.grows
    obtain ⟨others, left, rfl, ends, grows'⟩ := ih
    exact ⟨[t] ++ (used ++ others), left, by simp, ends,
      (grows_quiet (opening opens) timing).append (grows.append grows')⟩

end Grammar

theorem Grows.accounts {ts : List Token} {timing : ModuleTiming} (grows : Grows ts {} timing) :
    Accounts ts timing where
  checks := by
    obtain ⟨more, same, found⟩ := grows.checks
    rw [same]
    exact found
  conditioned := by
    rw [grows.conditioned]
    exact (Nat.zero_add _).symm
  arrows := by
    rw [grows.arrows]
    exact (Nat.zero_add _).symm
  specparams := by
    rw [grows.specparams]
    exact (Nat.zero_add _).symm
  names := by
    obtain ⟨declared, same, found⟩ := grows.names
    have all := found []
    rw [List.append_nil] at all
    rw [same, all]
    exact (List.append_nil _).symm

/-- Nothing follows the first mark of the end. -/
def EndsOnce (ts : List Token) : Prop :=
  ∀ used left, ts = used ++ left → Grammar.atEnd left = true → ∀ t ∈ left, t.kind = .endOfInput

theorem EndsOnce.suffix {ts : List Token} (front : List Token) (once : EndsOnce (front ++ ts)) :
    EndsOnce ts := by
  rintro used left rfl ends
  exact once (front ++ used) left (List.append_assoc front used left).symm ends

/-- After the last group there is no mark of an item. -/
theorem EndsOnce.marks {ts : List Token} (once : EndsOnce ts) (ends : Grammar.atEnd ts = true) :
    marks ts = [] :=
  List.filter_eq_nil_iff.mpr fun t member => by simp [once [] ts rfl ends t member, Token.Kind.isMark]

theorem endsOnce_of_ofString {text : String} {ts : List Token}
    (tokens : Token.ofString text = .ok ts) : EndsOnce ts := by
  intro used left same ends
  obtain ⟨init, last, whole, _, inner⟩ := Token.tokensFrom_end tokens
  cases left with
  | nil => exact List.forall_mem_nil _
  | cons t after =>
    have kind : t.kind = .endOfInput := eq_of_beq ends
    rcases List.eq_nil_or_concat after with rfl | ⟨between, final, rfl⟩
    · simp [kind]
    · have shorter : init = used ++ t :: between := by
        have parts : init ++ [last] = (used ++ t :: between) ++ [final] := by simp [← whole, same]
        exact (List.append_inj' parts rfl).1
      exact absurd kind (inner t (by simp [shorter]))

/-- The tokens of an accepted text, its groups and the end after the last one. -/
theorem groupsRun_of_ofBlock {text : String} {timing : ModuleTiming}
    (ok : ModuleTiming.ofBlock text = .ok timing) :
    ∃ ts, Token.ofString text = .ok ts ∧ Grammar.GroupsRun {} ts timing ∧ EndsOnce ts := by
  cases tokens : Token.ofString text with
  | error e =>
    rw [ModuleTiming.ofBlock, tokens] at ok
    cases ok
  | ok ts =>
    rw [ModuleTiming.ofBlock, tokens] at ok
    exact ⟨ts, rfl, Grammar.groupsRun_of_ok ok, endsOnce_of_ofString tokens⟩

/-- A latch whose block has items of every kind. -/
private def latch : String := "
  specify
    specparam title = \"latch\";
    specparam delay = 3 - 1;
    (G => Q) = delay;
    if (D & !R) (G *> Q) = 2;
    ifnone (G => Q) = (3, 4);
    $setup(D, negedge G &&& R, 1);
    $recovery(R, G, 1);
    $recovery(R, G, 1, 2, N, , D, , );
  endspecify"

/-- Every item of a text is in its timing exactly once and in order. -/
theorem ofBlock_accounts (text : String) (timing : ModuleTiming)
    (ok : ModuleTiming.ofBlock text = .ok timing) :
    ∃ ts, Token.ofString text = .ok ts ∧ Accounts ts timing := by
  obtain ⟨ts, tokens, run, once⟩ := groupsRun_of_ofBlock ok
  obtain ⟨used, left, rfl, ends, grows⟩ := run.grows
  refine ⟨_, tokens, Grows.accounts ?_⟩
  exact grows.append (grows_quiet ((once.suffix used).marks ends) timing)

theorem ofBlock_accounts_latch :
    ∃ timing ts, ModuleTiming.ofBlock latch = .ok timing ∧ Token.ofString latch = .ok ts ∧
      Accounts ts timing ∧ timing.checks.map (·.kind) = [.setup, .recovery, .recrem] ∧
      timing.conditioned.paths.length = 2 := by
  have read : (ModuleTiming.ofBlock latch).toOption.map (fun timing =>
      (timing.checks.map (·.kind), timing.conditioned.paths.length)) =
      some ([.setup, .recovery, .recrem], 2) := by
    decide +kernel
  obtain ⟨timing, found, counted⟩ := exists_ok_of_toOption read
  obtain ⟨ts, tokens, accounts⟩ := ofBlock_accounts latch timing found
  exact ⟨timing, ts, found, tokens, accounts, Prod.mk.inj counted⟩

end CellTiming
