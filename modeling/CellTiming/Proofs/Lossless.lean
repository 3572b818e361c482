import CellTiming.Liberty.Text
import CellTiming.Proofs.Alphabet
import Mathlib.Data.List.Forall2
import Mathlib.Data.List.Nodup

/-! What Liberty text tells of a library. Every line says what it is before the first thing
that is written as it stands, and a line ends the group it is in only by its brace; so where
no name and no condition breaks a line, the text gives the library back up to the written
form of its numbers. -/
namespace CellTiming.Liberty

section Lines

/-- Words of small letters and underscores: the names of attributes and kinds of groups. -/
def Label (text : String) : Prop :=
  text.toList ≠ [] ∧ ∀ c ∈ text.toList, (c.isLower || c == '_') = true

instance (text : String) : Decidable (Label text) :=
  decidable_of_iff (text.toList ≠ [] ∧ (text.toList.all fun c => c.isLower || c == '_') = true)
    (by simp only [Label, List.all_eq_true])

/-- A text that breaks no line. -/
def Unbroken (text : String) : Prop := '\n' ∉ text.toList

instance (text : String) : Decidable (Unbroken text) :=
  inferInstanceAs (Decidable ('\n' ∉ text.toList))

variable {text name : String} {c : Char}

theorem Label.notMem (label : Label text) (other : (c.isLower || c == '_') = false) :
    c ∉ text.toList :=
  fun member => absurd (label.2 c member) (by rw [other]; exact Bool.false_ne_true)

theorem Label.append (label : Label text) (more : Label name) : Label (text ++ name) := by
  rw [Label, String.toList_append]
  refine ⟨fun none => label.1 (List.append_eq_nil_iff.mp none).1, ?_⟩
  exact List.forall_mem_append.mpr ⟨label.2, more.2⟩

namespace Statement

/-- The line that a statement starts with, without its margin. -/
def heading : Statement → List Char
  | simple name value => name.toList ++ ' ' :: ':' :: ' ' :: (value.toList ++ [' ', ';'])
  | quoted name value =>
    name.toList ++ ' ' :: ':' :: ' ' :: '"' :: (value.toList ++ ['"', ' ', ';'])
  | group kind name _ => kind.toList ++ ' ' :: '(' :: (name.toList ++ [')', ' ', '\x7b'])

/-- The statement without what is inside it. -/
def shell : Statement → Statement
  | simple name value => simple name value
  | quoted name value => quoted name value
  | group kind name _ => group kind name []

/-- Statements whose heading says what it is and takes one line. -/
inductive Legible : Statement → Prop
  | simple {name value : String} (label : Label name) (line : Unbroken value)
      (bare : value.toList.head? ≠ some '"') : Legible (.simple name value)
  | quoted {name value : String} (label : Label name) (line : Unbroken value) :
    Legible (.quoted name value)
  | group {kind name : String} {body : List Statement} (label : Label kind)
      (line : Unbroken name) (inside : ∀ statement ∈ body, Legible statement) :
    Legible (.group kind name body)

variable {s s' : Statement}

theorem Legible.heading_line (legible : Legible s) : '\n' ∉ s.heading := by
  cases legible with
  | simple label line _ | quoted label line | group label line _ =>
    have other := label.notMem (by decide : ('\n'.isLower || '\n' == '_') = false)
    simpa [heading, other, Unbroken] using line

/-- A heading starts with a word before a blank. -/
theorem Legible.heading_start (legible : Legible s) :
    ∃ label rest, Label label ∧ s.heading = label.toList ++ ' ' :: rest := by
  cases legible with
  | simple label | quoted label | group label => exact ⟨_, _, label, rfl⟩

theorem bare_ne {value rest : List Char} (bare : value.head? ≠ some '"') :
    value ++ [' ', ';'] ≠ '"' :: rest := by
  cases value with
  | nil => simp
  | cons c cs => exact fun same => bare (congrArg some (List.cons.inj same).1)

/-- Past its first word a heading shows what kind of statement it starts. -/
theorem shell_of_heading (legible : Legible s) (legible' : Legible s')
    (same : s.heading = s'.heading) : s.shell = s'.shell := by
  have blank : (' '.isLower || ' ' == '_') = false := by decide
  cases legible with
  | @simple name value label _ bare =>
    cases legible' with
    | simple label' =>
      obtain ⟨word, rest⟩ := eq_of_first (label.notMem blank) (label'.notMem blank) same
      simp only [List.cons.injEq, true_and, List.append_cancel_right_eq] at rest
      rw [String.toList_inj.mp word, String.toList_inj.mp rest]
    | quoted label' =>
      obtain ⟨_, rest⟩ := eq_of_first (label.notMem blank) (label'.notMem blank) same
      simp only [List.cons.injEq, true_and] at rest
      exact absurd rest (bare_ne bare)
    | group label' =>
      obtain ⟨_, rest⟩ := eq_of_first (label.notMem blank) (label'.notMem blank) same
      simp at rest
  | quoted label =>
    cases legible' with
    | @simple name value label' _ bare =>
      obtain ⟨_, rest⟩ := eq_of_first (label.notMem blank) (label'.notMem blank) same
      simp only [List.cons.injEq, true_and] at rest
      exact absurd rest.symm (bare_ne bare)
    | quoted label' =>
      obtain ⟨word, rest⟩ := eq_of_first (label.notMem blank) (label'.notMem blank) same
      simp only [List.cons.injEq, true_and, List.append_cancel_right_eq] at rest
      rw [String.toList_inj.mp word, String.toList_inj.mp rest]
    | group label' =>
      obtain ⟨_, rest⟩ := eq_of_first (label.notMem blank) (label'.notMem blank) same
      simp at rest
  | group label =>
    cases legible' with
    | simple label' | quoted label' =>
      obtain ⟨_, rest⟩ := eq_of_first (label.notMem blank) (label'.notMem blank) same
      simp at rest
    | group label' =>
      obtain ⟨word, rest⟩ := eq_of_first (label.notMem blank) (label'.notMem blank) same
      simp only [List.cons.injEq, true_and, List.append_cancel_right_eq] at rest
      rw [shell, shell, String.toList_inj.mp word, String.toList_inj.mp rest]

end Statement

end Lines

namespace Statement

section Text

variable {indent depth : Nat} {s s' : Statement} {rest rest' : List Char}

/-- The margin of a line. -/
def blanks (width : Nat) : List Char := List.replicate width ' '

/-- What is written of a statement below its heading. -/
def inner (indent depth : Nat) : Statement → List Char
  | simple .. | quoted .. => []
  | group _ _ body =>
    (bodyText indent (depth + 1) body).toList ++ (blanks (depth * indent) ++ ['\x7d', '\n'])

theorem toList_text (s : Statement) :
    (text indent depth s).toList =
      blanks (depth * indent) ++ (s.heading ++ '\n' :: inner indent depth s) := by
  cases s <;> simp [text, indented, heading, inner, blanks, toString]

/-- The text of a statement gives the statement and what follows it. -/
def Determined (indent : Nat) (s : Statement) : Prop :=
  ∀ {s' : Statement} {depth : Nat} {rest rest' : List Char}, Legible s' →
    (text indent depth s).toList ++ rest = (text indent depth s').toList ++ rest' →
    s = s' ∧ rest = rest'

/-- The line that ends a group starts no statement inside it. -/
theorem closing_ne_text (legible : Legible s) :
    blanks (depth * indent) ++ '\x7d' :: rest ≠ (text indent (depth + 1) s).toList ++ rest' := by
  intro same
  obtain ⟨label, more, word, start⟩ := legible.heading_start
  rw [toList_text, start, Nat.succ_mul, blanks, blanks, List.replicate_add, List.append_assoc,
    List.append_assoc, List.append_cancel_left_eq] at same
  cases indent with
  | succ => simp [List.replicate_succ] at same
  | zero =>
    cases letters : label.toList with
    | nil => exact word.1 letters
    | cons c cs =>
      have brace : '\x7d' = c := by
        rw [letters] at same
        simpa using (List.cons.inj same).1
      have letter := word.2 c (by rw [letters]; exact List.mem_cons_self)
      rw [← brace] at letter
      exact absurd letter (by decide)

theorem body_determined {body body' : List Statement} (each : ∀ s ∈ body, Determined indent s)
    (legible : ∀ s ∈ body, Legible s) (legible' : ∀ s ∈ body', Legible s)
    (same : (bodyText indent (depth + 1) body).toList ++
        (blanks (depth * indent) ++ '\x7d' :: rest) =
      (bodyText indent (depth + 1) body').toList ++
        (blanks (depth * indent) ++ '\x7d' :: rest')) :
    body = body' ∧ rest = rest' := by
  induction body generalizing body' with
  | nil =>
    cases body' with
    | nil => exact ⟨rfl, by simpa [bodyText] using same⟩
    | cons s' others =>
      simp only [bodyText, String.toList_append, List.append_assoc] at same
      exact absurd same (closing_ne_text (legible' s' List.mem_cons_self))
  | cons s statements ih =>
    cases body' with
    | nil =>
      simp only [bodyText, String.toList_append, List.append_assoc] at same
      exact absurd same.symm (closing_ne_text (legible s List.mem_cons_self))
    | cons s' others =>
      obtain ⟨first, later⟩ := List.forall_mem_cons.mp each
      obtain ⟨here', later'⟩ := List.forall_mem_cons.mp legible'
      simp only [bodyText, String.toList_append, List.append_assoc] at same
      obtain ⟨rfl, left⟩ := first here' same
      obtain ⟨rfl, end'⟩ := ih later (fun t member => legible t (List.mem_cons_of_mem _ member))
        later' left
      exact ⟨rfl, end'⟩

theorem Legible.determined (legible : Legible s) : Determined indent s := by
  induction legible with
  | @simple name value label line bare =>
    intro s' depth rest rest' legible' same
    have own : Legible (.simple name value) := .simple label line bare
    simp only [toList_text, List.append_assoc, List.cons_append,
      List.append_cancel_left_eq] at same
    obtain ⟨heading, below⟩ := eq_of_first own.heading_line legible'.heading_line same
    have shell := shell_of_heading own legible' heading
    cases legible' <;> simp_all [Statement.shell, inner]
  | @quoted name value label line =>
    intro s' depth rest rest' legible' same
    have own : Legible (.quoted name value) := .quoted label line
    simp only [toList_text, List.append_assoc, List.cons_append,
      List.append_cancel_left_eq] at same
    obtain ⟨heading, below⟩ := eq_of_first own.heading_line legible'.heading_line same
    have shell := shell_of_heading own legible' heading
    cases legible' <;> simp_all [Statement.shell, inner]
  | @group kind name body label line inside each =>
    intro s' depth rest rest' legible' same
    have own : Legible (.group kind name body) := .group label line inside
    simp only [toList_text, List.append_assoc, List.cons_append,
      List.append_cancel_left_eq] at same
    obtain ⟨heading, below⟩ := eq_of_first own.heading_line legible'.heading_line same
    have shell := shell_of_heading own legible' heading
    cases legible' with
    | simple | quoted => simp [Statement.shell] at shell
    | @group kind' name' body' _ _ inside' =>
      simp only [Statement.shell, group.injEq, and_true] at shell
      obtain ⟨rfl, rfl⟩ := shell
      simp only [inner, List.append_assoc, List.cons_append, List.nil_append] at below
      obtain ⟨rfl, left⟩ := body_determined each inside inside' below
      exact ⟨rfl, (List.cons.inj left).2⟩

theorem text_inj (legible : Legible s) (legible' : Legible s') :
    text indent depth s = text indent depth s' ↔ s = s' := by
  refine ⟨fun same => ?_, fun same => by rw [same]⟩
  have whole : (text indent depth s).toList ++ [] = (text indent depth s').toList ++ [] := by
    rw [same]
  exact (legible.determined legible' whole).1

end Text

end Statement

section Likeness

/-- Numbers that are written alike. -/
def SameNumber (x y : Float) : Prop := Decimal.plain x = Decimal.plain y

/-- Values of one shape, with numbers that are written alike. -/
def Intrinsic.Alike : Intrinsic → Intrinsic → Prop
  | single x, single y => SameNumber x y
  | range least nominal greatest, range least' nominal' greatest' =>
    SameNumber least least' ∧ SameNumber nominal nominal' ∧ SameNumber greatest greatest'
  | _, _ => False

structure TimingGroup.Alike (g g' : TimingGroup) : Prop where
  relatedPin : g.relatedPin = g'.relatedPin
  when : g.when = g'.when
  timingType : g.timingType = g'.timingType
  rise : Option.Rel Intrinsic.Alike g.rise g'.rise
  fall : Option.Rel Intrinsic.Alike g.fall g'.fall

structure MinimumPeriod.Alike (p p' : MinimumPeriod) : Prop where
  when : p.when = p'.when
  least : SameNumber p.least p'.least
  typical : SameNumber p.typical p'.typical
  greatest : SameNumber p.greatest p'.greatest

structure Pin.Alike (pin pin' : Pin) : Prop where
  timing : List.Forall₂ TimingGroup.Alike pin.timing pin'.timing
  minimumPeriod : List.Forall₂ MinimumPeriod.Alike pin.minimumPeriod pin'.minimumPeriod
  pulseWidthLow : Option.Rel SameNumber pin.pulseWidthLow pin'.pulseWidthLow
  pulseWidthHigh : Option.Rel SameNumber pin.pulseWidthHigh pin'.pulseWidthHigh

structure Cell.Alike (cell cell' : Cell) : Prop where
  name : cell.name = cell'.name
  pins : List.Forall₂ (fun a b => a.1 = b.1 ∧ a.2.Alike b.2) cell.pins cell'.pins

structure Library.Alike (library library' : Library) : Prop where
  name : library.name = library'.name
  cells : List.Forall₂ Cell.Alike library.cells library'.cells

def TimingGroup.texts (g : TimingGroup) : List String := g.relatedPin :: g.when.toList

def Pin.texts (pin : Pin) : List String :=
  pin.timing.flatMap TimingGroup.texts ++ pin.minimumPeriod.flatMap (·.when.toList)

def Cell.texts (cell : Cell) : List String :=
  cell.name :: cell.pins.flatMap fun (name, pin) => name :: pin.texts

/-- The names and conditions of a library. -/
def Library.texts (library : Library) : List String :=
  library.name :: library.cells.flatMap Cell.texts

end Likeness

section Legible

open Statement

variable {name : String}

theorem unbroken_plain (x : Float) : Unbroken (Decimal.plain x) :=
  fun member => absurd (Decimal.within_plain x _ member) (by decide)

theorem legible_number (label : Label name) (x : Float) : Legible (.number name x) := by
  refine .simple label (unbroken_plain x) fun quote => ?_
  exact absurd (Decimal.within_plain x _ (List.mem_of_head? quote)) (by decide)

theorem legible_number? (label : Label name) (value : Option Float) :
    ∀ s ∈ number? name value, Legible s := by
  intro s member
  obtain ⟨x, -, rfl⟩ := by simpa [number?] using member
  exact legible_number label x

theorem legible_quoted? (label : Label name) {value : Option String}
    (unbroken : ∀ text ∈ value.toList, Unbroken text) : ∀ s ∈ quoted? name value, Legible s := by
  intro s member
  obtain ⟨text, found, rfl⟩ := by simpa [quoted?] using member
  exact .quoted label (unbroken text (by simp [found]))

theorem legible_timingType (kind : Option TimingType) :
    ∀ s ∈ (kind.map fun t => Statement.simple "timing_type" t.spelling).toList, Legible s := by
  intro s member
  obtain ⟨t, -, rfl⟩ := by simpa using member
  have word : Label t.spelling := by
    rcases t with (_ | _) | ⟨_ | _ | _ | _ | _, _ | _⟩ <;> decide
  exact .simple (by decide) (word.notMem (by decide)) fun quote =>
    word.notMem (by decide) (List.mem_of_head? quote)

theorem legible_intrinsic (label : Label name) (value : Option Intrinsic) :
    ∀ s ∈ Intrinsic.statements name value, Legible s := by
  intro s member
  have lower : Label (name ++ "_min") := label.append (by decide)
  have upper : Label (name ++ "_max") := label.append (by decide)
  cases value with
  | none => cases member
  | some value =>
    cases value with
    | single x =>
      obtain rfl := List.mem_singleton.mp member
      exact legible_number label x
    | range least nominal greatest =>
      simp only [Intrinsic.statements, Intrinsic.attributes, List.map_cons, List.map_nil,
        List.mem_cons, List.not_mem_nil, or_false] at member
      rcases member with rfl | rfl | rfl
      · exact legible_number lower least
      · exact legible_number label nominal
      · exact legible_number upper greatest

theorem TimingGroup.legible {g : TimingGroup} (unbroken : ∀ text ∈ g.texts, Unbroken text) :
    Legible g.statement := by
  obtain ⟨related, condition⟩ := List.forall_mem_cons.mp unbroken
  refine .group (by decide) (by decide) ?_
  simp only [List.forall_mem_append]
  refine ⟨⟨⟨⟨?_, legible_quoted? (by decide) condition⟩, legible_timingType g.timingType⟩,
    legible_intrinsic (by decide) g.rise⟩, legible_intrinsic (by decide) g.fall⟩
  exact List.forall_mem_singleton.mpr (.quoted (by decide) related)

theorem MinimumPeriod.legible {p : MinimumPeriod}
    (unbroken : ∀ text ∈ p.when.toList, Unbroken text) : Legible p.statement := by
  refine .group (by decide) (by decide) ?_
  simp only [List.forall_mem_append, List.forall_mem_cons]
  exact ⟨legible_quoted? (by decide) unbroken, legible_number (by decide) _,
    legible_number (by decide) _, legible_number (by decide) _, List.forall_mem_nil _⟩

theorem Pin.legible {pin : Pin} (line : Unbroken name)
    (unbroken : ∀ text ∈ pin.texts, Unbroken text) : Legible (pin.statement name) := by
  simp only [texts, List.mem_append, List.mem_flatMap] at unbroken
  refine .group (by decide) line ?_
  simp only [List.forall_mem_append, List.forall_mem_map]
  refine ⟨⟨⟨fun g member => ?_, fun p member => ?_⟩, legible_number? (by decide) _⟩,
    legible_number? (by decide) _⟩
  · exact g.legible fun text inside => unbroken text (.inl ⟨g, member, inside⟩)
  · exact p.legible fun text inside => unbroken text (.inr ⟨p, member, inside⟩)

theorem Cell.legible {cell : Cell} (unbroken : ∀ text ∈ cell.texts, Unbroken text) :
    Legible cell.statement := by
  obtain ⟨line, unbroken⟩ := List.forall_mem_cons.mp unbroken
  refine .group (by decide) line (List.forall_mem_map.mpr fun entry member => ?_)
  have parts : ∀ text ∈ entry.1 :: entry.2.texts, Unbroken text := fun text inside =>
    unbroken text (List.mem_flatMap.mpr ⟨entry, member, inside⟩)
  obtain ⟨line, inside⟩ := List.forall_mem_cons.mp parts
  exact entry.2.legible line inside

theorem Library.legible {library : Library} (unbroken : ∀ text ∈ library.texts, Unbroken text) :
    Legible library.statement := by
  obtain ⟨line, unbroken⟩ := List.forall_mem_cons.mp unbroken
  refine .group (by decide) line (List.forall_mem_map.mpr fun cell member => ?_)
  exact cell.legible fun text inside => unbroken text (List.mem_flatMap.mpr ⟨cell, member, inside⟩)

end Legible

section Parts

open Statement

/-- The name of an attribute or the kind of a group. -/
def Statement.label : Statement → String
  | simple name _ | quoted name _ => name
  | group kind _ _ => kind

/-- Statements that are all among the given ones. -/
def Among (labels : List String) (statements : List Statement) : Prop :=
  ∀ s ∈ statements, s.label ∈ labels

variable {labels others : List String} {first first' second second' : List Statement}
  {name : String}

theorem Among.append (front : Among labels first) (back : Among others second) :
    Among (labels ++ others) (first ++ second) :=
  List.forall_mem_append.mpr ⟨fun s member => List.mem_append_left _ (front s member),
    fun s member => List.mem_append_right _ (back s member)⟩

/-- Parts with different labels are told apart where they meet. -/
theorem parts_eq_iff (front : Among labels first) (front' : Among labels first')
    (back : Among others second) (back' : Among others second')
    (apart : ∀ label ∈ others, label ∉ labels) :
    first ++ second = first' ++ second' ↔ first = first' ∧ second = second' := by
  refine ⟨fun same => ?_, fun ⟨left, right⟩ => by rw [left, right]⟩
  have kept : ∀ {part : List Statement}, Among labels part →
      part.filter (fun s => labels.contains s.label) = part := fun inside =>
    List.filter_eq_self.mpr fun s member => List.contains_iff_mem.mpr (inside s member)
  have dropped : ∀ {part : List Statement}, Among others part →
      part.filter (fun s => labels.contains s.label) = [] := fun inside =>
    List.filter_eq_nil_iff.mpr fun s member found =>
      apart _ (inside s member) (List.contains_iff_mem.mp found)
  have filtered := congrArg (List.filter fun s => labels.contains s.label) same
  rw [List.filter_append, List.filter_append, kept front, kept front', dropped back,
    dropped back', List.append_nil, List.append_nil] at filtered
  exact ⟨filtered, List.append_cancel_left (filtered ▸ same)⟩

theorem among_quoted? (value : Option String) : Among [name] (quoted? name value) := by
  cases value <;> simp [Among, quoted?, label]

theorem among_number? (value : Option Float) : Among [name] (number? name value) := by
  cases value <;> simp [Among, number?, number, label]

theorem among_timingType (kind : Option TimingType) :
    Among ["timing_type"] (kind.map fun t => Statement.simple "timing_type" t.spelling).toList := by
  cases kind <;> simp [Among, label]

theorem among_intrinsic (value : Option Intrinsic) :
    Among [name ++ "_min", name, name ++ "_max"] (Intrinsic.statements name value) := by
  rcases value with _ | (_ | _) <;>
    simp [Among, Intrinsic.statements, Intrinsic.attributes, number, label]

end Parts

section Attributes

open Statement

variable {name : String}

theorem number_inj {x y : Float} : number name x = number name y ↔ SameNumber x y := by
  simp [number, SameNumber]

theorem number?_inj {value value' : Option Float} :
    number? name value = number? name value' ↔ Option.Rel SameNumber value value' := by
  cases value <;> cases value' <;> simp [number?, number_inj]

theorem quoted?_inj {value value' : Option String} :
    quoted? name value = quoted? name value' ↔ value = value' := by
  cases value <;> cases value' <;> simp [quoted?]

theorem TimingType.spelling_inj {t t' : TimingType} : t.spelling = t'.spelling ↔ t = t' := by
  refine ⟨fun same => ?_, fun same => by rw [same]⟩
  rcases t with (_ | _) | ⟨_ | _ | _ | _ | _, _ | _⟩ <;>
    rcases t' with (_ | _) | ⟨_ | _ | _ | _ | _, _ | _⟩ <;>
      first | rfl | exact absurd same (by decide)

theorem timingType_inj {kind kind' : Option TimingType} :
    (kind.map fun t => Statement.simple "timing_type" t.spelling).toList =
      (kind'.map fun t => Statement.simple "timing_type" t.spelling).toList ↔ kind = kind' := by
  cases kind <;> cases kind' <;> simp [TimingType.spelling_inj]

theorem intrinsic_inj {value value' : Option Intrinsic} :
    Intrinsic.statements name value = Intrinsic.statements name value' ↔
      Option.Rel Intrinsic.Alike value value' := by
  rcases value with _ | (_ | _) <;> rcases value' with _ | (_ | _) <;>
    simp [Intrinsic.statements, Intrinsic.attributes, Intrinsic.Alike, number_inj]

end Attributes

section Groups

open Statement

theorem map_inj_of {α : Type} {R : α → α → Prop} {statement : α → Statement} {items items' : List α}
    (each : ∀ a b, statement a = statement b ↔ R a b) :
    items.map statement = items'.map statement ↔ List.Forall₂ R items items' := by
  rw [← List.forall₂_eq_eq_eq, List.forall₂_map_left_iff, List.forall₂_map_right_iff]
  simp only [each]

theorem among_groups {α : Type} {kind : String} {statement : α → Statement} (items : List α)
    (each : ∀ a, (statement a).label = kind) : Among [kind] (items.map statement) :=
  List.forall_mem_map.mpr fun a _ => List.mem_singleton.mpr (each a)

theorem TimingGroup.statement_inj (g g' : TimingGroup) :
    g.statement = g'.statement ↔ g.Alike g' := by
  have related (g : TimingGroup) : Among ["related_pin"] [.quoted "related_pin" g.relatedPin] :=
    List.forall_mem_singleton.mpr (List.mem_singleton_self _)
  have condition (g : TimingGroup) : Among ["when"] (quoted? "when" g.when) := among_quoted? g.when
  have typed (g : TimingGroup) := among_timingType g.timingType
  have rise (g : TimingGroup) : Among ["intrinsic_rise_min", "intrinsic_rise", "intrinsic_rise_max"]
      (Intrinsic.statements "intrinsic_rise" g.rise) := among_intrinsic g.rise
  have fall (g : TimingGroup) : Among ["intrinsic_fall_min", "intrinsic_fall", "intrinsic_fall_max"]
      (Intrinsic.statements "intrinsic_fall" g.fall) := among_intrinsic g.fall
  have two (g : TimingGroup) := (related g).append (condition g)
  have three (g : TimingGroup) := (two g).append (typed g)
  have four (g : TimingGroup) := (three g).append (rise g)
  rw [statement, statement, group.injEq,
    parts_eq_iff (four g) (four g') (fall g) (fall g') (by decide),
    parts_eq_iff (three g) (three g') (rise g) (rise g') (by decide),
    parts_eq_iff (two g) (two g') (typed g) (typed g') (by decide),
    parts_eq_iff (related g) (related g') (condition g) (condition g') (by decide),
    quoted?_inj, timingType_inj, intrinsic_inj, intrinsic_inj]
  refine ⟨fun ⟨_, _, ⟨⟨⟨pin, when⟩, kind⟩, rise⟩, fall⟩ =>
      ⟨by simpa using pin, when, kind, rise, fall⟩,
    fun alike => ⟨rfl, rfl, ⟨⟨⟨?_, alike.when⟩, alike.timingType⟩, alike.rise⟩, alike.fall⟩⟩
  rw [alike.relatedPin]

theorem MinimumPeriod.statement_inj (p p' : MinimumPeriod) :
    p.statement = p'.statement ↔ p.Alike p' := by
  have condition (p : MinimumPeriod) : Among ["when"] (quoted? "when" p.when) :=
    among_quoted? p.when
  have bounds (p : MinimumPeriod) : Among ["constraint_min", "constraint", "constraint_max"]
      [.number "constraint_min" p.least, .number "constraint" p.typical,
        .number "constraint_max" p.greatest] := by
    simp [Among, number, label]
  rw [statement, statement, group.injEq,
    parts_eq_iff (condition p) (condition p') (bounds p) (bounds p') (by decide), quoted?_inj]
  simp only [List.cons.injEq, number_inj, and_true, true_and]
  exact ⟨fun ⟨when, least, typical, greatest⟩ => ⟨when, least, typical, greatest⟩,
    fun alike => ⟨alike.when, alike.least, alike.typical, alike.greatest⟩⟩

theorem Pin.statement_inj {name name' : String} (pin pin' : Pin) :
    pin.statement name = pin'.statement name' ↔ name = name' ∧ pin.Alike pin' := by
  have timing (pin : Pin) : Among ["timing"] (pin.timing.map TimingGroup.statement) :=
    among_groups pin.timing fun _ => rfl
  have periods (pin : Pin) :
      Among ["minimum_period"] (pin.minimumPeriod.map MinimumPeriod.statement) :=
    among_groups pin.minimumPeriod fun _ => rfl
  have low (pin : Pin) : Among ["min_pulse_width_low"]
      (number? "min_pulse_width_low" pin.pulseWidthLow) := among_number? pin.pulseWidthLow
  have high (pin : Pin) : Among ["min_pulse_width_high"]
      (number? "min_pulse_width_high" pin.pulseWidthHigh) := among_number? pin.pulseWidthHigh
  have two (pin : Pin) := (timing pin).append (periods pin)
  have three (pin : Pin) := (two pin).append (low pin)
  rw [statement, statement, group.injEq,
    parts_eq_iff (three pin) (three pin') (high pin) (high pin') (by decide),
    parts_eq_iff (two pin) (two pin') (low pin) (low pin') (by decide),
    parts_eq_iff (timing pin) (timing pin') (periods pin) (periods pin') (by decide),
    map_inj_of TimingGroup.statement_inj, map_inj_of MinimumPeriod.statement_inj,
    number?_inj, number?_inj]
  exact ⟨fun ⟨_, same, ⟨⟨timing, periods⟩, low⟩, high⟩ => ⟨same, timing, periods, low, high⟩,
    fun ⟨same, alike⟩ => ⟨rfl, same, ⟨⟨alike.timing, alike.minimumPeriod⟩, alike.pulseWidthLow⟩,
      alike.pulseWidthHigh⟩⟩

theorem Cell.statement_inj (cell cell' : Cell) :
    cell.statement = cell'.statement ↔ cell.Alike cell' := by
  rw [statement, statement, group.injEq, map_inj_of fun a b => Pin.statement_inj a.2 b.2]
  exact ⟨fun ⟨_, name, pins⟩ => ⟨name, pins⟩, fun alike => ⟨rfl, alike.name, alike.pins⟩⟩

theorem Library.statement_inj (library library' : Library) :
    library.statement = library'.statement ↔ library.Alike library' := by
  rw [statement, statement, group.injEq, map_inj_of Cell.statement_inj]
  exact ⟨fun ⟨_, name, cells⟩ => ⟨name, cells⟩, fun alike => ⟨rfl, alike.name, alike.cells⟩⟩

end Groups

theorem text_eq_iff_alike (indent : Nat) {library library' : Library}
    (unbroken : ∀ text ∈ library.texts, Unbroken text)
    (unbroken' : ∀ text ∈ library'.texts, Unbroken text) :
    library.text indent = library'.text indent ↔ library.Alike library' := by
  rw [Library.text, Library.text,
    Statement.text_inj (Library.legible unbroken) (Library.legible unbroken'),
    Library.statement_inj]

/-- A condition that looks like the end of its group is told from none. -/
theorem text_ne_without_condition :
    let arc (when : Option String) : TimingGroup := ⟨"CLK", when, none, some (.single 1), none⟩
    let library (when : Option String) : Library :=
      ⟨"L", [⟨"M", [("D", ⟨[arc when], [], none, none⟩)]⟩]⟩
    (∀ text ∈ (library (some "\" ;\x7d")).texts, Unbroken text) ∧
      (∀ text ∈ (library none).texts, Unbroken text) ∧
      (library (some "\" ;\x7d")).text 0 ≠ (library none).text 0 := by
  intro arc library
  have unbroken : ∀ text ∈ (library (some "\" ;\x7d")).texts, Unbroken text := by decide
  have unbroken' : ∀ text ∈ (library none).texts, Unbroken text := by decide
  refine ⟨unbroken, unbroken', fun same => ?_⟩
  have alike := (text_eq_iff_alike 0 unbroken unbroken').mp same
  obtain ⟨cell, -⟩ := List.forall₂_cons.mp alike.cells
  obtain ⟨⟨-, pin⟩, -⟩ := List.forall₂_cons.mp cell.pins
  obtain ⟨group, -⟩ := List.forall₂_cons.mp pin.timing
  cases group.when

end CellTiming.Liberty
