import CellTiming.Proofs.Otherwise
import CellTiming.Proofs.Pins
import CellTiming.Proofs.PlainTexts
import CellTiming.Proofs.Tasks
import CellTiming.Proofs.Trees

/-! A conversion writes the library of all modules with timing, or it changes nothing. -/
namespace CellTiming

namespace Liberty

variable {name : String} {found : List Source.NamedTiming} {library : Library}

/-- One cell for each module with timing, in the order of the modules. -/
structure LibraryOf (name : String) (found : List Source.NamedTiming) (library : Library) :
    Prop where
  name : library.name = name
  cells : library.cells.map some = (found.filter fun m => !m.timing.hasNoTiming).map fun m =>
    cellOf? m.name m.timing

theorem map_some_filterMap {α β : Type} {f : α → Option β} {p : α → Bool} {items : List α}
    (kept : ∀ a ∈ items, (f a).isSome = p a) :
    (items.filterMap f).map some = (items.filter p).map f := by
  induction items with
  | nil => rfl
  | cons a items ih =>
    obtain ⟨first, others⟩ := List.forall_mem_cons.mp kept
    rw [List.filterMap_cons, List.filter_cons, ← first]
    cases made : f a with
    | none => exact ih others
    | some b => simpa [made] using ih others

/-- There is a library if and only if there is timing. -/
theorem libraryOf_cases (name : String)
    (gathered : ∀ m ∈ found, m.timing.conditioned.Gathered) :
    ((∀ m ∈ found, m.timing.hasNoTiming = true) ∧ libraryOf? name found = none) ∨
      (∃ m ∈ found, m.timing.hasNoTiming = false) ∧
        ∃ library, libraryOf? name found = some library ∧ LibraryOf name found library := by
  have cells := map_some_filterMap (f := fun m => cellOf? m.name m.timing) fun m member =>
    isSome_cellOf m.name (gathered m member)
  rw [libraryOf?]
  split
  next none =>
    rw [List.isEmpty_iff.mp none, List.map_nil, eq_comm, List.map_eq_nil_iff,
      List.filter_eq_nil_iff] at cells
    exact .inl ⟨by simpa using cells, rfl⟩
  next some_ =>
    refine .inr ⟨?_, _, rfl, rfl, cells⟩
    by_contra none
    have untimed : (found.filter fun m => !m.timing.hasNoTiming) = [] :=
      List.filter_eq_nil_iff.mpr (by simpa using none)
    rw [untimed, List.map_nil, List.map_eq_nil_iff] at cells
    exact some_ (List.isEmpty_iff.mpr cells)

end Liberty

namespace Command

open Source (NamedTiming)

/-- The settings and the input are there, and every block of the input is timing. -/
structure Readable (tree : FileTree) (config : Option String) (input : String)
    (settings : Settings) (found : List NamedTiming) : Prop where
  loaded : settingsIn tree config = .ok settings
  blocks : ∃ text, tree.read input = .ok text ∧
    ∃ gathered, Source.blocks settings.macros text = .ok gathered ∧
      List.Forall₂ (fun block m => block.module = m.name ∧
        ModuleTiming.ofBlock block.text = .ok m.timing) gathered found

section Reading

variable {tree : FileTree} {config : Option String} {input : String} {settings : Settings}
  {found : List NamedTiming}

theorem readable_iff : Readable tree config input settings found ↔
    settingsIn tree config = .ok settings ∧
      ∃ text, tree.read input = .ok text ∧ Source.modules settings.macros text = .ok found := by
  simp only [Source.modules_eq_ok, mapM_eq_ok, Source.timing_eq_ok]
  exact ⟨fun readable => ⟨readable.loaded, readable.blocks⟩,
    fun ⟨loaded, blocks⟩ => ⟨loaded, blocks⟩⟩

theorem Readable.unique {settings' : Settings} {found' : List NamedTiming}
    (readable : Readable tree config input settings found)
    (again : Readable tree config input settings' found') :
    settings = settings' ∧ found = found' := by
  obtain ⟨loaded, text, read, timed⟩ := readable_iff.mp readable
  obtain ⟨loaded', text', read', timed'⟩ := readable_iff.mp again
  cases loaded.symm.trans loaded'
  cases read.symm.trans read'
  cases timed.symm.trans timed'
  exact ⟨rfl, rfl⟩

theorem gathered_of_modules {macros : List String} {text : String} {found : List NamedTiming}
    (timed : Source.modules macros text = .ok found) :
    ∀ m ∈ found, m.timing.conditioned.Gathered := by
  obtain ⟨_, _, read⟩ := Source.block_of_modules timed
  intro m member
  obtain ⟨_, _, _, ok⟩ := read m member
  exact gathered_of_ofBlock ok

theorem Readable.gathered (readable : Readable tree config input settings found) :
    ∀ m ∈ found, m.timing.conditioned.Gathered := by
  obtain ⟨_, _, _, timed⟩ := readable_iff.mp readable
  exact gathered_of_modules timed

end Reading

/-- What a conversion does: its exit code and the files it leaves. -/
inductive Converts (tree : FileTree) (config : Option String) (options : ConvertOptions) :
    Nat → FileTree → Prop
  | unreadable (none : ∀ settings found, ¬Readable tree config options.input settings found) :
      Converts tree config options 1 tree
  | untimed {settings found} (readable : Readable tree config options.input settings found)
      (none : ∀ m ∈ found, m.timing.hasNoTiming = true) : Converts tree config options 0 tree
  | unwritable {settings found} (readable : Readable tree config options.input settings found)
      (some_ : ∃ m ∈ found, m.timing.hasNoTiming = false)
      (refused : ∀ place, ¬tree.WritableAt options.output place) :
      Converts tree config options 1 tree
  | written {settings found library place}
      (readable : Readable tree config options.input settings found)
      (some_ : ∃ m ∈ found, m.timing.hasNoTiming = false)
      (library_ : Liberty.LibraryOf options.libraryName found library)
      (writable : tree.WritableAt options.output place) :
      Converts tree config options 0 (tree.put place (.file (some
        (library.contents (options.format.getD settings.format) settings.indent))))

section Running

open Attempt

variable {tree : FileTree} {config : Option String} {options : ConvertOptions}

theorem ends_writeLibrary (manner : Manner) {settings : Settings} {library : Liberty.Library}
    {contents : String}
    (same : library.contents (options.format.getD settings.format) settings.indent = contents) :
    (∃ place, tree.WritableAt options.output place ∧
      Ends (writeLibrary manner settings options library) tree (.ok ())
        (tree.put place (.file (some contents)))) ∨
    (∀ place, ¬tree.WritableAt options.output place) ∧
      ∃ abort, Ends (writeLibrary manner settings options library) tree (.error abort) tree := by
  unfold writeLibrary
  rw [same]
  cases wrote : tree.write options.output contents with
  | ok later =>
    obtain ⟨place, writable, rfl⟩ := FileTree.write_eq_ok.mp wrote
    exact .inl ⟨place, writable, (ends_written wrote).bind (ends_note manner _ _)⟩
  | error e =>
    refine .inr ⟨fun place writable => ?_, _, (ends_unwritten wrote).bind (ends_throw _ tree)⟩
    cases wrote.symm.trans (FileTree.write_eq_ok.mpr ⟨place, writable, rfl⟩)

theorem converts_of_modules (manner : Manner) {settings : Settings} {found : List NamedTiming}
    (readable : Readable tree config options.input settings found) :
    ∃ result later, Converts tree config options (exitCode result) later ∧
      Ends (do
        match Liberty.libraryOf? options.libraryName found with
        | some library => writeLibrary manner settings options library
        | none =>
          note manner <|
            if found.isEmpty then "no specify block" else "no timing data in specify block"
        return 0) tree result later := by
  rcases Liberty.libraryOf_cases options.libraryName readable.gathered with
    ⟨none, made⟩ | ⟨some_, library, made, library_⟩
  · rw [made]
    exact ⟨.ok 0, tree, .untimed readable none, (ends_note manner _ tree).bind (ends_pure 0 tree)⟩
  · rw [made]
    rcases ends_writeLibrary manner rfl with
      ⟨place, writable, ends⟩ | ⟨refused, abort, ends⟩
    · exact ⟨.ok 0, _, .written readable some_ library_ writable, ends.bind (ends_pure 0 _)⟩
    · exact ⟨.error abort, tree, .unwritable readable some_ refused, ends.abort⟩

theorem ends_convert (manner : Manner) (config : Option String) (options : ConvertOptions)
    (tree : FileTree) :
    ∃ result later, Converts tree config options (exitCode result) later ∧
      Ends (convert manner config options) tree result later := by
  unfold convert
  have loads := ends_loadSettings config tree
  have reads := ends_readFile options.input tree
  cases loaded : settingsIn tree config with
  | error abort =>
    rw [loaded] at loads
    exact ⟨_, tree, .unreadable (by simp [readable_iff, loaded]), loads.abort⟩
  | ok settings =>
    rw [loaded] at loads
    cases read : tree.read options.input with
    | error e =>
      rw [read] at reads
      exact ⟨_, tree, .unreadable (by simp [readable_iff, read]), loads.bind reads.abort⟩
    | ok text =>
      rw [read] at reads
      cases timed : Source.modules settings.macros text with
      | error failure =>
        have none (settings' found) : ¬Readable tree config options.input settings' found := by
          rintro readable
          simp_all [readable_iff]
        have ends : Ends (do reportFailure manner settings options.input text failure; return 1)
            tree (.ok 1) tree :=
          (ends_reportFailure manner settings options.input text failure tree).bind (ends_pure 1 tree)
        refine ⟨.ok 1, tree, .unreadable none, loads.bind (reads.bind ?_)⟩
        rw [timed]
        exact .ite ((ends_print _ tree).bind ends) ends
      | ok found =>
        obtain ⟨result, later, converts, ends⟩ :=
          converts_of_modules manner (readable_iff.mpr ⟨loaded, text, read, timed⟩)
        refine ⟨result, later, converts, loads.bind (reads.bind ?_)⟩
        rw [timed]
        -- what is left to do stands behind both branches of a choice to print
        refine .ite ((ends_print _ tree).bind ?_) ?_
        all_goals exact .ite ((ends_print _ tree).bind ends) ends

end Running

section Outcomes

variable {tree later : FileTree} {config : Option String} {options : ConvertOptions} {code : Nat}

theorem Converts.elsewhere (converts : Converts tree config options code later)
    {place : FileTree.Place} (other : tree.locateNew options.output ≠ .ok place) :
    later.entry? place = tree.entry? place := by
  cases converts with
  | unreadable | untimed | unwritable => rfl
  | @written _ _ _ written _ _ _ writable =>
    rw [FileTree.lookup_put writable.below, if_neg]
    rintro rfl
    exact other writable.leads

theorem Converts.complete (converts : Converts tree config options code later)
    {settings : Settings} {found : List NamedTiming} {place : FileTree.Place}
    (readable : Readable tree config options.input settings found)
    (some_ : ∃ m ∈ found, m.timing.hasNoTiming = false)
    (writable : tree.WritableAt options.output place) :
    code = 0 ∧ ∃ library, Liberty.LibraryOf options.libraryName found library ∧
      later.read options.output =
        .ok (library.contents (options.format.getD settings.format) settings.indent) := by
  cases converts with
  | unreadable none => exact absurd readable (none _ _)
  | untimed readable' none =>
    obtain ⟨rfl, rfl⟩ := readable.unique readable'
    obtain ⟨m, member, timed⟩ := some_
    cases timed.symm.trans (none m member)
  | unwritable _ _ refused => exact absurd writable (refused place)
  | written readable' _ library_ writable' =>
    obtain ⟨rfl, rfl⟩ := readable.unique readable'
    exact ⟨rfl, _, library_, FileTree.read_put writable'⟩

theorem Converts.unchanged (converts : Converts tree config options code later)
    (incomplete : ∀ settings found place, Readable tree config options.input settings found →
      (∃ m ∈ found, m.timing.hasNoTiming = false) → ¬tree.WritableAt options.output place) :
    later = tree := by
  cases converts with
  | unreadable | untimed | unwritable => rfl
  | written readable some_ _ writable => exact absurd writable (incomplete _ _ _ readable some_)

theorem Converts.exitCode (converts : Converts tree config options code later) :
    (code = 0 ∨ code = 1) ∧ (code = 0 ↔ ∃ settings found,
      Readable tree config options.input settings found ∧
      ((∃ m ∈ found, m.timing.hasNoTiming = false) →
        ∃ place, tree.WritableAt options.output place)) := by
  cases converts with
  | unreadable none =>
    exact ⟨.inr rfl, iff_of_false Nat.one_ne_zero fun ⟨_, _, readable, _⟩ => none _ _ readable⟩
  | untimed readable none =>
    refine ⟨.inl rfl, iff_of_true rfl ⟨_, _, readable, fun ⟨m, member, timed⟩ => ?_⟩⟩
    cases timed.symm.trans (none m member)
  | unwritable readable some_ refused =>
    refine ⟨.inr rfl, iff_of_false Nat.one_ne_zero ?_⟩
    rintro ⟨_, _, again, writable⟩
    obtain ⟨rfl, rfl⟩ := readable.unique again
    obtain ⟨place, writable⟩ := writable some_
    exact refused place writable
  | written readable _ _ writable =>
    exact ⟨.inl rfl, iff_of_true rfl ⟨_, _, readable, fun _ => ⟨_, writable⟩⟩⟩

end Outcomes

/-- No file changes but the output. It is written, with the library of all modules that have
timing, where the settings and the input can be read, every module of the input is timing, one of
them has some and a file may stand at the output; otherwise every file stays as it is. Only a
failure has an exit code other than zero. -/
theorem convert_all_or_nothing (terminal : Bool) (arguments : List String)
    (globals : GlobalOptions) (options : ConvertOptions) (world : World)
    (asked : Request.ofArguments? arguments = some (.run globals (.convert options))) :
    ∃ code after,
      (execute terminal (Request.ofArguments? arguments) : StateM World Nat).run world =
        (code, after) ∧
      (∀ place, world.tree.locateNew options.output ≠ .ok place →
        after.tree.entry? place = world.tree.entry? place) ∧
      (∀ settings found place, Readable world.tree globals.config options.input settings found →
        (∃ m ∈ found, m.timing.hasNoTiming = false) →
        world.tree.WritableAt options.output place →
          code = 0 ∧ ∃ library, Liberty.LibraryOf options.libraryName found library ∧
            after.tree.read options.output =
              .ok (library.contents (options.format.getD settings.format) settings.indent)) ∧
      ((∀ settings found place, Readable world.tree globals.config options.input settings found →
          (∃ m ∈ found, m.timing.hasNoTiming = false) →
          ¬world.tree.WritableAt options.output place) → after.tree = world.tree) ∧
      (code = 0 ∨ code = 1) ∧
      (code = 0 ↔ ∃ settings found,
        Readable world.tree globals.config options.input settings found ∧
        ((∃ m ∈ found, m.timing.hasNoTiming = false) →
          ∃ place, world.tree.WritableAt options.output place)) := by
  obtain ⟨result, later, converts, ends⟩ :=
    ends_convert (globals.manner terminal) globals.config options world.tree
  obtain ⟨after, ran, rfl⟩ := ends.run_task (.convert options)
  rw [asked]
  exact ⟨_, after, ran, fun _ => converts.elsewhere,
    fun _ _ _ => converts.complete, converts.unchanged, converts.exitCode⟩

/-- A buffer, a module with nothing but a number, and a latch. -/
private def threeModules : String := "
module buf; specify (A => Y) = 1; endspecify endmodule
module load; specify specparam c = 2; endspecify endmodule
module dl; specify $setup(D, G, 3); endspecify endmodule
"

private def workplace : FileTree where
  entries := [(["out"], .directory), (["cells.v"], .file threeModules)]

private def order : ConvertOptions :=
  { input := "cells.v", libraryName := "cells", output := "out/cells.lib"
    print := false, format := none }

theorem convert_two_of_three :
    Request.ofArguments? ["convert", "cells.v", "cells", "out/cells.lib"] =
        some (.run {} (.convert order)) ∧
      ∃ found library after, Readable workplace none "cells.v" {} found ∧
        found.map (fun m => (m.name, m.timing.hasNoTiming)) =
          [("buf", false), ("load", true), ("dl", false)] ∧
        Liberty.LibraryOf "cells" found library ∧
        (execute false (Request.ofArguments? ["convert", "cells.v", "cells", "out/cells.lib"]) :
          StateM World Nat).run { tree := workplace } = (0, after) ∧
        after.tree.read "out/cells.lib" = .ok (library.contents .liberty Liberty.defaultIndent) := by
  have asked : Request.ofArguments? ["convert", "cells.v", "cells", "out/cells.lib"] =
      some (.run {} (.convert order)) := by decide +kernel
  have names : (Source.modules Source.defaultMacros threeModules).toOption.map
      (fun found => found.map fun m => (m.name, m.timing.hasNoTiming)) =
      some [("buf", false), ("load", true), ("dl", false)] := by decide +kernel
  obtain ⟨found, timed, listed⟩ := exists_ok_of_toOption names
  have readable : Readable workplace none "cells.v" {} found :=
    readable_iff.mpr ⟨by decide +kernel, threeModules, by decide +kernel, timed⟩
  have some_ : ∃ m ∈ found, m.timing.hasNoTiming = false := by
    have first : ("buf", false) ∈ found.map fun m => (m.name, m.timing.hasNoTiming) := by
      simp [listed]
    obtain ⟨m, member, same⟩ := List.mem_map.mp first
    exact ⟨m, member, (Prod.mk.inj same).2⟩
  have writable : workplace.WritableAt "out/cells.lib" ["out", "cells.lib"] :=
    ⟨by decide +kernel, by decide, by decide⟩
  obtain ⟨code, after, ran, _, complete, _⟩ :=
    convert_all_or_nothing false ["convert", "cells.v", "cells", "out/cells.lib"] {} order
      { tree := workplace } asked
  obtain ⟨rfl, library, library_, written⟩ := complete {} found _ readable some_ writable
  exact ⟨asked, found, library, after, readable, listed, library_, ran, written⟩

end Command

end CellTiming
