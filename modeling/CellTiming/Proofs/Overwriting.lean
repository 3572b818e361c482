import CellTiming.Proofs.Conversion
import CellTiming.Proofs.Jobs
import CellTiming.Proofs.Targets

/-! Which libraries of a batch are there when it ends: of those that are written to one place the
last one stays. -/
namespace CellTiming.Command

open Files (IsEntryName resolve)
open FileTree (Place)
open Source (NamedTiming)

section Turns

/-- A text that is written to a place. -/
structure Writing where
  place : Place
  text : String

/-- The text that is written to a place last, or the one that is there before. -/
def lastText (place : Place) (text : String) : List (Option Writing) → String
  | [] => text
  | none :: log => lastText place text log
  | some writing :: log =>
    lastText place (if writing.place = place then writing.text else text) log

theorem lastText_of_ne {log : List (Option Writing)} {place : Place} {text : String}
    (others : ∀ writing, some writing ∈ log → writing.place ≠ place) :
    lastText place text log = text := by
  induction log with
  | nil => rfl
  | cons entry log ih =>
    have rest := ih fun writing member => others writing (List.mem_cons_of_mem entry member)
    cases entry with
    | none => exact rest
    | some writing =>
      rw [lastText, if_neg (others writing List.mem_cons_self)]
      exact rest

/-- Jobs that take turns, with the library that each of them writes. A job that is done writes none
only if there is no timing in its file. -/
inductive Turns (settings : Settings) : FileTree → Record → List (Option Writing) → FileTree → Prop
  | nil {tree} : Turns settings tree [] [] tree
  | failed {tree middle last job failure done log} (grows : tree.Grows middle)
      (others : Turns settings middle done log last) :
      Turns settings tree ((job, .error failure) :: done) (none :: log) last
  | untimed {tree last job text found done log} (read : tree.read job.file = .ok text)
      (timed : Source.modules settings.macros text = .ok found)
      (none_ : ∀ m ∈ found, m.timing.hasNoTiming = true)
      (others : Turns settings tree done log last) :
      Turns settings tree ((job, .ok ()) :: done) (none :: log) last
  | written {tree middle last job text found library place done log}
      (read : tree.read job.file = .ok text)
      (timed : Source.modules settings.macros text = .ok found)
      (some_ : ∃ m ∈ found, m.timing.hasNoTiming = false)
      (library_ : Liberty.LibraryOf job.cell found library) (grows : tree.Grows middle)
      (writable : middle.WritableAt (job.target settings.format) place)
      (others : Turns settings (middle.put place
        (.file (some (library.contents settings.format settings.indent)))) done log last) :
      Turns settings tree ((job, .ok ()) :: done)
        (some ⟨place, library.contents settings.format settings.indent⟩ :: log) last

variable {settings : Settings} {tree last : FileTree} {done : Record} {log : List (Option Writing)}

theorem Runs.turns {jobs : List Job} (runs : Runs settings true tree jobs done last) :
    ∃ log, Turns settings tree done log last := by
  induction runs with
  | nil => exact ⟨[], .nil⟩
  | @cons tree middle last job jobs outcome done ends _ ih =>
    obtain ⟨log, others⟩ := ih
    cases ends with
    | unreadable | refused => exact ⟨_, .failed (.refl tree) others⟩
    | unwritable _ _ _ _ grows => exact ⟨_, .failed grows others⟩
    | idle read timed none =>
      rcases Liberty.libraryOf_cases job.cell (gathered_of_modules timed) with
        ⟨untimed, _⟩ | ⟨_, library, made, _⟩
      · exact ⟨_, .untimed read timed untimed others⟩
      · cases made.symm.trans (none rfl)
    | written _ read timed made grows writable =>
      rcases Liberty.libraryOf_cases job.cell (gathered_of_modules timed) with
        ⟨_, none⟩ | ⟨some_, library, made', library_⟩
      · cases made.symm.trans none
      · cases made.symm.trans made'
        exact ⟨_, .written read timed some_ library_ grows writable others⟩

theorem Turns.keeps (turns : Turns settings tree done log last) : tree.Keeps last := by
  induction turns with
  | nil => exact (FileTree.Grows.refl _).keeps
  | failed grows _ ih => exact grows.keeps.trans ih
  | untimed _ _ _ _ ih => exact ih
  | written _ _ _ _ grows writable _ ih =>
    exact (grows.keeps.trans (FileTree.keeps_put writable _)).trans ih

/-- What is in a file at the end is what is written there last. -/
theorem Turns.lasts (turns : Turns settings tree done log last) {place : Place} {text : String}
    (known : tree.entry? place = some (.file (some text))) :
    last.entry? place = some (.file (some (lastText place text log))) := by
  induction turns generalizing text with
  | nil => exact known
  | failed grows _ ih => exact ih (grows.known known)
  | untimed _ _ _ _ ih => exact ih known
  | @written _ _ _ _ _ _ _ place' _ _ _ _ _ _ grows writable _ ih =>
    refine ih ?_
    rw [FileTree.lookup_put writable.below, grows.known known]
    by_cases same : place' = place
    · rw [if_pos same.symm, if_pos same]
    · rw [if_neg (Ne.symm same), if_neg same]

/-- A library that is written is the text of its target until the next one is written there. -/
theorem Turns.logged (turns : Turns settings tree done log last) {k : Nat} {writing : Writing}
    (entry : log[k]? = some (some writing)) :
    ∃ job, done[k]? = some (job, .ok ()) ∧
      writing.place = resolve tree.here (job.target settings.format) ∧
      last.read (job.target settings.format) =
        .ok (lastText writing.place writing.text (log.drop (k + 1))) := by
  induction turns generalizing k with
  | nil => cases entry
  | failed grows _ ih =>
    cases k with
    | zero => cases entry
    | succ k =>
      rw [← grows.here]
      exact ih entry
  | untimed _ _ _ _ ih =>
    cases k with
    | zero => cases entry
    | succ k => exact ih entry
  | @written _ _ _ job _ _ _ _ _ _ _ _ _ _ grows writable others ih =>
    cases k with
    | zero =>
      cases entry
      refine ⟨job, rfl, grows.here ▸ FileTree.locate_ok writable.located, ?_⟩
      have keeps := (FileTree.keeps_put writable _).trans others.keeps
      refine FileTree.read_eq_ok.mpr ⟨_, keeps.follow writable.located, others.lasts ?_⟩
      rw [FileTree.lookup_put writable.below, if_pos rfl]
    | succ k =>
      rw [← grows.here]
      exact ih entry

/-- A job that is done writes the library of its file if there is timing in it. -/
theorem Turns.of_timing {job : Job} {text : String} {found : List NamedTiming}
    (turns : Turns settings tree ((job, .ok ()) :: done) log last)
    (read : tree.read job.file = .ok text)
    (timed : Source.modules settings.macros text = .ok found)
    (some_ : ∃ m ∈ found, m.timing.hasNoTiming = false) :
    ∃ library middle place log', Liberty.LibraryOf job.cell found library ∧ tree.Grows middle ∧
      middle.WritableAt (job.target settings.format) place ∧
      log = some ⟨place, library.contents settings.format settings.indent⟩ :: log' ∧
      Turns settings (middle.put place
        (.file (some (library.contents settings.format settings.indent)))) done log' last := by
  cases turns with
  | untimed read' timed' none =>
    cases read.symm.trans read'
    cases timed.symm.trans timed'
    obtain ⟨m, member, kept⟩ := some_
    cases kept.symm.trans (none m member)
  | written read' timed' _ library_ grows writable others =>
    cases read.symm.trans read'
    cases timed.symm.trans timed'
    exact ⟨_, _, _, _, library_, grows, writable, rfl, others⟩

/-- Of two jobs that are done the second one leaves its library at its target. -/
theorem Turns.second {job job' : Job} {text text' : String} {found found' : List NamedTiming}
    (turns : Turns settings tree [(job, .ok ()), (job', .ok ())] log last)
    (read : tree.read job.file = .ok text) (read' : tree.read job'.file = .ok text')
    (timed : Source.modules settings.macros text = .ok found)
    (timed' : Source.modules settings.macros text' = .ok found')
    (some_ : ∃ m ∈ found, m.timing.hasNoTiming = false)
    (some_' : ∃ m ∈ found', m.timing.hasNoTiming = false)
    (apart : resolve tree.here job'.file ≠ resolve tree.here (job.target settings.format)) :
    ∃ library library', Liberty.LibraryOf job.cell found library ∧
      Liberty.LibraryOf job'.cell found' library' ∧
      last.read (job'.target settings.format) =
        .ok (library'.contents settings.format settings.indent) := by
  obtain ⟨library, middle, place, _, library_, grows, writable, _, others⟩ :=
    turns.of_timing read timed some_
  -- the file of the second job is read as it was, for another place has been written to
  have placed := grows.here ▸ FileTree.locate_ok writable.located
  have later := FileTree.read_put_of_ne writable
    (.file (some (library.contents settings.format settings.indent))) (grows.read read')
    (by rw [placed, grows.here]; exact apart)
  obtain ⟨library', _, _, _, library_', _, writable', _, none⟩ :=
    others.of_timing later timed' some_'
  cases none
  exact ⟨library, library', library_, library_', FileTree.read_put writable'⟩

theorem Turns.of_mem (turns : Turns settings tree done log last) {k : Nat} {writing : Writing}
    (member : some writing ∈ log.drop k) : ∃ j job, k ≤ j ∧ done[j]? = some (job, .ok ()) ∧
      writing.place = resolve tree.here (job.target settings.format) := by
  obtain ⟨i, entry⟩ := List.mem_iff_getElem?.mp member
  rw [List.getElem?_drop] at entry
  obtain ⟨job, known, place, _⟩ := turns.logged entry
  exact ⟨k + i, job, Nat.le_add_right k i, known, place⟩

/-- Every library that has been written is still there. -/
def Kept (settings : Settings) (later : FileTree) (done : Record) (log : List (Option Writing)) :
    Prop :=
  ∀ (k : Nat) (writing : Writing), log[k]? = some (some writing) →
    ∃ job, done[k]? = some (job, .ok ()) ∧
      later.read (job.target settings.format) = .ok writing.text

theorem Turns.kept (turns : Turns settings tree done log last)
    (apart : (done.map (·.1)).Pairwise fun job job' =>
      resolve tree.here (job.target settings.format) ≠
        resolve tree.here (job'.target settings.format)) : Kept settings last done log := by
  intro k writing entry
  obtain ⟨job, known, place, read⟩ := turns.logged entry
  refine ⟨job, known, read.trans (congrArg Except.ok (lastText_of_ne ?_))⟩
  intro later member same
  obtain ⟨j, job', behind, known', place'⟩ := turns.of_mem member
  obtain ⟨within, at_⟩ := List.getElem?_eq_some_iff.mp known
  obtain ⟨within', at_'⟩ := List.getElem?_eq_some_iff.mp known'
  rw [List.pairwise_map] at apart
  have different := List.pairwise_iff_getElem.mp apart k j within within' behind
  rw [at_, at_'] at different
  exact different (place.symm.trans (same.symm.trans place'))

end Turns

/-- A batch that writes leaves at the target of a library what is written to the place of that
target last. Under plain names of cells, targets have one place only if cells, directories and
stems are the same; so no library is lost if no two jobs have these in common. -/
theorem batch_writes (terminal : Bool) (globals : GlobalOptions) (options : BatchOptions)
    (settings : Settings) (list : FileList) (world : World)
    (listed : Listed world.tree globals.config options settings list)
    (asked : options.write = true) :
    ∃ (code : Nat) (after : World) (done : Record) (log : List (Option Writing)),
      runBatch terminal globals options world = (code, after) ∧
      Tells (globals.manner terminal) options done world after code ∧
      done.map (·.1) = list.jobs options.outdir options.strip ∧
      Turns settings world.tree done log after.tree ∧
      (∀ (k : Nat) (writing : Writing), log[k]? = some (some writing) →
        ∃ job, done[k]? = some (job, .ok ()) ∧
          writing.place = resolve world.tree.here (job.target settings.format) ∧
          after.tree.read (job.target settings.format) =
            .ok (lastText writing.place writing.text (log.drop (k + 1)))) ∧
      (∀ job ∈ list.jobs options.outdir options.strip,
        ∀ job' ∈ list.jobs options.outdir options.strip,
          IsEntryName job.cell → IsEntryName job'.cell →
          (resolve world.tree.here (job.target settings.format) =
            resolve world.tree.here (job'.target settings.format) ↔
              SamePlace options.strip job job')) ∧
      ((∀ job ∈ list.jobs options.outdir options.strip, IsEntryName job.cell) →
        (list.jobs options.outdir options.strip).Pairwise
          (fun job job' => ¬SamePlace options.strip job job') →
        Kept settings after.tree done log) := by
  obtain ⟨done, code, after, ran, runs, tells⟩ := runs_batch terminal listed
  rw [asked] at runs
  obtain ⟨log, turns⟩ := runs.turns
  have places (job) (member : job ∈ list.jobs options.outdir options.strip) (job')
      (member' : job' ∈ list.jobs options.outdir options.strip) (named : IsEntryName job.cell)
      (named' : IsEntryName job'.cell) :=
    resolve_target_eq_iff (placed_of_mem_jobs member) (placed_of_mem_jobs member') named named'
      world.tree.here settings.format
  refine ⟨code, after, done, log, ran, tells, runs.map_job, turns, fun _ _ => turns.logged,
    places, fun named apart => turns.kept ?_⟩
  rw [runs.map_job]
  refine apart.imp_of_mem fun {job job'} member member' different same => different ?_
  exact (places job member job' member' (named job member) (named job' member')).mp same

section Twins

theorem exists_cell {name : String} {found : List NamedTiming} {library : Liberty.Library}
    (library_ : Liberty.LibraryOf name found library) {module : String}
    (listed : found.map (fun m => (m.name, m.timing.hasNoTiming)) = [(module, false)]) :
    ∃ cell, library.cells = [cell] ∧ cell.name = module := by
  obtain ⟨m, rfl, same⟩ := List.map_eq_singleton_iff.mp listed
  obtain ⟨rfl, timed⟩ := Prod.mk.inj same
  have cells := library_.cells
  rw [List.filter_cons_of_pos (by simp [timed]), List.filter_nil, List.map_singleton] at cells
  obtain ⟨cell, whole, made⟩ := List.map_eq_singleton_iff.mp cells
  exact ⟨cell, whole, (Liberty.pins_of_cellOf made.symm).1⟩

/-- The name of a library and that of its first cell come first in its text. -/
theorem text_of_cells {library : Liberty.Library} {cell : Liberty.Cell}
    (cells : library.cells = [cell]) (indent : Nat) :
    ∃ rest, (library.text indent).toList = ("library (" ++ library.name ++ ") \x7b\n").toList ++
      (List.replicate indent ' ' ++ ("cell (" ++ cell.name ++ ") \x7b\n").toList ++ rest) := by
  simp only [Liberty.Library.text, Liberty.Library.statement, cells, List.map_singleton,
    Liberty.Cell.statement, Liberty.Statement.text, Liberty.Statement.bodyText,
    Liberty.Statement.indented]
  simp

/-- Libraries whose first cells have different names of one length have different texts. -/
theorem text_ne_of_cells {library library' : Liberty.Library} {cell cell' : Liberty.Cell}
    (cells : library.cells = [cell]) (cells' : library'.cells = [cell'])
    (name : library.name = library'.name) (different : cell.name ≠ cell'.name)
    (length : cell.name.toList.length = cell'.name.toList.length) (indent : Nat) :
    library.text indent ≠ library'.text indent := by
  intro same
  obtain ⟨rest, text⟩ := text_of_cells cells indent
  obtain ⟨rest', text'⟩ := text_of_cells cells' indent
  rw [same, text', name] at text
  simp only [String.toList_append, List.append_assoc, List.append_cancel_left_eq] at text
  exact different (String.toList_inj.mp (List.append_inj text.symm length).1)

private def firstSource : String := "module a; specify (A => Y) = 1; endspecify endmodule"

private def secondSource : String := "module b; specify (A => Y) = 1; endspecify endmodule"

private def sources : FileTree where
  entries := [
    (["twins.json"], .file "\x7b\"inv\": [\"inv.v\", \"inv.sv\"]\x7d"),
    (["apart.json"], .file "\x7b\"inv\": [\"inv.v\"], \"sv\": [\"inv.sv\"]\x7d"),
    (["inv.v"], .file firstSource), (["inv.sv"], .file secondSource)]

private def writing (fileList : String) : BatchOptions :=
  { fileList, outdir := "out", strip := none, write := true, report := .text }

/-- All that the text holds is one module with timing. -/
private def Single (text name : String) : Prop :=
  ∃ found, Source.modules Source.defaultMacros text = .ok found ∧
    (∃ m ∈ found, m.timing.hasNoTiming = false) ∧
    found.map (fun m => (m.name, m.timing.hasNoTiming)) = [(name, false)]

private theorem single_of_toOption {text name : String}
    (listed : (Source.modules Source.defaultMacros text).toOption.map
      (fun found => found.map fun m => (m.name, m.timing.hasNoTiming)) = some [(name, false)]) :
    Single text name := by
  obtain ⟨found, timed, same⟩ := exists_ok_of_toOption listed
  obtain ⟨m, rfl, known⟩ := List.map_eq_singleton_iff.mp same
  exact ⟨_, timed, ⟨m, List.mem_singleton_self m, (Prod.mk.inj known).2⟩, same⟩

private theorem single_firstSource : Single firstSource "a" :=
  single_of_toOption (by decide +kernel)

private theorem single_secondSource : Single secondSource "b" :=
  single_of_toOption (by decide +kernel)

theorem batch_writes_apart :
    Listed sources none (writing "apart.json") {} [("inv", ["inv.v"]), ("sv", ["inv.sv"])] ∧
      (writing "apart.json").write = true ∧
      ∃ after found library,
        runBatch false {} (writing "apart.json") { tree := sources } = (0, after) ∧
        Source.modules Source.defaultMacros firstSource = .ok found ∧
        Liberty.LibraryOf "inv" found library ∧
        after.tree.read "out/inv/inv.lib" =
          .ok (library.contents .liberty Liberty.defaultIndent) := by
  have listed : Listed sources none (writing "apart.json") {}
      [("inv", ["inv.v"]), ("sv", ["inv.sv"])] :=
    ⟨by decide +kernel, _, rfl, by decide +kernel⟩
  obtain ⟨code, after, done, log, ran, tells, jobs, turns, _, _, kept⟩ :=
    batch_writes false {} (writing "apart.json") {} _ { tree := sources } listed rfl
  have zero : (runBatch false {} (writing "apart.json") { tree := sources }).1 = 0 := by
    decide +kernel
  obtain rfl : code = 0 := (congrArg Prod.fst ran).symm.trans zero
  obtain ⟨found, timed, some_, _⟩ := single_firstSource
  have apart : Kept {} after.tree done log := kept (by decide +kernel) (by decide +kernel)
  rw [tells.done_of_zero, jobs] at turns
  obtain ⟨library, _, place, log', library_, _, _, rfl, _⟩ :=
    turns.of_timing (by decide +kernel) timed some_
  obtain ⟨job, known, read⟩ := apart 0 _ rfl
  rw [tells.done_of_zero, jobs] at known
  cases known
  exact ⟨listed, rfl, after, found, library, ran, timed, library_, read⟩

private def twin (file : String) : Job := ⟨"inv", file, "out/inv"⟩

/-- Two files that differ in their extension only have one target, and the library of the first is
lost although both are done. -/
theorem batch_writes_twins :
    Listed sources none (writing "twins.json") {} [("inv", ["inv.v", "inv.sv"])] ∧
      FileList.jobs [("inv", ["inv.v", "inv.sv"])] "out" none = [twin "inv.v", twin "inv.sv"] ∧
      (twin "inv.v").target .liberty = "out/inv/inv.lib" ∧
      (twin "inv.sv").target .liberty = "out/inv/inv.lib" ∧
      ∃ after found library,
        runBatch false {} (writing "twins.json") { tree := sources } = (0, after) ∧
        after.reported = "[00001/00002,failed=00000] inv : inv.v | DONE\n" ++
          "[00002/00002,failed=00000] inv : inv.sv | DONE\n" ++ "0 out of 2 failed\n" ∧
        Source.modules Source.defaultMacros firstSource = .ok found ∧
        (∃ m ∈ found, m.timing.hasNoTiming = false) ∧ Liberty.LibraryOf "inv" found library ∧
        after.tree.read "out/inv/inv.lib" ≠
          .ok (library.contents .liberty Liberty.defaultIndent) := by
  have listed : Listed sources none (writing "twins.json") {} [("inv", ["inv.v", "inv.sv"])] :=
    ⟨by decide +kernel, _, rfl, by decide +kernel⟩
  have jobs : FileList.jobs [("inv", ["inv.v", "inv.sv"])] "out" none =
      [twin "inv.v", twin "inv.sv"] := by decide +kernel
  obtain ⟨done, code, after, ran, runs, tells⟩ :=
    runs_batch false
      (show Listed (World.mk sources "" "").tree (GlobalOptions.config {}) _ _ _ from listed)
  have zero : (runBatch false {} (writing "twins.json") { tree := sources }).1 = 0 := by
    decide +kernel
  obtain rfl : code = 0 := (congrArg Prod.fst ran).symm.trans zero
  have both : done = [(twin "inv.v", .ok ()), (twin "inv.sv", .ok ())] := by
    rw [tells.done_of_zero, runs.map_job]
    change List.map _ (FileList.jobs _ "out" none) = _
    rw [jobs]
    rfl
  subst both
  obtain ⟨found, timed, some_, first⟩ := single_firstSource
  obtain ⟨found', timed', some_', second⟩ := single_secondSource
  have read : sources.read "inv.v" = .ok firstSource := by decide +kernel
  have read' : sources.read "inv.sv" = .ok secondSource := by decide +kernel
  obtain ⟨log, turns⟩ := runs.turns
  obtain ⟨library, library', library_, library_', last⟩ :=
    turns.second read read' timed timed' some_ some_' (by decide +kernel)
  obtain ⟨cell, cells, name⟩ := exists_cell library_ first
  obtain ⟨cell', cells', name'⟩ := exists_cell library_' second
  have different := text_ne_of_cells cells cells' (library_.name.trans library_'.name.symm)
    (by rw [name, name']; decide) (by rw [name, name']; rfl) Liberty.defaultIndent
  refine ⟨listed, jobs, by decide +kernel, by decide +kernel, after, found, library, ran,
    tells.reported.trans (by decide +kernel), timed, some_, library_, fun kept => ?_⟩
  exact different (Except.ok.inj (kept.symm.trans last))

end Twins

end CellTiming.Command
