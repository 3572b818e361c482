import CellTiming.Proofs.Tasks
import CellTiming.Proofs.Trees

/-! The jobs of a batch, one after the other. How a job ends depends on its file and on the tree
that the jobs before it leave; its line tells besides how many of them there are and how many of
them have failed. -/
namespace CellTiming.Command

/-- Jobs that have been run, and how they ended. -/
abbrev Record := List (Job × Except JobFailure Unit)

namespace Record

def failures (done : Record) : List (Job × JobFailure) :=
  done.filterMap fun (job, outcome) =>
    match outcome with
    | .ok () => none
    | .error failure => some (job, failure)

theorem failures_append (before after : Record) :
    (before ++ after).failures = before.failures ++ after.failures :=
  List.filterMap_append

theorem eq_of_failures {done : Record} (none : done.failures = []) :
    done = (done.map (·.1)).map fun job => (job, .ok ()) := by
  induction done with
  | nil => rfl
  | cons entry done ih =>
    obtain ⟨job, outcome⟩ := entry
    cases outcome with
    | ok => exact congrArg ((job, .ok ()) :: ·) (ih none)
    | error failure => cases none

/-- The lines about jobs behind others. Each is numbered and counts the failures before it. -/
def linesAfter (color : Bool) (total : Nat) (before after : Record) : String :=
  String.join (after.mapIdx fun k (job, outcome) =>
    progressLine color (before.length + k + 1) total (before ++ after.take k).failures.length
      job outcome)

def lines (color : Bool) (done : Record) : String := linesAfter color done.length [] done

theorem linesAfter_cons (color : Bool) (total : Nat) (before after : Record) (job : Job)
    (outcome : Except JobFailure Unit) :
    linesAfter color total before ((job, outcome) :: after) =
      progressLine color (before.length + 1) total before.failures.length job outcome ++
        linesAfter color total (before ++ [(job, outcome)]) after := by
  unfold linesAfter
  rw [List.mapIdx_cons, String.join_cons]
  simp [Nat.add_assoc, Nat.add_comm 1]

end Record

section Jobs

variable {settings : Settings} {write : Bool} {tree later : FileTree} {job : Job}
  {outcome : Except JobFailure Unit} {world : World}

/-- How a job ends, and the tree it leaves. -/
inductive Job.Ends (settings : Settings) (write : Bool) (tree : FileTree) (job : Job) :
    Except JobFailure Unit → FileTree → Prop
  | unreadable {e} (read : tree.read job.file = .error e) :
      Ends settings write tree job (.error (.unreadable job.file e)) tree
  | refused {text failure} (read : tree.read job.file = .ok text)
      (timed : Source.modules settings.macros text = .error failure) :
      Ends settings write tree job (.error (.source failure)) tree
  | idle {text found} (read : tree.read job.file = .ok text)
      (timed : Source.modules settings.macros text = .ok found)
      (none : write = true → Liberty.libraryOf? job.cell found = none) :
      Ends settings write tree job (.ok ()) tree
  | unwritable {text found library e later} (asked : write = true)
      (read : tree.read job.file = .ok text)
      (timed : Source.modules settings.macros text = .ok found)
      (made : Liberty.libraryOf? job.cell found = some library) (grows : tree.Grows later) :
      Ends settings write tree job (.error (.unwritable (job.target settings.format) e)) later
  | written {text found library middle place} (asked : write = true)
      (read : tree.read job.file = .ok text)
      (timed : Source.modules settings.macros text = .ok found)
      (made : Liberty.libraryOf? job.cell found = some library) (grows : tree.Grows middle)
      (writable : middle.WritableAt (job.target settings.format) place) :
      Ends settings write tree job (.ok ()) (middle.put place
        (.file (some (library.contents settings.format settings.indent))))

theorem run_writeJob (settings : Settings) (job : Job) (library : Liberty.Library) (world : World) :
    (writeJob settings job library : StateM World _).run world =
      match world.tree.makeDirectories job.directory with
      | (later, .error e) =>
        (.error (.unwritable (job.target settings.format) e), { world with tree := later })
      | (later, .ok ()) =>
        match later.write (job.target settings.format)
          (library.contents settings.format settings.indent) with
        | .error e =>
          (.error (.unwritable (job.target settings.format) e), { world with tree := later })
        | .ok last => (.ok (), { world with tree := last }) := by
  rw [writeJob, run_bind, run_makeDirectories]
  rcases world.tree.makeDirectories job.directory with ⟨later, e | ⟨⟩⟩
  · rfl
  · dsimp only
    rw [run_bind, run_write]
    cases later.write (job.target settings.format)
      (library.contents settings.format settings.indent) <;> rfl

theorem ends_writeJob {text : String} {found : List Source.NamedTiming} {library : Liberty.Library}
    (read : world.tree.read job.file = .ok text)
    (timed : Source.modules settings.macros text = .ok found)
    (made : Liberty.libraryOf? job.cell found = some library) :
    ∃ outcome later, job.Ends settings true world.tree outcome later ∧
      (writeJob settings job library : StateM World _).run world =
        (outcome, { world with tree := later }) := by
  have grows : world.tree.Grows _ := FileTree.grows_makeDirectories job.directory
  rw [run_writeJob]
  split
  next later e same =>
    rw [same] at grows
    exact ⟨_, _, .unwritable rfl read timed made grows, rfl⟩
  next later same =>
    rw [same] at grows
    split
    next e _ => exact ⟨_, _, .unwritable rfl read timed made grows, rfl⟩
    next last wrote =>
      obtain ⟨place, writable, rfl⟩ := FileTree.write_eq_ok.mp wrote
      exact ⟨_, _, .written rfl read timed made grows writable, rfl⟩

/-- A job changes nothing but the tree. -/
theorem ends_job (settings : Settings) (write : Bool) (job : Job) (world : World) :
    ∃ outcome later, job.Ends settings write world.tree outcome later ∧
      (job.run settings write : StateM World _).run world =
        (outcome, { world with tree := later }) := by
  rw [Job.run, run_bind, run_read]
  cases read : world.tree.read job.file with
  | error e => exact ⟨_, _, .unreadable read, rfl⟩
  | ok text =>
    cases timed : Source.modules settings.macros text with
    | error failure =>
      refine ⟨_, _, .refused read timed, ?_⟩
      dsimp only
      rw [timed]
      rfl
    | ok found =>
      dsimp only
      rw [timed]
      dsimp only
      split
      next library made =>
        cases write with
        | false => cases made
        | true => exact ends_writeJob read timed made
      next none => exact ⟨_, _, .idle read timed (by simpa using none), rfl⟩

end Jobs

section Runs

/-- Jobs that are run one after the other, each on the tree that the one before it leaves. -/
inductive Runs (settings : Settings) (write : Bool) : FileTree → List Job → Record → FileTree → Prop
  | nil {tree} : Runs settings write tree [] [] tree
  | cons {tree middle last job jobs outcome done}
      (ends : job.Ends settings write tree outcome middle)
      (others : Runs settings write middle jobs done last) :
      Runs settings write tree (job :: jobs) ((job, outcome) :: done) last

variable {settings : Settings} {write : Bool} {tree last : FileTree} {jobs : List Job}
  {done : Record}

theorem Runs.map_job (runs : Runs settings write tree jobs done last) : done.map (·.1) = jobs := by
  induction runs with
  | nil => rfl
  | cons _ _ ih => rw [List.map_cons, ih]

theorem run_runJobs_cons {manner : Manner} {total number failed : Nat} {job : Job} {world : World}
    {middle : FileTree} {outcome : Except JobFailure Unit}
    (ran : (job.run settings write : StateM World _).run world =
      (outcome, { world with tree := middle })) :
    (runJobs manner settings write total number failed (job :: jobs) : StateM World _).run world =
      let (others, after) :=
        (runJobs manner settings write total (number + 1)
          (failed + (Record.failures [(job, outcome)]).length) jobs : StateM World _).run { world with
            tree := middle
            reported := world.reported ++
              if manner.quiet then "" else
                progressLine manner.color number total failed job outcome }
      (Record.failures [(job, outcome)] ++ others, after) := by
  rw [runJobs, run_bind, ran]
  cases quiet : manner.quiet with
  | true =>
    rw [if_pos rfl, String.append_empty]
    cases outcome <;> rfl
  | false =>
    rw [if_neg Bool.false_ne_true]
    cases outcome <;> rfl

/-- Of the jobs before them, jobs need but the number and that of the failures. -/
theorem runs_runJobs (manner : Manner) (settings : Settings) (write : Bool) (total : Nat)
    (before : Record) (jobs : List Job) (world : World) :
    ∃ done last, Runs settings write world.tree jobs done last ∧
      (runJobs manner settings write total (before.length + 1) before.failures.length jobs :
        StateM World _).run world =
        (done.failures, { world with
          tree := last
          reported := world.reported ++
            if manner.quiet then "" else Record.linesAfter manner.color total before done }) := by
  induction jobs generalizing before world with
  | nil =>
    have silent :
        (if manner.quiet then "" else Record.linesAfter manner.color total before []) = "" := by
      split <;> rfl
    refine ⟨[], world.tree, .nil, ?_⟩
    rw [silent, String.append_empty]
    rfl
  | cons job jobs ih =>
    obtain ⟨outcome, middle, ends, ran⟩ := ends_job settings write job world
    obtain ⟨done, last, runs, rest⟩ := ih (before ++ [(job, outcome)]) { world with
      tree := middle
      reported := world.reported ++
        if manner.quiet then "" else
          progressLine manner.color (before.length + 1) total before.failures.length job outcome }
    refine ⟨_, last, .cons ends runs, ?_⟩
    rw [List.length_append, List.length_singleton, Record.failures_append,
      List.length_append] at rest
    rw [run_runJobs_cons ran, rest, Record.linesAfter_cons]
    have whole := Record.failures_append [(job, outcome)] done
    rw [List.singleton_append] at whole
    rw [whole]
    cases manner.quiet <;> simp [String.append_assoc]

end Runs

section Batches

/-- The settings and the file list are there. -/
structure Listed (tree : FileTree) (config : Option String) (options : BatchOptions)
    (settings : Settings) (list : FileList) : Prop where
  loaded : settingsIn tree config = .ok settings
  listed : ∃ text, tree.read options.fileList = .ok text ∧ FileList.ofString? text = some list

def Record.diagnostics (done : Record) : List Diagnostic :=
  done.failures.map fun (job, failure) => failure.diagnostic job.file

/-- What is printed and reported about jobs, and the exit code they lead to. -/
structure Tells (manner : Manner) (options : BatchOptions) (done : Record) (world after : World)
    (code : Nat) : Prop where
  printed : after.printed = world.printed ++
    match options.report with
    | .text => ""
    | .json => (Json.array (done.diagnostics.map Diagnostic.toJson)).pretty ++ "\n"
  reported : after.reported = world.reported ++
    (if manner.quiet then "" else done.lines manner.color) ++
    (if manner.verbose ∧ options.report = .text then
      String.join (done.diagnostics.map (·.text manner.color)) else "") ++
    if manner.quiet then "" else summary done.length (done.failures.map (·.2))
  code : code = if done.failures.isEmpty then 0 else 1

theorem Tells.done_of_zero {manner : Manner} {options : BatchOptions} {done : Record}
    {world after : World} (tells : Tells manner options done world after 0) :
    done = (done.map (·.1)).map fun job => (job, .ok ()) := by
  have code := tells.code
  split at code
  next none => exact Record.eq_of_failures (List.isEmpty_iff.mp none)
  next => cases code

/-- The exit code of a batch and the world it leaves. -/
def runBatch (terminal : Bool) (globals : GlobalOptions) (options : BatchOptions) (world : World) :
    Nat × World :=
  (execute terminal (some (.run globals (.batch options))) : StateM World Nat).run world

variable {settings : Settings} {options : BatchOptions} {list : FileList} {world : World}

theorem runs_batch (terminal : Bool) {globals : GlobalOptions}
    (listed : Listed world.tree globals.config options settings list) :
    ∃ done code after, runBatch terminal globals options world = (code, after) ∧
      Runs settings options.write world.tree (list.jobs options.outdir options.strip) done
        after.tree ∧
      Tells (globals.manner terminal) options done world after code := by
  obtain ⟨text, read, parsed⟩ := listed.listed
  obtain ⟨done, last, runs, ran⟩ := runs_runJobs (globals.manner terminal) settings options.write
    (list.jobs options.outdir options.strip).length []
    (list.jobs options.outdir options.strip) world
  have length : (list.jobs options.outdir options.strip).length = done.length := by
    rw [← runs.map_job, List.length_map]
  rw [runBatch, execute, run_task, Task.attempt, batch, Attempt.on_bind, on_loadSettings,
    listed.loaded]
  dsimp only
  rw [Attempt.on_bind, on_readFile, read]
  dsimp only [Except.mapError]
  rw [parsed]
  dsimp only
  rw [Attempt.on_bind, Attempt.on_lift]
  change (runJobs _ _ _ _ 1 0 _ : StateM World _).run world = _ at ran
  rw [ran]
  dsimp only
  generalize globals.manner terminal = manner at *
  cases report : options.report with
  | text =>
    dsimp only
    rw [Attempt.on_when, Attempt.on_when, Attempt.on_pure]
    refine ⟨done, _, _, rfl, runs, ⟨?_, ?_, rfl⟩⟩
    · rw [report, String.append_empty]
    · cases manner.quiet <;> simp [report, length, Record.lines, Record.diagnostics]
  | json =>
    dsimp only
    rw [Attempt.on_bind, Attempt.on_print]
    dsimp only
    rw [Attempt.on_when, Attempt.on_pure]
    refine ⟨done, _, _, rfl, runs, ⟨?_, ?_, rfl⟩⟩
    · rw [report]
      rfl
    · cases manner.quiet <;> simp [report, length, Record.lines]

end Batches

end CellTiming.Command
