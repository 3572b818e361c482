import CellTiming.Diagnostic.Sink
import CellTiming.Proofs.Grouping
import CellTiming.Proofs.Jobs
import Mathlib.Data.List.Sort
import Mathlib.Data.String.Basic

/-! A batch that writes nothing. The verdict about a file is that of the file alone; what is counted
at the end does not depend on the order of the files. -/
namespace CellTiming

namespace DiagnosticSink

theorem foldl_emit {diagnostics : List Diagnostic}
    (errors : ∀ d ∈ diagnostics, d.severity.isError = true) (sink : DiagnosticSink) :
    diagnostics.foldl emit sink =
      ⟨sink.pending ++ diagnostics, sink.errorCount + diagnostics.length⟩ := by
  induction diagnostics generalizing sink with
  | nil => simp
  | cons d diagnostics ih =>
    obtain ⟨first, others⟩ := List.forall_mem_cons.mp errors
    rw [List.foldl_cons, ih others]
    simp [emit, first, Nat.add_assoc, Nat.add_comm 1]

end DiagnosticSink

namespace Command

variable {settings : Settings} {tree later : FileTree}

/-- Why the file of a job is not accepted, if it is not. -/
def failure? (settings : Settings) (tree : FileTree) (file : String) : Option JobFailure :=
  match tree.read file with
  | .error e => some (.unreadable file e)
  | .ok text =>
    match Source.modules settings.macros text with
    | .error failure => some (.source failure)
    | .ok _ => none

def verdict (settings : Settings) (tree : FileTree) (file : String) : Except JobFailure Unit :=
  match failure? settings tree file with
  | some failure => .error failure
  | none => .ok ()

def verdicts (settings : Settings) (tree : FileTree) (jobs : List Job) : Record :=
  jobs.map fun job => (job, verdict settings tree job.file)

theorem Job.Ends.dry {job : Job} {outcome : Except JobFailure Unit}
    (ends : job.Ends settings false tree outcome later) :
    outcome = verdict settings tree job.file ∧ later = tree := by
  unfold verdict failure?
  cases ends with
  | unreadable read => simp [read]
  | refused read timed => simp [read, timed]
  | idle read timed => simp [read, timed]
  | unwritable asked | written asked => cases asked

theorem Runs.dry {jobs : List Job} {done : Record}
    (runs : Runs settings false tree jobs done later) :
    done = verdicts settings tree jobs ∧ later = tree := by
  induction runs with
  | nil => exact ⟨rfl, rfl⟩
  | cons ends _ ih =>
    obtain ⟨rfl, rfl⟩ := ends.dry
    obtain ⟨rfl, rfl⟩ := ih
    exact ⟨rfl, rfl⟩

section Counting

theorem failures_verdicts (settings : Settings) (tree : FileTree) (jobs : List Job) :
    (verdicts settings tree jobs).failures = jobs.filterMap fun job =>
      (failure? settings tree job.file).map (job, ·) := by
  rw [Record.failures, verdicts, List.filterMap_map]
  refine List.filterMap_congr fun job _ => ?_
  simp only [Function.comp, verdict]
  cases failure? settings tree job.file <;> rfl

theorem snd_failures_verdicts (settings : Settings) (tree : FileTree) (jobs : List Job) :
    (verdicts settings tree jobs).failures.map (·.2) =
      (jobs.map (·.file)).filterMap (failure? settings tree) := by
  rw [failures_verdicts, List.map_filterMap, List.filterMap_map]
  simp [Function.comp_def]

theorem isError_diagnostic (file : String) (failure : JobFailure) :
    (failure.diagnostic file).severity.isError = true := by
  cases failure <;> rfl

/-- The kinds of failures, each once and in alphabetical order. -/
def kinds (failures : List JobFailure) : List String :=
  (failures.map JobFailure.kindName).eraseDups.mergeSort

theorem mem_kinds {failures : List JobFailure} {kind : String} :
    kind ∈ kinds failures ↔ ∃ failure ∈ failures, failure.kindName = kind := by
  rw [kinds, List.mem_mergeSort, List.mem_eraseDups, List.mem_map]

theorem kinds_ascend (failures : List JobFailure) : (kinds failures).Pairwise (· < ·) := by
  have sorted : (kinds failures).Pairwise (· ≤ ·) := List.pairwise_mergeSort' _ _
  have nodup : (kinds failures).Nodup :=
    (List.mergeSort_perm _ _).nodup_iff.mpr (nodup_eraseDups _)
  exact (sorted.and nodup).imp fun ⟨le, ne⟩ => lt_of_le_of_ne le ne

theorem kinds_perm {failures failures' : List JobFailure} (perm : failures.Perm failures') :
    kinds failures = kinds failures' := by
  refine (kinds_ascend _).eq_of_mem_iff (kinds_ascend _) fun kind => ?_
  simp only [mem_kinds, perm.mem_iff]

end Counting

/-- What a batch says at the end about the failures of its jobs. -/
structure Tally (settings : Settings) (tree : FileTree) (jobs : List Job) : Prop where
  summary : summary jobs.length ((verdicts settings tree jobs).failures.map (·.2)) =
    s!"{(verdicts settings tree jobs).failures.length} out of {jobs.length} failed\n" ++
      if (kinds ((verdicts settings tree jobs).failures.map (·.2))).isEmpty then "" else
        "Error types: " ++
          ", ".intercalate (kinds ((verdicts settings tree jobs).failures.map (·.2))) ++ "\n"
  diagnostics : (verdicts settings tree jobs).diagnostics = jobs.filterMap fun job =>
    (failure? settings tree job.file).map (·.diagnostic job.file)
  emitted : ((verdicts settings tree jobs).diagnostics.foldl DiagnosticSink.emit {}).takeAll =
    (⟨[], (verdicts settings tree jobs).failures.length⟩, (verdicts settings tree jobs).diagnostics)
  count : (verdicts settings tree jobs).failures.length =
    jobs.countP fun job => (failure? settings tree job.file).isSome
  kinds : ∀ kind, kind ∈ kinds ((verdicts settings tree jobs).failures.map (·.2)) ↔
    ∃ job ∈ jobs, ∃ failure, failure? settings tree job.file = some failure ∧
      failure.kindName = kind

section Tallying

variable {jobs : List Job}

theorem tally_verdicts (settings : Settings) (tree : FileTree) (jobs : List Job) :
    Tally settings tree jobs where
  summary := by
    rw [Command.summary, List.length_map]
    rfl
  diagnostics := by
    rw [Record.diagnostics, failures_verdicts, List.map_filterMap]
    simp [Function.comp_def]
  emitted := by
    have errors : ∀ d ∈ (verdicts settings tree jobs).diagnostics, d.severity.isError = true := by
      simp only [Record.diagnostics, List.forall_mem_map]
      exact fun entry _ => isError_diagnostic _ _
    rw [DiagnosticSink.foldl_emit errors]
    simp [DiagnosticSink.takeAll, Record.diagnostics]
  count := by
    rw [failures_verdicts, List.length_filterMap_eq_countP]
    simp
  kinds kind := by
    rw [mem_kinds, snd_failures_verdicts]
    simp only [List.mem_filterMap, List.mem_map]
    constructor
    · rintro ⟨failure, ⟨_, ⟨job, member, rfl⟩, failed⟩, same⟩
      exact ⟨job, member, failure, failed, same⟩
    · rintro ⟨job, member, failure, failed, same⟩
      exact ⟨failure, ⟨_, ⟨job, member, rfl⟩, failed⟩, same⟩

theorem verdict_ne_ok {file : String} :
    verdict settings tree file ≠ .ok () ↔ (failure? settings tree file).isSome = true := by
  unfold verdict
  cases failure? settings tree file <;> simp

theorem exitCode_verdicts {manner : Manner} {options : BatchOptions} {world after : World}
    {code : Nat} (tells : Tells manner options (verdicts settings tree jobs) world after code) :
    code = 1 ↔ ∃ file ∈ jobs.map (·.file), verdict settings tree file ≠ .ok () := by
  have empty : (verdicts settings tree jobs).failures = [] ↔
      ∀ file ∈ jobs.map (·.file), failure? settings tree file = none := by
    rw [← List.map_eq_nil_iff (f := (·.2)), snd_failures_verdicts, List.filterMap_eq_nil_iff]
  simp only [verdict_ne_ok, Option.isSome_iff_ne_none]
  rw [tells.code]
  split
  next none =>
    have all := empty.mp (List.isEmpty_iff.mp none)
    exact iff_of_false Nat.zero_ne_one fun ⟨file, member, some_⟩ => some_ (all file member)
  next some_ =>
    refine iff_of_true rfl ?_
    by_contra none
    exact some_ (List.isEmpty_iff.mpr (empty.mpr (by simpa using none)))

theorem failures_perm {jobs' : List Job} {tree' : FileTree}
    (perm : (jobs.map (·.file)).Perm (jobs'.map (·.file)))
    (same : ∀ file ∈ jobs.map (·.file), tree'.read file = tree.read file) :
    ((verdicts settings tree' jobs').failures.map (·.2)).Perm
      ((verdicts settings tree jobs).failures.map (·.2)) := by
  rw [snd_failures_verdicts, snd_failures_verdicts]
  have alike : (jobs.map (·.file)).filterMap (failure? settings tree') =
      (jobs.map (·.file)).filterMap (failure? settings tree) :=
    List.filterMap_congr fun file member => by rw [failure?, failure?, same file member]
  exact alike ▸ (perm.symm.filterMap _)

end Tallying

theorem files_jobs (list : FileList) (outdir : String) (strip : Option String) :
    (list.jobs outdir strip).map (·.file) = list.flatMap (·.2) := by
  rw [FileList.jobs, List.map_flatMap]
  simp [Function.comp_def]

/-- What a batch prints and reports when it writes nothing. -/
theorem tells_verdicts (terminal : Bool) {globals : GlobalOptions} {options : BatchOptions}
    {list : FileList} {world : World}
    (listed : Listed world.tree globals.config options settings list) (dry : options.write = false) :
    ∃ code after, runBatch terminal globals options world = (code, after) ∧
      after.tree = world.tree ∧
      Tells (globals.manner terminal) options
        (verdicts settings world.tree (list.jobs options.outdir options.strip)) world after code := by
  obtain ⟨done, code, after, ran, runs, tells⟩ := runs_batch terminal listed
  rw [dry] at runs
  obtain ⟨rfl, same⟩ := runs.dry
  exact ⟨code, after, ran, same, tells⟩

/-- Without writing, a batch gives every file its verdict. The verdict is the one that the file has
in a list of its own; the failures are told in the order of the jobs and counted with their kinds,
and the exit code tells whether there are any. Another order of the cells or of their files changes
neither the count nor the kinds nor the exit code. -/
theorem batch_verdicts (terminal : Bool) (globals : GlobalOptions) (options : BatchOptions)
    (settings : Settings) (list : FileList) (world : World)
    (listed : Listed world.tree globals.config options settings list)
    (dry : options.write = false) :
    ∃ code after done, runBatch terminal globals options world = (code, after) ∧
      done = verdicts settings world.tree (list.jobs options.outdir options.strip) ∧
      after.tree = world.tree ∧ Tells (globals.manner terminal) options done world after code ∧
      Tally settings world.tree (list.jobs options.outdir options.strip) ∧
      (code = 1 ↔ ∃ file ∈ list.flatMap (·.2), verdict settings world.tree file ≠ .ok ()) ∧
      (∀ file ∈ list.flatMap (·.2), ∀ terminal' globals' options' cell world',
        Listed world'.tree globals'.config options' settings [(cell, [file])] →
        options'.write = false → world'.tree.read file = world.tree.read file →
        ∃ code' after' directory, runBatch terminal' globals' options' world' = (code', after') ∧
          Tells (globals'.manner terminal') options'
            [(⟨cell, file, directory⟩, verdict settings world.tree file)] world' after' code') ∧
      ∀ terminal' globals' options' list' world',
        Listed world'.tree globals'.config options' settings list' → options'.write = false →
        (list.flatMap (·.2)).Perm (list'.flatMap (·.2)) →
        (∀ file ∈ list.flatMap (·.2), world'.tree.read file = world.tree.read file) →
        ∃ after' done', runBatch terminal' globals' options' world' = (code, after') ∧
          done' = verdicts settings world'.tree (list'.jobs options'.outdir options'.strip) ∧
          Tells (globals'.manner terminal') options' done' world' after' code ∧
          done'.failures.length = done.failures.length ∧
          kinds (done'.failures.map (·.2)) = kinds (done.failures.map (·.2)) := by
  obtain ⟨code, after, ran, same, tells⟩ := tells_verdicts terminal listed dry
  have exits := exitCode_verdicts tells
  rw [files_jobs] at exits
  refine ⟨code, after, _, ran, rfl, same, tells, tally_verdicts _ _ _, exits, ?alone, ?reordered⟩
  case alone =>
    intro file _ terminal' globals' options' cell world' listed' dry' same'
    obtain ⟨code', after', ran', _, tells'⟩ := tells_verdicts terminal' listed' dry'
    have alike : verdict settings world'.tree file = verdict settings world.tree file := by
      rw [verdict, verdict, failure?, failure?, same']
    change Tells _ _ [(_, verdict settings world'.tree file)] _ _ _ at tells'
    rw [alike] at tells'
    exact ⟨code', after', _, ran', tells'⟩
  case reordered =>
    intro terminal' globals' options' list' world' listed' dry' perm same'
    obtain ⟨code', after', ran', _, tells'⟩ := tells_verdicts terminal' listed' dry'
    rw [← files_jobs list options.outdir options.strip,
      ← files_jobs list' options'.outdir options'.strip] at perm
    rw [← files_jobs list options.outdir options.strip] at same'
    have alike : ((verdicts settings world'.tree _).failures.map (·.2)).Perm
        ((verdicts settings world.tree _).failures.map (·.2)) := failures_perm perm same'
    have count := alike.length_eq
    rw [List.length_map, List.length_map] at count
    have codes : code' = code := by
      rw [tells.code, tells'.code]
      simp only [List.isEmpty_iff_length_eq_zero, count]
    exact ⟨after', _, codes ▸ ran', rfl, codes ▸ tells', count, kinds_perm alike⟩

private def threeFiles : FileTree where
  entries := [
    (["cells.json"], .file "\x7b\"inv\": [\"bad.v\", \"gone.v\"], \"buf\": [\"buf.v\"]\x7d"),
    (["bad.v"], .file "module inv; specify (A => Y) = ; endspecify endmodule"),
    (["buf.v"], .file "module buf; specify (A => Y) = 1; endspecify endmodule")]

private def reading : BatchOptions :=
  { fileList := "cells.json", outdir := "out", strip := none, write := false, report := .text }

theorem batch_verdicts_three_files :
    Listed threeFiles none reading {} [("inv", ["bad.v", "gone.v"]), ("buf", ["buf.v"])] ∧
      reading.write = false ∧
      ∃ after, runBatch false {} reading { tree := threeFiles } = (1, after) ∧
        after.reported =
          "[00001/00003,failed=00000] inv : bad.v | ERROR : SyntaxError\n" ++
          "[00002/00003,failed=00001] inv : gone.v | ERROR : IoError\n" ++
          "[00003/00003,failed=00002] buf : buf.v | DONE\n" ++
          "2 out of 3 failed\nError types: IoError, SyntaxError\n" := by
  have listed : Listed threeFiles none reading {}
      [("inv", ["bad.v", "gone.v"]), ("buf", ["buf.v"])] :=
    ⟨by decide +kernel, _, rfl, by decide +kernel⟩
  obtain ⟨code, after, done, ran, rfl, _, tells, _, exits, _⟩ :=
    batch_verdicts false {} reading {} _ { tree := threeFiles } listed rfl
  have gone : verdict {} threeFiles "gone.v" ≠ .ok () := by decide +kernel
  obtain rfl := exits.mpr ⟨"gone.v", by decide, gone⟩
  refine ⟨listed, rfl, after, ran, tells.reported.trans ?_⟩
  rw [summary, List.mergeSort_eq_insertionSort (· ≤ ·)]
  decide +kernel

end Command

end CellTiming
