import CellTiming.Command.Batch
import CellTiming.Proofs.Resolution

/-! Where the libraries of a batch go. The cell of a job and the directory and the stem of its file
decide the place, and under plain names of cells nothing else does. -/
namespace CellTiming

namespace Files

theorem single_of_stem? {file stem : String} (found : stem? file = some stem) :
    '/' ∉ stem.toList := by
  obtain ⟨name, named, cut⟩ := Option.map_eq_some_iff.mp found
  have single : '/' ∉ name := by
    unfold fileName? at named
    split at named
    · cases named
    next last _ same =>
      have member : last ∈ segments (splitHead file.toList).2 := by
        rw [← List.mem_reverse]
        exact (List.dropWhile_suffix _).subset (same ▸ List.mem_cons_self)
      split at named
      · cases named
      · cases named
        exact fun inside => (Text.mem_pieces member inside).2 rfl
  split at cut
  · rw [← cut, String.toList_ofList]
    exact single
  · rw [← cut, String.toList_ofList, List.mem_reverse]
    exact fun inside => single (List.mem_reverse.mp ((List.dropWhile_suffix _).subset
      (List.mem_of_mem_drop inside)))

theorem isEntryName_withExtension {stem : String} (single : '/' ∉ stem.toList)
    (format : Liberty.Format) :
    IsEntryName (stem ++ "." ++ format.fileExtension) := by
  have extension : '/' ∉ format.fileExtension.toList ∧ format.fileExtension.toList.length ≥ 3 := by
    cases format <;> decide
  have long : (stem ++ "." ++ format.fileExtension).toList.length ≥ 4 := by
    simp only [String.toList_append, List.length_append]
    have dot : ".".toList.length = 1 := rfl
    omega
  refine ⟨by simp [single, extension.1], ?_, ?_⟩
  · rw [isIdle, Bool.or_eq_false_iff, List.isEmpty_eq_false_iff, beq_eq_false_iff_ne]
    exact ⟨fun none => by simp [none] at long, fun dot => by simp [dot] at long⟩
  · rw [isUp, beq_eq_false_iff_ne]
    exact fun dots => by simp [dots] at long

end Files

namespace Command

open Files (IsEntryName resolve names strippedParent)
open FileTree (Place)

/-- The name of the library of a job, less its extension. -/
def Job.stem (job : Job) : String := (Files.stem? job.file).getD job.cell

section Targets

variable {cell file : String} {job job' : Job} {outdir : String} {strip : Option String}

theorem Job.target_eq (job : Job) (format : Liberty.Format) :
    job.target format = Files.join job.directory (job.stem ++ "." ++ format.fileExtension) := rfl

theorem single_stem (named : IsEntryName job.cell) : '/' ∉ job.stem.toList := by
  unfold Job.stem
  cases found : Files.stem? job.file with
  | none => exact named.single
  | some stem => exact Files.single_of_stem? found

/-- The job is one of a list that is carried out in the given directory. -/
def Job.Placed (job : Job) (outdir : String) (strip : Option String) : Prop :=
  job.directory = Files.outputDirectory outdir job.cell job.file strip

theorem placed_of_mem_jobs {list : FileList} (member : job ∈ list.jobs outdir strip) :
    job.Placed outdir strip := by
  obtain ⟨⟨cell, files⟩, _, member⟩ := List.mem_flatMap.mp member
  obtain ⟨file, _, rfl⟩ := List.mem_map.mp member
  rfl

theorem resolve_target (placed : job.Placed outdir strip) (named : IsEntryName job.cell)
    (here : Place) (format : Liberty.Format) :
    resolve here (job.target format) =
      resolve here outdir ++ job.cell :: (names (strippedParent job.file strip) ++
        [job.stem ++ "." ++ format.fileExtension]) := by
  rw [Job.target_eq,
    Files.resolve_join_name (Files.isEntryName_withExtension (single_stem named) format),
    placed, Files.resolve_outputDirectory, Files.resolve_join_name named]
  simp

/-- What the place of a library is decided by. -/
structure SamePlace (strip : Option String) (job job' : Job) : Prop where
  cell : job.cell = job'.cell
  directory : names (strippedParent job.file strip) = names (strippedParent job'.file strip)
  stem : job.stem = job'.stem

instance (strip : Option String) (job job' : Job) : Decidable (SamePlace strip job job') :=
  decidable_of_iff (job.cell = job'.cell ∧
      names (strippedParent job.file strip) = names (strippedParent job'.file strip) ∧
      job.stem = job'.stem)
    ⟨fun ⟨cell, directory, stem⟩ => ⟨cell, directory, stem⟩,
      fun same => ⟨same.cell, same.directory, same.stem⟩⟩

theorem resolve_target_eq_iff (placed : job.Placed outdir strip)
    (placed' : job'.Placed outdir strip) (named : IsEntryName job.cell)
    (named' : IsEntryName job'.cell) (here : Place) (format : Liberty.Format) :
    resolve here (job.target format) = resolve here (job'.target format) ↔
      SamePlace strip job job' := by
  rw [resolve_target placed named, resolve_target placed' named', List.append_cancel_left_eq,
    List.cons.injEq]
  constructor
  · rintro ⟨cell, others⟩
    obtain ⟨directory, last⟩ := List.append_inj' others rfl
    have same := congrArg String.toList (List.singleton_inj.mp last)
    exact ⟨cell, directory, String.toList_inj.mp (by simpa using same)⟩
  · rintro ⟨cell, directory, stem⟩
    exact ⟨cell, by rw [directory, stem]⟩

end Targets

end Command

end CellTiming
