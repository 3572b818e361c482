import CellTiming.Command.Run

/-! Tasks in a world that is a file tree with what has been printed and reported. What a task reads
it finds in the tree; it gives up without having changed any file. -/
namespace CellTiming.Command

variable {α β : Type} {world : World}

section Files

theorem run_bind (action : StateM World α) (next : α → StateM World β) :
    (action >>= next).run world = (next (action.run world).1).run (action.run world).2 := rfl

theorem run_read (path : String) :
    (Host.read path : StateM World _).run world = (world.tree.read path, world) := rfl

theorem run_write (path text : String) :
    (Host.write path text : StateM World _).run world =
      match world.tree.write path text with
      | .ok tree => (.ok (), { world with tree })
      | .error e => (.error e, world) := by
  change (World.write path text).run world = _
  rw [World.write, StateT.run_bind, StateT.run_get, pure_bind]
  cases wrote : world.tree.write path text <;> rfl

theorem run_makeDirectories (path : String) :
    (Host.makeDirectories path : StateM World _).run world =
      ((world.tree.makeDirectories path).2,
        { world with tree := (world.tree.makeDirectories path).1 }) := rfl

end Files

/-- What becomes of a task that may give up, and of the world it is run in. -/
def Attempt.on (attempt : Attempt (StateM World) α) (world : World) : Except Abort α × World :=
  attempt.run.run world

namespace Attempt

theorem on_pure (a : α) : (pure a : Attempt (StateM World) α).on world = (.ok a, world) := rfl

theorem on_bind (attempt : Attempt (StateM World) α) (next : α → Attempt (StateM World) β) :
    (attempt >>= next).on world =
      match attempt.on world with
      | (.ok a, world) => (next a).on world
      | (.error abort, world) => (.error abort, world) := by
  unfold on
  rw [ExceptT.run_bind, StateT.run_bind]
  rcases attempt.run.run world with ⟨_ | _, _⟩ <;> rfl

theorem on_lift (action : StateM World α) :
    (liftM action : Attempt (StateM World) α).on world =
      (.ok (action.run world).1, (action.run world).2) := rfl

theorem on_read (path : String) :
    (Host.read path : Attempt (StateM World) _).on world = (.ok (world.tree.read path), world) := rfl

theorem on_isFile (path : String) :
    (Host.isFile path : Attempt (StateM World) _).on world =
      (.ok (world.tree.isFile path), world) := rfl

theorem on_print (text : String) :
    (Host.print text : Attempt (StateM World) _).on world =
      (.ok (), { world with printed := world.printed ++ text }) := rfl

theorem on_report (text : String) :
    (Host.report text : Attempt (StateM World) _).on world =
      (.ok (), { world with reported := world.reported ++ text }) := rfl

theorem on_write (path text : String) :
    (Host.write path text : Attempt (StateM World) _).on world =
      match world.tree.write path text with
      | .ok tree => (.ok (.ok ()), { world with tree })
      | .error e => (.ok (.error e), world) := by
  change (fun p => (Except.ok p.1, p.2)) ((Host.write path text : StateM World _).run world) = _
  rw [run_write]
  cases wrote : world.tree.write path text <;> rfl

theorem on_ite {c : Prop} [Decidable c] (first second : Attempt (StateM World) α) :
    (if c then first else second).on world = if c then first.on world else second.on world := by
  split <;> rfl

theorem on_when (c : Bool) (text : String) (next : Attempt (StateM World) α) :
    (if c then do Host.report text; next else next).on world =
      next.on { world with reported := world.reported ++ if c then text else "" } := by
  cases c with
  | true => rw [if_pos rfl, on_bind, on_report, if_pos rfl]
  | false => rw [if_neg Bool.false_ne_true, if_neg Bool.false_ne_true, String.append_empty]

/-- From a tree the task comes to a result and leaves a tree, whatever has been printed. -/
def Ends (attempt : Attempt (StateM World) α) (tree : FileTree) (result : Except Abort α)
    (later : FileTree) : Prop :=
  ∀ world, world.tree = tree →
    ∃ printed reported, attempt.on world = (result, { tree := later, printed, reported })

section Ending

variable {tree middle later : FileTree} {a : α}

theorem ends_pure (a : α) (tree : FileTree) : Ends (pure a) tree (.ok a) tree := by
  rintro world rfl
  exact ⟨_, _, rfl⟩

theorem ends_throw (abort : Abort) (tree : FileTree) :
    Ends (throw abort : Attempt (StateM World) α) tree (.error abort) tree := by
  rintro world rfl
  exact ⟨_, _, rfl⟩

theorem ends_print (text : String) (tree : FileTree) :
    Ends (Host.print text) tree (.ok ()) tree := by
  rintro world rfl
  exact ⟨_, _, rfl⟩

theorem ends_report (text : String) (tree : FileTree) :
    Ends (Host.report text) tree (.ok ()) tree := by
  rintro world rfl
  exact ⟨_, _, rfl⟩

theorem ends_written {path text : String} (wrote : tree.write path text = .ok later) :
    Ends (Host.write path text) tree (.ok (.ok ())) later := by
  rintro world rfl
  rw [on_write, wrote]
  exact ⟨_, _, rfl⟩

theorem ends_unwritten {path text : String} {e : FileError}
    (failed : tree.write path text = .error e) :
    Ends (Host.write path text) tree (.ok (.error e)) tree := by
  rintro world rfl
  rw [on_write, failed]
  exact ⟨_, _, rfl⟩

theorem Ends.bind {first : Attempt (StateM World) α} {next : α → Attempt (StateM World) β}
    {result : Except Abort β} (ends : Ends first tree (.ok a) middle)
    (others : Ends (next a) middle result later) : Ends (first >>= next) tree result later := by
  intro world here
  obtain ⟨printed, reported, ran⟩ := ends world here
  rw [on_bind, ran]
  exact others _ rfl

theorem Ends.abort {first : Attempt (StateM World) α} {next : α → Attempt (StateM World) β}
    {abort : Abort} (ends : Ends first tree (.error abort) later) :
    Ends (first >>= next) tree (.error abort) later := by
  intro world here
  obtain ⟨printed, reported, ran⟩ := ends world here
  rw [on_bind, ran]
  exact ⟨printed, reported, rfl⟩

theorem Ends.ite {c : Prop} [Decidable c] {first second : Attempt (StateM World) α}
    {result : Except Abort α} (ends : Ends first tree result later)
    (other : Ends second tree result later) :
    Ends (if c then first else second) tree result later := by
  split
  · exact ends
  · exact other

theorem ends_note (manner : Manner) (text : String) (tree : FileTree) :
    Ends (note manner text) tree (.ok ()) tree :=
  (ends_pure () tree).ite (ends_report _ tree)

theorem ends_reportFailure (manner : Manner) (settings : Settings) (input text : String)
    (failure : Source.Failure) (tree : FileTree) :
    Ends (reportFailure manner settings input text failure) tree (.ok ()) tree := by
  refine (ends_report _ tree).bind (.ite ?_ (ends_pure () tree))
  split
  · exact ends_report _ tree
  · exact ends_pure () tree

end Ending

end Attempt

section Reading

/-- The settings in a file. -/
def settingsAt (tree : FileTree) (path : String) : Except Abort Settings :=
  match tree.read path with
  | .error e => .error (.settingsUnreadable e)
  | .ok text => (Settings.ofString text).mapError .settings

/-- The settings that a task finds in a tree. -/
def settingsIn (tree : FileTree) : Option String → Except Abort Settings
  | some path => settingsAt tree path
  | none => if tree.isFile settingsFile then settingsAt tree settingsFile else .ok {}

theorem on_readSettings (path : String) :
    (readSettings path : Attempt (StateM World) _).on world =
      (settingsAt world.tree path, world) := by
  rw [readSettings, Attempt.on_bind, Attempt.on_read, settingsAt]
  cases world.tree.read path with
  | error e => rfl
  | ok text =>
    dsimp only
    cases Settings.ofString text <;> rfl

theorem on_loadSettings (config : Option String) :
    (loadSettings config : Attempt (StateM World) _).on world =
      (settingsIn world.tree config, world) := by
  cases config with
  | some path => exact on_readSettings path
  | none =>
    rw [loadSettings, Attempt.on_bind, Attempt.on_isFile, settingsIn]
    dsimp only
    rw [Attempt.on_ite, on_readSettings, Attempt.on_pure]
    split <;> rfl

theorem on_readFile (path : String) :
    (readFile path : Attempt (StateM World) _).on world =
      ((world.tree.read path).mapError (.unreadable path), world) := by
  rw [readFile, Attempt.on_bind, Attempt.on_read]
  cases world.tree.read path <;> rfl

theorem Attempt.ends_loadSettings (config : Option String) (tree : FileTree) :
    Ends (loadSettings config) tree (settingsIn tree config) tree := by
  rintro world rfl
  exact ⟨_, _, on_loadSettings config⟩

theorem Attempt.ends_readFile (path : String) (tree : FileTree) :
    Ends (readFile path) tree ((tree.read path).mapError (.unreadable path)) tree := by
  rintro world rfl
  exact ⟨_, _, on_readFile path⟩

end Reading

/-- A task that gives up ends with the code of a failure. -/
def exitCode : Except Abort Nat → Nat
  | .ok code => code
  | .error _ => 1

/-- A task that gives up says why. -/
theorem run_task (task : Task) (terminal : Bool) (globals : GlobalOptions) :
    (task.run terminal globals : StateM World Nat).run world =
      match (task.attempt terminal globals).on world with
      | (.ok code, world) => (code, world)
      | (.error abort, world) =>
        (1, { world with reported := world.reported ++ s!"error: {abort.message}\n" }) := by
  rw [Task.run, StateT.run_bind, Attempt.on]
  rcases (task.attempt terminal globals : Attempt (StateM World) Nat).run.run world
    with ⟨_ | _, _⟩ <;> rfl

theorem Attempt.Ends.run_task (task : Task) {terminal : Bool} {globals : GlobalOptions}
    {later : FileTree} {result : Except Abort Nat}
    (ends : Ends (task.attempt terminal globals) world.tree result later) :
    ∃ after, (task.run terminal globals : StateM World Nat).run world = (exitCode result, after) ∧
      after.tree = later := by
  obtain ⟨printed, reported, ran⟩ := ends world rfl
  rw [Command.run_task, ran]
  cases result <;> exact ⟨_, rfl, rfl⟩

end CellTiming.Command
