import Recompile.Proofs.Build.World
import Recompile.Proofs.Store.Steps
import Recompile.Site

/-!
# Builds that fail

A build that fails leaves the snapshots as they were, whatever step it fails in, and one that
succeeds leaves those of other tasks (`execute_remembers`). The steps of a save can fail as the tree
has them fail, and the system may refuse a step besides, as when it grants no access or has no room
left (`Refusal`). What is left behind then is directories and temporary files, and none of them is
ever read as a snapshot (`FileTree.Spares`).

There is one way to notice a build that failed. If the path of the store is not anchored, the
directories that were made may bring snapshots within reach that had been out of reach
(`execute_aroundMissing`). No snapshot within reach is ever lost.
-/

namespace Recompile

open DirectoryStore FileTree

/-! ## Refused steps -/

/-- The step of a save that the system refuses although the tree allows it. -/
inductive Refusal where
  /-- The directory cannot be made, but directories up to some path are. -/
  | makeDirectory (made : Path)
  /-- The temporary file cannot be opened, or only so many bytes of it are written. -/
  | write (written : Option Nat)
  /-- The temporary file cannot be renamed; perhaps it can still be removed. -/
  | rename (removed : Bool)

namespace DirectoryStore

/-- A save that goes on in the given way once the directory is there and the content is known. -/
def saveWith (s : DirectoryStore) (t : FileTree) (task : String) (snapshot : Snapshot)
    (write : FileTree → Bytes → FileTree × Except StoreError Unit) :
    FileTree × Except StoreError Unit :=
  match s.prepare t with
  | (t, .error e) => (t, .error e)
  | (t, .ok ()) =>
    match SnapshotFile.encode s.producer task snapshot with
    | .error fault => (t, .error (.coding fault))
    | .ok content => write t content

/-- A save in which the system refuses a step, with the cause that it gives. -/
def saveRefused (s : DirectoryStore) (refusal : Refusal) (cause : FileError) (t : FileTree)
    (task : String) (snapshot : Snapshot) : FileTree × Except StoreError Unit :=
  match refusal with
  | .makeDirectory made => ((t.makeDirectories made).1, .error (.inaccessible s.dir cause))
  | .write written =>
    s.saveWith t task snapshot fun t content =>
      ((written.bind fun n => (s.stage t task (content.take n)).toOption).getD t,
        .error (.inaccessible (s.stagingPath task) cause))
  | .rename removed =>
    s.saveWith t task snapshot fun t content =>
      match s.stage t task content with
      | .error e => (t, .error e)
      | .ok t =>
        (if removed then (t.remove (s.stagingPath task)).toOption.getD t else t,
          .error (.inaccessible (s.snapshotPath task) cause))

end DirectoryStore

/-- The store of a site on a system that refuses a step of every save, if there is a refusal. -/
abbrev Site.refusing (refusal : Option (Refusal × FileError)) : SnapshotStore Site where
  load := Site.load
  save site task snapshot :=
    match refusal, site.store with
    | some (refusal, cause), .directory store =>
      let (tree, result) := store.saveRefused refusal cause site.tree task snapshot
      pure ({ site with tree }, result)
    | _, _ => site.save task snapshot

/-- On a system that refuses nothing this is the build of the site. -/
theorem Site.build_eq_execute (site : Site) (spec : TaskSpec) (compile : Compiler)
    (watched : PathSet) : site.build spec compile watched =
      @Build.execute Site (refusing none) site.tree.disk site.tree.nameCount site spec compile
        watched :=
  rfl

/-! ## What is spared -/

namespace FileTree

/-- The second tree has the directories of the first, and the same snapshot files of a task. -/
structure Spares (task : String) (t t' : FileTree) : Prop where
  keeps : t.Keeps t'
  file : ∀ place,
    t'.fileAt? (snapshotName task :: place) = t.fileAt? (snapshotName task :: place)

namespace Spares

variable {task : String} {t t' t'' : FileTree} {s : DirectoryStore}

theorem trans (h : Spares task t t') (h' : Spares task t' t'') : Spares task t t'' :=
  ⟨h.keeps.trans h'.keeps, fun place => (h'.file place).trans (h.file place)⟩

theorem of_grows (h : t.Grows t') (task : String) : Spares task t t' :=
  ⟨h.toKeeps, fun place => h.fileAt? (snapshotName task :: place)⟩

/-- A step that does not put a snapshot in place spares all of them. -/
theorem of_effect {saving : Saving} {phase : Phase} (h : saving.Effect phase t t')
    (hphase : phase ≠ .done) (task : String) : Spares task t t' :=
  ⟨h.keeps, fun place => h.other _ place (snapshotName_ne_stagingName _ _)
    fun hdone => absurd hdone hphase⟩

/-- A snapshot that can be loaded is loaded still. -/
theorem load (h : Spares task t t') {snapshot : Snapshot}
    (hload : (s.load t task).value = some snapshot) : (s.load t' task).value = some snapshot := by
  rw [value_load_eq] at hload
  obtain ⟨content, hread, -⟩ := Option.bind_eq_some_iff.1 hload
  obtain ⟨hfault, hsize, place, henter, hfile⟩ :=
    (read_joinText_eq_ok (isName_snapshotName task)).1 (Except.toOption_eq_some.1 hread)
  have hread' : t'.read (s.snapshotPath task) = .ok content :=
    (read_joinText_eq_ok (isName_snapshotName task)).2
      ⟨hfault, hsize, place, enter_keeps h.keeps henter, (h.file place).trans hfile⟩
  rw [value_load_eq, hread', ← Except.toOption_eq_some.1 hread]
  exact hload

/-- If the path of the store is anchored, what cannot be loaded cannot be loaded still. -/
theorem load_eq (h : Spares task t t') (hanchored : t.Anchored s.dir) :
    (s.load t' task).value = (s.load t task).value := by
  obtain ⟨place, hleads⟩ := hanchored.leads
  refine load_congr ?_
  rw [snapshotPath_eq]
  obtain hread | hread := hleads.toOption_read (isName_snapshotName task)
  · rw [hread _ h.keeps, hread _ (.refl t), h.file]
  · rw [hread _ h.keeps, hread _ (.refl t)]

end Spares

end FileTree

namespace DirectoryStore

variable {s : DirectoryStore} {t t' : FileTree} {task : String} {snapshot : Snapshot}

/-- A save that nothing but the tree hinders spares all snapshots, or all but its own. -/
theorem spares_save {result : Except StoreError Unit}
    (h : (s.save t task snapshot).value = (t', result)) {task' : String}
    (hresult : result.isOk = true → key task ≠ key task') : Spares task' t t' := by
  let saving : Unit → Saving := fun _ => ⟨s, task, snapshot⟩
  have hsteps := @saveSteps_save Unit _ saving (.start t) () rfl t' result h
  have hinvariant := Moment.Invariant.steps (fun _ _ _ => rfl) hsteps
  refine ⟨hinvariant.keeps, fun place => ?_⟩
  obtain hold | ⟨⟨⟩, hdone, hkey, -⟩ := hinvariant.file task' place
  · exact hold
  · rw [Moment.phase_advance] at hdone
    split at hdone
    · next hok => exact absurd hkey (hresult hok)
    · cases hdone

theorem spares_saveWith {write : FileTree → Bytes → FileTree × Except StoreError Unit}
    {task' : String} (hwrite : ∀ t content, Spares task' t (write t content).1) :
    Spares task' t (s.saveWith t task snapshot write).1 := by
  have hprepare := Spares.of_grows (s.grows_prepare t) task'
  unfold saveWith
  split
  · next h => rwa [h] at hprepare
  · next t₁ h =>
    rw [h] at hprepare
    split
    · exact hprepare
    · exact hprepare.trans (hwrite t₁ _)

theorem spares_stage {content : Bytes} (h : s.stage t task content = .ok t') (task' : String) :
    Spares task' t t' := by
  have heffect : Saving.Effect ⟨s, task, ∅⟩ .prepared t t' := .of_stage h nofun nofun
  exact .of_effect heffect nofun task'

theorem spares_unstage (s : DirectoryStore) (t : FileTree) (task task' : String) :
    Spares task' t ((t.remove (s.stagingPath task)).toOption.getD t) := by
  cases hremove : t.remove (s.stagingPath task) with
  | error e => exact .of_grows (.refl t) task'
  | ok t' =>
    obtain ⟨-, -, place, -, -, rfl⟩ :=
      (remove_joinText_eq_ok (isName_stagingName task)).1 hremove
    refine ⟨keeps_dropFile .., fun q => ?_⟩
    rw [Except.toOption, Option.getD_some, fileAt?_dropFile, if_neg]
    exact fun heq => snapshotName_ne_stagingName _ _ (List.cons.inj heq).1

/-- A save that is refused spares all snapshots. -/
theorem spares_saveRefused (s : DirectoryStore) (refusal : Refusal) (cause : FileError)
    (t : FileTree) (task : String) (snapshot : Snapshot) (task' : String) :
    Spares task' t (s.saveRefused refusal cause t task snapshot).1 := by
  cases refusal with
  | makeDirectory made => exact .of_grows (grows_makeDirectories t made) task'
  | write written =>
    refine spares_saveWith fun t content => ?_
    cases written with
    | none => exact .of_grows (.refl t) task'
    | some n =>
      dsimp only [Option.bind_some]
      cases hstage : s.stage t task (content.take n) with
      | error e => exact .of_grows (.refl t) task'
      | ok t' => exact spares_stage hstage task'
  | rename removed =>
    refine spares_saveWith fun t content => ?_
    cases hstage : s.stage t task content with
    | error e => exact .of_grows (.refl t) task'
    | ok t' =>
      have hstaged := spares_stage hstage task'
      dsimp only
      split
      · exact hstaged.trans (s.spares_unstage t' task task')
      · exact hstaged

end DirectoryStore

/-- A store in memory keeps the snapshots of other tasks, and all of them if a save fails. -/
theorem MemoryStore.load?_save {store store' : MemoryStore} {task task' : String}
    {snapshot : Snapshot} {result : Except StoreError Unit}
    (h : store.save task snapshot = (store', result))
    (hresult : result.isOk = true → key task ≠ key task') :
    store'.load? task' = store.load? task' := by
  unfold save at h
  split at h
  · cases h
    rfl
  · next hpoisoned =>
    cases h
    have hne : compare task' task ≠ .eq := fun heq =>
      hresult rfl (congrArg key (Std.LawfulEqCmp.compare_eq_iff_eq.1 heq).symm)
    rw [load?, load?, if_neg hpoisoned, if_neg hpoisoned, Table.find?_insert, if_neg hne]

/-! ## Sites -/

namespace Site

/-- The path of the store is anchored. A store in memory has no path. -/
def Settled (site : Site) : Prop :=
  match site.store with
  | .memory _ => True
  | .directory store => site.tree.Anchored store.dir

/-- Every snapshot of a task that was there to be loaded is loaded from the second site, too, and if
the first one is settled no other is. -/
structure Remembers (site : Site) (task : String) (site' : Site) : Prop where
  load : ∀ snapshot, (site.load task).value = some snapshot →
    (site'.load task).value = some snapshot
  load_eq : site.Settled → (site'.load task).value = (site.load task).value

variable {site site' : Site} {tree tree' : FileTree} {task task' : String} {snapshot : Snapshot}

theorem value_load_directory (tree : FileTree) (store : DirectoryStore) (task : String) :
    (load ⟨tree, .directory store⟩ task).value = (store.load tree task).value :=
  rfl

theorem value_load_memory (tree : FileTree) (store : MemoryStore) (task : String) :
    (load ⟨tree, .memory store⟩ task).value = store.load? task :=
  rfl

namespace Remembers

theorem refl (task : String) (site : Site) : site.Remembers task site :=
  ⟨fun _ h => h, fun _ => rfl⟩

theorem of_spares (store : DirectoryStore) (h : Spares task tree tree') :
    Remembers ⟨tree, .directory store⟩ task ⟨tree', .directory store⟩ := by
  constructor
  · intro snapshot hload
    rw [value_load_directory] at hload ⊢
    exact h.load hload
  · intro hsettled
    rw [value_load_directory, value_load_directory]
    exact h.load_eq hsettled

theorem of_load? {store store' : MemoryStore} (h : store'.load? task = store.load? task) :
    Remembers ⟨tree, .memory store⟩ task ⟨tree, .memory store'⟩ := by
  have hload : (Site.load ⟨tree, .memory store'⟩ task).value =
      (Site.load ⟨tree, .memory store⟩ task).value := by
    rw [value_load_memory, value_load_memory, h]
  exact ⟨fun snapshot hsnapshot => hload.trans hsnapshot, fun _ => hload⟩

end Remembers

/-- The save of a snapshot leaves those of other tasks, and all of them if it fails. -/
theorem remembers_save {refusal : Option (Refusal × FileError)} {result : Except StoreError Unit}
    (h : ((refusing refusal).save site task snapshot).value = (site', result))
    (hresult : result.isOk = true → key task ≠ key task') : site.Remembers task' site' := by
  obtain ⟨tree, store | store⟩ := site
  · have hsave : ((refusing refusal).save ⟨tree, .memory store⟩ task snapshot).value =
        (⟨tree, .memory (store.save task snapshot).1⟩, (store.save task snapshot).2) := by
      cases refusal <;> rfl
    obtain ⟨rfl, rfl⟩ := Prod.mk.inj (hsave.symm.trans h)
    exact .of_load? (MemoryStore.load?_save (Prod.eta _).symm hresult)
  · cases refusal with
    | none =>
      obtain ⟨rfl, rfl⟩ := Prod.mk.inj h
      exact .of_spares store (spares_save (Prod.eta _).symm hresult)
    | some refusal =>
      obtain ⟨rfl, -⟩ := Prod.mk.inj h
      exact .of_spares store (store.spares_saveRefused ..)

end Site

/-- **A build that fails leaves the snapshots alone.** The system may refuse any step of the save.
If the build fails, for whatever reason, every task is recalled as before. The compiler is asked
only if every source can be read. If the build succeeds, every task with another key is recalled as
before. -/
theorem execute_remembers (refusal : Option (Refusal × FileError)) (disk : Disk) (limit : Nat)
    (site : Site) (spec : TaskSpec) (compile : Compiler) (watched : PathSet) :
    let b :=
      (@Build.execute Site (Site.refusing refusal) disk limit site spec compile watched).value
    (∀ e, b.outcome = .error e → ∀ task, site.Remembers task b.store) ∧
    (b.request.isSome = true → ∀ s ∈ spec.sources, ∃ content, disk.read s.normalize = .ok content) ∧
    ∀ result, b.outcome = .ok result → ∀ task, key spec.task ≠ key task →
      site.Remembers task b.store := by
  intro b
  have hends : @Build.Ends Site (Site.refusing refusal) disk limit site spec compile b :=
    @Build.execute_ends Site (Site.refusing refusal) disk limit site spec compile watched
  clear_value b
  have hreadable {c : Compilation}
      (hcompute : @Build.comparison Site (Site.refusing refusal) disk limit site spec = .ok c) :
      ∀ s ∈ spec.sources, ∃ content, disk.read s.normalize = .ok content :=
    fun s hs => Compilation.compute_readable hcompute hs
  cases hends with
  | unsurveyed _ hcompute =>
    exact ⟨fun _ _ task => .refl task site, nofun, nofun⟩
  | failed _ hcompute _ =>
    exact ⟨fun _ _ task => .refl task site, fun _ => hreadable hcompute, nofun⟩
  | unsaved _ hcompute _ hsave =>
    exact ⟨fun _ _ task => Site.remembers_save hsave nofun, fun _ => hreadable hcompute, nofun⟩
  | done _ hcompute _ hsave =>
    exact ⟨nofun, fun _ => hreadable hcompute,
      fun _ _ task hkey => Site.remembers_save hsave fun _ => hkey⟩

/-- A task without sources. -/
def idleTask (task : String) : TaskSpec := ⟨task, [], [], true, true⟩

/-- The room is used up after three bytes of the temporary file, which stay behind. -/
theorem execute_remembers_noRoom :
    let site : Site := ⟨savedBelow, .directory ⟨.ofText "c", "1"⟩⟩
    let refusal : Refusal × FileError := (.write (some 3), .other "No space left on device")
    let b := (@Build.execute Site (Site.refusing (some refusal)) savedBelow.disk 0 site
      (idleTask "b") Build.recording ∅).value
    b.outcome.isOk = false ∧ (b.store.tree.fileAt? [stagingName "b", "c"]).isSome = true ∧
      (site.load "a").value.isSome = true ∧ (b.store.load "a").value = (site.load "a").value := by
  intro site refusal b
  have hfailed : b.outcome.isOk = false := by decide +kernel
  have hsettled : site.Settled := anchored_of_notMem savedBelow (by decide)
  refine ⟨hfailed, by decide +kernel, by decide +kernel, ?_⟩
  obtain ⟨hremembers, -, -⟩ :=
    execute_remembers (some refusal) savedBelow.disk 0 site (idleTask "b") Build.recording ∅
  cases houtcome : b.outcome with
  | error e => exact (hremembers e houtcome "a").load_eq hsettled
  | ok result =>
    rw [houtcome] at hfailed
    cases hfailed

/-- A directory stands in the way of the temporary file of `b`. -/
def blockedBelow : FileTree := savedBelow.putDirectory ["c"] (stagingName "b")

/-- Where the path of the store is not anchored, a build that fails may bring the snapshot of
another task within reach. -/
theorem execute_aroundMissing :
    let site : Site := ⟨blockedBelow, .directory aroundMissing.store⟩
    let b := (site.build (idleTask "b") Build.recording ∅).value
    b.outcome.isOk = false ∧ (site.load "a").value.isNone = true ∧
      (b.store.load "a").value.isSome = true := by
  decide +kernel

end Recompile
