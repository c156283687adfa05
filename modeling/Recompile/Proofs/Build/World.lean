import Recompile.Build
import Recompile.Store.Memory
import Recompile.Proofs.Diff.IncludeClosure

/-!
# Histories of a task

A `World` is all that a task meets: the disk, the store with its snapshot, and the outputs, each
known by the include closure that it was made from. In a history (`World.Run`) files are edited, the
snapshot is lost, and the task is built, in any order and with any specification each time. A build
ends in one of five ways (`Verdict`); it touches the world only when the compiler was done
(`World.Step.built_cases`).
-/

namespace Recompile

/-! ## One build -/

/-- How a build comes out. -/
inductive Verdict where
  | done
  | unreadable
  | endless
  | failed
  | unsaved
  deriving DecidableEq

/-- Whether the build came to its end before the compiler was done. -/
def Verdict.isStopped : Verdict → Bool
  | unreadable | endless | failed => true
  | done | unsaved => false

theorem Verdict.cases (v : Verdict) : v.isStopped = true ∨ v = .unsaved ∨ v = .done := by
  cases v <;> simp [isStopped]

section Store

variable {σ : Type} [SnapshotStore σ]

/-- The snapshot that a build compares with. -/
def SnapshotStore.recalled (store : σ) (task : String) : Snapshot :=
  (SnapshotStore.load store task).value.getD .empty

/-- The store gives a snapshot back that it has saved. -/
def SnapshotStore.Returns (σ : Type) [SnapshotStore σ] (task : String) : Prop :=
  ∀ (store store' : σ) (snapshot : Snapshot),
    (SnapshotStore.save store task snapshot).value = (store', .ok ()) →
      (SnapshotStore.load store' task).value = some snapshot

/-- The store gives the old snapshot when it could not save a new one. -/
def SnapshotStore.Keeps (σ : Type) [SnapshotStore σ] (task : String) : Prop :=
  ∀ (store store' : σ) (snapshot : Snapshot) (e : StoreError),
    (SnapshotStore.save store task snapshot).value = (store', .error e) →
      (SnapshotStore.load store' task).value = (SnapshotStore.load store task).value

theorem MemoryStore.returns (task : String) : SnapshotStore.Returns MemoryStore task := by
  intro store store' snapshot h
  change store.save task snapshot = _ at h
  change store'.load? task = _
  unfold MemoryStore.save at h
  split at h
  · cases h
  · next hpoisoned =>
    cases h
    rw [MemoryStore.load?, if_neg hpoisoned, Table.find?_insert, if_pos Std.ReflCmp.compare_self]

theorem MemoryStore.keeps (task : String) : SnapshotStore.Keeps MemoryStore task := by
  intro store store' snapshot e h
  change store.save task snapshot = _ at h
  unfold MemoryStore.save at h
  split at h
  · cases h
    rfl
  · cases h

namespace Build

def verdict (b : Build σ) : Verdict :=
  match b.outcome with
  | .ok _ => .done
  | .error (.unreadable ..) => .unreadable
  | .error (.endless _) => .endless
  | .error (.compiler _) => .failed
  | .error (.notSaved ..) => .unsaved

variable (disk : Disk) (limit : Nat) (store : σ) (spec : TaskSpec) (compile : Compiler)

/-- What the sources of a specification come to. -/
def comparison : Except SurveyError Compilation :=
  (Compilation.compute disk limit (SnapshotStore.recalled store spec.task)
    (.new spec.imports (.ofRoots spec.roots)) spec.sources).value

/-- The ways in which a build comes to its end, with what it leaves behind. -/
inductive Ends : Build σ → Prop
  | unsurveyed (inputs : PathSet) {e : SurveyError}
      (hcompute : comparison disk limit store spec = .error e) :
      Ends ⟨.error (.ofSurvey e), store, inputs, none⟩
  | failed (inputs : PathSet) {c : Compilation} {reason : String}
      (hcompute : comparison disk limit store spec = .ok c)
      (hcompile : compile (.ofCompilation spec.incremental c) = .error reason) :
      Ends ⟨.error (.compiler reason), store, inputs, some (.ofCompilation spec.incremental c)⟩
  | unsaved (inputs : PathSet) {c : Compilation} {didWork : Bool} {store' : σ} {e : StoreError}
      (hcompute : comparison disk limit store spec = .ok c)
      (hcompile : compile (.ofCompilation spec.incremental c) = .ok didWork)
      (hsave : (SnapshotStore.save store spec.task c.state).value = (store', .error e)) :
      Ends ⟨.error (.notSaved spec.task e), store', inputs,
        some (.ofCompilation spec.incremental c)⟩
  | done (inputs : PathSet) {c : Compilation} {didWork : Bool} {store' : σ}
      (hcompute : comparison disk limit store spec = .ok c)
      (hcompile : compile (.ofCompilation spec.incremental c) = .ok didWork)
      (hsave : (SnapshotStore.save store spec.task c.state).value = (store', .ok ())) :
      Ends ⟨.ok ⟨didWork, c⟩, store', inputs, some (.ofCompilation spec.incremental c)⟩

theorem finish_ends {c : Compilation} (hcompute : comparison disk limit store spec = .ok c)
    (inputs : PathSet) :
    Ends disk limit store spec compile (finish store spec compile inputs c).value := by
  unfold finish
  cases hcompile : compile (.ofCompilation spec.incremental c) with
  | error reason =>
    have hend := Ends.failed inputs hcompute hcompile
    split <;> simpa only [Logged.value_bind, Logged.value_pure, hcompile] using hend
  | ok didWork =>
    rcases hsave : (SnapshotStore.save store spec.task c.state).value with ⟨store', e | ⟨⟩⟩
    · have hend := Ends.unsaved inputs hcompute hcompile hsave
      split <;> simpa only [Logged.value_bind, Logged.value_pure, hcompile, hsave] using hend
    · have hend := Ends.done inputs hcompute hcompile hsave
      split <;> simpa only [Logged.value_bind, Logged.value_pure, hcompile, hsave] using hend

theorem execute_ends (watched : PathSet) :
    Ends disk limit store spec compile (execute disk limit store spec compile watched).value := by
  unfold execute
  simp only [Logged.value_bind]
  split
  · next e hcompute => exact .unsurveyed _ hcompute
  · next c hcompute => exact finish_ends disk limit store spec compile hcompute _

end Build

end Store

/-! ## Outputs -/

/-- The outputs that there are, by the name of the source, with what each is made from. -/
abbrev Outputs := Path → Option IncludeClosure

/-- The outputs after a request was carried out, with the present include closures. -/
def Request.carryOut (r : Request) (closureOf : Path → IncludeClosure) (outputs : Outputs) :
    Outputs := fun p =>
  if r.sources.contains p then some (closureOf p)
  else if r.cleanOutputs || r.removed.contains p then none
  else outputs p

/-! ## Worlds -/

/-- The disk, the store and the outputs. -/
structure World (σ : Type) where
  disk : Disk
  store : σ
  outputs : Outputs

namespace World

variable {σ : Type} [SnapshotStore σ]

/-- The snapshot that the next build of a task compares with. -/
def recalled (w : World σ) (task : String) : Snapshot := SnapshotStore.recalled w.store task

theorem recalled_congr {w w' : World σ} {task : String}
    (h : (SnapshotStore.load w'.store task).value = (SnapshotStore.load w.store task).value) :
    w'.recalled task = w.recalled task := by
  rw [recalled, recalled, SnapshotStore.recalled, SnapshotStore.recalled, h]

theorem recalled_of_none {w : World σ} {task : String}
    (h : (SnapshotStore.load w.store task).value = none) : w.recalled task = ∅ := by
  rw [recalled, SnapshotStore.recalled, h]
  rfl

theorem recalled_of_some {w : World σ} {task : String} {s : Snapshot}
    (h : (SnapshotStore.load w.store task).value = some s) : w.recalled task = s := by
  rw [recalled, SnapshotStore.recalled, h]
  rfl

/-- The world after a build. The outputs change when a compiler was asked and did not fail. -/
def after (w : World σ) (spec : TaskSpec) (compile : Compiler) (b : Build σ) : World σ where
  disk := w.disk
  store := b.store
  outputs :=
    match b.request with
    | none => w.outputs
    | some r =>
      match compile r with
      | .error _ => w.outputs
      | .ok _ => r.carryOut (w.disk.closureOf spec.roots spec.imports) w.outputs

/-- The world after a build with a compiler that never fails. -/
def build (limit : Nat) (spec : TaskSpec) (w : World σ) : World σ :=
  w.after spec Build.recording (Build.execute w.disk limit w.store spec Build.recording ∅).value

theorem build_outputs_asked {limit : Nat} {spec : TaskSpec} {w : World σ} {p : Path}
    (h : ((Build.execute w.disk limit w.store spec Build.recording ∅).value.request.any
      fun r => r.sources.contains p) = true) :
    (w.build limit spec).outputs p = some (w.disk.closureOf spec.roots spec.imports p) := by
  unfold build after
  cases hrequest : (Build.execute w.disk limit w.store spec Build.recording ∅).value.request with
  | none => simp [hrequest] at h
  | some r =>
    rw [hrequest] at h
    exact if_pos h

theorem build_outputs_kept {limit : Nat} {spec : TaskSpec} {w : World σ} {p : Path}
    (h : ((Build.execute w.disk limit w.store spec Build.recording ∅).value.request.any
      fun r => !r.sources.contains p && !(r.cleanOutputs || r.removed.contains p)) = true) :
    (w.build limit spec).outputs p = w.outputs p := by
  unfold build after
  cases hrequest : (Build.execute w.disk limit w.store spec Build.recording ∅).value.request with
  | none => rfl
  | some r =>
    rw [hrequest, Option.any_some, Bool.and_eq_true, Bool.not_eq_true', Bool.not_eq_true'] at h
    change r.carryOut _ _ _ = _
    rw [Request.carryOut, h.1, h.2]
    rfl

/-- A world in which the task was never built. -/
structure Unbuilt (task : String) (contents : Set Bytes) (w : World σ) : Prop where
  within : w.disk.Within contents
  snapshot : (SnapshotStore.load w.store task).value = none
  outputs : ∀ p, w.outputs p = none

end World

/-! ## Steps and runs -/

/-- What happens to a world. -/
inductive Turn where
  /-- Files are edited. -/
  | edited
  /-- The snapshot of the task is lost. -/
  | lost
  /-- The task is built. -/
  | built (spec : TaskSpec) (verdict : Verdict)

namespace World

variable {σ : Type} [SnapshotStore σ] (task : String) (contents : Set Bytes)

/-- One turn of the history of a task. Files can be edited in any way that keeps to the contents,
and the store can change meanwhile as long as it gives the same snapshot of the task. -/
inductive Step : World σ → Turn → World σ → Prop
  | edited {w : World σ} {disk : Disk} {store : σ} (hdisk : disk.Within contents)
      (hstore : (SnapshotStore.load store task).value = (SnapshotStore.load w.store task).value) :
      Step w .edited ⟨disk, store, w.outputs⟩
  | lost {w : World σ} {store : σ} (hstore : (SnapshotStore.load store task).value = none) :
      Step w .lost ⟨w.disk, store, w.outputs⟩
  | built {w : World σ} {spec : TaskSpec} (htask : spec.task = task) (limit : Nat)
      (compile : Compiler) (watched : PathSet) {b : Build σ}
      (hb : (Build.execute w.disk limit w.store spec compile watched).value = b) {verdict : Verdict}
      (hverdict : b.verdict = verdict) : Step w (.built spec verdict) (w.after spec compile b)

/-- Some turns, one after the other. -/
inductive Run : World σ → List Turn → World σ → Prop
  | nil (w : World σ) : Run w [] w
  | snoc {w w' w'' : World σ} {turns : List Turn} {turn : Turn} (hrun : Run w turns w')
      (hstep : Step task contents w' turn w'') : Run w (turns ++ [turn]) w''

variable {task contents}

theorem build_step {w : World σ} {spec : TaskSpec} (htask : spec.task = task) {limit : Nat}
    {verdict : Verdict} (hverdict :
      (Build.execute w.disk limit w.store spec Build.recording ∅).value.verdict = verdict) :
    Step task contents w (.built spec verdict) (w.build limit spec) :=
  .built htask limit Build.recording ∅ rfl hverdict

/-- A build leaves the world as it was if it was stopped. Otherwise the sources were compared with
the snapshot, the request was carried out, and the new snapshot was saved or not. -/
theorem Step.built_cases {w w' : World σ} {spec : TaskSpec} {verdict : Verdict}
    (h : Step task contents w (.built spec verdict) w') :
    (verdict.isStopped = true ∧ w' = w) ∨
    ∃ limit c, (Compilation.compute w.disk limit (w.recalled task)
        (.new spec.imports (.ofRoots spec.roots)) spec.sources).value = .ok c ∧
      w'.disk = w.disk ∧
      w'.outputs = (Request.ofCompilation spec.incremental c).carryOut
        (w.disk.closureOf spec.roots spec.imports) w.outputs ∧
      ((verdict = .unsaved ∧ ∃ e, (SnapshotStore.save w.store task c.state).value =
          (w'.store, .error e)) ∨
        (verdict = .done ∧
          (SnapshotStore.save w.store task c.state).value = (w'.store, .ok ()))) := by
  cases h with
  | built htask limit compile watched hb hverdict =>
    subst hb htask hverdict
    have hends := Build.execute_ends w.disk limit w.store spec compile watched
    generalize (Build.execute w.disk limit w.store spec compile watched).value = b at hends ⊢
    cases hends with
    | @unsurveyed inputs e hcompute =>
      refine .inl ⟨?_, rfl⟩
      cases e <;> rfl
    | failed inputs hcompute hcompile =>
      refine .inl ⟨rfl, ?_⟩
      simp only [after, hcompile]
    | @unsaved inputs c didWork store' e hcompute hcompile hsave =>
      refine .inr ⟨limit, c, hcompute, rfl, ?_, .inl ⟨rfl, e, hsave⟩⟩
      simp only [after, hcompile]
    | @done inputs c didWork store' hcompute hcompile hsave =>
      refine .inr ⟨limit, c, hcompute, rfl, ?_, .inr ⟨rfl, hsave⟩⟩
      simp only [after, hcompile]

theorem Step.of_isStopped {w w' : World σ} {spec : TaskSpec} {verdict : Verdict}
    (h : Step task contents w (.built spec verdict) w') (hverdict : verdict.isStopped = true) :
    w' = w := by
  rcases h.built_cases with ⟨-, heq⟩ | ⟨_, _, _, _, _, ⟨rfl, _⟩ | ⟨rfl, _⟩⟩
  · exact heq
  · cases hverdict
  · cases hverdict

end World

end Recompile
