import Mathlib.Logic.Relation
import Recompile.Proofs.FileTree.Anchored
import Recompile.Proofs.Store.Leftover

/-!
# Saving step by step

A save makes the directory, writes the temporary file and renames it. Between these steps, and while
the file is being written, other saves may take steps of their own, and any of them may be cut short
(`SaveStep`). Whatever happens, a snapshot is the old one or the new one (`Moment.load_atomic`).

A step changes no files but the temporary file of its own task, and the last one, which renames it,
the snapshot of its own task (`Saving.Effect`). So every save still finds what it wrote, and a
snapshot that has changed is one that was renamed into place (`Moment.Invariant`).
-/

namespace Recompile

open DirectoryStore FileTree

/-- A save that is to be made. -/
structure Saving where
  store : DirectoryStore
  task : String
  snapshot : Snapshot

/-- How far a save has come. -/
inductive Phase where
  | waiting
  | prepared
  | staged
  | done
  /-- It failed, or was cut short. -/
  | stopped
  deriving DecidableEq

namespace Saving

def content (saving : Saving) : Except CodingFault Bytes :=
  SnapshotFile.encode saving.store.producer saving.task saving.snapshot

/-- What is written can be read back, if it can be written at all. -/
def Readable (saving : Saving) : Prop :=
  SnapshotFile.headerClaim saving.store.producer saving.task ≤ SnapshotFile.maxHeader ∧
    Wire.snapshotClaim saving.snapshot ≤ SnapshotFile.maxPayload

instance (saving : Saving) : Decidable saving.Readable := inferInstanceAs (Decidable (_ ∧ _))

/-- A file in the directory of the store has what is saved as its content. -/
def Holds (saving : Saving) (name : String) (t : FileTree) : Prop :=
  (saving.store.dir.joinText name).fault? = none ∧ ∃ content place, saving.content = .ok content ∧
    t.enter saving.store.dir = .ok place ∧ t.fileAt? (name :: place) = some content

theorem Holds.keeps {saving : Saving} {name : String} {t t' : FileTree}
    (h : saving.Holds name t) (hkeeps : t.Keeps t')
    (hfile : ∀ place, t'.fileAt? (name :: place) = t.fileAt? (name :: place)) :
    saving.Holds name t' := by
  obtain ⟨hfault, content, place, hcontent, henter, hname⟩ := h
  exact ⟨hfault, content, place, hcontent, enter_keeps hkeeps henter, (hfile place).trans hname⟩

end Saving

/-- The files while several saves are being made, and how far each has come. -/
structure Moment (ι : Type) where
  tree : FileTree
  phase : ι → Phase

variable {ι : Type} [DecidableEq ι]

namespace Moment

/-- No save has begun. -/
def start (t : FileTree) : Moment ι := ⟨t, fun _ => .waiting⟩

/-- One save goes on to a phase and leaves the files so. -/
def advance (w : Moment ι) (i : ι) (t : FileTree) (phase : Phase) : Moment ι :=
  ⟨t, Function.update w.phase i phase⟩

omit [DecidableEq ι] in
@[simp] theorem tree_start (t : FileTree) : (start t : Moment ι).tree = t := rfl

@[simp] theorem tree_advance (w : Moment ι) (i : ι) (t : FileTree) (phase : Phase) :
    (w.advance i t phase).tree = t := rfl

theorem phase_advance (w : Moment ι) (i : ι) (t : FileTree) (phase : Phase) :
    (w.advance i t phase).phase i = phase :=
  Function.update_self ..

theorem advance_advance (w : Moment ι) (i : ι) (t t' : FileTree) (phase phase' : Phase) :
    (w.advance i t phase).advance i t' phase' = w.advance i t' phase' := by
  rw [advance, advance, Function.update_idem, advance]

end Moment

/-- One of the saves takes a step, fails or is cut short. -/
inductive SaveStep (saving : ι → Saving) (w : Moment ι) : Moment ι → Prop
  | prepare {i : ι} {t : FileTree} (hphase : w.phase i = .waiting)
      (h : (saving i).store.prepare w.tree = (t, .ok ())) :
      SaveStep saving w (w.advance i t .prepared)
  | prepareFails {i : ι} {t : FileTree} {e : StoreError} (hphase : w.phase i = .waiting)
      (h : (saving i).store.prepare w.tree = (t, .error e)) :
      SaveStep saving w (w.advance i t .stopped)
  | encodeFails {i : ι} {fault : CodingFault} (hphase : w.phase i = .prepared)
      (h : (saving i).content = .error fault) : SaveStep saving w (w.advance i w.tree .stopped)
  /-- Some of the temporary file is written, perhaps nothing. -/
  | stagePart {i : ι} {t : FileTree} {content : Bytes} (n : Nat) (hphase : w.phase i = .prepared)
      (hcontent : (saving i).content = .ok content)
      (h : (saving i).store.stage w.tree (saving i).task (content.take n) = .ok t) :
      SaveStep saving w (w.advance i t .prepared)
  | stage {i : ι} {t : FileTree} {content : Bytes} (hphase : w.phase i = .prepared)
      (hcontent : (saving i).content = .ok content)
      (h : (saving i).store.stage w.tree (saving i).task content = .ok t) :
      SaveStep saving w (w.advance i t .staged)
  | stageFails {i : ι} {content : Bytes} {e : StoreError} (hphase : w.phase i = .prepared)
      (hcontent : (saving i).content = .ok content)
      (h : (saving i).store.stage w.tree (saving i).task content = .error e) :
      SaveStep saving w (w.advance i w.tree .stopped)
  | commit {i : ι} {t : FileTree} (hphase : w.phase i = .staged)
      (h : (saving i).store.commit w.tree (saving i).task = (t, .ok ())) :
      SaveStep saving w (w.advance i t .done)
  | commitFails {i : ι} {t : FileTree} {e : StoreError} (hphase : w.phase i = .staged)
      (h : (saving i).store.commit w.tree (saving i).task = (t, .error e)) :
      SaveStep saving w (w.advance i t .stopped)
  | crash {i : ι} (hphase : w.phase i ≠ .done) : SaveStep saving w (w.advance i w.tree .stopped)

/-- A history of such steps. -/
abbrev SaveSteps (saving : ι → Saving) : Moment ι → Moment ι → Prop :=
  Relation.ReflTransGen (SaveStep saving)

/-! ## A save that nothing cuts short -/

/-- A save that is made at one go takes such steps, and is done if it returns no error. -/
theorem saveSteps_save {saving : ι → Saving} {w : Moment ι} {i : ι} (hphase : w.phase i = .waiting)
    {t : FileTree} {result : Except StoreError Unit}
    (h : ((saving i).store.save w.tree (saving i).task (saving i).snapshot).value = (t, result)) :
    SaveSteps saving w (w.advance i t (if result.isOk then .done else .stopped)) := by
  -- The steps are followed as far as the save gets; an operation that fails is a step as well.
  unfold save at h
  cases hprepare : (saving i).store.prepare w.tree with
  | mk t₁ prepared =>
    rw [hprepare] at h
    cases prepared with
    | error e =>
      cases h
      exact .single (.prepareFails hphase hprepare)
    | ok _ =>
      have h₁ : SaveSteps saving w (w.advance i t₁ .prepared) := .single (.prepare hphase hprepare)
      have hphase₁ := w.phase_advance i t₁ .prepared
      dsimp only at h
      cases hcontent : SnapshotFile.encode (saving i).store.producer (saving i).task
          (saving i).snapshot with
      | error fault =>
        rw [hcontent] at h
        cases h
        exact w.advance_advance i .. ▸ h₁.tail (.encodeFails hphase₁ hcontent)
      | ok content =>
        rw [hcontent] at h
        dsimp only at h
        cases hstage : (saving i).store.stage t₁ (saving i).task content with
        | error e =>
          rw [hstage] at h
          cases h
          exact w.advance_advance i .. ▸ h₁.tail (.stageFails hphase₁ hcontent hstage)
        | ok t₂ =>
          have h₂ : SaveSteps saving w (w.advance i t₂ .staged) :=
            w.advance_advance i .. ▸ h₁.tail (.stage hphase₁ hcontent hstage)
          have hphase₂ := w.phase_advance i t₂ .staged
          rw [hstage] at h
          dsimp only at h
          cases hcommit : (saving i).store.commit t₂ (saving i).task with
          | mk t₃ committed =>
            rw [hcommit] at h
            cases committed with
            | error e =>
              cases h
              exact w.advance_advance i .. ▸ h₂.tail (.commitFails hphase₂ hcommit)
            | ok _ =>
              cases h
              exact w.advance_advance i .. ▸ h₂.tail (.commit hphase₂ hcommit)

/-! ## What one step does -/

/-- What a save may do to the files in a step that takes it to a phase. -/
structure Saving.Effect (saving : Saving) (phase : Phase) (t t' : FileTree) : Prop where
  keeps : t.Keeps t'
  other : ∀ name place, name ≠ stagingName saving.task →
    (phase = .done → name = snapshotName saving.task → t'.enter saving.store.dir ≠ .ok place) →
    t'.fileAt? (name :: place) = t.fileAt? (name :: place)
  staged : phase = .staged → saving.Holds (stagingName saving.task) t'
  done : phase = .done → saving.Holds (snapshotName saving.task) t'

namespace Saving.Effect

variable {saving : Saving} {phase : Phase} {t t' : FileTree}

theorem of_grows (h : t.Grows t') (hstaged : phase ≠ .staged) (hdone : phase ≠ .done) :
    saving.Effect phase t t' where
  keeps := h.toKeeps
  other name place _ _ := h.fileAt? (name :: place)
  staged heq := absurd heq hstaged
  done heq := absurd heq hdone

theorem of_prepare {result : Except StoreError Unit}
    (h : saving.store.prepare t = (t', result)) (hstaged : phase ≠ .staged) (hdone : phase ≠ .done) :
    saving.Effect phase t t' := by
  have hgrows := saving.store.grows_prepare t
  rw [h] at hgrows
  exact of_grows hgrows hstaged hdone

theorem of_stage {content : Bytes} (h : saving.store.stage t saving.task content = .ok t')
    (hstaged : phase = .staged → saving.content = .ok content) (hdone : phase ≠ .done) :
    saving.Effect phase t t' := by
  obtain ⟨-, place, henter, hnode, ht'⟩ := stage_eq_ok.1 h
  obtain ⟨hfault, hfile⟩ := fileAt?_stage henter h
  refine ⟨keeps_stage h, fun name q hname _ => ?_, fun heq => ?_, fun heq => absurd heq hdone⟩
  · rw [ht', fileAt?_putFile (directory_of_enter henter) hnode, if_neg]
    exact fun heq => hname (List.cons.inj heq).1
  · exact ⟨hfault, content, place, hstaged heq, enter_keeps (keeps_stage h) henter, hfile⟩

theorem of_commit (hstaged : saving.Holds (stagingName saving.task) t)
    (h : saving.store.commit t saving.task = (t', .ok ())) : saving.Effect .done t t' := by
  obtain ⟨-, content, place, hcontent, henter, hfile⟩ := hstaged
  obtain ⟨-, hfault, place', content', henter', hfile', hnode, ht'⟩ := commit_eq_ok.1 h
  obtain rfl : place' = place := Except.ok.inj (henter'.symm.trans henter)
  obtain rfl : content' = content := Option.some.inj (hfile'.symm.trans hfile)
  have hkeeps : t.Keeps t' := by
    have hcommit := saving.store.keeps_commit t saving.task
    rwa [h] at hcommit
  have hentered := enter_keeps hkeeps henter
  have hnames := snapshotName_ne_stagingName saving.task saving.task
  have hafter (q : Place) : t'.fileAt? q =
      if q = stagingName saving.task :: place' then none
      else if q = snapshotName saving.task :: place' then some content'
      else t.fileAt? q := by
    rw [ht', fileAt?_dropFile, fileAt?_putFile (directory_of_enter henter) hnode]
  refine ⟨hkeeps, fun name q hname hplace => ?_, nofun, fun _ => ?_⟩
  · rw [hafter, if_neg fun heq => hname (List.cons.inj heq).1, if_neg]
    rintro heq
    obtain ⟨rfl, rfl⟩ := List.cons.inj heq
    exact hplace rfl rfl hentered
  · refine ⟨hfault, content', place', hcontent, hentered, ?_⟩
    rw [hafter, if_neg fun heq => hnames (List.cons.inj heq).1, if_pos rfl]

theorem of_commit_error {e : StoreError}
    (h : saving.store.commit t saving.task = (t', .error e)) : saving.Effect .stopped t t' := by
  obtain rfl | ⟨place, -, rfl⟩ := commit_eq_error h
  · exact of_grows (.refl t') nofun nofun
  · refine ⟨keeps_dropFile .., fun name q hname _ => ?_, nofun, nofun⟩
    rw [fileAt?_dropFile, if_neg]
    exact fun heq => hname (List.cons.inj heq).1

end Saving.Effect

/-- Every step is the effect of one save, which was not done. -/
theorem SaveStep.effect {saving : ι → Saving} {w w' : Moment ι} (h : SaveStep saving w w')
    (hstaged : ∀ i, w.phase i = .staged → (saving i).Holds (stagingName (saving i).task) w.tree) :
    ∃ i t phase, w' = w.advance i t phase ∧ w.phase i ≠ .done ∧
      (saving i).Effect phase w.tree t := by
  have hundone {i : ι} {phase : Phase} (hphase : w.phase i = phase) (hne : phase ≠ .done) :
      w.phase i ≠ .done := hphase ▸ hne
  cases h with
  | @prepare i t hphase h =>
    exact ⟨i, t, .prepared, rfl, hundone hphase nofun, .of_prepare h nofun nofun⟩
  | @prepareFails i t e hphase h =>
    exact ⟨i, t, .stopped, rfl, hundone hphase nofun, .of_prepare h nofun nofun⟩
  | @encodeFails i fault hphase h =>
    exact ⟨i, _, .stopped, rfl, hundone hphase nofun, .of_grows (.refl _) nofun nofun⟩
  | @stagePart i t content n hphase hcontent h =>
    exact ⟨i, t, .prepared, rfl, hundone hphase nofun, .of_stage h nofun nofun⟩
  | @stage i t content hphase hcontent h =>
    exact ⟨i, t, .staged, rfl, hundone hphase nofun, .of_stage h (fun _ => hcontent) nofun⟩
  | @stageFails i content e hphase hcontent h =>
    exact ⟨i, _, .stopped, rfl, hundone hphase nofun, .of_grows (.refl _) nofun nofun⟩
  | @commit i t hphase h =>
    exact ⟨i, t, .done, rfl, hundone hphase nofun, .of_commit (hstaged i hphase) h⟩
  | @commitFails i t e hphase h =>
    exact ⟨i, t, .stopped, rfl, hundone hphase nofun, .of_commit_error h⟩
  | @crash i hphase => exact ⟨i, _, .stopped, rfl, hphase, .of_grows (.refl _) nofun nofun⟩

/-! ## What a history of steps does -/

/-- What holds at every moment of saves that began with the files `t₀`. -/
structure Moment.Invariant (saving : ι → Saving) (t₀ : FileTree) (w : Moment ι) : Prop where
  keeps : t₀.Keeps w.tree
  staged : ∀ i, w.phase i = .staged → (saving i).Holds (stagingName (saving i).task) w.tree
  done : ∀ i, w.phase i = .done → (saving i).Holds (snapshotName (saving i).task) w.tree
  file : ∀ task place,
    w.tree.fileAt? (snapshotName task :: place) = t₀.fileAt? (snapshotName task :: place) ∨
      ∃ i, w.phase i = .done ∧ key (saving i).task = key task ∧
        w.tree.enter (saving i).store.dir = .ok place

namespace Moment.Invariant

variable {saving : ι → Saving} {t₀ : FileTree} {w w' : Moment ι}

omit [DecidableEq ι] in
theorem start : Invariant saving t₀ (.start t₀) where
  keeps := .refl t₀
  staged := nofun
  done := nofun
  file _ _ := .inl rfl

theorem step (h : Invariant saving t₀ w) (hkeys : Function.Injective fun i => key (saving i).task)
    (hstep : SaveStep saving w w') : Invariant saving t₀ w' := by
  obtain ⟨i, t, phase, rfl, hundone, heffect⟩ := hstep.effect h.staged
  have hphase {j : ι} (hj : j ≠ i) : (w.advance i t phase).phase j = w.phase j :=
    Function.update_of_ne hj ..
  have hself := w.phase_advance i t phase
  have hkey {j : ι} (hj : j ≠ i) : key (saving j).task ≠ key (saving i).task :=
    fun heq => hj (hkeys heq)
  -- What the other saves hold lies under names of their own, so the step leaves it alone.
  refine ⟨h.keeps.trans heffect.keeps, fun j hj => ?_, fun j hj => ?_, fun task place => ?_⟩
  · by_cases hji : j = i
    · subst hji
      exact heffect.staged (hself.symm.trans hj)
    · refine (h.staged j (hphase hji ▸ hj)).keeps heffect.keeps fun place => heffect.other _ _ ?_ ?_
      · exact (stagingName_inj _ _).not.2 (hkey hji)
      · exact fun _ heq => absurd heq.symm (snapshotName_ne_stagingName _ _)
  · by_cases hji : j = i
    · subst hji
      exact heffect.done (hself.symm.trans hj)
    · refine (h.done j (hphase hji ▸ hj)).keeps heffect.keeps fun place => heffect.other _ _ ?_ ?_
      · exact snapshotName_ne_stagingName _ _
      · exact fun _ heq => absurd heq ((snapshotName_inj _ _).not.2 (hkey hji))
  · by_cases hcommitted : phase = .done ∧ snapshotName task = snapshotName (saving i).task ∧
        t.enter (saving i).store.dir = .ok place
    · obtain ⟨hdone, hname, henter⟩ := hcommitted
      exact .inr ⟨i, hself.trans hdone, ((snapshotName_inj _ _).1 hname).symm, henter⟩
    · have hfile := heffect.other (snapshotName task) place (snapshotName_ne_stagingName _ _)
        fun hdone hname henter => hcommitted ⟨hdone, hname, henter⟩
      obtain hold | ⟨j, hdone, htask, henter⟩ := h.file task place
      · exact .inl (hfile.trans hold)
      · have hji : j ≠ i := fun heq => hundone (heq ▸ hdone)
        exact .inr ⟨j, (hphase hji).trans hdone, htask, enter_keeps heffect.keeps henter⟩

theorem steps (hkeys : Function.Injective fun i => key (saving i).task)
    (hsteps : SaveSteps saving (.start t₀) w) : Invariant saving t₀ w := by
  induction hsteps with
  | refl => exact start
  | tail _ hstep ih => exact ih.step hkeys hstep

end Moment.Invariant

/-! ## What is loaded -/

namespace Saving

variable {saving : Saving} {s : DirectoryStore} {t : FileTree} {content : Bytes}

/-- A store of the version that saved a snapshot loads it from its file. -/
theorem load_of_read (h : saving.Readable) (hproducer : s.producer = saving.store.producer)
    (hcontent : saving.content = .ok content)
    (hread : (t.read (s.snapshotPath saving.task)).toOption = some content) :
    (s.load t saving.task).value = some saving.snapshot := by
  have hfits : SnapshotFile.Fits saving.store.producer saving.task saving.snapshot :=
    ⟨⟨content, hcontent⟩, h.1, h.2⟩
  rw [value_load_eq, hread, Option.bind_some, hfits.decode hcontent, if_pos hproducer.symm]

theorem load_of_holds (h : saving.Readable) (hholds : saving.Holds (snapshotName saving.task) t) :
    (saving.store.load t saving.task).value = some saving.snapshot := by
  obtain ⟨hfault, content, place, hcontent, henter, hfile⟩ := hholds
  exact load_of_read h rfl hcontent ((toOption_read hfault henter).trans hfile)

end Saving

namespace Moment.Invariant

variable {saving : ι → Saving} {t₀ : FileTree} {w : Moment ι} {s : DirectoryStore}

omit [DecidableEq ι] in
/-- What a store loads of a task is what it loaded at first, or a save of the task is done and the
store reads the file that this wrote. -/
theorem load (h : Invariant saving t₀ w) (hanchored : t₀.Anchored s.dir) (task : String) :
    (s.load w.tree task).value = (s.load t₀ task).value ∨
      ∃ i content, w.phase i = .done ∧ key (saving i).task = key task ∧
        (saving i).content = .ok content ∧
        (w.tree.read (s.snapshotPath task)).toOption = some content := by
  obtain ⟨place, hleads⟩ := hanchored.leads
  obtain hread | hread := hleads.toOption_read (isName_snapshotName task)
  · obtain hold | ⟨i, hdone, hkey, henter⟩ := h.file task place
    · refine .inl (load_congr ?_)
      rw [snapshotPath_eq, hread _ h.keeps, hread _ (.refl t₀), hold]
    · obtain ⟨-, content, place', hcontent, henter', hfile⟩ := h.done i hdone
      obtain rfl : place' = place := Except.ok.inj (henter'.symm.trans henter)
      refine .inr ⟨i, content, hdone, hkey, hcontent, ?_⟩
      rw [snapshotPath_eq, hread _ h.keeps, ← (snapshotName_inj _ _).2 hkey, hfile]
  · refine .inl (load_congr ?_)
    rw [snapshotPath_eq, hread _ h.keeps, hread _ (.refl t₀)]

end Moment.Invariant

/-- **Saving is atomic.** Saves of tasks with different keys take their steps in any order, and any of
them may fail or be cut short anywhere. At every moment a store of the same version loads of a task
that is being saved what it loaded before, or what is saved once that is done; of a task that is not
being saved every store loads what it loaded before. That is for stores whose path was anchored at
first. A temporary file that was left behind changes no answer of stores whose directories are
there. -/
theorem Moment.load_atomic {saving : ι → Saving} {t₀ : FileTree} {w : Moment ι}
    (hkeys : Function.Injective fun i => key (saving i).task) (hreadable : ∀ i, (saving i).Readable)
    (hsteps : SaveSteps saving (.start t₀) w) :
    (∀ i (s : DirectoryStore), t₀.Anchored s.dir → s.producer = (saving i).store.producer →
      (s.load w.tree (saving i).task).value = (s.load t₀ (saving i).task).value ∨
        w.phase i = .done ∧
          (s.load w.tree (saving i).task).value = some (saving i).snapshot) ∧
    (∀ i, w.phase i = .done →
      ((saving i).store.load w.tree (saving i).task).value = some (saving i).snapshot) ∧
    (∀ (s : DirectoryStore) task, t₀.Anchored s.dir → (∀ i, key (saving i).task ≠ key task) →
      (s.load w.tree task).value = (s.load t₀ task).value) ∧
    ∀ task home t' calls, SameBut (stagingName task :: home) w.tree t' →
      (∀ call ∈ calls, ∃ place, w.tree.enter call.store.dir = .ok place) →
      StoreCall.answers t' calls = StoreCall.answers w.tree calls := by
  have hinvariant := Invariant.steps hkeys hsteps
  refine ⟨fun i s hanchored hproducer => ?_, fun i hdone => ?_, fun s task hanchored hother => ?_,
    fun task home t' calls hsame henter => hsame.answers henter⟩
  · obtain hold | ⟨j, content, hdone, hkey, hcontent, hread⟩ :=
      hinvariant.load hanchored (saving i).task
    · exact .inl hold
    · obtain rfl : j = i := hkeys hkey
      exact .inr ⟨hdone, (saving j).load_of_read (hreadable j) hproducer hcontent hread⟩
  · exact (saving i).load_of_holds (hreadable i) (hinvariant.done i hdone)
  · obtain hold | ⟨i, content, -, hkey, -⟩ := hinvariant.load hanchored task
    · exact hold
    · exact absurd hkey (hother i)

/-- Two saves in the working directory. -/
def twoSaves : Bool → Saving
  | true => ⟨⟨.ofText ".", "1"⟩, "a", ∅⟩
  | false => ⟨⟨.ofText ".", "1"⟩, "b", ∅⟩

/-- The save of `b` has been cut short after three bytes, and nothing else has happened. -/
def cutShort : FileTree :=
  (FileTree.within ["c"]).putFile ["c"] (stagingName "b")
    ((twoSaves false).content.toOption.getD [] |>.take 3)

/-- The save of `a` has been made after that. -/
def savedBeside : Moment Bool :=
  ((Moment.start (.within ["c"])).advance false cutShort .stopped).advance true
    ((twoSaves true).store.save cutShort (twoSaves true).task (twoSaves true).snapshot).value.1 .done

theorem saveSteps_twoSaves : SaveSteps twoSaves (.start (.within ["c"])) savedBeside := by
  have hdirectory : (FileTree.within ["c"]).DirectoryAt (.ofText ".") ["c"] := by decide +kernel
  have hfits : SnapshotFile.Fits "1" "b" ∅ := by decide +kernel
  have hcontent : (twoSaves false).content = .ok ((twoSaves false).content.toOption.getD []) := by
    obtain ⟨content, hencode⟩ := hfits.encodes
    have hcontent : (twoSaves false).content = .ok content := hencode
    rw [hcontent]
    rfl
  have hstage : (twoSaves false).store.stage (.within ["c"]) "b"
      ((twoSaves false).content.toOption.getD [] |>.take 3) = .ok cutShort :=
    stage_eq_ok.2 ⟨by decide +kernel, ["c"], hdirectory.enter, by decide +kernel, rfl⟩
  have hcut : SaveSteps twoSaves (.start (.within ["c"]))
      ((Moment.start (.within ["c"])).advance false cutShort .stopped) := by
    have hprepared := Relation.ReflTransGen.single <| @SaveStep.prepare Bool _ twoSaves
      (.start (.within ["c"])) false _ rfl (prepare_of_directoryAt hdirectory)
    have hpart := hprepared.tail (.stagePart 3 (Moment.phase_advance ..) hcontent hstage)
    have hcrash := hpart.tail (.crash (i := false) (by rw [Moment.phase_advance]; nofun))
    rwa [Moment.tree_advance, Moment.advance_advance, Moment.advance_advance] at hcrash
  have hsaved := hcut.trans (@saveSteps_save Bool _ twoSaves _ true rfl _ _ (Prod.eta _).symm)
  have hok : ((twoSaves true).store.save cutShort (twoSaves true).task
      (twoSaves true).snapshot).value.2.isOk = true := by
    decide +kernel
  rwa [Moment.tree_advance, hok, if_pos rfl] at hsaved

theorem Moment.load_twoSaves :
    (savedBeside.tree.fileAt? [stagingName "b", "c"]).isSome ∧
      ((twoSaves true).store.load savedBeside.tree "a").value = some ∅ ∧
      ((twoSaves false).store.load savedBeside.tree "b").value = none ∧
      StoreCall.answers (savedBeside.tree.dropFile ["c"] (stagingName "b"))
          [.collect (twoSaves false).store ["b"], .save (twoSaves false).store "b" ∅] =
        StoreCall.answers savedBeside.tree
          [.collect (twoSaves false).store ["b"], .save (twoSaves false).store "b" ∅] := by
  have hkeys : ∀ i j, key (twoSaves i).task = key (twoSaves j).task → i = j := by decide +kernel
  obtain ⟨hsaving, hdone, -, hanswers⟩ :=
    load_atomic (fun i j => hkeys i j) (by decide +kernel) saveSteps_twoSaves
  have hdirectory : (FileTree.within ["c"]).DirectoryAt (.ofText ".") ["c"] := by decide +kernel
  refine ⟨by decide +kernel, hdone true (phase_advance ..), ?_, ?_⟩
  · obtain hbefore | ⟨hphase, -⟩ := hsaving false (twoSaves false).store hdirectory.anchored rfl
    · have hnone : ((twoSaves false).store.load (.within ["c"]) "b").value = none := by
        decide +kernel
      exact hbefore.trans hnone
    · cases hphase
  · refine hanswers "b" ["c"] _ _ (.of_dropFile (by decide +kernel) (by decide +kernel)) ?_
    have hkeeps : (FileTree.within ["c"]).Keeps savedBeside.tree :=
      (Invariant.steps (fun i j => hkeys i j) saveSteps_twoSaves).keeps
    simp only [List.forall_mem_cons, List.not_mem_nil, false_imp_iff, implies_true, and_true]
    exact ⟨⟨_, (hdirectory.keeps hkeeps).enter⟩, ⟨_, (hdirectory.keeps hkeeps).enter⟩⟩

/-- A working directory in which `c` has a snapshot of the task `a`. -/
def savedBelow : FileTree :=
  (DirectoryStore.save ⟨.ofText "c", "1"⟩ (.within []) "a" ∅).value.1

/-- A save of another task, by a path to `c` that leads there only once `missing` has been made. -/
def aroundMissing : Saving := ⟨⟨.ofText "missing/../c", "1"⟩, "b", ∅⟩

/-- Where a path is not anchored, a save may bring the snapshot of another task within reach. -/
theorem Moment.load_aroundMissing : ∃ w : Moment Unit,
    SaveSteps (fun _ => aroundMissing) (.start savedBelow) w ∧ key aroundMissing.task ≠ key "a" ∧
      (aroundMissing.store.load savedBelow "a").value.isNone ∧
      (aroundMissing.store.load w.tree "a").value.isSome := by
  have hsteps := @saveSteps_save Unit _ (fun _ => aroundMissing) (.start savedBelow) () rfl _ _
    (Prod.eta _).symm
  refine ⟨_, hsteps, by decide +kernel, by decide +kernel, ?_⟩
  rw [tree_advance, tree_start]
  decide +kernel

end Recompile
