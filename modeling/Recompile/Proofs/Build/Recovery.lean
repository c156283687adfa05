import Recompile.Proofs.Build.Outputs

/-!
# After a snapshot that was not saved

When the compiler was done and the new snapshot cannot be saved, the old one stays and the outputs
are ahead of it (`World.Ahead`). The next build compares with the old snapshot, so what it leaves
alone is what stands before the old record, whatever the compiler did in between: a file that was
edited before the failure and set back after it is one that has not changed.

`recovery` says exactly which outputs are right after the next build that is done, and which are
left over; a build of everything is right in any case. `recovery_reverted` is a history in which a
source keeps a stale output and a path that is no source keeps its output.
-/

namespace Recompile

/-- A turn that changes neither an output nor the snapshot. -/
def Turn.isIdle : Turn → Bool
  | .edited => true
  | .lost => false
  | .built _ verdict => verdict.isStopped

namespace World

variable {σ : Type} [SnapshotStore σ] {task : String} {contents : Set Bytes} {w w' : World σ}
  {old new : Snapshot} {closureOf : Path → IncludeClosure}

/-- The outputs are those of `new`, each made from its closure, and the next build still compares
with `old`. -/
structure Ahead (task : String) (contents : Set Bytes) (old new : Snapshot)
    (closureOf : Path → IncludeClosure) (w : World σ) : Prop where
  within : w.disk.Within contents
  recalled_eq : w.recalled task = old
  outputs_eq : ∀ p ∈ new.sources.keys, w.outputs p = some (closureOf p)
  tidy : ∀ p, w.outputs p ≠ none → new.isSource p = true

/-- A build whose snapshot is not saved puts the outputs ahead of the snapshot. -/
theorem InOrder.ahead (hstore : SnapshotStore.Returns σ task) (hkeeps : SnapshotStore.Keeps σ task)
    (hcontents : Set.InjOn Digest.ofContent contents) (h : w.InOrder task contents)
    (htidy : w.Tidy task) {spec : TaskSpec}
    (hstep : Step task contents w (.built spec .unsaved) w') :
    w'.disk = w.disk ∧ ∃ new : Snapshot, new.Describes w.disk spec.roots spec.imports spec.sources ∧
      w'.Ahead task contents (w.recalled task) new (w.disk.closureOf spec.roots spec.imports) := by
  obtain ⟨hdisk, new, hnew, houtputs, htidy', -⟩ := h.built hstore hcontents hstep rfl
  refine ⟨hdisk, new, hnew, hdisk ▸ h.within, ?_, houtputs, htidy' htidy⟩
  rcases hstep.built_cases with ⟨hstopped, -⟩ | ⟨_, _, _, _, _, ⟨-, e, hsave⟩ | ⟨hdone, -⟩⟩
  · cases hstopped
  · exact recalled_congr (hkeeps _ _ _ _ hsave)
  · cases hdone

theorem Ahead.step (h : w.Ahead task contents old new closureOf) {turn : Turn}
    (hstep : Step task contents w turn w') (hidle : turn.isIdle = true) :
    w'.Ahead task contents old new closureOf := by
  cases turn with
  | edited =>
    cases hstep with
    | edited hdisk hload =>
      exact ⟨hdisk, (recalled_congr hload).trans h.recalled_eq, h.outputs_eq, h.tidy⟩
  | lost => cases hidle
  | built spec verdict =>
    rw [hstep.of_isStopped hidle]
    exact h

theorem Ahead.run (h : w.Ahead task contents old new closureOf) {turns : List Turn}
    (hrun : Run task contents w turns w') (hidle : ∀ turn ∈ turns, turn.isIdle = true) :
    w'.Ahead task contents old new closureOf := by
  induction hrun with
  | nil => exact h
  | @snoc w' w'' turns turn _ hstep ih =>
    have hbefore := ih fun turn hturn => hidle turn (List.mem_append_left _ hturn)
    exact hbefore.step hstep (hidle turn (List.mem_append_right _ List.mem_cons_self))

/-! ## The next build that is done -/

section Done

variable {disk : Disk} {roots : List Path} {imports : Bool} {sources : List Path} {next : Snapshot}
  (h : w.Ahead task contents old new closureOf)
  (hnext : next.Describes disk roots imports sources)

include h hnext in
/-- A source of the next build gets its present output unless it is left alone and the compiler had
another closure of it, or none, in the build that was not saved. -/
theorem Ahead.output_iff (hold : old.Coherent) (hnew : new.Coherent) {p : Path}
    (hp : p ∈ next.sources.keys) : (Request.ofCompilation true (.between old next)).carryOut
      (disk.closureOf roots imports) w.outputs p = some (disk.closureOf roots imports p) ↔
    ¬ (old.LeavesAlone next p ∧
      ¬ (p ∈ new.sources.keys ∧ closureOf p = disk.closureOf roots imports p)) := by
  have hnormal : p.IsNormal := hnext.coherent.normal p (hnext.coherent.source p hp)
  have halone := Compilation.contains_recompile_eq_false hold hnext.coherent hp
  rw [Request.carryOut_incremental, ← halone]
  cases hrecompile : (Compilation.between old next).recompile.contains p with
  | true => simp
  | false =>
    have hkept : (Compilation.between old next).removed.contains p = false :=
      Compilation.contains_removed_eq_false (Table.contains_of_mem_keys hp)
    rw [if_neg Bool.false_ne_true, hkept, if_neg Bool.false_ne_true]
    by_cases hsource : p ∈ new.sources.keys
    · rw [h.outputs_eq p hsource]
      simp [hsource]
    · have hnone : w.outputs p = none := by
        by_contra houtput
        exact hsource ((hnew.isSource_iff hnormal).1 (h.tidy p houtput))
      simp [hsource, hnone]

include h in
/-- An output is left over when only the build that was not saved had the source. -/
theorem Ahead.leftover_iff (hnew : new.Coherent) {p : Path} (hp : p.IsNormal)
    (hgone : next.isSource p = false) {closureOf' : Path → IncludeClosure} :
    (Request.ofCompilation true (.between old next)).carryOut closureOf' w.outputs p ≠ none ↔
      p ∈ new.sources.keys ∧ old.isSource p = false := by
  have hrecompile : (Compilation.between old next).recompile.contains p = false := by
    rw [← Bool.not_eq_true]
    intro hrecompile
    rw [Compilation.isSource_of_contains_recompile hrecompile] at hgone
    cases hgone
  rw [Request.carryOut_incremental, hrecompile, if_neg Bool.false_ne_true]
  by_cases hbefore : old.isSource p = true
  · rw [if_pos (Compilation.contains_removed.2 ⟨hbefore, hgone⟩)]
    simp [hbefore]
  · have hkept : ¬ (Compilation.between old next).removed.contains p = true :=
      fun hremoved => hbefore (Compilation.contains_removed.1 hremoved).1
    rw [if_neg hkept]
    constructor
    · intro houtput
      exact ⟨(hnew.isSource_iff hp).1 (h.tidy p houtput), Bool.not_eq_true _ ▸ hbefore⟩
    · rintro ⟨hsource, -⟩
      rw [h.outputs_eq p hsource]
      exact Option.some_ne_none _

end Done

end World

/-- **Recovery after a snapshot that was not saved.** Take a history in which no snapshot is lost
and all are saved but one, then edits and builds that are stopped, and then a build that is done. A
build of everything is right: every source has an output made from its present closure, and nothing
else has one. Any other build is right about a source unless it leaves the source alone on the word
of the old snapshot while the build that was not saved had another closure of it, or had it not; and
a path that is no source keeps an output just when only that build had it as a source. -/
theorem recovery {σ : Type} [SnapshotStore σ] {task : String} {contents : Set Bytes}
    (hstore : SnapshotStore.Returns σ task) (hkeeps : SnapshotStore.Keeps σ task)
    (hcontents : Set.InjOn Digest.ofContent contents) {w₀ w₁ w₂ w₃ w₄ : World σ}
    (hstart : w₀.Unbuilt task contents) {before between : List Turn}
    (hrun : World.Run task contents w₀ before w₁) (hsaved : ∀ spec, .built spec .unsaved ∉ before)
    (hlost : .lost ∉ before) {spec₁ spec : TaskSpec}
    (hunsaved : World.Step task contents w₁ (.built spec₁ .unsaved) w₂)
    (hbetween : World.Run task contents w₂ between w₃)
    (hidle : ∀ turn ∈ between, turn.isIdle = true)
    (hdone : World.Step task contents w₃ (.built spec .done) w₄) :
    (spec.incremental = false →
      (∀ s ∈ spec.sources, w₄.outputs s.normalize =
        some (w₄.disk.closureOf spec.roots spec.imports s.normalize)) ∧
      ∀ p, w₄.outputs p ≠ none → ∃ s ∈ spec.sources, compare p s.normalize = .eq) ∧
    (spec.incremental = true →
      (∀ s ∈ spec.sources, w₄.outputs s.normalize =
          some (w₄.disk.closureOf spec.roots spec.imports s.normalize) ↔
        ¬ ((w₁.recalled task).LeavesAlone (w₄.recalled task) s.normalize ∧
          ¬ ((∃ r ∈ spec₁.sources, r.normalize = s.normalize) ∧
            w₂.disk.closureOf spec₁.roots spec₁.imports s.normalize =
              w₄.disk.closureOf spec.roots spec.imports s.normalize))) ∧
      ∀ p, p.IsNormal → (∀ s ∈ spec.sources, s.normalize ≠ p) →
        (w₄.outputs p ≠ none ↔
          (∃ r ∈ spec₁.sources, r.normalize = p) ∧ (w₁.recalled task).isSource p = false)) := by
  have horder := hrun.inOrder hstore hcontents hstart.inOrder hsaved
  have htidy := hrun.tidy hstore hcontents hstart.tidy hstart.inOrder hsaved hlost
  obtain ⟨hdisk₂, new, hnew, hahead⟩ := horder.ahead hstore hkeeps hcontents htidy hunsaved
  have hahead := hahead.run hbetween hidle
  obtain ⟨_, _, _, _, -, hold, -⟩ := horder.backs
  rcases hdone.built_cases with ⟨hstopped, -⟩ | ⟨limit, c, hcompute, hdisk₄, houtputs, hsave⟩
  · cases hstopped
  obtain ⟨next, rfl, hnext⟩ := Compilation.compute_cases hcompute
  have hrecalled : w₄.recalled task = next := by
    rcases hsave with ⟨h, -⟩ | ⟨-, hsave⟩
    · cases h
    · exact World.recalled_of_some (hstore _ _ _ hsave)
  rw [hahead.recalled_eq] at houtputs
  rw [hrecalled, houtputs, hdisk₄, hdisk₂]
  have hsource : ∀ s ∈ spec.sources, s.normalize ∈ next.sources.keys :=
    fun s hs => (hnext.mem_sources _).2 ⟨s, hs, rfl⟩
  constructor
  · intro hclean
    rw [hclean]
    refine ⟨fun s hs => if_pos (Table.contains_of_mem_keys (hsource s hs)), fun p hp => ?_⟩
    exact hnext.exists_of_isSource (Request.isSource_of_carryOut_clean hp)
  · intro hincremental
    rw [hincremental]
    refine ⟨fun s hs => ?_, fun p hp hgone => ?_⟩
    · rw [hahead.output_iff hnext hold.coherent hnew.coherent (hsource s hs), hnew.mem_sources]
    · rw [hahead.leftover_iff hnew.coherent hp, hnew.mem_sources]
      rw [← Bool.not_eq_true, hnext.coherent.isSource_iff hp, hnext.mem_sources]
      rintro ⟨s, hs, heq⟩
      exact hgone s hs heq

/-! ## A store that fills up -/

/-- A store in memory that may be full. Then it refuses what is saved. -/
structure CrampedStore where
  memory : MemoryStore
  full : Bool

namespace CrampedStore

def save (s : CrampedStore) (task : String) (snapshot : Snapshot) :
    CrampedStore × Except StoreError Unit :=
  if s.full then (s, .error (.coding (.other "no space left")))
  else (⟨(s.memory.save task snapshot).1, s.full⟩, (s.memory.save task snapshot).2)

instance : SnapshotStore CrampedStore where
  load s task := pure (s.memory.load? task)
  save s task snapshot := pure (s.save task snapshot)

theorem returns (task : String) : SnapshotStore.Returns CrampedStore task := by
  intro store store' snapshot h
  change store.save task snapshot = _ at h
  unfold save at h
  split at h
  · cases h
  · obtain ⟨rfl, hsave⟩ := Prod.mk.inj h
    exact MemoryStore.returns task store.memory _ snapshot (Prod.ext rfl hsave)

theorem keeps (task : String) : SnapshotStore.Keeps CrampedStore task := by
  intro store store' snapshot e h
  change store.save task snapshot = _ at h
  unfold save at h
  split at h
  · cases h
    rfl
  · obtain ⟨rfl, hsave⟩ := Prod.mk.inj h
    exact MemoryStore.keeps task store.memory _ snapshot e (Prod.ext rfl hsave)

/-! A source is built, edited, built again together with another one while the store is full, and
then there is room again. -/

/-- The disk with this text in the first source. -/
def sources (text : String) : Disk := .ofFiles [("a.c", text), ("d.c", "")]

def contents : Set Bytes := {b | b ∈ ["1", "2", ""].map Utf8.ofString}

def one : TaskSpec := ⟨":app", [.ofText "a.c"], [], true, false⟩

def two : TaskSpec := { one with sources := [.ofText "a.c", .ofText "d.c"] }

def start : World CrampedStore := ⟨sources "1", ⟨.empty, false⟩, fun _ => none⟩

def filled : World CrampedStore :=
  ⟨sources "2", ⟨(start.build 2 one).store.memory, true⟩, (start.build 2 one).outputs⟩

def failed : World CrampedStore := filled.build 2 two

def freed (text : String) : World CrampedStore :=
  ⟨sources text, ⟨failed.store.memory, false⟩, failed.outputs⟩

theorem within_sources {text : String} (h : Utf8.ofString text ∈ contents) :
    (sources text).Within contents := by
  refine Disk.within_ofFiles fun f hf => ?_
  rcases List.mem_cons.1 hf with rfl | hf
  · exact h
  · obtain rfl := List.mem_singleton.1 hf
    exact List.mem_of_getLast? rfl

theorem injOn_contents : Set.InjOn Digest.ofContent contents := by
  have hdecided : ∀ b ∈ ["1", "2", ""].map Utf8.ofString, ∀ b' ∈ ["1", "2", ""].map Utf8.ofString,
      Digest.ofContent b = Digest.ofContent b' → b = b' := by decide +kernel
  exact fun b hb b' hb' => hdecided b hb b' hb'

theorem start_unbuilt : start.Unbuilt ":app" contents :=
  ⟨within_sources (List.mem_of_head? rfl), rfl, fun _ => rfl⟩

theorem run_filled : World.Run ":app" contents start [.built one .done, .edited] filled := by
  have hverdict : (Build.execute start.disk 2 start.store one Build.recording ∅).value.verdict =
      .done := by decide +kernel
  have hedit : World.Step ":app" contents (start.build 2 one) .edited filled :=
    .edited (within_sources (List.mem_of_mem_tail List.mem_cons_self)) rfl
  exact .snoc (.snoc (.nil start) (World.build_step rfl hverdict)) hedit

theorem step_failed : World.Step ":app" contents filled (.built two .unsaved) failed := by
  have hverdict : (Build.execute filled.disk 2 filled.store two Build.recording ∅).value.verdict =
      .unsaved := by decide +kernel
  exact World.build_step rfl hverdict

theorem step_freed (text : String) (h : (Build.execute (freed text).disk 2 (freed text).store one
      Build.recording ∅).value.verdict = .done) :
    World.Step ":app" contents (freed text) (.built one .done) ((freed text).build 2 one) :=
  World.build_step rfl h

theorem run_freed {text : String} (h : Utf8.ofString text ∈ contents) :
    World.Run ":app" contents failed [.edited] (freed text) := by
  apply World.Run.snoc (.nil failed)
  exact .edited (within_sources h) rfl

/-- An output that only the build that was not saved has touched. -/
theorem outputs_freed {text : String} {p : Path}
    (hasked : ((Build.execute filled.disk 2 filled.store two Build.recording ∅).value.request.any
      fun r => r.sources.contains p) = true)
    (hkept : ((Build.execute (freed text).disk 2 (freed text).store one
      Build.recording ∅).value.request.any
        fun r => !r.sources.contains p && !(r.cleanOutputs || r.removed.contains p)) = true) :
    ((freed text).build 2 one).outputs p =
      some ((sources "2").closureOf two.roots two.imports p) := by
  rw [World.build_outputs_kept hkept]
  exact World.build_outputs_asked hasked

end CrampedStore

open CrampedStore in
/-- The source is set back to what it was before the failure. The last build leaves it alone, so its
output is the one of the build that was not saved, and so is that of the other source, which is
gone. -/
theorem recovery_reverted :
    start.Unbuilt ":app" contents ∧ Set.InjOn Digest.ofContent contents ∧
    SnapshotStore.Returns CrampedStore ":app" ∧ SnapshotStore.Keeps CrampedStore ":app" ∧
    World.Run ":app" contents start [.built one .done, .edited] filled ∧
    World.Step ":app" contents filled (.built two .unsaved) failed ∧
    World.Run ":app" contents failed [.edited] (freed "1") ∧
    World.Step ":app" contents (freed "1") (.built one .done) ((freed "1").build 2 one) ∧
    ((freed "1").build 2 one).outputs (Path.ofText "a.c").normalize ≠
      some ((sources "1").closureOf one.roots one.imports (Path.ofText "a.c").normalize) ∧
    ((freed "1").build 2 one).outputs (Path.ofText "d.c").normalize ≠ none := by
  have hdone := step_freed "1" (by decide +kernel)
  have hstale : ((freed "1").build 2 one).outputs (Path.ofText "a.c").normalize =
      some ((sources "2").closureOf two.roots two.imports (Path.ofText "a.c").normalize) :=
    outputs_freed (by decide +kernel) (by decide +kernel)
  have hleft : ((freed "1").build 2 one).outputs (Path.ofText "d.c").normalize =
      some ((sources "2").closureOf two.roots two.imports (Path.ofText "d.c").normalize) :=
    outputs_freed (by decide +kernel) (by decide +kernel)
  refine ⟨start_unbuilt, injOn_contents, returns ":app", keeps ":app", run_filled, step_failed,
    run_freed (List.mem_of_head? rfl), hdone, fun h => ?_, fun h => ?_⟩
  · rw [hstale] at h
    have hread : (sources "1").read (Path.ofText "a.c").normalize = .ok (Utf8.ofString "2") :=
      Disk.read_of_closureOf_eq (Option.some.inj h) rfl
    have hne : Utf8.ofString "1" ≠ Utf8.ofString "2" := by decide +kernel
    exact hne (Except.ok.inj hread)
  · rw [hleft] at h
    cases h

open CrampedStore in
/-- The source stays as it was at the failure. The last build does not find it as the old snapshot
has it, so the output is right. -/
theorem recovery_edited :
    ((freed "2").build 2 one).outputs (Path.ofText "a.c").normalize =
      some ((sources "2").closureOf one.roots one.imports (Path.ofText "a.c").normalize) := by
  have htext : Utf8.ofString "2" ∈ contents := List.mem_of_mem_tail List.mem_cons_self
  have hdone := step_freed "2" (by decide +kernel)
  have hsaved : ∀ spec, .built spec .unsaved ∉ [Turn.built one .done, .edited] := by
    intro spec h
    simp at h
  have hrecovery := recovery (returns ":app") (keeps ":app") injOn_contents start_unbuilt run_filled
    hsaved (by simp) step_failed (run_freed htext) (by simp [Turn.isIdle]) hdone
  refine ((hrecovery.2 rfl).1 (.ofText "a.c") List.mem_cons_self).2 ?_
  rintro ⟨-, hmissed⟩
  exact hmissed ⟨⟨.ofText "a.c", List.mem_cons_self, rfl⟩, rfl⟩

end Recompile
