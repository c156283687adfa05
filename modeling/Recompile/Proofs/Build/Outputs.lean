import Recompile.Proofs.Build.World

/-!
# Outputs are never stale

A world is in order (`World.InOrder`) when the snapshot that the next build compares with describes
some disk, maybe an old one, and every source of the snapshot has an output made from its include
closure on that disk. A build whose compiler is done keeps this (`carryOut_of_source`): a source
that is compiled gets its present closure, and one that is left alone has the closure that the
snapshot recorded, which is the present one. By induction over the turns, a build that is done
leaves no stale output behind, and no output of what is no source as long as no snapshot was lost
(`run_outputs`).
-/

namespace Recompile

/-! ## One request -/

namespace Compilation

variable {old new : Snapshot}

theorem contains_removed {p : Path} : (between old new).removed.contains p = true ↔
    old.isSource p = true ∧ new.isSource p = false :=
  Table.contains_difference old.sources new.sources p

theorem contains_removed_eq_false {p : Path} (h : new.isSource p = true) :
    (between old new).removed.contains p = false := by
  rw [← Bool.not_eq_true, contains_removed, h]
  simp

end Compilation

namespace Request

variable (c : Compilation) (closureOf : Path → IncludeClosure) (outputs : Outputs) (p : Path)

theorem carryOut_incremental : (ofCompilation true c).carryOut closureOf outputs p =
    if c.recompile.contains p then some (closureOf p)
    else if c.removed.contains p then none
    else outputs p := rfl

theorem carryOut_clean : (ofCompilation false c).carryOut closureOf outputs p =
    if c.state.isSource p then some (closureOf p) else none := rfl

variable {c closureOf outputs p} in
theorem isSource_of_carryOut_clean
    (h : (ofCompilation false c).carryOut closureOf outputs p ≠ none) :
    c.state.isSource p = true := by
  rw [carryOut_clean] at h
  by_contra hsource
  exact h (if_neg hsource)

end Request

/-- The sources of the snapshot have outputs made from their include closures on one disk, which the
snapshot describes. -/
def Snapshot.Backs (contents : Set Bytes) (s : Snapshot) (outputs : Outputs) : Prop :=
  ∃ (disk : Disk) (roots : List Path) (imports : Bool) (sources : List Path),
    disk.Within contents ∧ s.Describes disk roots imports sources ∧
      ∀ p ∈ s.sources.keys, outputs p = some (disk.closureOf roots imports p)

theorem Snapshot.backs_empty {contents : Set Bytes} {disk : Disk} (hdisk : disk.Within contents)
    (outputs : Outputs) : (∅ : Snapshot).Backs contents outputs := by
  refine ⟨disk, [], false, [], hdisk, .empty disk [] false, ?_⟩
  exact fun p hp => absurd hp List.not_mem_nil

section CarryOut

variable {contents : Set Bytes} {disk : Disk} {roots : List Path} {imports : Bool}
  {sources : List Path} {old new : Snapshot} {outputs : Outputs}

/-- Once the request is carried out, every source has an output made from its present closure. -/
theorem carryOut_of_source (hcontents : Set.InjOn Digest.ofContent contents)
    (hdisk : disk.Within contents) (hnew : new.Describes disk roots imports sources)
    (hold : old.Backs contents outputs) (incremental : Bool) {p : Path}
    (hp : p ∈ new.sources.keys) :
    (Request.ofCompilation incremental (.between old new)).carryOut
      (disk.closureOf roots imports) outputs p = some (disk.closureOf roots imports p) := by
  have hsource : new.isSource p = true := Table.contains_of_mem_keys hp
  cases incremental with
  | false => exact if_pos hsource
  | true =>
    rw [Request.carryOut_incremental]
    cases hrecompile : (Compilation.between old new).recompile.contains p with
    | true => rfl
    | false =>
      obtain ⟨disk₀, roots₀, imports₀, sources₀, hdisk₀, hdescribes, houtputs⟩ := hold
      obtain ⟨hbefore, -, hsame⟩ := (Compilation.contains_recompile_eq_false hdescribes.coherent
        hnew.coherent hp).1 hrecompile
      have hnormal : p.IsNormal := hnew.coherent.normal p (hnew.coherent.source p hp)
      have hp₀ : p ∈ old.sources.keys := (hdescribes.coherent.isSource_iff hnormal).1 hbefore
      have hkept : (Compilation.between old new).removed.contains p = false :=
        Compilation.contains_removed_eq_false hsource
      rw [if_neg Bool.false_ne_true, hkept, if_neg Bool.false_ne_true, houtputs p hp₀,
        hdescribes.closureOf_eq hnew hcontents hdisk₀ hdisk hp₀ hp hsame]

/-- If only sources had outputs before, only sources have outputs afterwards. -/
theorem isSource_of_carryOut (hold : ∀ p, outputs p ≠ none → old.isSource p = true)
    {incremental : Bool} {closureOf : Path → IncludeClosure} {p : Path}
    (hp : (Request.ofCompilation incremental (.between old new)).carryOut closureOf outputs p ≠
      none) : new.isSource p = true := by
  cases incremental with
  | false => exact Request.isSource_of_carryOut_clean hp
  | true =>
    rw [Request.carryOut_incremental] at hp
    by_cases hrecompile : (Compilation.between old new).recompile.contains p = true
    · exact Compilation.isSource_of_contains_recompile hrecompile
    · rw [if_neg hrecompile] at hp
      by_cases hremoved : (Compilation.between old new).removed.contains p = true
      · exact absurd (if_pos hremoved) hp
      · rw [if_neg hremoved] at hp
        by_contra hsource
        refine hremoved (Compilation.contains_removed.2 ⟨hold p hp, ?_⟩)
        exact Bool.not_eq_true _ ▸ hsource

end CarryOut

/-! ## One turn -/

namespace World

variable {σ : Type} [SnapshotStore σ] {task : String} {contents : Set Bytes} {w w' : World σ}

/-- Every source of the snapshot that the next build compares with has the output that goes with the
snapshot. -/
structure InOrder (task : String) (contents : Set Bytes) (w : World σ) : Prop where
  within : w.disk.Within contents
  backs : (w.recalled task).Backs contents w.outputs

/-- Nothing but the sources of that snapshot has an output. -/
def Tidy (task : String) (w : World σ) : Prop :=
  ∀ p, w.outputs p ≠ none → (w.recalled task).isSource p = true

theorem Unbuilt.inOrder (h : w.Unbuilt task contents) : w.InOrder task contents := by
  refine ⟨h.within, ?_⟩
  rw [recalled_of_none h.snapshot]
  exact Snapshot.backs_empty h.within w.outputs

theorem Unbuilt.tidy (h : w.Unbuilt task contents) : w.Tidy task :=
  fun p hp => absurd (h.outputs p) hp

section Turn

variable (hstore : SnapshotStore.Returns σ task) (hcontents : Set.InjOn Digest.ofContent contents)

include hstore hcontents in
/-- After a build whose compiler was done every source has an output made from its present closure,
and no other path has got one, also when the snapshot was not saved. -/
theorem InOrder.built (h : w.InOrder task contents) {spec : TaskSpec} {verdict : Verdict}
    (hstep : Step task contents w (.built spec verdict) w') (hverdict : verdict.isStopped = false) :
    w'.disk = w.disk ∧ ∃ new : Snapshot,
      new.Describes w.disk spec.roots spec.imports spec.sources ∧
      (∀ p ∈ new.sources.keys,
        w'.outputs p = some (w.disk.closureOf spec.roots spec.imports p)) ∧
      (w.Tidy task → ∀ p, w'.outputs p ≠ none → new.isSource p = true) ∧
      (verdict = .done → w'.recalled task = new) := by
  rcases hstep.built_cases with ⟨hstopped, -⟩ | ⟨limit, c, hcompute, hdisk, houtputs, hsave⟩
  · rw [hverdict] at hstopped
    cases hstopped
  · obtain ⟨new, rfl, hnew⟩ := Compilation.compute_cases hcompute
    refine ⟨hdisk, new, hnew, fun p hp => ?_, fun htidy p hp => ?_, ?_⟩
    · rw [houtputs]
      exact carryOut_of_source hcontents h.within hnew h.backs spec.incremental hp
    · rw [houtputs] at hp
      exact isSource_of_carryOut htidy hp
    · rintro rfl
      rcases hsave with ⟨hunsaved, -⟩ | ⟨-, hsave⟩
      · cases hunsaved
      · exact recalled_of_some (hstore _ _ _ hsave)

include hstore hcontents in
theorem InOrder.step (h : w.InOrder task contents) {turn : Turn}
    (hstep : Step task contents w turn w') (hsaved : ∀ spec, turn ≠ .built spec .unsaved) :
    w'.InOrder task contents := by
  cases turn with
  | edited =>
    cases hstep with
    | edited hdisk hload =>
      refine ⟨hdisk, ?_⟩
      rw [recalled_congr (w := w) hload]
      exact h.backs
  | lost =>
    cases hstep with
    | lost hload =>
      refine ⟨h.within, ?_⟩
      rw [recalled_of_none hload]
      exact Snapshot.backs_empty h.within w.outputs
  | built spec verdict =>
    rcases verdict.cases with hstopped | rfl | rfl
    · rw [hstep.of_isStopped hstopped]
      exact h
    · exact absurd rfl (hsaved spec)
    · obtain ⟨hdisk, new, hnew, houtputs, -, hrecalled⟩ := h.built hstore hcontents hstep rfl
      refine ⟨hdisk ▸ h.within, ?_⟩
      rw [hrecalled rfl]
      exact ⟨w.disk, spec.roots, spec.imports, spec.sources, h.within, hnew, houtputs⟩

include hstore hcontents in
theorem Tidy.step (h : w.Tidy task) (horder : w.InOrder task contents) {turn : Turn}
    (hstep : Step task contents w turn w') (hsaved : ∀ spec, turn ≠ .built spec .unsaved)
    (hlost : turn ≠ .lost) : w'.Tidy task := by
  cases turn with
  | edited =>
    cases hstep with
    | edited hdisk hload =>
      intro p hp
      rw [recalled_congr (w := w) hload]
      exact h p hp
  | lost => exact absurd rfl hlost
  | built spec verdict =>
    rcases verdict.cases with hstopped | rfl | rfl
    · rw [hstep.of_isStopped hstopped]
      exact h
    · exact absurd rfl (hsaved spec)
    · obtain ⟨-, new, -, -, htidy, hrecalled⟩ := horder.built hstore hcontents hstep rfl
      intro p hp
      rw [hrecalled rfl]
      exact htidy h p hp

/-! ## Whole histories -/

include hstore hcontents in
theorem Run.inOrder {turns : List Turn} (hrun : Run task contents w turns w')
    (h : w.InOrder task contents) (hsaved : ∀ spec, .built spec .unsaved ∉ turns) :
    w'.InOrder task contents := by
  induction hrun with
  | nil => exact h
  | @snoc w' w'' turns turn _ hstep ih =>
    have hbefore := ih fun spec hspec => hsaved spec (List.mem_append_left _ hspec)
    refine hbefore.step hstore hcontents hstep ?_
    rintro spec rfl
    exact hsaved spec (List.mem_append_right _ List.mem_cons_self)

include hstore hcontents in
theorem Run.tidy {turns : List Turn} (hrun : Run task contents w turns w') (h : w.Tidy task)
    (horder : w.InOrder task contents) (hsaved : ∀ spec, .built spec .unsaved ∉ turns)
    (hlost : .lost ∉ turns) : w'.Tidy task := by
  induction hrun with
  | nil => exact h
  | @snoc w' w'' turns turn hrun hstep ih =>
    have hsaved' : ∀ spec, .built spec .unsaved ∉ turns :=
      fun spec hspec => hsaved spec (List.mem_append_left _ hspec)
    have hbefore := ih hsaved' fun h => hlost (List.mem_append_left _ h)
    refine hbefore.step hstore hcontents (hrun.inOrder hstore hcontents horder hsaved') hstep ?_ ?_
    · rintro spec rfl
      exact hsaved spec (List.mem_append_right _ List.mem_cons_self)
    · rintro rfl
      exact hlost (List.mem_append_right _ List.mem_cons_self)

end Turn

end World

/-- **Outputs are never stale.** Take any history of a task that was never built: files are edited,
its snapshot is lost, and it is built with any specification, where no snapshot fails to be saved.
After a build that is done every source of its specification has an output made from exactly its
present include closure, and no other path has one if the snapshot was never lost. The store gives
back what it saved, and no two contents that are met have one digest. -/
theorem run_outputs {σ : Type} [SnapshotStore σ] {task : String} {contents : Set Bytes}
    (hstore : SnapshotStore.Returns σ task) (hcontents : Set.InjOn Digest.ofContent contents)
    {w₀ w w' : World σ} (hstart : w₀.Unbuilt task contents) {turns : List Turn}
    (hrun : World.Run task contents w₀ turns w) (hsaved : ∀ spec, .built spec .unsaved ∉ turns)
    {spec : TaskSpec} (hdone : World.Step task contents w (.built spec .done) w') :
    (∀ s ∈ spec.sources, w'.outputs s.normalize =
      some (w'.disk.closureOf spec.roots spec.imports s.normalize)) ∧
    (.lost ∉ turns → ∀ p, w'.outputs p ≠ none →
      ∃ s ∈ spec.sources, compare p s.normalize = .eq) := by
  have horder := hrun.inOrder hstore hcontents hstart.inOrder hsaved
  obtain ⟨hdisk, new, hnew, houtputs, htidy, -⟩ := horder.built hstore hcontents hdone rfl
  refine ⟨fun s hs => ?_, fun hlost p hp => ?_⟩
  · rw [hdisk]
    exact houtputs _ ((hnew.mem_sources _).2 ⟨s, hs, rfl⟩)
  · have hbefore := hrun.tidy hstore hcontents hstart.tidy hstart.inOrder hsaved hlost
    exact hnew.exists_of_isSource (htidy hbefore p hp)

/-- A header is edited between two builds: the output is made from the new header. -/
theorem run_outputs_editedHeader :
    let before : Disk := .ofFiles [("a.c", "#include \"b.h\"\n"), ("b.h", "1")]
    let after : Disk := .ofFiles [("a.c", "#include \"b.h\"\n"), ("b.h", "2")]
    let contents : Set Bytes := {b | b ∈ ["#include \"b.h\"\n", "1", "2"].map Utf8.ofString}
    let spec : TaskSpec := ⟨":app", [.ofText "a.c"], [], true, false⟩
    ∃ w w' : World MemoryStore,
      World.Run ":app" contents ⟨before, .empty, fun _ => none⟩ [.built spec .done, .edited] w ∧
      World.Step ":app" contents w (.built spec .done) w' ∧ w'.disk = after ∧
      w'.outputs (Path.ofText "a.c").normalize =
        some (after.closureOf [] false (Path.ofText "a.c").normalize) := by
  intro before after contents spec
  have hbefore : before.Within contents := Disk.within_ofFiles (by decide +kernel)
  have hafter : after.Within contents := Disk.within_ofFiles (by decide +kernel)
  have hcontents : Set.InjOn Digest.ofContent contents := by
    have hdecided : ∀ b ∈ ["#include \"b.h\"\n", "1", "2"].map Utf8.ofString,
        ∀ b' ∈ ["#include \"b.h\"\n", "1", "2"].map Utf8.ofString,
          Digest.ofContent b = Digest.ofContent b' → b = b' := by decide +kernel
    exact fun b hb b' hb' => hdecided b hb b' hb'
  let start : World MemoryStore := ⟨before, .empty, fun _ => none⟩
  let edited : World MemoryStore :=
    ⟨after, (start.build 2 spec).store, (start.build 2 spec).outputs⟩
  have hstart : start.Unbuilt ":app" contents := ⟨hbefore, rfl, fun _ => rfl⟩
  let verdict (w : World MemoryStore) : Verdict :=
    (Build.execute w.disk 2 w.store spec Build.recording ∅).value.verdict
  have hverdicts : verdict start = .done ∧ verdict edited = .done := by decide +kernel
  have hfirst : World.Step ":app" contents start (.built spec .done) (start.build 2 spec) :=
    World.build_step rfl hverdicts.1
  have hedit : World.Step ":app" contents (start.build 2 spec) .edited edited := .edited hafter rfl
  have hsecond : World.Step ":app" contents edited (.built spec .done) (edited.build 2 spec) :=
    World.build_step rfl hverdicts.2
  have hrun : World.Run ":app" contents start [.built spec .done, .edited] edited :=
    .snoc (.snoc (.nil start) hfirst) hedit
  refine ⟨edited, edited.build 2 spec, hrun, hsecond, rfl, ?_⟩
  have hsaved : ∀ spec', .built spec' .unsaved ∉ [Turn.built spec .done, .edited] := by
    intro spec' h
    simp at h
  exact (run_outputs (MemoryStore.returns ":app") hcontents hstart hrun hsaved hsecond).1
    (.ofText "a.c") List.mem_cons_self
end Recompile
