import Recompile.Proofs.Build.Outputs
import Recompile.Proofs.Build.Watch

/-!
# What the compiler is asked to do

A request hands over the directives of the sources to be compiled as far as they have a state; a
source without one would be left out without a word (`Request.make`). In a comparison every source
has a state under the very name that it has in the request, also a source that is reached as a
header, so nothing is left out (`Request.complete_ofCompilation`). The sources of a request are what
the comparison found, or all sources over clean outputs; in both modes the same snapshot is saved
(`execute_request`).
-/

namespace Recompile

/-- A source has a state, with the directives that are read from it. -/
theorem Snapshot.Describes.file?_of_source {disk : Disk} {roots : List Path} {imports : Bool}
    {sources : List Path} {s : Snapshot} (h : s.Describes disk roots imports sources) {p : Path}
    (hp : p ∈ s.sources.keys) : ∃ f content, s.file? p = some f ∧ disk.read p = .ok content ∧
      f.directives = .read imports content := by
  obtain ⟨q, hq, rfl⟩ := (h.mem_sources p).1 hp
  obtain ⟨f, hf⟩ := h.readable _ (.source hq)
  have hentry : (q.normalize, f) ∈ s.files.entries := (h.mem_files _ f).2 ⟨.source hq, hf⟩
  obtain ⟨content, hread, rfl⟩ := Disk.fileState_eq_some.1 hf
  exact ⟨_, content, s.files.find?_of_mem hentry, hread, rfl⟩

theorem Compilation.recompile_subset {old new : Snapshot} :
    (between old new).recompile.keys ⊆ new.sources.keys :=
  fun _ hp => (Table.mem_keys_filter_key.1 hp).1

/-! ## Requests -/

namespace Request

/-- The request has the directives of its sources, each as they are read from the source. -/
structure Complete (disk : Disk) (imports : Bool) (r : Request) : Prop where
  keys : r.directives.keys = r.sources.keys
  entry : ∀ p directives, (p, directives) ∈ r.directives.entries ↔ p ∈ r.sources.keys ∧
    ∃ content, disk.read p = .ok content ∧ directives = .read imports content

variable {c : Compilation} {sources : PathSet} {cleanOutputs incremental : Bool}

/-- The directives of a request stand in the order of its sources. -/
theorem entries_make : (make c sources cleanOutputs).directives.entries =
    sources.keys.filterMap fun p => (c.state.file? p).map fun f => (p, f.directives) := by
  refine (Table.foldl_insert_entries ∅ ?_).trans (List.nil_append _)
  refine List.Pairwise.filterMap _ (fun p q hlt e he e' he' => ?_) sources.keys_pairwise
  obtain ⟨f, -, rfl⟩ := Option.map_eq_some_iff.1 he
  obtain ⟨f', -, rfl⟩ := Option.map_eq_some_iff.1 he'
  exact hlt

/-- A request leaves no source out that has a state. -/
theorem complete_make {disk : Disk} {imports : Bool} (hstate : ∀ p ∈ sources.keys,
    ∃ f content, c.state.file? p = some f ∧ disk.read p = .ok content ∧
      f.directives = .read imports content) :
    (make c sources cleanOutputs).Complete disk imports where
  keys := by
    rw [Table.keys, entries_make, List.map_filterMap]
    refine (List.filterMap_congr fun p hp => ?_).trans List.filterMap_some
    obtain ⟨f, -, hf, -⟩ := hstate p hp
    rw [hf]
    rfl
  entry := by
    intro p directives
    rw [entries_make, List.mem_filterMap]
    constructor
    · rintro ⟨q, hq, hentry⟩
      obtain ⟨f, content, hf, hread, hdirectives⟩ := hstate q hq
      rw [hf] at hentry
      cases hentry
      exact ⟨hq, content, hread, hdirectives⟩
    · rintro ⟨hp, content, hread, rfl⟩
      obtain ⟨f, content', hf, hread', hdirectives⟩ := hstate p hp
      cases hread.symm.trans hread'
      refine ⟨p, hp, ?_⟩
      rw [hf, Option.map_some, hdirectives]

section OfCompilation

variable {disk : Disk} {roots given : List Path} {imports : Bool} {old new : Snapshot}

theorem complete_ofCompilation (h : new.Describes disk roots imports given) :
    (ofCompilation incremental (.between old new)).Complete disk imports := by
  cases incremental with
  | true => exact complete_make fun p hp => h.file?_of_source (Compilation.recompile_subset hp)
  | false => exact complete_make fun p hp => h.file?_of_source hp

/-- What is removed is not compiled, under no spelling. -/
theorem contains_sources_of_removed {p : Path}
    (hp : p ∈ (ofCompilation incremental (.between old new)).removed.keys) :
    (ofCompilation incremental (.between old new)).sources.contains p = false := by
  have hremoved : (Compilation.between old new).removed.contains p = true := by
    cases incremental <;> exact Table.contains_of_mem_keys hp
  obtain ⟨-, hsource⟩ := Compilation.contains_removed.1 hremoved
  cases incremental with
  | true =>
    rw [← Bool.not_eq_true]
    intro hrecompile
    have hnew : new.isSource p = true := Compilation.isSource_of_contains_recompile hrecompile
    rw [hsource] at hnew
    cases hnew
  | false => exact hsource

end OfCompilation

end Request

/-! ## Builds -/

namespace Build

variable {σ : Type} [SnapshotStore σ] {disk : Disk} {limit : Nat} {store : σ} {spec : TaskSpec}
  {compile : Compiler} {watched : PathSet} {c : Compilation}

theorem comparison_of_request {r : Request}
    (h : (execute disk limit store spec compile watched).value.request = some r) :
    ∃ c, comparison disk limit store spec = .ok c ∧ r = .ofCompilation spec.incremental c := by
  have hends := execute_ends disk limit store spec compile watched
  generalize (execute disk limit store spec compile watched).value = b at h hends
  cases hends with
  | unsurveyed _ _ => cases h
  | failed _ hcompute _ => exact ⟨_, hcompute, (Option.some.inj h).symm⟩
  | unsaved _ hcompute _ _ => exact ⟨_, hcompute, (Option.some.inj h).symm⟩
  | done _ hcompute _ _ => exact ⟨_, hcompute, (Option.some.inj h).symm⟩

/-- A build saves what it compared if the compiler has done its part, and else leaves the store as
it was. -/
theorem store_of_comparison (h : comparison disk limit store spec = .ok c) :
    (execute disk limit store spec compile watched).value.store =
      match compile (.ofCompilation spec.incremental c) with
      | .ok _ => (SnapshotStore.save store spec.task c.state).value.1
      | .error _ => store := by
  have hends := execute_ends disk limit store spec compile watched
  generalize (execute disk limit store spec compile watched).value = b at hends
  cases hends with
  | unsurveyed _ hcompute => cases hcompute.symm.trans h
  | failed _ hcompute hcompile =>
    obtain rfl := Except.ok.inj (hcompute.symm.trans h)
    rw [hcompile]
  | unsaved _ hcompute hcompile hsave =>
    obtain rfl := Except.ok.inj (hcompute.symm.trans h)
    rw [hcompile, hsave]
  | done _ hcompute hcompile hsave =>
    obtain rfl := Except.ok.inj (hcompute.symm.trans h)
    rw [hcompile, hsave]

end Build

/-- **The compiler gets complete and exact work.** When a build has asked its compiler for
something, the request has the directives of exactly the sources to be compiled, each with what is
read from the source, and with the mark of one that cannot be parsed. An incremental build compiles
what the comparison found and keeps the outputs; any other compiles every source of the task, under
its normal name, over clean outputs. What is to be removed is never among what is compiled. In both
modes the same comparison is made, and once the compiler has done its part the same snapshot is
saved into the store. -/
theorem execute_request {σ : Type} [SnapshotStore σ] {disk : Disk} {limit : Nat} {store : σ}
    {spec : TaskSpec} {compile : Compiler} {watched : PathSet} {r : Request}
    (h : (Build.execute disk limit store spec compile watched).value.request = some r) :
    r.directives.keys = r.sources.keys ∧
    (∀ p directives, (p, directives) ∈ r.directives.entries ↔ p ∈ r.sources.keys ∧
      ∃ content, disk.read p = .ok content ∧ directives = .read spec.imports content) ∧
    (∀ p ∈ r.removed.keys, r.sources.contains p = false) ∧
    ∃ c, Build.comparison disk limit store spec = .ok c ∧ r.removed = c.removed ∧
      (spec.incremental = true → r.sources = c.recompile ∧ r.cleanOutputs = false) ∧
      (spec.incremental = false → r.cleanOutputs = true ∧
        ∀ p, p ∈ r.sources.keys ↔ ∃ s ∈ spec.sources, s.normalize = p) ∧
      ∀ (incremental : Bool) (compile : Compiler) (watched : PathSet),
        let b := (Build.execute disk limit store { spec with incremental } compile watched).value
        b.request = some (.ofCompilation incremental c) ∧
          b.store = match compile (.ofCompilation incremental c) with
            | .ok _ => (SnapshotStore.save store spec.task c.state).value.1
            | .error _ => store := by
  obtain ⟨c, hcompute, rfl⟩ := Build.comparison_of_request h
  have hdescribes : c.state.Describes disk spec.roots spec.imports spec.sources :=
    Compilation.compute_describes hcompute
  obtain ⟨-, -, hbetween⟩ := Compilation.compute_eq_ok hcompute
  have hcomplete : (Request.ofCompilation spec.incremental c).Complete disk spec.imports :=
    hbetween ▸ Request.complete_ofCompilation hdescribes
  refine ⟨hcomplete.keys, hcomplete.entry, ?_, c, hcompute, ?_, ?_, ?_, ?_⟩
  · rw [hbetween]
    exact fun p => Request.contains_sources_of_removed
  · cases spec.incremental <;> rfl
  · intro hincremental
    rw [hincremental]
    exact ⟨rfl, rfl⟩
  · intro hincremental
    rw [hincremental]
    exact ⟨rfl, hdescribes.mem_sources⟩
  · intro incremental compile watched b
    have hagain : Build.comparison disk limit store { spec with incremental } = .ok c := hcompute
    exact ⟨Build.request_of_comparison hagain, Build.store_of_comparison hagain⟩

/-- The store after a build of four sources, of which one includes another. -/
def fourBuilt : MemoryStore :=
  let disk := .ofFiles [("a.c", "#include \"b.c\"\n"), ("b.c", "1"), ("d.c", ""), ("e.c", "")]
  let spec := ⟨":app", ["a.c", "b.c", "d.c", "e.c"].map .ofText, [], true, false⟩
  (Build.execute disk 4 .empty spec Build.recording ∅).value.store

/-- The included source has changed, and one source is no longer given. -/
theorem execute_request_fourBuilt :
    let disk := Disk.ofFiles [("a.c", "#include \"b.c\"\n"), ("b.c", "2"), ("e.c", "")]
    let build (incremental : Bool) := (Build.execute disk 3 fourBuilt
      ⟨":app", ["./b.c", "x/../a.c", "e.c"].map .ofText, [], incremental, false⟩ Build.recording
      ∅).value
    ∃ r r', (build true).request = some r ∧ (build false).request = some r' ∧
      r.directives.keys.map Path.text = ["a.c", "b.c"] ∧ r.cleanOutputs = false ∧
      r.removed.keys.map Path.text = ["d.c"] ∧
      r'.directives.keys.map Path.text = ["a.c", "b.c", "e.c"] ∧ r'.cleanOutputs = true ∧
      (build true).store = (build false).store := by
  intro disk build
  have hrequests : ((build true).request.map fun r =>
        (r.sources.keys.map Path.text, r.removed.keys.map Path.text)) =
          some (["a.c", "b.c"], ["d.c"]) ∧
      ((build false).request.map fun r => r.sources.keys.map Path.text) =
        some ["a.c", "b.c", "e.c"] := by
    decide +kernel
  obtain ⟨r, hr, hsources⟩ := Option.map_eq_some_iff.1 hrequests.1
  obtain ⟨r', hr', hsources'⟩ := Option.map_eq_some_iff.1 hrequests.2
  obtain ⟨hcompiled, hremoved⟩ := Prod.mk.inj hsources
  obtain ⟨hkeys, -, -, c, -, -, hincremental, -, hmodes⟩ := execute_request hr
  obtain ⟨hkeys', -, -, _, -, -, -, hclean, -⟩ := execute_request hr'
  refine ⟨r, r', hr, hr', ?_, (hincremental rfl).2, hremoved, ?_, (hclean rfl).1, ?_⟩
  · rw [hkeys]
    exact hcompiled
  · rw [hkeys']
    exact hsources'
  · have hfirst : (build true).store = _ := (hmodes true Build.recording ∅).2
    have hsecond : (build false).store = _ := (hmodes false Build.recording ∅).2
    exact hfirst.trans hsecond.symm

end Recompile
