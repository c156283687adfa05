import Recompile.Proofs.Diff.Graph
import Recompile.Proofs.Survey.Describes

/-!
# The final state is the include closure

A snapshot that describes what the sources reach on the disk is coherent, and its files are those
that its sources reach in its own include graph (`Snapshot.Describes.tracked_iff`). From this comes
the whole of what a comparison leaves behind (`Compilation.Exact`): it succeeds when all sources can
be read, the disk has finitely many files under normal names and the limit allows for them, and then
the final state is the include closure of the sources (`compute_exact`).
-/

namespace Recompile

namespace Snapshot.Describes

variable {disk : Disk} {roots : List Path} {imports : Bool} {sources : List Path} {s : Snapshot}
  (h : s.Describes disk roots imports sources)

include h in
theorem mem_keys {p : Path} :
    p ∈ s.files.keys ↔ Tracked disk roots imports sources p := by
  rw [Table.mem_keys_iff]
  constructor
  · rintro ⟨f, hf⟩
    exact ((h.mem_files p f).1 hf).1
  · intro hp
    obtain ⟨f, hf⟩ := h.readable p hp
    exact ⟨f, (h.mem_files p f).2 ⟨hp, hf⟩⟩

include h in
theorem coherent : s.Coherent where
  keyed := by
    intro p f hp
    obtain ⟨content, -, rfl⟩ := Disk.fileState_eq_some.1 ((h.mem_files p f).1 hp).2
    rfl
  normal := fun p hp => (h.mem_keys.1 hp).isNormal
  source := by
    intro p hp
    obtain ⟨q, hq, rfl⟩ := (h.mem_sources p).1 hp
    exact h.mem_keys.2 (.source hq)
  closed := by
    intro p f hp q hq
    obtain ⟨htracked, hf⟩ := (h.mem_files p f).1 hp
    exact h.mem_keys.2 (htracked.headers hf hq)

include h in
theorem exists_of_isSource {p : Path} (hp : s.isSource p = true) :
    ∃ q ∈ sources, compare p q.normalize = .eq := by
  obtain ⟨r, hr, heq⟩ := (Table.contains_iff _).1 hp
  obtain ⟨q, hq, rfl⟩ := (h.mem_sources r).1 hr
  exact ⟨q, hq, heq⟩

include h in
/-- What is tracked is what the sources reach in the graph of the snapshot. -/
theorem tracked_iff {p : Path} : Tracked disk roots imports sources p ↔
    ∃ a ∈ s.sources.keys, Reaches s.headersOf a p := by
  constructor
  · intro hp
    refine hp.of_closed (P := fun q => ∃ a ∈ s.sources.keys, Reaches s.headersOf a q) ?_ ?_
    · exact fun q hq => ⟨_, (h.mem_sources _).2 ⟨q, hq, rfl⟩, .refl _⟩
    · rintro q f ⟨a, ha, hreach⟩ hf r hr
      refine ⟨a, ha, hreach.tail ?_⟩
      have hq := h.mem_keys.1 (h.coherent.reaches (h.coherent.source a ha) hreach)
      rwa [Coherent.headersOf_eq ((h.mem_files q f).2 ⟨hq, hf⟩)]
  · rintro ⟨a, ha, hreach⟩
    exact h.mem_keys.1 (h.coherent.reaches (h.coherent.source a ha) hreach)

include h in
/-- What is recorded of a directive is what becomes of it on the disk. -/
theorem mem_includes {p : Path} {f : FileState} (hp : (p, f) ∈ s.files.entries) {i : Include}
    (hi : i ∈ f.includes) : ∃ d ∈ f.directives.all, i = disk.includeOf roots p d := by
  obtain ⟨content, -, rfl⟩ := Disk.fileState_eq_some.1 ((h.mem_files p f).1 hp).2
  obtain ⟨d, hd, rfl⟩ := List.mem_map.1 hi
  exact ⟨d, hd, rfl⟩

include h in
/-- A directive that is resolved names a file with a state, and carries its digest. -/
theorem resolved {p q : Path} {f : FileState} (hp : (p, f) ∈ s.files.entries) {i : Include}
    (hi : i ∈ f.includes) {digest : Digest} (houtcome : i.outcome = .resolved q digest) :
    ∃ g, (q, g) ∈ s.files.entries ∧ g.digest = digest := by
  obtain ⟨htracked, hf⟩ := (h.mem_files p f).1 hp
  obtain ⟨content, hread, rfl⟩ := Disk.fileState_eq_some.1 hf
  obtain ⟨d, hd, rfl⟩ := List.mem_map.1 hi
  obtain ⟨hlocate, hdigest⟩ := Location.outcome_eq_resolved.1 houtcome
  cases hheader : disk.read q with
  | error e =>
    rw [Disk.digest?_of_error hheader] at hdigest
    cases hdigest
  | ok content' =>
    rw [Disk.digest?_of_ok hheader] at hdigest
    refine ⟨_, (h.mem_files q _).2 ⟨.header htracked hread hd hlocate hheader,
      Disk.fileState_eq_some.2 ⟨content', hheader, rfl⟩⟩, Option.some.inj hdigest⟩

end Snapshot.Describes

theorem Include.isUnknown_iff {i : Include} : i.isUnknown = true ↔ i.outcome = .unknown := by
  unfold isUnknown
  cases i.outcome <;> simp

theorem FileState.hasUnknown_iff {f : FileState} : f.hasUnknown = true ↔
    f.directives.unreadable = true ∨ ∃ i ∈ f.includes, i.outcome = .unknown := by
  simp only [hasUnknown, Bool.or_eq_true, List.any_eq_true, Include.isUnknown_iff]

/-- What a comparison is to leave behind for some sources on a disk. -/
structure Compilation.Exact (disk : Disk) (roots : List Path) (imports : Bool)
    (sources : List Path) (c : Compilation) : Prop where
  /-- The sources of the final state are the given ones under their normal names. -/
  mem_sources : ∀ p, p ∈ c.state.sources.keys ↔ ∃ s ∈ sources, s.normalize = p
  /-- The files of the final state are the least set that holds the sources and every header that
  a directive of a member leads to and that can be read. -/
  mem_files : ∀ p, p ∈ c.state.files.keys ↔ Tracked disk roots imports sources p
  /-- Each file is recorded as it is on the disk, with one outcome for each directive in order, that
  of a search path without a memory. -/
  recorded : ∀ p f, (p, f) ∈ c.state.files.entries → f.path = p ∧
    ∃ content, disk.read p = .ok content ∧ f.digest = .ofContent content ∧
      f.directives = .read imports content ∧
      f.includes = f.directives.all.map fun d =>
        ((SearchPath.ofRoots roots).resolve disk d p).value.1
  unknown : ∀ p f, (p, f) ∈ c.state.files.entries → ∀ i ∈ f.includes, i.outcome = .unknown ↔
    i.directive.form = .expression ∨
      ∃ q e, disk.locate roots p i.directive = .found q ∧ disk.read q = .error e
  unresolved : ∀ p f, (p, f) ∈ c.state.files.entries → ∀ i ∈ f.includes, i.outcome = .unresolved ↔
    i.directive.form ≠ .expression ∧
      ∀ q ∈ SearchPath.candidates roots i.directive p, disk.isFile q = false
  /-- A resolved directive names a file of the final state and carries its digest. -/
  resolved : ∀ p f, (p, f) ∈ c.state.files.entries → ∀ i ∈ f.includes, ∀ q digest,
    i.outcome = .resolved q digest → ∃ g, (q, g) ∈ c.state.files.entries ∧ g.digest = digest
  headers : ∀ p, p ∈ c.headers.keys ↔ p ∈ c.state.files.keys ∧ p ∉ c.state.sources.keys
  unknownHeaders : c.unknownHeaders = true ↔ ∃ p f, (p, f) ∈ c.state.files.entries ∧
    (f.directives.unreadable = true ∨ ∃ i ∈ f.includes, i.outcome = .unknown)

theorem Compilation.exact_of_describes {disk : Disk} {roots : List Path} {imports : Bool}
    {sources : List Path} {previous current : Snapshot}
    (h : current.Describes disk roots imports sources) :
    (between previous current).Exact disk roots imports sources where
  mem_sources := h.mem_sources
  mem_files := fun _ => h.mem_keys
  recorded := by
    intro p f hp
    obtain ⟨content, hread, rfl⟩ := Disk.fileState_eq_some.1 ((h.mem_files p f).1 hp).2
    refine ⟨rfl, content, hread, rfl, rfl, List.map_congr_left fun d _ => ?_⟩
    exact (disk.resolve_ofRoots roots p d).symm
  unknown := by
    intro p f hp i hi
    obtain ⟨d, -, rfl⟩ := h.mem_includes hp hi
    exact Disk.includeOf_unknown
  unresolved := by
    intro p f hp i hi
    obtain ⟨d, -, rfl⟩ := h.mem_includes hp hi
    exact Disk.includeOf_unresolved
  resolved := fun p f hp i hi q digest houtcome => h.resolved hp hi houtcome
  headers := by
    intro p
    exact h.coherent.mem_discoveredHeaders.trans (and_congr_left' (h.tracked_iff.symm.trans
      h.mem_keys.symm))
  unknownHeaders := by
    simp only [between, Snapshot.hasUnknown, List.any_eq_true, Snapshot.fileStates,
      Table.mem_values_iff, FileState.hasUnknown_iff]
    constructor
    · rintro ⟨f, ⟨p, hp⟩, hf⟩
      exact ⟨p, f, hp, hf⟩
    · rintro ⟨p, f, hp, hf⟩
      exact ⟨f, ⟨p, hp⟩, hf⟩

/-- **The final state is the include closure.** On a disk that has only the files `names` under
normal names, a comparison whose limit allows for them succeeds when every source can be read, and
one that succeeds leaves exactly the include closure of the sources behind. -/
theorem compute_exact {disk : Disk} {names : List Path}
    (hnames : ∀ p, p.IsNormal → disk.isFile p = true → p ∈ names) {limit : Nat}
    (hlimit : names.length ≤ limit) (previous : Snapshot) (roots : List Path) (imports : Bool)
    (sources : List Path) :
    ((∀ s ∈ sources, ∃ content, disk.read s.normalize = .ok content) →
      ∃ c, (Compilation.compute disk limit previous (.new imports (.ofRoots roots))
        sources).value = .ok c) ∧
    ∀ c, (Compilation.compute disk limit previous (.new imports (.ofRoots roots))
        sources).value = .ok c → c.Exact disk roots imports sources := by
  refine ⟨fun hread => Compilation.compute_isOk hread hnames hlimit, fun c hc => ?_⟩
  obtain ⟨-, -, hbetween⟩ := Compilation.compute_eq_ok hc
  rw [hbetween]
  exact Compilation.exact_of_describes (Compilation.compute_describes hc)

/-- A source whose header includes itself: the search ends all the same. -/
theorem compute_exact_selfInclude :
    let disk : Disk := .ofFiles [("a.c", "#include \"b.h\"\n"), ("b.h", "#include \"b.h\"\n")]
    ∃ c, (Compilation.compute disk 2 ∅ (.new false (.ofRoots [])) [.ofText "a.c"]).value = .ok c ∧
      c.Exact disk [] false [.ofText "a.c"] := by
  intro disk
  have hnames : ∀ p, p.IsNormal → disk.isFile p = true → p ∈ [.ofText "a.c", .ofText "b.h"] :=
    fun p _ hp => Disk.isFile_ofFiles hp
  have hexact := compute_exact hnames (Nat.le_refl 2) ∅ [] false [.ofText "a.c"]
  have hread : ∀ s ∈ [Path.ofText "a.c"], ∃ content, disk.read s.normalize = .ok content := by
    intro s hs
    obtain rfl := List.mem_singleton.1 hs
    exact ⟨_, rfl⟩
  obtain ⟨c, hc⟩ := hexact.1 hread
  exact ⟨c, hc, hexact.2 c hc⟩

end Recompile
