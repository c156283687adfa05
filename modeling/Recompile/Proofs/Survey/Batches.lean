import Recompile.Proofs.FileTree.Names
import Recompile.Proofs.FileTree.Normal
import Recompile.Proofs.Survey.Describes
import Recompile.Proofs.Survey.Lookups

/-!
# Surveys in several calls

A survey can be called again and again, each time with other sources, to fill one snapshot. Later
calls find what earlier ones have read and tested, a source of one call may be a header of another,
and a call that fails is given up. None of that shows in the end: what has been filled in is what a
single call on a new survey fills in for all sources of the calls that succeeded
(`Survey.after_calls`), as both record what these sources reach (`Snapshot.Records.beq`).

The sources are taken as they are spelled, and two spellings of one name count as one. So a disk has
to give one content under one name, wherever it can be read (`Disk.Usable`); file trees do
(`FileTree.unambiguous`).
-/

namespace Recompile

/-! ## Names of files -/

/-- A name that a survey may read: a normal one, or any other that can be read. -/
def Disk.Usable (disk : Disk) (p : Path) : Prop :=
  p.IsNormal ∨ ∃ content, disk.read p = .ok content

/-- In a file tree a file has the same content under every spelling of its name. A spelling that
cannot be read is not a normal one. -/
theorem FileTree.unambiguous (t : FileTree) : t.disk.Unambiguous t.disk.Usable where
  normal _ h := .inl h
  same p q hp hq hsteps := by
    have hnormalized {r : Path} (hr : ∃ content, t.read r = .ok content) :
        t.locate r.normalize = t.locate r := by
      obtain ⟨content, hread⟩ := hr
      obtain ⟨place, hlocate, -⟩ := lookup_eq_ok.1 (read_eq_ok.1 hread)
      exact locate_normalize (passable_of_locate hlocate)
    have hread {r : Path} (hr : t.disk.Usable r) : t.read r.normalize = t.read r := by
      rcases hr with hr | hr
      · rw [hr.normalize_eq]
      · rw [read, read, lookup, lookup, hnormalized hr]
    change (t.read p).toOption = (t.read q).toOption
    rw [← hread hp, ← hread hq, Path.normalize_congr hsteps]

/-! ## Records that are the same -/

instance : ReflBEq Outcome where
  rfl {o} := by
    cases o with
    | resolved p digest =>
      change ((p == p) && (digest == digest)) = true
      rw [beq_self_eq_true, beq_self_eq_true]
      rfl
    | unresolved => rfl
    | unknown => rfl

instance : ReflBEq Include where
  rfl {i} := by
    change ((i.directive == i.directive) && (i.outcome == i.outcome)) = true
    rw [beq_self_eq_true, beq_self_eq_true]
    rfl

/-- States that differ in the spelling of the path only are the same. -/
theorem FileState.beq_of_steps {f : FileState} {q : Path} (h : f.path.steps = q.steps) :
    (f == { f with path := q }) = true := by
  change ((f.path == q) && ((f.digest == f.digest) &&
    ((f.directives == f.directives) && (f.includes == f.includes)))) = true
  rw [Path.beq_iff.2 h, beq_self_eq_true, beq_self_eq_true, beq_self_eq_true]
  rfl

namespace Snapshot.Records

variable {disk : Disk} {names : Path → Prop} {roots : List Path} {imports : Bool}
  {sources sources' : List Path} {s t : Snapshot}

theorem file?_eq_some (h : s.Records disk roots imports sources) {p : Path} {f : FileState}
    (hf : s.file? p = some f) : ∃ q, p.steps = q.steps ∧ Reached disk roots imports sources q ∧
      disk.fileState roots imports q = some f := by
  obtain ⟨k, hk, heq⟩ := s.files.find?_eq_some_iff.1 hf
  obtain ⟨-, q, hsteps, hq, hfq⟩ := h.file k f hk
  exact ⟨q, (Path.compare_eq_iff.1 heq).trans hsteps, hq, hfq⟩

theorem contains_source_iff (h : s.Records disk roots imports sources) {p : Path} :
    s.sources.contains p = true ↔ ∃ q ∈ sources, p.steps = q.steps := by
  constructor
  · intro hp
    obtain ⟨q, hq, heq⟩ := s.sources.contains_iff.1 hp
    exact ⟨q, h.source q hq, Path.compare_eq_iff.1 heq⟩
  · rintro ⟨q, hq, hsteps⟩
    rw [Table.contains_congr _ (Path.compare_eq_iff.2 hsteps)]
    exact h.contains_source q hq

theorem contains_file_iff (h : s.Records disk roots imports sources) {p : Path} :
    s.files.contains p = true ↔ ∃ q, p.steps = q.steps ∧ Reached disk roots imports sources q := by
  constructor
  · intro hp
    obtain ⟨f, hf⟩ := s.files.contains_iff_find?.1 hp
    obtain ⟨q, hsteps, hq, -⟩ := h.file?_eq_some hf
    exact ⟨q, hsteps, hq⟩
  · rintro ⟨q, hsteps, hq⟩
    rw [Table.contains_congr _ (Path.compare_eq_iff.2 hsteps)]
    exact h.contains_file q hq

/-- What is recorded of the same sources is the same. -/
theorem beq (hone : disk.Unambiguous names) (hnames : ∀ p ∈ sources, names p)
    (h : s.Records disk roots imports sources) (h' : t.Records disk roots imports sources')
    (hsame : ∀ p, p ∈ sources' ↔ p ∈ sources) : (s == t) = true := by
  have hkeys : ∀ x y : Path, compare x y = .eq → (x == y) = true :=
    fun x y h => Path.beq_iff.2 (Path.compare_eq_iff.1 h)
  have hreached (p : Path) :
      Reached disk roots imports sources' p ↔ Reached disk roots imports sources p :=
    ⟨.mono fun q => (hsame q).1, .mono fun q => (hsame q).2⟩
  have hsources : (s.sources == t.sources) = true := by
    refine Table.beq_of_find? hkeys fun k => ?_
    have hcontains : s.sources.contains k = t.sources.contains k := by
      rw [Bool.eq_iff_iff, h.contains_source_iff, h'.contains_source_iff]
      simp only [hsame]
    unfold Table.contains at hcontains
    cases hs : s.sources.find? k <;> cases ht : t.sources.find? k <;> simp_all
  have hfiles : (s.files == t.files) = true := by
    refine Table.beq_of_find? hkeys fun k => ?_
    have hcontains : s.files.contains k = t.files.contains k := by
      rw [Bool.eq_iff_iff, h.contains_file_iff, h'.contains_file_iff]
      simp only [hreached]
    cases hf : s.files.find? k with
    | none =>
      have ht : t.files.find? k = none := by
        simpa [Table.contains, hf] using hcontains.symm
      rw [ht]
      rfl
    | some f =>
      obtain ⟨g, hg⟩ := t.files.contains_iff_find?.1 (by rw [← hcontains, Table.contains, hf]; rfl)
      obtain ⟨q, hq, hreach, hfq⟩ := h.file?_eq_some hf
      obtain ⟨r, hr, hreach', hgr⟩ := h'.file?_eq_some hg
      have hsteps : q.steps = r.steps := hq.symm.trans hr
      have hpath : f.path = q := by
        obtain ⟨content, -, rfl⟩ := Disk.fileState_eq_some.1 hfq
        rfl
      rw [hone.fileState_eq (hreach.name hone hnames)
        (((hreached r).1 hreach').name hone hnames) hsteps, hfq] at hgr
      obtain rfl := Option.some.inj hgr
      rw [hg]
      exact FileState.beq_of_steps (by rw [hpath, hsteps])
  change ((s.sources == t.sources) && (s.files == t.files)) = true
  rw [hsources, hfiles]
  rfl

end Snapshot.Records

/-! ## Calls -/

/-- Every file of a list can be read. -/
def Disk.CanRead (disk : Disk) (given : List Path) : Prop :=
  ∀ p ∈ given, ∃ content, disk.read p = .ok content

theorem Disk.CanRead.usable {disk : Disk} {given : List Path} (h : disk.CanRead given) :
    ∀ p ∈ given, disk.Usable p :=
  fun p hp => .inr (h p hp)

namespace Survey

/-- One call of a survey that fills a snapshot. A call that fails leaves both as they are. -/
def call (disk : Disk) (limit : Nat) (state : Survey × Snapshot) (given : List Path) :
    Option SurveyError × Survey × Snapshot :=
  match (state.1.scan disk limit given state.2).value with
  | .ok next => (none, next)
  | .error e => (some e, state)

/-- The survey and the snapshot after some calls. -/
def calls (disk : Disk) (limit : Nat) (state : Survey × Snapshot) (batches : List (List Path)) :
    Survey × Snapshot :=
  batches.foldl (fun state given => (call disk limit state given).2) state

/-- A new survey and an empty snapshot. -/
def fresh (imports : Bool) (roots : List Path) : Survey × Snapshot :=
  (.new imports (.ofRoots roots), ∅)

/-- The survey remembers nothing that is not so, and the snapshot records what the sources reach. -/
structure Fills (disk : Disk) (roots : List Path) (imports : Bool) (sources : List Path)
    (state : Survey × Snapshot) : Prop where
  agrees : state.1.Agrees disk disk.Usable roots imports
  records : state.2.Records disk roots imports sources
  readable : disk.CanRead sources

variable {disk : Disk} {limit : Nat} {roots : List Path} {imports : Bool}
  {sources given : List Path} {state : Survey × Snapshot}

theorem fills_fresh (disk : Disk) (roots : List Path) (imports : Bool) :
    Fills disk roots imports [] (fresh imports roots) :=
  ⟨agrees_new disk _ roots imports, Snapshot.records_empty, fun _ hp => absurd hp List.not_mem_nil⟩

/-- The only source that cannot be read is the one that the call is given up for. -/
theorem call_of_unreadable {p : Path} {e : FileError} (hp : p ∈ given)
    (hread : disk.read p = .error e)
    (hothers : ∀ q ∈ given, q ≠ p → ∃ content, disk.read q = .ok content) :
    call disk limit state given = (some (.unreadable p e), state) := by
  have hscan : (state.1.scan disk limit given state.2).value = .error (.unreadable p e) :=
    scan_eq_unreadable.2 (readSources_eq_error hp hread hothers)
  rw [call, hscan]

/-- A call that succeeds has read all its sources. -/
theorem canRead_of_scan {t : Survey × Snapshot}
    (h : (state.1.scan disk limit given state.2).value = .ok t) : disk.CanRead given := by
  unfold scan at h
  cases hread : readSources disk state.1.imports given with
  | error e =>
    rw [hread] at h
    cases h
  | ok scans =>
    obtain ⟨hmap, hscans⟩ := readSources_spec hread
    intro p hp
    rw [← hmap] at hp
    obtain ⟨e, he, rfl⟩ := List.mem_map.1 hp
    obtain ⟨content, hcontent, -⟩ := Disk.scan?_eq_some.1 (hscans e he)
    exact ⟨content, hcontent⟩

theorem call_of_not_canRead (h : ¬disk.CanRead given) :
    ∃ e, call disk limit state given = (some e, state) := by
  unfold call
  cases hscan : (state.1.scan disk limit given state.2).value with
  | ok next => exact absurd (canRead_of_scan hscan) h
  | error e => exact ⟨e, rfl⟩

/-- A call whose sources can be read succeeds and adds what they reach. -/
theorem Fills.call (h : Fills disk roots imports sources state) (hdisk : disk.Allows limit)
    (hone : disk.Unambiguous disk.Usable) (hgiven : disk.CanRead given) :
    ∃ next, Survey.call disk limit state given = (none, next) ∧
      Fills disk roots imports (sources ++ given) next := by
  obtain ⟨all, hlimit, hall⟩ := hdisk
  have hreadable : disk.CanRead (sources ++ given) := fun p hp =>
    (List.mem_append.1 hp).elim (h.readable p) (hgiven p)
  obtain ⟨next, hscan⟩ :=
    scan_isOk h.agrees hone h.records hgiven.usable hgiven hall hlimit
  obtain ⟨hagrees, hrecords⟩ := scan_records h.agrees hone h.records hreadable.usable hscan
  exact ⟨next, by rw [Survey.call, hscan], hagrees, hrecords, hreadable⟩

/-- After some calls the snapshot records what the sources of those reach that could be read. -/
theorem Fills.calls (h : Fills disk roots imports sources state) (hdisk : disk.Allows limit)
    (hone : disk.Unambiguous disk.Usable) (batches : List (List Path)) :
    ∃ sources', Fills disk roots imports sources' (Survey.calls disk limit state batches) ∧
      ∀ p, p ∈ sources' ↔ p ∈ sources ∨ ∃ given ∈ batches, p ∈ given ∧ disk.CanRead given := by
  induction batches generalizing sources state with
  | nil => exact ⟨sources, h, fun p => by simp⟩
  | cons given batches ih =>
    by_cases hgiven : disk.CanRead given
    · obtain ⟨next, hcall, hnext⟩ := h.call hdisk hone hgiven
      obtain ⟨sources', hfills, hmem⟩ := ih hnext
      refine ⟨sources', ?_, fun p => ?_⟩
      · rwa [Survey.calls, List.foldl_cons, hcall]
      · simp [hmem, hgiven, or_assoc]
    · obtain ⟨e, hcall⟩ := @call_of_not_canRead disk limit given state hgiven
      obtain ⟨sources', hfills, hmem⟩ := ih h
      refine ⟨sources', ?_, fun p => ?_⟩
      · rwa [Survey.calls, List.foldl_cons, hcall]
      · simp [hmem, hgiven]

/-- **Batches, order and failures do not matter.** After any calls on a new survey, a further call
with one source that cannot be read fails for that source and changes nothing, and one whose sources
can be read succeeds. The snapshot that has been filled is the one that a single call on a new
survey fills for the sources of the calls that succeeded, listed in any order and any number of
times, and it has a record of each of its sources. -/
theorem after_calls (hdisk : disk.Allows limit) (hone : disk.Unambiguous disk.Usable)
    (roots : List Path) (imports : Bool) (batches : List (List Path)) :
    let state := calls disk limit (fresh imports roots) batches
    (∀ given p e, p ∈ given → disk.read p = .error e →
      (∀ q ∈ given, q ≠ p → ∃ content, disk.read q = .ok content) →
        call disk limit state given = (some (.unreadable p e), state)) ∧
    (∀ given, disk.CanRead given → ∃ next, call disk limit state given = (none, next)) ∧
    (∀ sources, (∀ p, p ∈ sources ↔ ∃ given ∈ batches, p ∈ given ∧ disk.CanRead given) →
      ∃ survey snapshot, ((new imports (.ofRoots roots)).scan disk limit sources ∅).value =
        .ok (survey, snapshot) ∧ (state.2 == snapshot) = true) ∧
    ∀ p, state.2.isSource p = true → ∃ f, state.2.file? p = some f := by
  intro state
  obtain ⟨filled, hfills, hmem⟩ := (fills_fresh disk roots imports).calls hdisk hone batches
  refine ⟨fun given p e => call_of_unreadable, fun given hgiven => ?_, fun sources hsources => ?_,
    fun p hp => ?_⟩
  · obtain ⟨next, hcall, -⟩ := hfills.call hdisk hone hgiven
    exact ⟨next, hcall⟩
  · have hread : disk.CanRead sources := by
      intro p hp
      obtain ⟨given, -, hp, hgiven⟩ := (hsources p).1 hp
      exact hgiven p hp
    obtain ⟨all, hlimit, hall⟩ := hdisk
    have hagrees := agrees_new disk disk.Usable roots imports
    obtain ⟨⟨survey, snapshot⟩, hscan⟩ :=
      scan_isOk hagrees hone Snapshot.records_empty hread.usable hread hall hlimit
    obtain ⟨-, hrecords⟩ := scan_records hagrees hone Snapshot.records_empty hread.usable hscan
    refine ⟨survey, snapshot, hscan, hfills.records.beq hone hfills.readable.usable hrecords ?_⟩
    intro p
    rw [List.nil_append, hsources, hmem]
    simp
  · obtain ⟨q, hq, hsteps⟩ := hfills.records.contains_source_iff.1 hp
    exact Table.contains_iff_find? _ |>.1
      (hfills.records.contains_file_iff.2 ⟨q, hsteps, .given hq⟩)

/-- A directory with a source and a header that include each other. -/
def includedTwice : FileTree :=
  let t := FileTree.root.putDirectory [] "p"
  let t := t.putFile ["p"] "a.c" (Utf8.ofString "#include \"b.h\"\n")
  t.putFile ["p"] "b.h" (Utf8.ofString "#include \"/p/a.c\"\n")

/-- The header of the first call is a source of the last one, which reads the first source again in
another spelling, and the call between them fails. -/
theorem after_calls_includedTwice :
    let disk := includedTwice.disk
    let limit := includedTwice.nameCount
    let gone : List Path := [.ofText "/p/b.h", .ofText "/p/gone.h"]
    let batches : List (List Path) :=
      [[.ofText "/p//a.c"], gone, [.ofText "/p/b.h", .ofText "/p/a.c"]]
    let sources : List Path :=
      [.ofText "/p/b.h", .ofText "/p/a.c", .ofText "/p/b.h", .ofText "/p//a.c"]
    let state := calls disk limit (fresh false []) batches
    call disk limit state gone = (some (.unreadable (.ofText "/p/gone.h") .notFound), state) ∧
      ∃ survey snapshot, ((new false (.ofRoots [])).scan disk limit sources ∅).value =
        .ok (survey, snapshot) ∧ (state.2 == snapshot) = true ∧
        ∃ f, state.2.file? (.ofText "/p/./a.c") = some f := by
  intro disk limit gone batches sources state
  have hall : sources.all (fun p => (disk.read p).toOption.isSome) = true := by decide +kernel
  have hreadable : disk.CanRead sources := by
    intro p hp
    obtain ⟨content, hread⟩ := Option.isSome_iff_exists.1 (List.all_eq_true.1 hall p hp)
    exact ⟨content, Except.toOption_eq_some.1 hread⟩
  have hgone : disk.read (.ofText "/p/gone.h") = .error .notFound := by decide +kernel
  have hfails : ¬disk.CanRead gone := by
    intro h
    obtain ⟨content, hread⟩ := h (.ofText "/p/gone.h") (List.mem_of_getLast? rfl)
    cases hgone.symm.trans hread
  have hsources : ∀ p, p ∈ sources ↔ ∃ given ∈ batches, p ∈ given ∧ disk.CanRead given := by
    intro p
    have hfirst : disk.CanRead [.ofText "/p//a.c"] := fun q hq =>
      hreadable q (by simp [sources, List.mem_singleton.1 hq])
    have hlast : disk.CanRead [.ofText "/p/b.h", .ofText "/p/a.c"] := by
      intro q hq
      simp only [List.mem_cons, List.not_mem_nil, or_false] at hq
      rcases hq with rfl | rfl <;> exact hreadable _ (by simp [sources])
    simp only [batches, sources, List.mem_cons, List.not_mem_nil, or_false, exists_eq_or_imp,
      exists_eq_left, hfirst, hfails, hlast, and_true, and_false, false_or]
    tauto
  obtain ⟨hunreadable, -, hsame, hrecorded⟩ :=
    after_calls (includedTwice.allows_nameCount) includedTwice.unambiguous [] false batches
  refine ⟨hunreadable gone _ _ (List.mem_of_getLast? rfl) hgone ?_, ?_⟩
  · intro q hq hne
    have hq : q ∈ [Path.ofText "/p/b.h", .ofText "/p/gone.h"] := hq
    simp only [List.mem_cons, List.not_mem_nil, or_false] at hq
    exact hreadable q (by simp [sources, hq.resolve_right hne])
  · obtain ⟨survey, snapshot, hscan, hbeq⟩ := hsame sources hsources
    exact ⟨survey, snapshot, hscan, hbeq, hrecorded _ (by decide +kernel)⟩

end Survey

end Recompile
