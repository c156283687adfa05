import Recompile.Diff
import Recompile.Proofs.Survey.Search

/-!
# What a survey records

A snapshot records what some sources reach on the disk (`Snapshot.Records`) when its sources are the
given ones, in any spelling, and its files are the reached ones, each as it is on the disk. A survey
adds what its sources reach to a snapshot that records what others do (`Survey.scan_records`), and
it succeeds when all its sources can be read and the limit allows for every file that the disk has
under a normal name (`Survey.scan_isOk`).

For sources under their normal names that leaves a snapshot without any choice of spelling
(`Snapshot.Describes`), and the snapshot of a comparison is one (`Compilation.compute_describes`).
-/

namespace Recompile

/-- The snapshot has the sources under their normal names, and the tracked files as they are on the
disk. -/
structure Snapshot.Describes (disk : Disk) (roots : List Path) (imports : Bool)
    (sources : List Path) (s : Snapshot) : Prop where
  mem_sources : ∀ p, p ∈ s.sources.keys ↔ ∃ q ∈ sources, q.normalize = p
  mem_files : ∀ p f, (p, f) ∈ s.files.entries ↔
    Tracked disk roots imports sources p ∧ disk.fileState roots imports p = some f
  readable : ∀ p, Tracked disk roots imports sources p →
    ∃ f, disk.fileState roots imports p = some f

/-- The snapshot has the sources, in whatever spelling, and the files that they reach, each as it is
on the disk. -/
structure Snapshot.Records (disk : Disk) (roots : List Path) (imports : Bool) (sources : List Path)
    (s : Snapshot) : Prop where
  source : ∀ p ∈ s.sources.keys, p ∈ sources
  contains_source : ∀ p ∈ sources, s.sources.contains p = true
  file : ∀ p f, (p, f) ∈ s.files.entries → Reached disk roots imports sources p ∧
    ∃ q, p.steps = q.steps ∧ Reached disk roots imports sources q ∧
      disk.fileState roots imports q = some f
  contains_file : ∀ p, Reached disk roots imports sources p → s.files.contains p = true

namespace Snapshot

variable {disk : Disk} {roots : List Path} {imports : Bool} {given sources : List Path}
  {s : Snapshot}

theorem records_empty : (∅ : Snapshot).Records disk roots imports [] where
  source p hp := absurd hp List.not_mem_nil
  contains_source p hp := absurd hp List.not_mem_nil
  file p f hp := absurd hp List.not_mem_nil
  contains_file p hp := by
    induction hp with
    | given hp => exact absurd hp List.not_mem_nil
    | header _ _ _ ih => cases ih

/-- Under normal names the keys of the records are the names themselves. -/
theorem Records.describes (h : s.Records disk roots imports given)
    (hgiven : ∀ p, p ∈ given ↔ ∃ q ∈ sources, q.normalize = p) :
    s.Describes disk roots imports sources := by
  have hnormal : ∀ p ∈ given, p.IsNormal := by
    intro p hp
    obtain ⟨q, -, rfl⟩ := (hgiven p).1 hp
    exact Path.isNormal_normalize q
  have hreached : ∀ p, Reached disk roots imports given p ↔ Tracked disk roots imports sources p :=
    fun p => reached_iff_tracked hgiven
  have hfile : ∀ p f, (p, f) ∈ s.files.entries →
      Tracked disk roots imports sources p ∧ disk.fileState roots imports p = some f := by
    intro p f hp
    obtain ⟨hp, q, hsteps, hq, hf⟩ := h.file p f hp
    rw [hreached] at hp hq
    obtain rfl := hp.isNormal.eq_of_steps hq.isNormal hsteps
    exact ⟨hp, hf⟩
  have hrecorded : ∀ p, Tracked disk roots imports sources p → ∃ f, (p, f) ∈ s.files.entries := by
    intro p hp
    have hkeys : ∀ q ∈ s.files.keys, q.IsNormal := by
      intro q hq
      obtain ⟨f, hf⟩ := Table.mem_keys_iff.1 hq
      exact (hfile q f hf).1.isNormal
    exact Table.mem_keys_iff.1 ((Path.mem_keys_iff_contains hkeys hp.isNormal).2
      (h.contains_file p ((hreached p).2 hp)))
  refine ⟨fun p => ⟨fun hp => (hgiven p).1 (h.source p hp), fun hp => ?_⟩,
    fun p f => ⟨hfile p f, fun ⟨hp, hf⟩ => ?_⟩, fun p hp => ?_⟩
  · have hp := (hgiven p).2 hp
    exact (Path.mem_keys_iff_contains (fun q hq => hnormal q (h.source q hq)) (hnormal p hp)).2
      (h.contains_source p hp)
  · obtain ⟨g, hg⟩ := hrecorded p hp
    obtain rfl := Option.some.inj ((hfile p g hg).2.symm.trans hf)
    exact hg
  · obtain ⟨f, hf⟩ := hrecorded p hp
    exact ⟨f, (hfile p f hf).2⟩

end Snapshot

namespace Survey

theorem readSources_spec {disk : Disk} {imports : Bool} {ps : List Path}
    {scans : List (Path × FileScan)} (h : readSources disk imports ps = .ok scans) :
    scans.map (·.1) = ps ∧ ∀ e ∈ scans, disk.scan? imports e.1 = some e.2 := by
  induction ps generalizing scans with
  | nil =>
    cases h
    exact ⟨rfl, fun e he => absurd he List.not_mem_nil⟩
  | cons p ps ih =>
    rw [readSources] at h
    split at h
    · cases h
    · next content hread =>
      split at h
      · cases h
      · next rest hrest =>
        cases h
        obtain ⟨hmap, hscans⟩ := ih hrest
        refine ⟨by rw [List.map_cons, hmap], fun e he => ?_⟩
        rcases List.mem_cons.1 he with rfl | he
        · exact Disk.scan?_eq_some.2 ⟨content, hread, rfl⟩
        · exact hscans e he

theorem readSources_isOk {disk : Disk} {imports : Bool} {ps : List Path}
    (h : ∀ p ∈ ps, ∃ content, disk.read p = .ok content) :
    ∃ scans, readSources disk imports ps = .ok scans := by
  induction ps with
  | nil => exact ⟨[], rfl⟩
  | cons p ps ih =>
    obtain ⟨content, hread⟩ := h p List.mem_cons_self
    obtain ⟨scans, hscans⟩ := ih fun q hq => h q (List.mem_cons_of_mem p hq)
    refine ⟨(p, .ofContent imports content) :: scans, ?_⟩
    rw [readSources, hread]
    simp only [hscans]

/-! ## Taking in the sources -/

namespace Search

theorem enter_size (x : Search) (p : Path) (scan : FileScan) :
    (x.enter p scan).queue.length + x.met.size = x.queue.length + (x.enter p scan).met.size := by
  rw [enter_eq]
  exact meet_size _ p

theorem enter_sources (x : Search) (p : Path) (scan : FileScan) :
    (x.enter p scan).snapshot.sources = x.snapshot.sources.add p := by
  rw [enter_eq, meet_snapshot]
  rfl

theorem enterAll_size (x : Search) (scans : List (Path × FileScan)) :
    (scans.foldl (fun x e => x.enter e.1 e.2) x).queue.length + x.met.size =
      x.queue.length + (scans.foldl (fun x e => x.enter e.1 e.2) x).met.size := by
  induction scans generalizing x with
  | nil => rfl
  | cons e scans ih =>
    have hrest := ih (x.enter e.1 e.2)
    have hfirst := x.enter_size e.1 e.2
    rw [List.foldl_cons]
    omega

theorem enterAll_sources (x : Search) (scans : List (Path × FileScan)) :
    (scans.foldl (fun x e => x.enter e.1 e.2) x).snapshot.sources =
      x.snapshot.sources.addAll (scans.map (·.1)) := by
  induction scans generalizing x with
  | nil => rfl
  | cons e scans ih =>
    rw [List.foldl_cons, ih, enter_sources]
    rfl

end Search

/-! ## Whole surveys -/

section Scan

variable {disk : Disk} {names : Path → Prop} {roots : List Path} {imports : Bool}
  {old given sources : List Path} {s : Survey} {snapshot : Snapshot}

/-- The search that begins with the sources read. -/
theorem inv_entered (h : s.Agrees disk names roots imports) (hone : disk.Unambiguous names)
    (hsnapshot : snapshot.Records disk roots imports old) (hgiven : ∀ p ∈ given, names p)
    {scans : List (Path × FileScan)} (hscans : readSources disk imports given = .ok scans) :
    Search.Inv disk names roots imports given (old ++ given) []
      (scans.foldl (fun x e => x.enter e.1 e.2) (⟨s, [], ∅, snapshot⟩ : Search)) := by
  obtain ⟨hmap, hread⟩ := readSources_spec hscans
  have hold : ∀ p, Reached disk roots imports old p → Reached disk roots imports (old ++ given) p :=
    fun p => .mono fun q hq => List.mem_append_left given hq
  refine Search.Inv.enterAll ⟨h, ?_, ?_, ?_, ?_, ?_, ?_⟩ hone fun e he => ?_
  · exact fun p hp => absurd hp List.not_mem_nil
  · exact fun p hp => absurd hp List.not_mem_nil
  · exact fun p hp => absurd hp List.not_mem_nil
  · exact fun p hp => absurd hp List.not_mem_nil
  · exact fun p hp => .inl (hsnapshot.contains_file p (.given (hsnapshot.source p hp)))
  · intro p f hp
    obtain ⟨hreached, q, hsteps, hq, hf⟩ := hsnapshot.file p f hp
    exact ⟨hold p hreached, q, hsteps, hold q hq, hf,
      fun r hr => .inl (hsnapshot.contains_file r (.header hq hf hr))⟩
  · have he' : e.1 ∈ given := hmap ▸ List.mem_map_of_mem he
    exact ⟨he', hgiven e.1 he', hread e he⟩

/-- A search that has ended has recorded what its sources reach, if it has marked them. -/
theorem Search.Inv.records {x : Search}
    (h : Search.Inv disk names roots imports given sources [] x) (hone : disk.Unambiguous names)
    (hnames : ∀ p ∈ sources, names p) (hqueue : x.queue = [])
    (hsource : ∀ p ∈ x.snapshot.sources.keys, p ∈ sources)
    (hcontains : ∀ p ∈ sources, x.snapshot.sources.contains p = true) :
    x.snapshot.Records disk roots imports sources := by
  have hdue : ∀ p, x.Due [] p → x.snapshot.files.contains p = true := by
    rintro p (hp | hp | hp)
    · exact hp
    · obtain ⟨q, hq, heq⟩ := x.met.contains_iff.1 hp
      rw [Table.contains_congr _ heq]
      refine (h.met_queue q hq).resolve_left ?_
      rw [hqueue]
      exact List.not_mem_nil
    · exact absurd hp List.not_mem_nil
  refine ⟨hsource, hcontains, fun p f hp => ?_, fun p hp => ?_⟩
  · obtain ⟨hreached, q, hsteps, hq, hf, -⟩ := h.file p f hp
    exact ⟨hreached, q, hsteps, hq, hf⟩
  · induction hp with
    | given hp =>
      obtain ⟨q, hq, heq⟩ := x.snapshot.sources.contains_iff.1 (hcontains _ hp)
      rw [Table.contains_congr _ heq]
      exact hdue q (h.source_due q hq)
    | @header p r f hp hf hr ih =>
      -- The record of the file may be under another spelling; its headers are the same.
      obtain ⟨k, hk, heq⟩ := x.snapshot.files.contains_iff.1 ih
      obtain ⟨g, hg⟩ := Table.mem_keys_iff.1 hk
      obtain ⟨-, q, hsteps, hq, hgq, hheaders⟩ := h.file k g hg
      have hpq : p.steps = q.steps := (Path.compare_eq_iff.1 heq).trans hsteps
      rw [hone.fileState_eq (hp.name hone hnames) (hq.name hone hnames) hpq, hf] at hgq
      obtain rfl := Option.some.inj hgq
      exact hdue r (hheaders r hr)

/-- A survey that succeeds has added to the snapshot what its sources reach, and remembers nothing
that is not so on the disk. -/
theorem scan_records {limit : Nat} {t : Survey} {result : Snapshot}
    (h : s.Agrees disk names roots imports) (hone : disk.Unambiguous names)
    (hsnapshot : snapshot.Records disk roots imports old) (hnames : ∀ p ∈ old ++ given, names p)
    (hscan : (s.scan disk limit given snapshot).value = .ok (t, result)) :
    t.Agrees disk names roots imports ∧ result.Records disk roots imports (old ++ given) := by
  unfold scan at hscan
  cases hread : readSources disk s.imports given with
  | error e =>
    rw [hread] at hscan
    cases hscan
  | ok scans =>
    rw [hread] at hscan
    simp only [Logged.value_bind] at hscan
    rw [h.imports_eq] at hread
    have hsub : ∀ p ∈ given, p ∈ old ++ given := fun p hp => List.mem_append_right old hp
    have hinv := inv_entered h hone hsnapshot (fun p hp => hnames p (hsub p hp)) hread
    split at hscan
    · next x hrun =>
      cases hscan
      obtain ⟨hx, hqueue, hsources⟩ := hinv.run hone hsub hrun
      rw [Search.enterAll_sources, (readSources_spec hread).1] at hsources
      refine ⟨hx.agrees, hx.records hone hnames hqueue (fun p hp => ?_) fun p hp => ?_⟩
      · rw [hsources] at hp
        rcases Table.mem_keys_addAll hp with hp | hp
        · exact hsub p hp
        · exact List.mem_append_left given (hsnapshot.source p hp)
      · rw [hsources, Table.contains_addAll]
        rcases List.mem_append.1 hp with hp | hp
        · exact .inr (hsnapshot.contains_source p hp)
        · exact .inl ⟨p, hp, Std.ReflCmp.compare_self⟩
    · cases hscan

/-- A survey ends if the limit allows for every file that the disk has under a normal name. -/
theorem scan_isOk {limit : Nat} {all : List Path} (h : s.Agrees disk names roots imports)
    (hone : disk.Unambiguous names) (hsnapshot : snapshot.Records disk roots imports old)
    (hgiven : ∀ p ∈ given, names p) (hread : ∀ p ∈ given, ∃ content, disk.read p = .ok content)
    (hall : ∀ p, p.IsNormal → disk.isFile p = true → p ∈ all) (hlimit : all.length ≤ limit) :
    ∃ result, (s.scan disk limit given snapshot).value = .ok result := by
  obtain ⟨scans, hscans⟩ : ∃ scans, readSources disk imports given = .ok scans :=
    readSources_isOk hread
  have hinv := inv_entered h hone hsnapshot hgiven hscans
  have hreached : ∀ p, Reached disk roots imports given p → p ∈ all ++ given := by
    intro p hp
    rcases hp.given_or_isFile with hp | ⟨hnormal, hfile⟩
    · exact List.mem_append_right all hp
    · exact List.mem_append_left given (hall p hnormal hfile)
  have hsize := Search.enterAll_size ⟨s, [], ∅, snapshot⟩ scans
  have hmet : (∅ : PathSet).size = 0 := rfl
  simp only [hmet, List.length_nil] at hsize
  obtain ⟨x, hx⟩ : ∃ x,
      (Search.run disk (limit + given.length + s.scans.size) _).value = some x := by
    refine hinv.run_isSome hone (fun p hp => List.mem_append_right old hp) hreached ?_
    rw [List.length_append]
    omega
  refine ⟨(x.survey, x.snapshot), ?_⟩
  unfold scan
  rw [h.imports_eq, hscans]
  simp only [Logged.value_bind, hx, Logged.value_pure]

/-- A survey of sources under their normal names describes what they reach. -/
theorem scan_describes {limit : Nat} {t : Survey} {result : Snapshot}
    (h : s.Agrees disk Path.IsNormal roots imports)
    (hgiven : ∀ p, p ∈ given ↔ ∃ q ∈ sources, q.normalize = p)
    (hscan : (s.scan disk limit given ∅).value = .ok (t, result)) :
    result.Describes disk roots imports sources := by
  refine (scan_records h disk.unambiguous_isNormal Snapshot.records_empty ?_ hscan).2.describes
    hgiven
  intro p hp
  obtain ⟨q, -, rfl⟩ := (hgiven p).1 hp
  exact Path.isNormal_normalize q

end Scan

end Survey

/-! ## Comparisons -/

namespace Compilation

/-- The names under which the sources are surveyed. -/
theorem mem_keys_names {sources : List Path} {p : Path} :
    p ∈ (Table.setOf (sources.map Path.normalize)).keys ↔ ∃ q ∈ sources, q.normalize = p := by
  have hmem : ∀ q ∈ (Table.setOf (sources.map Path.normalize)).keys, ∃ r ∈ sources,
      r.normalize = q := fun q hq => List.mem_map.1 (Table.mem_of_mem_keys_setOf hq)
  refine ⟨hmem p, ?_⟩
  rintro ⟨q, hq, rfl⟩
  refine (Path.mem_keys_iff_contains ?_ (Path.isNormal_normalize q)).2 ?_
  · intro r hr
    obtain ⟨r, -, rfl⟩ := hmem r hr
    exact Path.isNormal_normalize r
  · exact (Table.contains_setOf _ _).2
      ⟨_, List.mem_map_of_mem hq, Std.ReflCmp.compare_self⟩

variable {disk : Disk} {limit : Nat} {previous : Snapshot} {roots : List Path} {imports : Bool}
  {sources : List Path}

/-- A comparison that succeeds has surveyed the sources and compared what it found. -/
theorem compute_eq_ok {survey : Survey} {c : Compilation}
    (h : (compute disk limit previous survey sources).value = .ok c) :
    ∃ t, (survey.scan disk limit (Table.setOf (sources.map Path.normalize)).keys ∅).value =
      .ok (t, c.state) ∧ c = between previous c.state := by
  unfold compute at h
  simp only [Logged.value_bind] at h
  split at h
  · cases h
  · next t current hscan =>
    cases h
    exact ⟨t, hscan, rfl⟩

theorem compute_describes {c : Compilation}
    (h : (compute disk limit previous (.new imports (.ofRoots roots)) sources).value = .ok c) :
    c.state.Describes disk roots imports sources := by
  obtain ⟨t, hscan, -⟩ := compute_eq_ok h
  exact Survey.scan_describes (Survey.agrees_new disk _ roots imports) (fun p => mem_keys_names)
    hscan

/-- A comparison that succeeds has read every source. -/
theorem compute_readable {c : Compilation}
    (h : (compute disk limit previous (.new imports (.ofRoots roots)) sources).value = .ok c)
    {s : Path} (hs : s ∈ sources) : ∃ content, disk.read s.normalize = .ok content := by
  obtain ⟨f, hf⟩ := (compute_describes h).readable _ (.source hs)
  obtain ⟨content, hread, -⟩ := Disk.fileState_eq_some.1 hf
  exact ⟨content, hread⟩

theorem compute_cases {c : Compilation}
    (h : (compute disk limit previous (.new imports (.ofRoots roots)) sources).value = .ok c) :
    ∃ new : Snapshot, c = between previous new ∧ new.Describes disk roots imports sources := by
  obtain ⟨t, hscan, hbetween⟩ := compute_eq_ok h
  exact ⟨c.state, hbetween, compute_describes h⟩

theorem compute_isOk {names : List Path}
    (hread : ∀ s ∈ sources, ∃ content, disk.read s.normalize = .ok content)
    (hnames : ∀ p, p.IsNormal → disk.isFile p = true → p ∈ names) (hlimit : names.length ≤ limit) :
    ∃ c, (compute disk limit previous (.new imports (.ofRoots roots)) sources).value = .ok c := by
  obtain ⟨⟨t, current⟩, hscan⟩ := Survey.scan_isOk (Survey.agrees_new disk _ roots imports)
    disk.unambiguous_isNormal Snapshot.records_empty
    (fun p hp => by
      obtain ⟨q, -, rfl⟩ := mem_keys_names.1 hp
      exact Path.isNormal_normalize q)
    (fun p hp => by
      obtain ⟨q, hq, rfl⟩ := mem_keys_names.1 hp
      exact hread q hq) hnames hlimit
  refine ⟨between previous current, ?_⟩
  unfold compute
  simp only [Logged.value_bind, hscan, Logged.value_pure]

end Compilation

end Recompile
