import Recompile.Proofs.Survey.Batches
import Recompile.Proofs.Survey.Memory
import Recompile.Proofs.Survey.Turns

/-!
# Surveys that are used again

A survey that is used again may remember what is no longer so: headers that have changed or are gone,
and candidates that are no files any more. What a call records may then differ from the disk, but it
hangs together (`Snapshot.Linked`), whatever the survey remembers when the call begins
(`Survey.scan_linked`): the calls before, and all that happened to the disk meanwhile, come into it
through that memory only.

If the sources can be read the call does succeed (`Survey.exists_scan_eq_ok`). Each turn of its loop
records one more file, and all that is met has been read before or is read now (`Survey.Within`), so
there are no more turns than names that the survey remembers or the disk offers.
-/

namespace Recompile

/-- Keys of one table are different names. -/
theorem Table.steps_ne_of_perm {β : Type} {t : Table Path β} {ps : List Path} (h : t.keys.Perm ps) :
    ps.Pairwise fun p q => p.steps ≠ q.steps := by
  refine h.pairwise ?_ Ne.symm
  refine t.keys_pairwise.imp fun {p q} hlt heq => ?_
  cases hlt.symm.trans (Path.compare_eq_iff.2 heq)

namespace Survey

/-! ## Searches come to an end -/

/-- All that a survey has read has one of these names. -/
def Within (names : List (List Step)) (s : Survey) : Prop :=
  ∀ p scan, s.scan? p = some scan → p.steps ∈ names

section Within

variable {disk : Disk} {names : List (List Step)} {s : Survey}

theorem Within.insert (h : s.Within names) {p : Path} {scan : Option FileScan}
    (hp : ∀ read, scan = some read → p.steps ∈ names) :
    Within names { s with scans := s.scans.insert p scan } := by
  intro q read hq
  rw [scan?_eq_some, Table.find?_insert] at hq
  split at hq
  · next heq =>
    rw [Path.compare_eq_iff.1 heq]
    exact hp read (Option.some.inj hq)
  · exact h q read (scan?_eq_some.2 hq)

variable (hdisk : ∀ p content, p.IsNormal → disk.read p = .ok content → p.steps ∈ names)

include hdisk

theorem Within.readHeader (h : s.Within names) {p : Path} (hp : p.IsNormal) :
    (s.readHeader disk p).value.Within names := by
  unfold Survey.readHeader
  split
  · exact h
  · split
    · next content hread => exact h.insert fun _ _ => hdisk p content hp hread
    · exact h.insert fun read hread => (by cases hread)

theorem Within.resolve (h : s.Within names) (includer : Path) (d : Directive) :
    (s.resolve disk includer d).value.2.Within names := by
  unfold Survey.resolve
  rcases hlocate : s.search.locate disk d includer with ⟨location, search⟩
  cases location with
  | found p =>
    have hp : p.IsNormal := SearchPath.normal_of_locate (congrArg Prod.fst hlocate)
    exact Within.readHeader hdisk (s := { s with search }) h hp
  | notFound => exact h
  | notStatic => exact h

theorem Within.resolveAll (h : s.Within names) (includer : Path) (ds : List Directive) :
    (s.resolveAll disk includer ds).value.2.Within names := by
  induction ds generalizing s with
  | nil => exact h
  | cons d ds ih => exact ih (h.resolve hdisk includer d)

namespace Search

variable {x : Search}

theorem within_turns (h : x.survey.Within names) (n : Nat) :
    ((turn disk)^[n] x).survey.Within names := by
  induction n generalizing x with
  | zero => exact h
  | succ n ih =>
    rw [Function.iterate_succ_apply]
    refine ih ?_
    unfold turn
    split
    · exact h
    · split
      · rw [visit_survey]
        exact h.resolveAll hdisk _ _
      · exact h

omit hdisk

theorem within_enterAll (h : x.survey.Within names) {scans : List (Path × FileScan)}
    (hscans : ∀ e ∈ scans, e.1.steps ∈ names) :
    (scans.foldl (fun x e => x.enter e.1 e.2) x).survey.Within names := by
  induction scans generalizing x with
  | nil => exact h
  | cons e scans ih =>
    obtain ⟨he, hrest⟩ := List.forall_mem_cons.1 hscans
    have henter : (x.enter e.1 e.2).survey.Within names := by
      rw [enter_eq, meet_survey]
      exact h.insert fun _ _ => he
    exact ih henter hrest

namespace Linked

variable {pending queue : List Path} {p : Path}

/-- What was met is in the queue or recorded, and not both. -/
theorem size_met (h : Linked pending x) :
    x.queue.length + x.snapshot.files.size = x.met.size := by
  have hlength := h.names.length_eq
  rwa [List.length_append, Table.keys, Table.keys, List.length_map, List.length_map] at hlength

/-- No more names are met than there are. -/
theorem met_size_le (h : Linked pending x) (hnames : x.survey.Within names) :
    x.met.size ≤ names.length := by
  have hnodup : (x.met.keys.map Path.steps).Nodup :=
    List.pairwise_map.2 (Table.steps_ne_of_perm (.refl x.met.keys))
  have hsubset : x.met.keys.map Path.steps ⊆ names := by
    intro steps hsteps
    obtain ⟨p, hp, rfl⟩ := List.mem_map.1 hsteps
    obtain ⟨scan, hscan⟩ := h.scanned p (.inl hp)
    exact hnames p scan hscan
  have hle := (hnodup.subperm hsubset).length_le
  rwa [List.length_map, Table.keys, List.length_map] at hle

/-- The next file of the queue is recorded under its own path. -/
theorem turn_files (h : Linked [] x) (hqueue : x.queue = p :: queue) :
    (Search.turn disk x).snapshot.files.keys.Perm (p :: x.snapshot.files.keys) := by
  obtain ⟨scan, hscan⟩ := h.next_scan hqueue
  rw [turn_cons hqueue hscan]
  simp only [Search.visit, Logged.value_bind, Logged.value_pure, meetAll_snapshot]
  exact Table.keys_insert_perm _ (h.next_new hqueue)

theorem turn_size (h : Linked [] x) (hqueue : x.queue = p :: queue) :
    (Search.turn disk x).snapshot.files.size = x.snapshot.files.size + 1 := by
  have hfiles : (Search.turn disk x).snapshot.files.keys.Perm _ := h.turn_files hqueue
  have hlength := hfiles.length_eq
  rwa [List.length_cons, Table.keys, Table.keys, List.length_map, List.length_map] at hlength

/-- As long as the queue is not empty each turn records one more file. -/
theorem turns_le (h : Linked [] x) {n : Nat} (hqueue : ((Search.turn disk)^[n] x).queue ≠ []) :
    n ≤ ((Search.turn disk)^[n] x).snapshot.files.size := by
  induction n with
  | zero => exact Nat.zero_le _
  | succ n ih =>
    rw [Function.iterate_succ_apply'] at hqueue ⊢
    cases hbefore : ((Search.turn disk)^[n] x).queue with
    | nil =>
      rw [turn_nil hbefore] at hqueue
      exact absurd hbefore hqueue
    | cons p queue =>
      have hfiles := ih (by rw [hbefore]; exact List.cons_ne_nil p queue)
      have hone : (Search.turn disk ((Search.turn disk)^[n] x)).snapshot.files.size =
        ((Search.turn disk)^[n] x).snapshot.files.size + 1 := (h.turns n).turn_size hbefore
      omega

/-- With a turn for each file that is met the queue comes to be empty. -/
theorem queue_turns_of_met (h : Linked [] x) {n : Nat}
    (hmet : ((Search.turn disk)^[n] x).met.size ≤ n) : ((Search.turn disk)^[n] x).queue = [] := by
  by_contra hqueue
  have hturns : Linked [] ((Search.turn disk)^[n] x) := h.turns n
  have hrecorded := h.turns_le hqueue
  have hsize := hturns.size_met
  have hpos := List.length_pos_iff.2 hqueue
  omega

/-- With a turn for each name the queue comes to be empty. -/
theorem queue_turns (h : Linked [] x)
    (hdisk : ∀ p content, p.IsNormal → disk.read p = .ok content → p.steps ∈ names)
    (hnames : x.survey.Within names) {n : Nat} (hn : names.length ≤ n) :
    ((Search.turn disk)^[n] x).queue = [] := by
  have hturns : Linked [] ((Search.turn disk)^[n] x) := h.turns n
  have hmet := hturns.met_size_le (within_turns hdisk hnames n)
  exact h.queue_turns_of_met (hmet.trans hn)

end Linked

end Search

end Within

/-! ## Calls of a survey that was used before -/

variable {disk : Disk} {limit : Nat} {s t : Survey} {sources : List Path}
  {scans : List (Path × FileScan)}

/-- The search for a new snapshot that begins with these sources. -/
def Search.entered (s : Survey) (scans : List (Path × FileScan)) : Search :=
  scans.foldl (fun x e => x.enter e.1 e.2) ⟨s, [], ∅, ∅⟩

theorem Search.linked_entered (s : Survey) (scans : List (Path × FileScan)) :
    Linked [] (entered s scans) :=
  (linked_new s).enterAll rfl scans

/-- A call that succeeds has read its sources and has worked the queue off. -/
theorem turns_of_scan {result : Snapshot}
    (h : (s.scan disk limit sources ∅).value = .ok (t, result)) :
    ∃ scans, readSources disk s.imports sources = .ok scans ∧
      ∃ n, let x := (Search.turn disk)^[n] (Search.entered s scans)
        x.queue = [] ∧ x.survey = t ∧ x.snapshot = result := by
  unfold scan at h
  cases hread : readSources disk s.imports sources with
  | error e =>
    rw [hread] at h
    cases h
  | ok scans =>
    rw [hread] at h
    simp only [Logged.value_bind, Search.run_eq_turns] at h
    split at h
    · next y hy =>
      split at hy
      · next hempty =>
        cases h
        cases hy
        exact ⟨scans, rfl, _, List.isEmpty_iff.1 hempty, rfl, rfl⟩
      · cases hy
    · cases h

/-- A call whose queue is empty after as many turns as its limit allows succeeds with what the turns
have made. -/
theorem scan_eq_turns (hread : readSources disk s.imports sources = .ok scans) {n : Nat}
    (hqueue : ((Search.turn disk)^[n] (Search.entered s scans)).queue = [])
    (hn : n ≤ limit + sources.length + s.scans.size) :
    (s.scan disk limit sources ∅).value =
      .ok (((Search.turn disk)^[n] (Search.entered s scans)).survey,
        ((Search.turn disk)^[n] (Search.entered s scans)).snapshot) := by
  have hrun := Search.run_eq_turns disk (limit + sources.length + s.scans.size)
    (Search.entered s scans)
  rw [Search.turns_of_le hqueue hn, hqueue] at hrun
  unfold Search.entered at hrun ⊢
  unfold scan
  simp only [hread, Logged.value_bind, hrun]
  rfl

/-- The sources of the snapshot are those that were read. -/
theorem sources_turns (hread : readSources disk s.imports sources = .ok scans) (n : Nat) :
    ((Search.turn disk)^[n] (Search.entered s scans)).snapshot.sources = Table.setOf sources := by
  rw [Search.turns_sources, Search.entered, Search.enterAll_sources, (readSources_spec hread).1]
  rfl

/-- Whatever a survey remembers, a call whose sources can be read succeeds, if the limit allows for
the files of the disk. -/
theorem exists_scan_eq_ok (hdisk : disk.Allows limit)
    (hfile : ∀ p content, disk.read p = .ok content → disk.isFile p = true)
    (hread : disk.CanRead sources) (s : Survey) :
    ∃ t result, (s.scan disk limit sources ∅).value = .ok (t, result) := by
  obtain ⟨files, hlimit, hfiles⟩ := hdisk
  obtain ⟨scans, hscans⟩ : ∃ scans, readSources disk s.imports sources = .ok scans :=
    readSources_isOk hread
  let names := (files ++ sources ++ s.scans.keys).map Path.steps
  have hnames : ∀ p content, p.IsNormal → disk.read p = .ok content → p.steps ∈ names :=
    fun p content hp hcontent => List.mem_map_of_mem (List.mem_append_left _
      (List.mem_append_left _ (hfiles p hp (hfile p content hcontent))))
  have hbefore : s.Within names := by
    intro p scan hscan
    obtain ⟨q, hq, heq⟩ := s.scans.find?_eq_some_iff.1 (scan?_eq_some.1 hscan)
    rw [Path.compare_eq_iff.1 heq]
    exact List.mem_map_of_mem (List.mem_append_right _ (Table.mem_keys_of_mem hq))
  have hentered : (Search.entered s scans).survey.Within names := by
    refine Search.within_enterAll hbefore fun e he => ?_
    have hsource : e.1 ∈ sources := (readSources_spec hscans).1 ▸ List.mem_map_of_mem he
    exact List.mem_map_of_mem (List.mem_append_left _ (List.mem_append_right _ hsource))
  have hlength : names.length ≤ limit + sources.length + s.scans.size := by
    simp only [names, List.length_map, List.length_append, Table.keys, Table.size]
    omega
  have hqueue := (Search.linked_entered s scans).queue_turns hnames hentered hlength
  exact ⟨_, _, scan_eq_turns hscans hqueue (Nat.le_refl _)⟩

/-- **A survey can be used again.** Whatever a survey remembers, from whatever calls before and
whatever disks, a call into a new snapshot succeeds if its sources can be read, and the snapshot of a
call that succeeds hangs together: its sources are the given ones; every source has a state; there is
one outcome for each directive, in order; a resolved one leads to a tracked file and has the digest
recorded there; and every tracked file is reached from a source. The loop ends with that snapshot and
never passes over a file of the queue. -/
theorem scan_linked (disk : Disk) (limit : Nat) (s : Survey) (sources : List Path) :
    (disk.Allows limit → (∀ p content, disk.read p = .ok content → disk.isFile p = true) →
      disk.CanRead sources →
        ∃ t result, (s.scan disk limit sources ∅).value = .ok (t, result)) ∧
    ∀ t result, (s.scan disk limit sources ∅).value = .ok (t, result) →
      result.sources = Table.setOf sources ∧ result.Linked ∧
        ∃ scans, readSources disk s.imports sources = .ok scans ∧
          let x (n : Nat) := (Search.turn disk)^[n] (Search.entered s scans)
          (∃ n, (x n).queue = [] ∧ (x n).survey = t ∧ (x n).snapshot = result) ∧
            ∀ n p queue, (x n).queue = p :: queue →
              ∃ scan, (x n).survey.scan? p = some scan := by
  refine ⟨fun hdisk hfile hread => exists_scan_eq_ok hdisk hfile hread s, ?_⟩
  intro t result hscan
  obtain ⟨scans, hread, n, hqueue, rfl, rfl⟩ := turns_of_scan hscan
  have hlinked : ∀ m, Search.Linked [] ((Search.turn disk)^[m] (Search.entered s scans)) :=
    fun m => (Search.linked_entered s scans).turns m
  exact ⟨sources_turns hread n, (hlinked n).snapshot hqueue, scans, hread,
    ⟨n, hqueue, rfl, rfl⟩, fun m p queue => (hlinked m).next_scan⟩

/-- A survey that has read a header which is gone, and not the one that came since. -/
theorem scan_linked_gone :
    let source := Path.ofText "/p/a.c"
    let before : Disk := .ofFiles [("/p/a.c", "#include \"b.h\"\n"), ("/p/b.h", "")]
    let now : Disk :=
      .ofFiles [("/p/a.c", "#include \"b.h\"\n#include \"c.h\"\n"), ("/p/c.h", "")]
    let s := (calls before 2 (fresh false []) [[source]]).1
    now.isFile (.ofText "/p/b.h") = false ∧ now.Allows 2 ∧ now.CanRead [source] ∧
      ∃ t result, (s.scan now 2 [source] ∅).value = .ok (t, result) ∧
        result.sources = Table.setOf [source] ∧ result.Linked ∧
        (result.file? (.ofText "/p/b.h")).isSome = true ∧
        (result.file? (.ofText "/p/c.h")).isSome = true := by
  intro source before now s
  have hgone : now.isFile (.ofText "/p/b.h") = false := by decide +kernel
  have hallows : now.Allows 2 :=
    ⟨[.ofText "/p/a.c", .ofText "/p/c.h"], Nat.le_refl 2, fun p _ hp => Disk.isFile_ofFiles hp⟩
  have hreadable : now.CanRead [source] := by
    intro p hp
    rw [List.mem_singleton.1 hp]
    exact ⟨_, rfl⟩
  obtain ⟨hok, hall⟩ := scan_linked now 2 s [source]
  obtain ⟨t, result, hscan⟩ := hok hallows (fun p content => Disk.isFile_of_read_ofFiles) hreadable
  obtain ⟨hsources, hlinked, -⟩ := hall t result hscan
  have hfiles : ((s.scan now 2 [source] ∅).value.toOption.map fun r =>
      ((r.2.file? (.ofText "/p/b.h")).isSome, (r.2.file? (.ofText "/p/c.h")).isSome)) =
        some (true, true) := by
    decide +kernel
  rw [hscan] at hfiles
  obtain ⟨hb, hc⟩ := Prod.mk.inj (Option.some.inj hfiles)
  exact ⟨hgone, hallows, hreadable, t, result, hscan, hsources, hlinked, hb, hc⟩

end Survey

end Recompile
