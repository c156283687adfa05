import Mathlib.Data.List.Perm.Subperm
import Recompile.Proofs.Path.Spelling
import Recompile.Proofs.Survey.Fresh

/-!
# The search for headers

`Reached` is the least set that holds some files and every header that a member leads to and that
can be read; `Tracked` is the same for sources under their normal names. A search under way keeps an
invariant (`Search.Inv`): what it has met is reached from the files it was given and has been read,
and is either recorded or still in the queue; what is recorded, also what was recorded before, is as
it is on the disk, and its headers have been met or are recorded. Each step keeps it
(`Search.Inv.visit`), so a search that comes to an end has recorded all that is reached
(`Search.Inv.run`). It comes to an end when the limit allows for as many files as there are names to
meet (`Search.Inv.run_isSome`).
-/

namespace Recompile

/-! ## Tracked files -/

/-- The least set that holds the sources, under their normal names, and every header that a
directive of a member leads to and that can be read. -/
inductive Tracked (disk : Disk) (roots : List Path) (imports : Bool) (sources : List Path) :
    Path → Prop where
  | source {s : Path} (hs : s ∈ sources) : Tracked disk roots imports sources s.normalize
  | header {p q : Path} {content content' : Bytes} {d : Directive}
      (hp : Tracked disk roots imports sources p) (hread : disk.read p = .ok content)
      (hd : d ∈ (Directives.read imports content).all) (hlocate : disk.locate roots p d = .found q)
      (hheader : disk.read q = .ok content') : Tracked disk roots imports sources q

section Tracked

variable {disk : Disk} {roots : List Path} {imports : Bool} {sources : List Path}

/-- The headers that are recorded for a file are those its directives lead to and that can be
read. -/
theorem mem_headers_fileState {p q : Path} {f : FileState}
    (hf : disk.fileState roots imports p = some f) :
    q ∈ f.headers ↔ ∃ d ∈ f.directives.all, (disk.includeOf roots p d).path? = some q := by
  obtain ⟨content, -, rfl⟩ := Disk.fileState_eq_some.1 hf
  simp only [FileState.headers, List.filterMap_map, List.mem_filterMap, Function.comp_apply]

theorem Tracked.headers {p q : Path} {f : FileState} (hp : Tracked disk roots imports sources p)
    (hf : disk.fileState roots imports p = some f) (hq : q ∈ f.headers) :
    Tracked disk roots imports sources q := by
  obtain ⟨d, hd, hpath⟩ := (mem_headers_fileState hf).1 hq
  obtain ⟨content, hread, rfl⟩ := Disk.fileState_eq_some.1 hf
  obtain ⟨hlocate, content', hheader⟩ := Disk.includeOf_path?.1 hpath
  exact .header hp hread hd hlocate hheader

/-- What holds of the sources and passes from a file to its headers holds of all tracked files. -/
theorem Tracked.of_closed {P : Path → Prop} (hsource : ∀ s ∈ sources, P s.normalize)
    (hstep : ∀ p f, P p → disk.fileState roots imports p = some f → ∀ q ∈ f.headers, P q)
    {p : Path} (h : Tracked disk roots imports sources p) : P p := by
  induction h with
  | source hs => exact hsource _ hs
  | @header p q content content' d _ hread hd hlocate hheader ih =>
    have hf : disk.fileState roots imports p = some _ :=
      Disk.fileState_eq_some.2 ⟨content, hread, rfl⟩
    refine hstep p _ ih hf q ((mem_headers_fileState hf).2 ⟨d, hd, ?_⟩)
    exact Disk.includeOf_path?.2 ⟨hlocate, content', hheader⟩

theorem Tracked.isNormal {p : Path} (h : Tracked disk roots imports sources p) : p.IsNormal := by
  cases h with
  | source _ => exact Path.isNormal_normalize _
  | header _ _ _ hlocate _ => exact (Disk.locate_found hlocate).1

/-- A tracked file is a source, or a file on the disk under its normal name. -/
theorem Tracked.source_or_isFile {p : Path} (h : Tracked disk roots imports sources p) :
    (∃ s ∈ sources, s.normalize = p) ∨ disk.isFile p = true := by
  cases h with
  | source hs => exact .inl ⟨_, hs, rfl⟩
  | header _ _ _ hlocate _ => exact .inr (Disk.locate_found hlocate).2

end Tracked

/-! ## Reached files -/

/-- The least set that holds the given files, as they are spelled, and every header that is recorded
for a member. -/
inductive Reached (disk : Disk) (roots : List Path) (imports : Bool) (given : List Path) :
    Path → Prop where
  | given {p : Path} (hp : p ∈ given) : Reached disk roots imports given p
  | header {p q : Path} {f : FileState} (hp : Reached disk roots imports given p)
      (hf : disk.fileState roots imports p = some f) (hq : q ∈ f.headers) :
      Reached disk roots imports given q

section Reached

variable {disk : Disk} {roots : List Path} {imports : Bool} {given given' : List Path} {p q : Path}

/-- A header that is recorded is a file under its normal name and can be read. -/
theorem header_of_fileState {f : FileState} (hf : disk.fileState roots imports p = some f)
    (hq : q ∈ f.headers) :
    q.IsNormal ∧ disk.isFile q = true ∧ ∃ content, disk.read q = .ok content := by
  obtain ⟨d, -, hpath⟩ := (mem_headers_fileState hf).1 hq
  obtain ⟨hlocate, hread⟩ := Disk.includeOf_path?.1 hpath
  obtain ⟨hnormal, hfile⟩ := Disk.locate_found hlocate
  exact ⟨hnormal, hfile, hread⟩

theorem Reached.mono (hsub : ∀ p ∈ given, p ∈ given')
    (h : Reached disk roots imports given p) : Reached disk roots imports given' p := by
  induction h with
  | given hp => exact .given (hsub _ hp)
  | header _ hf hq ih => exact .header ih hf hq

theorem Reached.given_or_isFile (h : Reached disk roots imports given p) :
    p ∈ given ∨ p.IsNormal ∧ disk.isFile p = true := by
  cases h with
  | given hp => exact .inl hp
  | header _ hf hq =>
    obtain ⟨hnormal, hfile, -⟩ := header_of_fileState hf hq
    exact .inr ⟨hnormal, hfile⟩

theorem Reached.name {names : Path → Prop} (hone : disk.Unambiguous names)
    (hgiven : ∀ p ∈ given, names p) (h : Reached disk roots imports given p) : names p :=
  h.given_or_isFile.elim (hgiven p) fun h => hone.normal p h.1

/-- What is reached from sources under their normal names is tracked. -/
theorem reached_iff_tracked {sources : List Path} (hgiven : ∀ p, p ∈ given ↔
    ∃ s ∈ sources, s.normalize = p) :
    Reached disk roots imports given p ↔ Tracked disk roots imports sources p := by
  constructor
  · intro h
    induction h with
    | given hp =>
      obtain ⟨s, hs, rfl⟩ := (hgiven _).1 hp
      exact .source hs
    | header _ hf hq ih => exact ih.headers hf hq
  · intro h
    exact h.of_closed (fun s hs => .given ((hgiven _).2 ⟨s, hs, rfl⟩))
      fun _ _ hp hf _ hq => .header hp hf hq

end Reached

/-! ## Spellings -/

theorem Disk.includeOf_congr {p q : Path} (h : p.steps = q.steps) (disk : Disk)
    (roots : List Path) : disk.includeOf roots p = disk.includeOf roots q := by
  funext d
  rw [includeOf, includeOf, locate, locate, SearchPath.candidates_congr h]

/-- What is recorded of a file depends on its spelling in the path only. -/
theorem Disk.Unambiguous.fileState_eq {disk : Disk} {names : Path → Prop}
    (hone : disk.Unambiguous names) {p q : Path} (hp : names p) (hq : names q)
    (hsteps : p.steps = q.steps) (roots : List Path) (imports : Bool) :
    disk.fileState roots imports q =
      (disk.fileState roots imports p).map fun f => { f with path := q } := by
  rw [fileState, fileState, hone.scan?_eq hp hq hsteps, Option.map_map,
    disk.includeOf_congr hsteps roots]
  rfl

/-! ## Steps of the search -/

namespace Survey.Search

section Meet

variable (x : Search) (p : Path)

@[simp] theorem meet_survey : (x.meet p).survey = x.survey := by
  unfold meet
  split <;> rfl

@[simp] theorem meet_snapshot : (x.meet p).snapshot = x.snapshot := by
  unfold meet
  split <;> rfl

/-- Taking in a source is meeting it once it is read and marked. -/
theorem enter_eq (scan : FileScan) :
    x.enter p scan = meet { x with
      snapshot := x.snapshot.addSource p
      survey := { x.survey with scans := x.survey.scans.insert p (some scan) } } p := by
  unfold enter meet
  dsimp only
  split <;> rfl

theorem mem_meet_queue {q : Path} : q ∈ (x.meet p).queue ↔
    q ∈ x.queue ∨ q = p ∧ x.met.contains p = false := by
  unfold meet
  cases hmet : x.met.contains p <;> simp

theorem mem_meet_met {q : Path} : q ∈ (x.meet p).met.keys ↔
    q ∈ x.met.keys ∨ q = p ∧ x.met.contains p = false := by
  unfold meet
  cases hmet : x.met.contains p with
  | true => simp
  | false => simp [Table.add, Table.mem_keys_insert_iff () hmet, or_comm]

theorem contains_meet_self : (x.meet p).met.contains p = true := by
  unfold meet
  split
  · next hmet => exact hmet
  · exact Table.contains_insert_self _ _ _

theorem contains_meet {q : Path} (h : x.met.contains q = true) :
    (x.meet p).met.contains q = true := by
  unfold meet
  split
  · exact h
  · rw [Table.contains_add, h, Bool.or_true]

/-- The queue grows as what was met grows. -/
theorem meet_size :
    (x.meet p).queue.length + x.met.size = x.queue.length + (x.meet p).met.size := by
  unfold meet
  cases hmet : x.met.contains p with
  | true => rfl
  | false =>
    have hsize := Table.size_insert () hmet
    simp only [Bool.false_eq_true, if_false, Table.add, hsize, List.length_append,
      List.length_singleton]
    omega

end Meet

/-- What the search may put into the queue: a file that is reached from the given ones, under a name
that the survey knows, and that can be read and has been. -/
structure Known (disk : Disk) (names : Path → Prop) (roots : List Path) (imports : Bool)
    (given : List Path) (survey : Survey) (p : Path) : Prop where
  reached : Reached disk roots imports given p
  name : names p
  read : survey.scans.contains p = true
  readable : ∃ content, disk.read p = .ok content

/-- A file is recorded, or has been met, or is still to be met. -/
def Due (x : Search) (pending : List Path) (p : Path) : Prop :=
  x.snapshot.files.contains p = true ∨ x.met.contains p = true ∨ p ∈ pending

/-- The invariant of a search for what the given files reach, in which the files in `pending` are
still to be met. The snapshot may hold what other sources reach. -/
structure Inv (disk : Disk) (names : Path → Prop) (roots : List Path) (imports : Bool)
    (given sources pending : List Path) (x : Search) : Prop where
  agrees : x.survey.Agrees disk names roots imports
  met_known : ∀ p ∈ x.met.keys, Known disk names roots imports given x.survey p
  pending_known : ∀ p ∈ pending, Known disk names roots imports given x.survey p
  queue_met : ∀ p ∈ x.queue, p ∈ x.met.keys
  met_queue : ∀ p ∈ x.met.keys, p ∈ x.queue ∨ x.snapshot.files.contains p = true
  source_due : ∀ p ∈ x.snapshot.sources.keys, x.Due pending p
  file : ∀ p f, (p, f) ∈ x.snapshot.files.entries → Reached disk roots imports sources p ∧
    ∃ q, p.steps = q.steps ∧ Reached disk roots imports sources q ∧
      disk.fileState roots imports q = some f ∧ ∀ r ∈ f.headers, x.Due pending r

section Inv

variable {disk : Disk} {names : Path → Prop} {roots : List Path} {imports : Bool}
  {given sources pending : List Path} {x : Search}

theorem Known.mono {s t : Survey} {p : Path} (h : Known disk names roots imports given s p)
    (hkeeps : s.Keeps t) : Known disk names roots imports given t p :=
  ⟨h.reached, h.name, hkeeps p h.read, h.readable⟩

/-- What is due stays due when the next of the pending files is met. -/
theorem Due.meet {p q : Path} (h : x.Due (p :: pending) q) : (x.meet p).Due pending q := by
  rcases h with h | h | h
  · exact .inl (by rwa [meet_snapshot])
  · exact .inr (.inl (contains_meet x p h))
  · rcases List.mem_cons.1 h with rfl | h
    · exact .inr (.inl (contains_meet_self x q))
    · exact .inr (.inr h)

namespace Inv

/-- Meeting the next of the pending files. -/
theorem meet {p : Path} (h : Inv disk names roots imports given sources (p :: pending) x) :
    Inv disk names roots imports given sources pending (x.meet p) := by
  have hp := h.pending_known p List.mem_cons_self
  refine ⟨by rw [meet_survey]; exact h.agrees, fun q hq => ?_, fun q hq => ?_, fun q hq => ?_,
    fun q hq => ?_, fun q hq => ?_, fun q f hq => ?_⟩
  · rw [meet_survey]
    rcases (mem_meet_met x p).1 hq with hq | ⟨rfl, -⟩
    · exact h.met_known q hq
    · exact hp
  · rw [meet_survey]
    exact h.pending_known q (List.mem_cons_of_mem p hq)
  · rw [mem_meet_met]
    exact ((mem_meet_queue x p).1 hq).imp_left (h.queue_met q)
  · rw [meet_snapshot, mem_meet_queue]
    rcases (mem_meet_met x p).1 hq with hq | hq
    · exact (h.met_queue q hq).imp_left .inl
    · exact .inl (.inr hq)
  · rw [meet_snapshot] at hq
    exact (h.source_due q hq).meet
  · rw [meet_snapshot] at hq
    obtain ⟨hreached, r, hsteps, hr, hf, hheaders⟩ := h.file q f hq
    exact ⟨hreached, r, hsteps, hr, hf, fun s hs => (hheaders s hs).meet⟩

theorem meetAll (h : Inv disk names roots imports given sources pending x) :
    Inv disk names roots imports given sources [] (pending.foldl Search.meet x) := by
  induction pending generalizing x with
  | nil => exact h
  | cons p pending ih => exact ih h.meet

/-- Taking in a source that has just been read. -/
theorem enter (h : Inv disk names roots imports given sources [] x)
    (hone : disk.Unambiguous names) {p : Path} {scan : FileScan}
    (hp : Reached disk roots imports given p) (hname : names p)
    (hscan : disk.scan? imports p = some scan) :
    Inv disk names roots imports given sources [] (x.enter p scan) := by
  have hkeeps := keeps_insert x.survey p (some scan)
  have hknown : Known disk names roots imports given
      { x.survey with scans := x.survey.scans.insert p (some scan) } p := by
    obtain ⟨content, hread, -⟩ := Disk.scan?_eq_some.1 hscan
    exact ⟨hp, hname, x.survey.scans.contains_insert_self p _, content, hread⟩
  have hdue : ∀ q, x.Due [] q → x.Due [p] q := fun q hq =>
    hq.imp_right fun hq => hq.imp_right fun hq => absurd hq List.not_mem_nil
  rw [enter_eq]
  refine @meet disk names roots imports given sources [] _ p
    ⟨h.agrees.insert hone hname hscan.symm, ?_, ?_, h.queue_met, h.met_queue, ?_, ?_⟩
  · exact fun q hq => (h.met_known q hq).mono hkeeps
  · intro q hq
    obtain rfl := List.mem_singleton.1 hq
    exact hknown
  · intro q hq
    rcases Table.mem_keys_insert hq with rfl | hq
    · exact .inr (.inr List.mem_cons_self)
    · exact hdue q (h.source_due q hq)
  · intro q f hq
    obtain ⟨hreached, r, hsteps, hr, hf, hheaders⟩ := h.file q f hq
    exact ⟨hreached, r, hsteps, hr, hf, fun s hs => hdue s (hheaders s hs)⟩

theorem enterAll (h : Inv disk names roots imports given sources [] x)
    (hone : disk.Unambiguous names) {scans : List (Path × FileScan)}
    (hscans : ∀ e ∈ scans, e.1 ∈ given ∧ names e.1 ∧ disk.scan? imports e.1 = some e.2) :
    Inv disk names roots imports given sources [] (scans.foldl (fun x e => x.enter e.1 e.2) x) := by
  induction scans generalizing x with
  | nil => exact h
  | cons e scans ih =>
    obtain ⟨hgiven, hname, hscan⟩ := hscans e List.mem_cons_self
    exact ih (h.enter hone (.given hgiven) hname hscan)
      fun e' he' => hscans e' (List.mem_cons_of_mem e he')

/-- The next file of the queue has been read: no file is passed over. -/
theorem next_scan (h : Inv disk names roots imports given sources [] x) {p : Path}
    {queue : List Path} (hqueue : x.queue = p :: queue) :
    ∃ scan, x.survey.scan? p = some scan ∧ disk.scan? imports p = some scan := by
  have hknown := h.met_known p (h.queue_met p (hqueue ▸ List.mem_cons_self))
  obtain ⟨content, hread⟩ := hknown.readable
  have hscan : disk.scan? imports p = some _ := Disk.scan?_eq_some.2 ⟨content, hread, rfl⟩
  exact ⟨_, (h.agrees.scan?_eq hknown.name hknown.read).trans hscan, hscan⟩

/-- Recording the next file of the queue as it is on the disk. -/
theorem visit (h : Inv disk names roots imports given sources [] x)
    (hone : disk.Unambiguous names) (hsub : ∀ p ∈ given, p ∈ sources) {p : Path}
    {queue : List Path} (hqueue : x.queue = p :: queue) {scan : FileScan}
    (hscan : disk.scan? imports p = some scan) :
    Inv disk names roots imports given sources []
      (Search.visit disk { x with queue } p scan).value := by
  have hknown := h.met_known p (h.queue_met p (hqueue ▸ List.mem_cons_self))
  obtain ⟨hincludes, hagrees, hkeeps, hread⟩ := h.agrees.resolveAll hone p scan.directives.all
  rcases hr : x.survey.resolveAll disk p scan.directives.all with ⟨⟨includes, survey⟩, log⟩
  rw [hr] at hincludes hagrees hkeeps hread
  simp only at hincludes hagrees hkeeps hread
  subst hincludes
  have hf : disk.fileState roots imports p = some ⟨p, scan.digest, scan.directives,
      scan.directives.all.map (disk.includeOf roots p)⟩ := by
    rw [Disk.fileState, hscan]
    rfl
  have hreached : Reached disk roots imports sources p := hknown.reached.mono hsub
  simp only [Search.visit, Logged.value_bind, Logged.value_pure, hr]
  -- What is due stays due: what was recorded is, and nothing that was met is forgotten.
  have hdue (f : FileState) (pending : List Path) (q : Path) (hq : x.Due [] q) :
      Due { x with queue, survey, snapshot := x.snapshot.addFile f } pending q := by
    rcases hq with hq | hq | hq
    · exact .inl (by simp only [Snapshot.addFile, Table.contains_insert, hq, Bool.or_true])
    · exact .inr (.inl hq)
    · exact absurd hq List.not_mem_nil
  refine meetAll ⟨hagrees, ?_, ?_, ?_, ?_, ?_, ?_⟩
  · exact fun q hq => (h.met_known q hq).mono hkeeps
  · intro q hq
    obtain ⟨hnormal, -, hreadable⟩ := header_of_fileState hf hq
    obtain ⟨d, hd, hpath⟩ := (mem_headers_fileState hf).1 hq
    exact ⟨.header hknown.reached hf hq, hone.normal q hnormal, hread d hd q hpath, hreadable⟩
  · exact fun q hq => h.queue_met q (hqueue ▸ List.mem_cons_of_mem p hq)
  · intro q hq
    simp only [Snapshot.addFile]
    rcases h.met_queue q hq with hq | hq
    · rw [hqueue] at hq
      rcases List.mem_cons.1 hq with rfl | hq
      · exact .inr (Table.contains_insert_self _ _ _)
      · exact .inl hq
    · exact .inr (by rw [Table.contains_insert, hq, Bool.or_true])
  · exact fun q hq => hdue _ _ q (h.source_due q hq)
  · intro q f hq
    rcases Table.mem_insert hq with hold | ⟨rfl, hspelled⟩
    · obtain ⟨hq, r, hsteps, hr, hf, hheaders⟩ := h.file q f hold
      exact ⟨hq, r, hsteps, hr, hf, fun s hs => hdue _ _ s (hheaders s hs)⟩
    · have hsteps : q.steps = p.steps :=
        hspelled.elim (congrArg _) fun heq => (Path.compare_eq_iff.1 heq).symm
      have hq : Reached disk roots imports sources q := by
        rcases Table.mem_keys_insert (Table.mem_keys_of_mem hq) with hqp | hqp
        · rwa [hqp]
        · obtain ⟨g, hg⟩ := Table.mem_keys_iff.1 hqp
          exact (h.file q g hg).1
      exact ⟨hq, p, hsteps, hreached, hf, fun r hr => .inr (.inr hr)⟩

end Inv

end Inv

/-! ## Whole searches -/

theorem meetAll_snapshot (x : Search) (ps : List Path) :
    (ps.foldl meet x).snapshot = x.snapshot := by
  induction ps generalizing x with
  | nil => rfl
  | cons p ps ih => exact (ih (x.meet p)).trans (x.meet_snapshot p)

theorem meetAll_size (x : Search) (ps : List Path) :
    (ps.foldl meet x).queue.length + x.met.size = x.queue.length + (ps.foldl meet x).met.size := by
  induction ps generalizing x with
  | nil => rfl
  | cons p ps ih =>
    have hrest := ih (x.meet p)
    have hfirst := x.meet_size p
    rw [List.foldl_cons]
    omega

theorem visit_sources (disk : Disk) (x : Search) (p : Path) (scan : FileScan) :
    (visit disk x p scan).value.snapshot.sources = x.snapshot.sources := by
  simp only [visit, Logged.value_bind, Logged.value_pure, meetAll_snapshot]
  rfl

theorem visit_size (disk : Disk) (x : Search) (p : Path) (scan : FileScan) :
    (visit disk x p scan).value.queue.length + x.met.size =
      x.queue.length + (visit disk x p scan).value.met.size := by
  simp only [visit, Logged.value_bind, Logged.value_pure]
  exact meetAll_size _ _

variable {disk : Disk} {names : Path → Prop} {roots : List Path} {imports : Bool}
  {given sources : List Path} {x : Search}

theorem run_nil {limit : Nat} (hqueue : x.queue = []) :
    (run disk limit x).value = some x := by
  unfold run
  split
  · rfl
  · next h => cases hqueue.symm.trans h

theorem run_zero {p : Path} {queue : List Path} (hqueue : x.queue = p :: queue) :
    (run disk 0 x).value = none := by
  rw [run]
  simp only [hqueue, Logged.value_pure]

/-- One turn of the loop: the next file of the queue is recorded. -/
theorem run_cons {limit : Nat} {p : Path} {queue : List Path} {scan : FileScan}
    (hqueue : x.queue = p :: queue) (hscan : x.survey.scan? p = some scan) :
    (run disk (limit + 1) x).value =
      (run disk limit (visit disk { x with queue } p scan).value).value := by
  rw [run]
  simp only [hqueue, hscan, Logged.value_bind]

namespace Inv

/-- A search that ends has an empty queue and still what it had met, and its sources are those it
began with. -/
theorem run {limit : Nat} {y : Search} (h : Inv disk names roots imports given sources [] x)
    (hone : disk.Unambiguous names) (hsub : ∀ p ∈ given, p ∈ sources)
    (hrun : (Search.run disk limit x).value = some y) :
    Inv disk names roots imports given sources [] y ∧ y.queue = [] ∧
      y.snapshot.sources = x.snapshot.sources := by
  induction limit generalizing x with
  | zero =>
    cases hqueue : x.queue with
    | nil =>
      rw [run_nil hqueue] at hrun
      obtain rfl := Option.some.inj hrun
      exact ⟨h, hqueue, rfl⟩
    | cons p queue =>
      rw [run_zero hqueue] at hrun
      cases hrun
  | succ limit ih =>
    cases hqueue : x.queue with
    | nil =>
      rw [run_nil hqueue] at hrun
      obtain rfl := Option.some.inj hrun
      exact ⟨h, hqueue, rfl⟩
    | cons p queue =>
      obtain ⟨scan, hscan, hdisk⟩ := h.next_scan hqueue
      rw [run_cons hqueue hscan] at hrun
      obtain ⟨hinv, hempty, hsources⟩ := ih (h.visit hone hsub hqueue hdisk) hrun
      exact ⟨hinv, hempty, hsources.trans (visit_sources disk _ p scan)⟩

/-- With a limit for every name there is to meet, the search ends. -/
theorem run_isSome {limit : Nat} (h : Inv disk names roots imports given sources [] x)
    (hone : disk.Unambiguous names) (hsub : ∀ p ∈ given, p ∈ sources) {all : List Path}
    (hall : ∀ p, Reached disk roots imports given p → p ∈ all)
    (hlimit : all.length + x.queue.length ≤ limit + x.met.size) :
    ∃ y, (Search.run disk limit x).value = some y := by
  induction limit generalizing x with
  | zero =>
    cases hqueue : x.queue with
    | nil => exact ⟨x, run_nil hqueue⟩
    | cons p queue =>
      -- a file in the queue is one of the names, and there are no more met than names
      have hnodup : x.met.keys.Nodup := Table.nodup_of_ordered x.met.keys_pairwise
      have hsubset : x.met.keys ⊆ all := fun q hq => hall q (h.met_known q hq).reached
      have hle := (hnodup.subperm hsubset).length_le
      rw [Table.keys, List.length_map] at hle
      rw [hqueue, List.length_cons, Table.size] at hlimit
      omega
  | succ limit ih =>
    cases hqueue : x.queue with
    | nil => exact ⟨x, run_nil hqueue⟩
    | cons p queue =>
      obtain ⟨scan, hscan, hdisk⟩ := h.next_scan hqueue
      rw [run_cons hqueue hscan]
      refine ih (h.visit hone hsub hqueue hdisk) ?_
      have hsize := visit_size disk { x with queue } p scan
      rw [hqueue, List.length_cons] at hlimit
      simp only at hsize
      omega

end Inv

end Survey.Search

end Recompile
