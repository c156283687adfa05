import Mathlib.Logic.Function.Iterate
import Recompile.Proofs.Diff.Graph
import Recompile.Proofs.Survey.Lookups

/-!
# The search for headers, turn by turn

The loop of a search is as many turns as its limit allows (`Search.run_eq_turns`). This module says
what a turn keeps when nothing is known of the survey: it may remember readings and tests that are no
longer so on the disk.

While the queue is worked off no reading is replaced (`Survey.Extends`), so that a header is recorded
with the very reading its includers were told of, and no file is recorded twice, as the names in the
queue and the names recorded are together the names met, each once (`Search.Linked`). So the snapshot
of a search that has ended hangs together (`Snapshot.Linked`), and no turn passes over a file of the
queue (`Search.Linked.next_scan`).
-/

namespace Recompile

/-! ## Snapshots that hang together -/

namespace Snapshot

/-- A source, or a header that is reached from one. -/
def IsReached (s : Snapshot) (p : Path) : Prop :=
  ∃ a ∈ s.sources.keys, ∃ q, p.steps = q.steps ∧ Reaches s.headersOf a q

/-- Every source has a state; states are kept under their own paths, with one outcome for each
directive in order; a resolved one leads to a tracked file and has the digest recorded there; and
every tracked file is reached from a source. -/
structure Linked (s : Snapshot) : Prop where
  source : ∀ p ∈ s.sources.keys, ∃ f, s.file? p = some f
  path : ∀ p f, s.file? p = some f → p.steps = f.path.steps
  directives : ∀ p f, s.file? p = some f → f.includes.map (·.directive) = f.directives.all
  resolved : ∀ p f, s.file? p = some f → ∀ i ∈ f.includes, ∀ q digest,
    i.outcome = .resolved q digest → ∃ g, s.file? q = some g ∧ g.digest = digest
  reached : ∀ p f, s.file? p = some f → s.IsReached p

variable {s : Snapshot} {p q : Path} {f : FileState}

theorem IsReached.congr (h : s.IsReached p) (hsteps : q.steps = p.steps) : s.IsReached q := by
  obtain ⟨a, ha, r, hr, hreaches⟩ := h
  exact ⟨a, ha, r, hsteps.trans hr, hreaches⟩

theorem IsReached.header (h : s.IsReached p) (hq : q ∈ s.headersOf p) : s.IsReached q := by
  obtain ⟨a, ha, r, hr, hreaches⟩ := h
  rw [s.headersOf_congr p r (Path.compare_eq_iff.2 hr)] at hq
  exact ⟨a, ha, q, rfl, hreaches.tail hq⟩

theorem IsReached.addSource (h : s.IsReached p) (a : Path) : (s.addSource a).IsReached p := by
  obtain ⟨b, hb, hreaches⟩ := h
  exact ⟨b, Table.keys_subset_insert _ _ _ hb, hreaches⟩

theorem isReached_addSource (s : Snapshot) (a : Path) : (s.addSource a).IsReached a := by
  obtain ⟨b, hb, heq⟩ := (Table.contains_iff _).1 (s.sources.contains_insert_self a ())
  exact ⟨b, hb, b, Path.compare_eq_iff.1 heq, .refl b⟩

theorem headersOf_addFile_self (s : Snapshot) (f : FileState) :
    (s.addFile f).headersOf f.path = f.headers := by
  rw [headersOf, file?, addFile, Table.find?_insert, if_pos Std.ReflCmp.compare_self]
  rfl

/-- A file that was not recorded had no headers to lose. -/
theorem headersOf_subset_addFile (hnew : s.files.contains f.path = false) (p : Path) :
    s.headersOf p ⊆ (s.addFile f).headersOf p := by
  rw [headersOf, headersOf, file?, file?, addFile, Table.find?_insert]
  split
  · next heq =>
    rw [Table.contains, Option.isSome_eq_false_iff, Option.isNone_iff_eq_none] at hnew
    rw [s.files.find?_congr heq, hnew]
    exact List.nil_subset _
  · exact List.Subset.refl _

theorem IsReached.addFile (h : s.IsReached p) (hnew : s.files.contains f.path = false) :
    (s.addFile f).IsReached p := by
  obtain ⟨a, ha, q, hq, hreaches⟩ := h
  exact ⟨a, ha, q, hq, hreaches.mono (headersOf_subset_addFile hnew)⟩

end Snapshot

theorem FileState.mem_headers {f : FileState} {q : Path} :
    q ∈ f.headers ↔ ∃ i ∈ f.includes, ∃ digest, i.outcome = .resolved q digest := by
  rw [headers, List.mem_filterMap]
  refine exists_congr fun i => and_congr_right fun _ => ?_
  unfold Include.path?
  split
  · next r digest houtcome => simp [houtcome]
  · next hother =>
    refine ⟨fun h => (by cases h), ?_⟩
    rintro ⟨digest, h⟩
    exact absurd h (hother q digest)

namespace Survey

/-! ## Readings are kept -/

/-- What was read of a file is not read again. -/
def Extends (s t : Survey) : Prop :=
  ∀ p scan, s.scans.find? p = some scan → t.scans.find? p = some scan

section Extends

variable {disk : Disk} {s t u : Survey} {p q includer : Path}

theorem Extends.refl (s : Survey) : s.Extends s := fun _ _ h => h

theorem Extends.trans (h : s.Extends t) (h' : t.Extends u) : s.Extends u :=
  fun p scan hp => h' p scan (h p scan hp)

theorem scan?_eq_some {scan : FileScan} :
    s.scan? p = some scan ↔ s.scans.find? p = some (some scan) :=
  Option.join_eq_some_iff

theorem Extends.scan? {scan : FileScan} (h : s.Extends t) (hp : s.scan? p = some scan) :
    t.scan? p = some scan :=
  scan?_eq_some.2 (h p _ (scan?_eq_some.1 hp))

theorem digest?_congr (hsteps : p.steps = q.steps) : s.digest? p = s.digest? q := by
  rw [Survey.digest?, Survey.digest?, Survey.scan?, Survey.scan?,
    s.scans.find?_congr (Path.compare_eq_iff.2 hsteps)]

theorem Extends.digest? {digest : Digest} (h : s.Extends t) (hp : s.digest? p = some digest) :
    t.digest? p = some digest := by
  obtain ⟨scan, hscan, hdigest⟩ := Option.map_eq_some_iff.1 hp
  exact Option.map_eq_some_iff.2 ⟨scan, h.scan? hscan, hdigest⟩

/-- A file that was not read before can be added. -/
theorem extends_insert (h : s.scans.contains p = false) (scan : Option FileScan) :
    s.Extends { s with scans := s.scans.insert p scan } := by
  intro q scan' hq
  rw [Table.find?_insert, if_neg, hq]
  intro heq
  rw [← Table.contains_congr _ heq, Table.contains, hq] at h
  cases h

theorem extends_readHeader (disk : Disk) (s : Survey) (p : Path) :
    s.Extends (s.readHeader disk p).value := by
  unfold readHeader
  split
  · exact .refl s
  · next hnew =>
    have hnew : s.scans.contains p = false := Bool.not_eq_true _ ▸ hnew
    split <;> exact extends_insert hnew _

/-- A directive is resolved with the digest that the survey has of its header from then on. -/
theorem resolve_spec (disk : Disk) (includer : Path) (s : Survey) (d : Directive) :
    (s.resolve disk includer d).value.1.directive = d ∧
      s.Extends (s.resolve disk includer d).value.2 ∧
      ∀ q digest, (s.resolve disk includer d).value.1.outcome = .resolved q digest →
        (s.resolve disk includer d).value.2.digest? q = some digest := by
  unfold resolve
  cases s.search.locate disk d includer with
  | mk location search =>
    cases location with
    | found p =>
      simp only [Logged.value_bind, Logged.value_pure]
      exact ⟨trivial, extends_readHeader disk { s with search } p,
        fun q digest h => (Location.outcome_eq_resolved.1 h).2⟩
    | notFound => exact ⟨rfl, .refl s, fun q digest h => (by cases h)⟩
    | notStatic => exact ⟨rfl, .refl s, fun q digest h => (by cases h)⟩

theorem resolveAll_spec (disk : Disk) (includer : Path) (s : Survey) (ds : List Directive) :
    (s.resolveAll disk includer ds).value.1.map (·.directive) = ds ∧
      s.Extends (s.resolveAll disk includer ds).value.2 ∧
      ∀ i ∈ (s.resolveAll disk includer ds).value.1, ∀ q digest, i.outcome = .resolved q digest →
        (s.resolveAll disk includer ds).value.2.digest? q = some digest := by
  induction ds generalizing s with
  | nil => exact ⟨rfl, .refl s, fun i hi => absurd hi List.not_mem_nil⟩
  | cons d ds ih =>
    obtain ⟨hdirective, hextends, hdigest⟩ := s.resolve_spec disk includer d
    obtain ⟨hdirectives, hextends', hdigests⟩ := ih (s.resolve disk includer d).value.2
    simp only [resolveAll, Logged.value_bind, Logged.value_pure]
    refine ⟨?_, hextends.trans hextends', fun i hi q digest houtcome => ?_⟩
    · rw [List.map_cons, hdirective, hdirectives]
    · rcases List.mem_cons.1 hi with rfl | hi
      · exact hextends'.digest? (hdigest q digest houtcome)
      · exact hdigests i hi q digest houtcome

end Extends

/-! ## Turns of the loop -/

namespace Search

/-- One turn of the loop: the next file of the queue is recorded, or passed over if nothing is known
of it. -/
def turn (disk : Disk) (x : Search) : Search :=
  match x.queue with
  | [] => x
  | p :: queue =>
    match x.survey.scan? p with
    | some scan => (visit disk { x with queue } p scan).value
    | none => { x with queue }

section Turn

variable {disk : Disk} {x : Search} {p : Path} {queue : List Path}

theorem turn_nil (h : x.queue = []) : turn disk x = x := by
  unfold turn
  split
  · rfl
  · next h' => cases h.symm.trans h'

/-- After the queue is empty nothing happens any more. -/
theorem turns_of_le {m n : Nat} (h : ((turn disk)^[n] x).queue = []) (hle : n ≤ m) :
    (turn disk)^[m] x = (turn disk)^[n] x := by
  obtain ⟨k, rfl⟩ := Nat.exists_eq_add_of_le' hle
  rw [Function.iterate_add_apply, Function.iterate_fixed (turn_nil h)]

theorem turn_cons {scan : FileScan} (hqueue : x.queue = p :: queue)
    (hscan : x.survey.scan? p = some scan) :
    turn disk x = (visit disk { x with queue } p scan).value := by
  unfold turn
  simp only [hqueue, hscan]

theorem turn_skip (hqueue : x.queue = p :: queue) (hscan : x.survey.scan? p = none) :
    turn disk x = { x with queue } := by
  unfold turn
  simp only [hqueue, hscan]

theorem turns_sources (disk : Disk) (x : Search) (n : Nat) :
    ((turn disk)^[n] x).snapshot.sources = x.snapshot.sources := by
  induction n generalizing x with
  | zero => rfl
  | succ n ih =>
    rw [Function.iterate_succ_apply, ih]
    unfold turn
    split
    · rfl
    · split
      · exact visit_sources disk _ _ _
      · rfl

/-- The loop is as many turns as its limit allows. -/
theorem run_eq_turns (disk : Disk) (limit : Nat) (x : Search) :
    (run disk limit x).value = if ((turn disk)^[limit] x).queue.isEmpty then
      some ((turn disk)^[limit] x) else none := by
  induction limit generalizing x with
  | zero =>
    rw [Function.iterate_zero_apply]
    cases hqueue : x.queue with
    | nil => exact run_nil hqueue
    | cons p queue => exact run_zero hqueue
  | succ limit ih =>
    rw [Function.iterate_succ_apply]
    cases hqueue : x.queue with
    | nil =>
      rw [run_nil hqueue, turn_nil hqueue, Function.iterate_fixed (turn_nil hqueue), hqueue]
      rfl
    | cons p queue =>
      cases hscan : x.survey.scan? p with
      | none => rw [run_skip hqueue hscan, turn_skip hqueue hscan, ih]
      | some scan => rw [run_cons hqueue hscan, turn_cons hqueue hscan, ih]

end Turn

/-! ## What a turn keeps -/

/-- What a search has written down of a file that it has met. -/
structure Written (x : Search) (pending : List Path) (p : Path) (f : FileState) : Prop where
  path : f.path = p
  digest : x.survey.digest? p = some f.digest
  directives : f.includes.map (·.directive) = f.directives.all
  resolved : ∀ i ∈ f.includes, ∀ q digest, i.outcome = .resolved q digest →
    x.survey.digest? q = some digest ∧ x.Due pending q

/-- The invariant of a search that begins with a new snapshot, in which the files in `pending` are
still to be met: what was met has been read, and is either in the queue or recorded, once. -/
structure Linked (pending : List Path) (x : Search) : Prop where
  scanned : ∀ p, p ∈ x.met.keys ∨ p ∈ pending → ∃ scan, x.survey.scan? p = some scan
  names : (x.queue ++ x.snapshot.files.keys).Perm x.met.keys
  source : ∀ p ∈ x.snapshot.sources.keys, x.Due pending p
  file : ∀ p f, (p, f) ∈ x.snapshot.files.entries → x.Written pending p f
  reached : ∀ p, p ∈ x.met.keys ∨ p ∈ pending → x.snapshot.IsReached p

section Linked

variable {disk : Disk} {x y : Search} {pending pending' : List Path} {p : Path}

/-- What was written down stays true while readings are kept and what is due stays due. -/
theorem Written.mono {f : FileState} (h : x.Written pending p f)
    (hextends : x.survey.Extends y.survey) (hdue : ∀ q, x.Due pending q → y.Due pending' q) :
    y.Written pending' p f where
  path := h.path
  digest := hextends.digest? h.digest
  directives := h.directives
  resolved i hi q digest houtcome := by
    obtain ⟨hdigest, hq⟩ := h.resolved i hi q digest houtcome
    exact ⟨hextends.digest? hdigest, hdue q hq⟩

theorem meet_of_met (h : x.met.contains p = true) : x.meet p = x := by
  rw [meet, if_pos h]

theorem meet_of_new (h : x.met.contains p = false) :
    x.meet p = { x with queue := x.queue ++ [p], met := x.met.add p } := by
  rw [meet, if_neg (by rw [h]; exact Bool.false_ne_true)]

theorem linked_new (s : Survey) : Linked [] (⟨s, [], ∅, ∅⟩ : Search) where
  scanned p hp := by rcases hp with hp | hp <;> exact absurd hp List.not_mem_nil
  names := .refl []
  source p hp := absurd hp List.not_mem_nil
  file p f hf := absurd hf List.not_mem_nil
  reached p hp := by rcases hp with hp | hp <;> exact absurd hp List.not_mem_nil

namespace Linked

/-- Meeting the next of the pending files. -/
theorem meet (h : Linked (p :: pending) x) : Linked pending (x.meet p) := by
  have hmem : ∀ q, q ∈ (x.meet p).met.keys ∨ q ∈ pending →
      q ∈ x.met.keys ∨ q ∈ p :: pending := by
    rintro q (hq | hq)
    · rcases (mem_meet_met x p).1 hq with hq | ⟨rfl, -⟩
      · exact .inl hq
      · exact .inr List.mem_cons_self
    · exact .inr (List.mem_cons_of_mem p hq)
  refine ⟨fun q hq => ?_, ?_, fun q hq => ?_, fun q f hf => ?_, fun q hq => ?_⟩
  · rw [meet_survey]
    exact h.scanned q (hmem q hq)
  · cases hmet : x.met.contains p with
    | true =>
      rw [meet_of_met hmet]
      exact h.names
    | false =>
      rw [meet_of_new hmet]
      dsimp only
      rw [List.append_assoc, List.singleton_append]
      exact List.perm_middle.trans
        ((h.names.cons p).trans (Table.keys_insert_perm () hmet).symm)
  · rw [meet_snapshot] at hq
    exact (h.source q hq).meet
  · rw [meet_snapshot] at hf
    refine (h.file q f hf).mono ?_ fun r => Due.meet
    rw [meet_survey]
    exact .refl _
  · rw [meet_snapshot]
    exact h.reached q (hmem q hq)

theorem meetAll (h : Linked pending x) : Linked [] (pending.foldl Search.meet x) := by
  induction pending generalizing x with
  | nil => exact h
  | cons p pending ih => exact ih h.meet

/-- Taking in a source, before any file is recorded. Its reading replaces an earlier one. -/
theorem enter (h : Linked [] x) (hfiles : x.snapshot.files = ∅) (scan : FileScan) :
    Linked [] (x.enter p scan) := by
  rw [enter_eq]
  refine @meet _ [] p ⟨fun q hq => ?_, h.names, fun q hq => ?_, fun q f hf => ?_, fun q hq => ?_⟩
  · rw [Survey.scan?, Table.find?_insert]
    split
    · exact ⟨scan, rfl⟩
    · next hne =>
      rcases hq with hq | hq
      · exact h.scanned q (.inl hq)
      · rw [List.mem_singleton.1 hq] at hne
        exact absurd Std.ReflCmp.compare_self hne
  · rcases Table.mem_keys_insert hq with rfl | hq
    · exact .inr (.inr List.mem_cons_self)
    · exact (h.source q hq).imp_right fun hq => hq.imp_right fun hq => absurd hq List.not_mem_nil
  · have hentry : (q, f) ∈ x.snapshot.files.entries := hf
    rw [hfiles] at hentry
    cases hentry
  · rcases hq with hq | hq
    · exact (h.reached q (.inl hq)).addSource p
    · rw [List.mem_singleton.1 hq]
      exact x.snapshot.isReached_addSource p

theorem enterAll (h : Linked [] x) (hfiles : x.snapshot.files = ∅)
    (scans : List (Path × FileScan)) :
    Linked [] (scans.foldl (fun x e => x.enter e.1 e.2) x) := by
  induction scans generalizing x with
  | nil => exact h
  | cons e scans ih =>
    have hfiles' : (x.enter e.1 e.2).snapshot.files = ∅ := by
      rw [enter_eq, meet_snapshot]
      exact hfiles
    exact ih (h.enter hfiles e.2) hfiles'

/-- A file in the queue has been read. -/
theorem next_scan (h : Linked pending x) {queue : List Path} (hqueue : x.queue = p :: queue) :
    ∃ scan, x.survey.scan? p = some scan := by
  refine h.scanned p (.inl (h.names.mem_iff.1 (List.mem_append_left _ ?_)))
  rw [hqueue]
  exact List.mem_cons_self

/-- A file in the queue is not recorded yet, under no spelling. -/
theorem next_new (h : Linked pending x) {queue : List Path} (hqueue : x.queue = p :: queue) :
    x.snapshot.files.contains p = false := by
  rw [← Bool.not_eq_true]
  intro hcontains
  obtain ⟨q, hq, heq⟩ := (Table.contains_iff _).1 hcontains
  have hnames := h.names
  rw [hqueue, List.cons_append] at hnames
  have hp : p ∈ x.met.keys := hnames.mem_iff.1 List.mem_cons_self
  have hq' : q ∈ x.met.keys :=
    hnames.mem_iff.1 (List.mem_cons_of_mem p (List.mem_append_right queue hq))
  obtain rfl := Table.eq_of_mem_keys_of_compare hp hq' heq
  have hnodup := hnames.nodup_iff.2 (Table.nodup_of_ordered x.met.keys_pairwise)
  exact (List.nodup_cons.1 hnodup).1 (List.mem_append_right queue hq)

/-- Recording the next file of the queue, with outcomes that the survey has the digests of; its
headers are to be met then. -/
theorem record (h : Linked [] x) {queue : List Path} {survey : Survey} {f : FileState}
    (hqueue : x.queue = f.path :: queue) (hextends : x.survey.Extends survey)
    (hdigest : survey.digest? f.path = some f.digest)
    (hdirectives : f.includes.map (·.directive) = f.directives.all)
    (hresolved : ∀ i ∈ f.includes, ∀ q digest, i.outcome = .resolved q digest →
      survey.digest? q = some digest) :
    Linked f.headers { x with queue, survey, snapshot := x.snapshot.addFile f } := by
  have hnew := h.next_new hqueue
  have hmet : f.path ∈ x.met.keys := by
    refine h.names.mem_iff.1 (List.mem_append_left _ ?_)
    rw [hqueue]
    exact List.mem_cons_self
  have hdue : ∀ q, x.Due [] q →
      Due { x with queue, survey, snapshot := x.snapshot.addFile f } f.headers q := by
    rintro q (hq | hq | hq)
    · refine .inl ?_
      simp only [Snapshot.addFile, Table.contains_insert, hq, Bool.or_true]
    · exact .inr (.inl hq)
    · exact absurd hq List.not_mem_nil
  refine ⟨fun q hq => ?_, ?_, fun q hq => hdue q (h.source q hq), fun q g hg => ?_, fun q hq => ?_⟩
  · rcases hq with hq | hq
    · obtain ⟨scan, hscan⟩ := h.scanned q (.inl hq)
      exact ⟨scan, hextends.scan? hscan⟩
    · obtain ⟨i, hi, digest, houtcome⟩ := FileState.mem_headers.1 hq
      obtain ⟨scan, hscan, -⟩ := Option.map_eq_some_iff.1 (hresolved i hi q digest houtcome)
      exact ⟨scan, hscan⟩
  · have hnames := h.names
    rw [hqueue] at hnames
    exact ((Table.keys_insert_perm f hnew).append_left queue).trans
      (List.perm_middle.trans hnames)
  · rcases (Table.mem_insert_iff hnew).1 hg with ⟨rfl, rfl⟩ | hg
    · refine ⟨rfl, hdigest, hdirectives, fun i hi q digest houtcome => ?_⟩
      exact ⟨hresolved i hi q digest houtcome,
        .inr (.inr (FileState.mem_headers.2 ⟨i, hi, digest, houtcome⟩))⟩
    · exact (h.file q g hg).mono hextends hdue
  · rcases hq with hq | hq
    · exact (h.reached q (.inl hq)).addFile hnew
    · refine ((h.reached f.path (.inl hmet)).addFile hnew).header ?_
      rwa [Snapshot.headersOf_addFile_self]

theorem visit (h : Linked [] x) {queue : List Path} (hqueue : x.queue = p :: queue)
    {scan : FileScan} (hscan : x.survey.scan? p = some scan) :
    Linked [] (Search.visit disk { x with queue } p scan).value := by
  obtain ⟨hdirectives, hextends, hdigests⟩ :=
    x.survey.resolveAll_spec disk p scan.directives.all
  have hdigest := hextends.digest? (Option.map_eq_some_iff.2 ⟨scan, hscan, rfl⟩)
  simp only [Search.visit, Logged.value_bind, Logged.value_pure]
  exact meetAll (h.record (f := ⟨p, scan.digest, scan.directives, _⟩) hqueue hextends hdigest
    hdirectives hdigests)

/-- A turn of the loop. -/
theorem turn (h : Linked [] x) : Linked [] (Search.turn disk x) := by
  cases hqueue : x.queue with
  | nil => rwa [turn_nil hqueue]
  | cons p queue =>
    obtain ⟨scan, hscan⟩ := h.next_scan hqueue
    rw [turn_cons hqueue hscan]
    exact h.visit hqueue hscan

theorem turns (h : Linked [] x) (n : Nat) : Linked [] ((Search.turn disk)^[n] x) := by
  induction n with
  | zero => exact h
  | succ n ih =>
    rw [Function.iterate_succ_apply']
    exact ih.turn

/-- When the queue is empty all that is due is recorded. -/
theorem file?_of_due (h : Linked [] x) (hqueue : x.queue = []) (hp : x.Due [] p) :
    ∃ f, x.snapshot.file? p = some f := by
  refine (Table.contains_iff_find? _).1 ?_
  rcases hp with hp | hp | hp
  · exact hp
  · obtain ⟨q, hq, heq⟩ := (Table.contains_iff _).1 hp
    have hnames := h.names
    rw [hqueue, List.nil_append] at hnames
    exact (Table.contains_iff _).2 ⟨q, hnames.mem_iff.2 hq, heq⟩
  · exact absurd hp List.not_mem_nil

/-- The snapshot of a search that has ended hangs together. -/
theorem snapshot (h : Linked [] x) (hqueue : x.queue = []) : x.snapshot.Linked := by
  have hfile : ∀ p f, x.snapshot.file? p = some f → ∃ q, p.steps = q.steps ∧
      x.Written [] q f ∧ q ∈ x.met.keys := by
    intro p f hf
    obtain ⟨q, hq, heq⟩ := (Table.find?_eq_some_iff _).1 hf
    exact ⟨q, Path.compare_eq_iff.1 heq, h.file q f hq,
      h.names.mem_iff.1 (List.mem_append_right _ (Table.mem_keys_of_mem hq))⟩
  refine ⟨fun p hp => h.file?_of_due hqueue (h.source p hp), fun p f hf => ?_, fun p f hf => ?_,
    fun p f hf i hi q digest houtcome => ?_, fun p f hf => ?_⟩
  · obtain ⟨q, hsteps, hwritten, -⟩ := hfile p f hf
    rw [hwritten.path, hsteps]
  · obtain ⟨q, -, hwritten, -⟩ := hfile p f hf
    exact hwritten.directives
  · obtain ⟨_, -, hwritten, -⟩ := hfile p f hf
    obtain ⟨hdigest, hdue⟩ := hwritten.resolved i hi q digest houtcome
    obtain ⟨g, hg⟩ := h.file?_of_due hqueue hdue
    obtain ⟨r, hsteps, hwritten', -⟩ := hfile q g hg
    refine ⟨g, hg, Option.some.inj ?_⟩
    rw [← hdigest, ← hwritten'.digest, digest?_congr hsteps]
  · obtain ⟨q, hsteps, -, hmet⟩ := hfile p f hf
    exact (h.reached q (.inl hmet)).congr hsteps

end Linked

end Linked

end Search

end Survey

end Recompile
