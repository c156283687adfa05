import Mathlib.Algebra.Ring.Nat
import Recompile.Diff
import Recompile.Proofs.Path.Normal
import Recompile.Proofs.Reach

/-!
# The include graph of a snapshot

`Snapshot.edgeCount` counts enough edges for both directions of the graph, in any snapshot, so the
headers that a comparison finds are those that the sources reach (`Snapshot.contains_headers`), and
the dependents of some files are the files that reach one of them (`Snapshot.contains_dependents`,
for a snapshot that is `Coherent`: keyed by normal paths and closed under its own edges).
-/

namespace Recompile

/-! ## Counting edges -/

section Counting

variable {α : Type} [Ord α] [Std.TransOrd α]

omit [Ord α] [Std.TransOrd α] in
theorem sum_le_add {f g h : α → Nat} {as : List α} {m n : Nat} (hf : ∀ a, f a ≤ g a + h a)
    (hg : (as.map g).sum ≤ m) (hh : (as.map h).sum ≤ n) : (as.map f).sum ≤ m + n := by
  have hsum : (as.map f).sum ≤ (as.map g).sum + (as.map h).sum := by
    clear hg hh
    induction as with
    | nil => exact Nat.le_refl 0
    | cons a as ih =>
      have ha := hf a
      simp only [List.map_cons, List.sum_cons]
      omega
  exact Nat.le_trans hsum (Nat.add_le_add hg hh)

omit [Ord α] [Std.TransOrd α] in
theorem sum_zeros (as : List α) : (as.map fun _ => 0).sum = 0 := by
  rw [List.map_const', List.sum_replicate_nat, Nat.mul_zero]

/-- At most one of different elements is named `k`. -/
theorem sum_named_le (k : α) (n : Nat) {as : List α}
    (has : as.Pairwise fun x y => compare x y ≠ .eq) :
    (as.map fun a => if compare a k = .eq then n else 0).sum ≤ n := by
  induction as with
  | nil => exact Nat.zero_le n
  | cons a as ih =>
    obtain ⟨ha, hrest⟩ := List.pairwise_cons.1 has
    rw [List.map_cons, List.sum_cons]
    by_cases hk : compare a k = .eq
    · have hzero : (as.map fun b => if compare b k = .eq then n else 0) = as.map fun _ => 0 := by
        refine List.map_congr_left fun b hb => if_neg fun hbk => ha b hb ?_
        exact Std.TransCmp.eq_trans hk (Std.OrientedCmp.eq_symm hbk)
      rw [if_pos hk, hzero, sum_zeros]
      exact Nat.le_refl n
    · rw [if_neg hk, Nat.zero_add]
      exact ih hrest

theorem sum_lookup_le {β γ : Type} (g : β → List γ) (es : List (α × β)) {as : List α}
    (has : as.Pairwise fun x y => compare x y ≠ .eq) :
    (as.map fun a => ((Table.lookup a es).elim [] g).length).sum ≤
      (es.map fun e => (g e.2).length).sum := by
  induction es with
  | nil => exact Nat.le_of_eq (sum_zeros as)
  | cons e es ih =>
    rw [List.map_cons, List.sum_cons]
    refine sum_le_add (fun a => ?_) (sum_named_le e.1 (g e.2).length has) ih
    rw [Table.lookup]
    split <;> simp

end Counting

namespace Snapshot

theorem headersOf_congr (s : Snapshot) (p q : Path) (h : compare p q = .eq) :
    s.headersOf p = s.headersOf q := by
  rw [headersOf, headersOf, file?, file?, s.files.find?_congr h]

theorem includersOf_congr (s : Snapshot) (p q : Path) (h : compare p q = .eq) :
    s.includersOf p = s.includersOf q := by
  have hsteps : ∀ r : Path, (r == p) = (r == q) := by
    intro r
    rw [Bool.eq_iff_iff, Path.beq_iff, Path.beq_iff, Path.compare_eq_iff.1 h]
  simp only [includersOf, hsteps]

theorem bounds_headersOf (s : Snapshot) : Bounds s.headersOf s.edgeCount := by
  intro ps hps
  have hsum := sum_lookup_le FileState.headers s.files.entries hps
  rw [edgeCount, fileStates, Table.values, List.length_flatMap, List.map_map]
  exact hsum

/-- One file includes no more of some different headers than it has resolved directives. -/
theorem sum_includes_le (hs : List Path) {ps : List Path}
    (hps : ps.Pairwise fun x y => compare x y ≠ .eq) :
    (ps.map fun p => if hs.any (· == p) then 1 else 0).sum ≤ hs.length := by
  induction hs with
  | nil => exact Nat.le_of_eq (sum_zeros ps)
  | cons h hs ih =>
    rw [List.length_cons, Nat.add_comm]
    refine sum_le_add (fun p => ?_) (sum_named_le h 1 hps) ih
    have hbeq : (h == p) = true ↔ compare p h = .eq := by
      rw [Path.beq_iff, Path.compare_eq_iff, eq_comm]
    rw [List.any_cons]
    by_cases hp : compare p h = .eq
    · rw [if_pos hp]
      split <;> omega
    · have hne : (h == p) = false := by simpa using mt hbeq.1 hp
      rw [if_neg hp, hne, Bool.false_or]
      exact Nat.le_of_eq (Nat.zero_add _).symm

theorem bounds_includersOf (s : Snapshot) : Bounds s.includersOf s.edgeCount := by
  intro ps hps
  simp only [successorCount, includersOf, edgeCount, List.length_map, List.length_flatMap]
  generalize s.fileStates = fs
  induction fs with
  | nil => exact Nat.le_of_eq (sum_zeros ps)
  | cons f fs ih =>
    rw [List.map_cons, List.sum_cons]
    refine sum_le_add (fun p => ?_) (sum_includes_le f.headers hps) ih
    rw [List.filter_cons]
    split <;> simp [Nat.add_comm]

/-! ## Coherent snapshots -/

/-- A snapshot whose files stand under their own normal paths and whose sources and headers all have
a state. -/
structure Coherent (s : Snapshot) : Prop where
  keyed : ∀ p f, (p, f) ∈ s.files.entries → f.path = p
  normal : ∀ p ∈ s.files.keys, p.IsNormal
  source : ∀ p ∈ s.sources.keys, p ∈ s.files.keys
  closed : ∀ p f, (p, f) ∈ s.files.entries → ∀ q ∈ f.headers, q ∈ s.files.keys

namespace Coherent

variable {s : Snapshot} (hs : s.Coherent)

include hs in
theorem file?_eq_some {p : Path} (hp : p.IsNormal) {f : FileState} :
    s.file? p = some f ↔ (p, f) ∈ s.files.entries :=
  (Path.mem_entries_iff_find? hs.normal hp).symm

include hs in
theorem mem_fileStates {f : FileState} : f ∈ s.fileStates ↔ (f.path, f) ∈ s.files.entries := by
  rw [fileStates, Table.mem_values_iff]
  refine ⟨?_, fun h => ⟨f.path, h⟩⟩
  rintro ⟨p, hp⟩
  rwa [hs.keyed p f hp]

include hs in
theorem isSource_iff {p : Path} (hp : p.IsNormal) : s.isSource p = true ↔ p ∈ s.sources.keys :=
  (Path.mem_keys_iff_contains (fun q hq => hs.normal q (hs.source q hq)) hp).symm

theorem headersOf_eq {p : Path} {f : FileState} (hf : (p, f) ∈ s.files.entries) :
    s.headersOf p = f.headers := by
  rw [headersOf, file?, s.files.find?_of_mem hf]
  rfl

theorem mem_headersOf {p q : Path} (hp : p ∈ s.files.keys) :
    q ∈ s.headersOf p ↔ ∃ f, (p, f) ∈ s.files.entries ∧ q ∈ f.headers := by
  obtain ⟨f, hf⟩ := Table.mem_keys_iff.1 hp
  rw [headersOf_eq hf]
  refine ⟨fun hq => ⟨f, hf, hq⟩, ?_⟩
  rintro ⟨g, hg, hq⟩
  have hsame := (s.files.find?_of_mem hf).symm.trans (s.files.find?_of_mem hg)
  rwa [Option.some.inj hsame]

include hs in
/-- Following the edges from a file with a state leads to files with a state only. -/
theorem reaches {p q : Path} (hp : p ∈ s.files.keys) (h : Reaches s.headersOf p q) :
    q ∈ s.files.keys := by
  induction h with
  | refl p => exact hp
  | step hq _ ih =>
    obtain ⟨f, hf, hq⟩ := (mem_headersOf hp).1 hq
    exact ih (hs.closed _ f hf _ hq)

include hs in
theorem mem_includersOf {p q : Path} (hq : q.IsNormal) :
    p ∈ s.includersOf q ↔ p ∈ s.files.keys ∧ q ∈ s.headersOf p := by
  simp only [includersOf, List.mem_map, List.mem_filter, List.any_eq_true]
  constructor
  · rintro ⟨f, ⟨hf, r, hr, hrq⟩, rfl⟩
    have hf := hs.mem_fileStates.1 hf
    have hrn : r.IsNormal := hs.normal r (hs.closed _ f hf r hr)
    obtain rfl := hrn.eq_of_steps hq (Path.beq_iff.1 hrq)
    exact ⟨Table.mem_keys_of_mem hf, headersOf_eq hf ▸ hr⟩
  · rintro ⟨hp, hq⟩
    obtain ⟨f, hf, hr⟩ := (mem_headersOf hp).1 hq
    obtain rfl := hs.keyed p f hf
    exact ⟨f, ⟨hs.mem_fileStates.2 hf, q, hr, Path.beq_iff.2 rfl⟩, rfl⟩

include hs in
theorem reaches_includersOf {p q : Path} (hp : p ∈ s.files.keys) (h : Reaches s.headersOf p q) :
    Reaches s.includersOf q p := by
  induction h with
  | refl p => exact .refl p
  | step hr hrest ih =>
    obtain ⟨f, hf, hheader⟩ := (mem_headersOf hp).1 hr
    have hkey := hs.closed _ f hf _ hheader
    exact (ih hkey).tail ((hs.mem_includersOf (hs.normal _ hkey)).2 ⟨hp, hr⟩)

include hs in
theorem reaches_of_includersOf {p q : Path} (hq : q.IsNormal) (h : Reaches s.includersOf q p) :
    Reaches s.headersOf p q := by
  induction h with
  | refl q => exact .refl q
  | step hr _ ih =>
    obtain ⟨hkey, hheader⟩ := (hs.mem_includersOf hq).1 hr
    exact (ih (hs.normal _ hkey)).tail hheader

include hs in
theorem normal_of_includersOf {p q : Path} (hq : q.IsNormal) (h : Reaches s.includersOf q p) :
    p.IsNormal := by
  induction h with
  | refl q => exact hq
  | step hr _ ih => exact ih (hs.normal _ ((hs.mem_includersOf hq).1 hr).1)

include hs in
/-- A file with a state depends on some files exactly when it reaches one of them. -/
theorem contains_dependents {seeds : List Path} (hseeds : ∀ p ∈ seeds, p.IsNormal) {p : Path}
    (hp : p ∈ s.files.keys) :
    (s.dependents seeds).contains p = true ↔ ∃ q ∈ seeds, Reaches s.headersOf p q := by
  rw [dependents, contains_closure s.bounds_includersOf s.includersOf_congr]
  constructor
  · rintro ⟨q, hq, r, hr, heq⟩
    have hrn := hs.normal_of_includersOf (hseeds q hq) hr
    obtain rfl := (hs.normal p hp).eq_of_compare hrn heq
    exact ⟨q, hq, hs.reaches_of_includersOf (hseeds q hq) hr⟩
  · rintro ⟨q, hq, hr⟩
    exact ⟨q, hq, p, hs.reaches_includersOf hp hr, Std.ReflCmp.compare_self⟩

include hs in
/-- The headers of a comparison are the files that the sources reach and that are no sources. -/
theorem mem_discoveredHeaders {p : Path} : p ∈ s.discoveredHeaders.keys ↔
    (∃ a ∈ s.sources.keys, Reaches s.headersOf a p) ∧ p ∉ s.sources.keys := by
  have hnormal : ∀ a ∈ s.sources.keys, ∀ q, Reaches s.headersOf a q → q.IsNormal :=
    fun a ha q hq => hs.normal q (hs.reaches (hs.source a ha) hq)
  have hkeys : ∀ q ∈ (closure s.headersOf s.edgeCount s.sources.keys).keys, q.IsNormal := by
    intro q hq
    obtain ⟨a, ha, hreach⟩ := mem_keys_closure hq
    exact hnormal a ha q hreach
  rw [discoveredHeaders, Table.mem_keys_difference]
  constructor
  · rintro ⟨hp, hsource⟩
    refine ⟨mem_keys_closure hp, fun h => ?_⟩
    rw [Table.contains_of_mem_keys h] at hsource
    cases hsource
  · rintro ⟨⟨a, ha, hreach⟩, hsource⟩
    have hp := hnormal a ha p hreach
    refine ⟨(Path.mem_keys_iff_contains hkeys hp).2 ?_, ?_⟩
    · rw [contains_closure s.bounds_headersOf s.headersOf_congr]
      exact ⟨a, ha, p, hreach, Std.ReflCmp.compare_self⟩
    · simpa [isSource] using mt (hs.isSource_iff hp).1 hsource

end Coherent

end Snapshot

end Recompile
