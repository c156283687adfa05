import Recompile.Proofs.Diff.Graph

/-!
# The walk that collects the headers

The headers of a snapshot are collected by a walk over its include graph. It has a stack of paths,
which holds the root sources at first. Each turn takes one path off; a path that was visited before
is dropped, any other is visited: it is a header unless it is a root source, and the headers it
includes itself go onto the stack if they were not visited by then. `HeaderWalk.step?` is one turn.
Nothing bounds the number of turns, and a snapshot may hold any edges at all.

The walk comes to its end all the same, after no more turns than there are sources and edges, with
the set that `Snapshot.discoveredHeaders` gives (`HeaderWalk.run_start`). That function leaves out
the look at the visited paths before a push; the two stacks differ in visited paths only
(`Trimmed`), which both drop. What is collected is what the sources reach through one include or
more, the sources apart (`Snapshot.discoveredHeaders_exact`).
-/

namespace Recompile

/-! ## Stacks without some visited paths -/

section Trimmed

variable {α : Type} [Ord α]

/-- The first stack is the second without some elements that were seen. -/
inductive Trimmed (seen : KeySet α) : List α → List α → Prop where
  | nil : Trimmed seen [] []
  | keep {a : α} {short long : List α} (h : Trimmed seen short long) :
      Trimmed seen (a :: short) (a :: long)
  | drop {a : α} {short long : List α} (ha : seen.contains a = true)
      (h : Trimmed seen short long) : Trimmed seen short (a :: long)

namespace Trimmed

variable {seen : KeySet α} {short long short' long' : List α}

theorem refl (seen : KeySet α) (stack : List α) : Trimmed seen stack stack := by
  induction stack with
  | nil => exact .nil
  | cons a stack ih => exact ih.keep

theorem append (h : Trimmed seen short long) (h' : Trimmed seen short' long') :
    Trimmed seen (short ++ short') (long ++ long') := by
  induction h with
  | nil => exact h'
  | keep _ ih => exact ih.keep
  | drop ha _ ih => exact ih.drop ha

/-- What was seen stays seen. -/
theorem add [Std.TransOrd α] (h : Trimmed seen short long) (a : α) :
    Trimmed (seen.add a) short long := by
  induction h with
  | nil => exact .nil
  | keep _ ih => exact ih.keep
  | drop hb _ ih => exact ih.drop (by rw [Table.contains_add, hb, Bool.or_true])

theorem filter (seen : KeySet α) (stack : List α) :
    Trimmed seen (stack.filter fun a => !seen.contains a) stack := by
  induction stack with
  | nil => exact .nil
  | cons a stack ih =>
    cases ha : seen.contains a with
    | true =>
      rw [List.filter_cons_of_neg (by simp [ha])]
      exact ih.drop ha
    | false =>
      rw [List.filter_cons_of_pos (by simp [ha])]
      exact ih.keep

theorem reverse (h : Trimmed seen short long) : Trimmed seen short.reverse long.reverse := by
  induction h with
  | nil => exact .nil
  | keep _ ih =>
    rw [List.reverse_cons, List.reverse_cons]
    exact ih.append (.keep .nil)
  | drop ha _ ih =>
    rw [List.reverse_cons, ← List.append_nil (List.reverse _)]
    exact ih.append (.drop ha .nil)

end Trimmed

end Trimmed

/-! ## The walk -/

/-- A collection of headers that is under way. -/
structure HeaderWalk where
  /-- The paths still to be looked at, the next one first. -/
  stack : List Path
  visited : PathSet
  headers : PathSet

namespace HeaderWalk

/-- The walk begins with the root sources; the last one is looked at first. -/
def start (s : Snapshot) : HeaderWalk := ⟨s.sources.keys.reverse, ∅, ∅⟩

/-- Visits a path that has been taken off the stack. -/
def visit (s : Snapshot) (w : HeaderWalk) (p : Path) : HeaderWalk :=
  let visited := w.visited.add p
  let pushed := (s.headersOf p).filter fun q => !visited.contains q
  { stack := pushed.reverse ++ w.stack
    visited
    headers := if s.isSource p then w.headers else w.headers.add p }

/-- One turn of the walk, if there is one. -/
def step? (s : Snapshot) (w : HeaderWalk) : Option HeaderWalk :=
  match w.stack with
  | [] => none
  | p :: stack =>
    if w.visited.contains p then some { w with stack } else some (visit s { w with stack } p)

/-- The end of the walk, if it comes within so many turns. -/
def run (s : Snapshot) : (turns : Nat) → HeaderWalk → Option HeaderWalk
  | 0, w => if w.stack = [] then some w else none
  | turns + 1, w =>
    match w.step? s with
    | none => some w
    | some next => run s turns next

variable {s : Snapshot} {w : HeaderWalk}

theorem run_nil (h : w.stack = []) (turns : Nat) : run s turns w = some w := by
  cases turns with
  | zero => rw [run, if_pos h]
  | succ turns => simp only [run, step?, h]

theorem run_of_visited {p : Path} {stack : List Path} (hstack : w.stack = p :: stack)
    (hp : w.visited.contains p = true) (turns : Nat) :
    run s (turns + 1) w = run s turns { w with stack } := by
  simp only [run, step?, hstack, hp, if_true]

theorem run_of_new {p : Path} {stack : List Path} (hstack : w.stack = p :: stack)
    (hp : w.visited.contains p = false) (turns : Nat) :
    run s (turns + 1) w = run s turns (visit s { w with stack } p) := by
  simp only [run, step?, hstack, hp, Bool.false_eq_true, if_false]

/-- A walk that ends does so within any higher number of turns. -/
theorem run_succ {turns : Nat} {last : HeaderWalk} (h : run s turns w = some last) :
    run s (turns + 1) w = some last := by
  induction turns generalizing w with
  | zero =>
    rw [run] at h
    split at h
    · next hstack =>
      rw [run_nil hstack]
      exact h
    · cases h
  | succ turns ih =>
    rw [run] at h ⊢
    split at h
    · exact h
    · exact ih h

/-- The headers are what was visited, the root sources apart. -/
def Sound (s : Snapshot) (w : HeaderWalk) : Prop := w.headers = w.visited.difference s.sources

theorem sound_start (s : Snapshot) : Sound s (start s) := rfl

/-- A path that is visited is a header unless it is a source. -/
theorem Sound.visit (h : Sound s w) {p : Path} (hp : w.visited.contains p = false) :
    Sound s (visit s w p) := by
  unfold Sound at h ⊢
  change (if s.isSource p then w.headers else w.headers.add p) =
    (w.visited.add p).difference s.sources
  rw [Table.difference_add hp, ← h]
  rfl

/-- What a visit pushes are the headers of the path, but for some that were visited. -/
theorem trimmed_visit {p : Path} {long : List Path} (h : Trimmed w.visited w.stack long) :
    Trimmed (visit s w p).visited (visit s w p).stack ((s.headersOf p).reverse ++ long) :=
  (Trimmed.filter _ _).reverse.append (h.add p)

/-- The walk ends within the bound of the closure, and has visited the same paths then. -/
theorem run_eq_closureFrom {turns : Nat} {stack : List Path} (hsound : Sound s w)
    (htrim : Trimmed w.visited w.stack stack)
    (hturns : stack.length + s.edgeCount ≤ turns + successorCount s.headersOf w.visited.keys) :
    ∃ last, run s turns w = some last ∧ Sound s last ∧
      last.visited = closureFrom s.headersOf turns stack w.visited := by
  have hvisited := s.bounds_headersOf.keys w.visited
  induction turns generalizing stack w with
  | zero =>
    have hnil : stack = [] := List.length_eq_zero_iff.1 (by omega)
    subst hnil
    generalize hstack : w.stack = short at htrim
    cases htrim
    exact ⟨w, run_nil hstack 0, hsound, rfl⟩
  | succ turns ih =>
    generalize hstack : w.stack = short at htrim
    cases htrim with
    | nil => exact ⟨w, run_nil hstack _, hsound, rfl⟩
    | @drop p _ rest hp htrim =>
      -- only the longer stack holds the path, and only there it costs a turn
      rw [List.length_cons] at hturns
      obtain ⟨last, hrun, hlast, hsame⟩ := ih hsound (hstack ▸ htrim) (by omega) hvisited
      exact ⟨last, run_succ hrun, hlast, by rw [hsame, closureFrom, if_pos hp]⟩
    | @keep p short rest htrim =>
      rw [List.length_cons] at hturns
      cases hp : w.visited.contains p with
      | true =>
        obtain ⟨last, hrun, hlast, hsame⟩ :=
          ih (w := { w with stack := short }) hsound htrim (by dsimp only; omega) hvisited
        refine ⟨last, (run_of_visited hstack hp turns).trans hrun, hlast, ?_⟩
        rw [hsame, closureFrom, if_pos hp]
      | false =>
        have hcount : ((s.headersOf p).reverse ++ rest).length + s.edgeCount ≤
            turns + successorCount s.headersOf (w.visited.add p).keys := by
          rw [successorCount_add hp, List.length_append, List.length_reverse]
          omega
        obtain ⟨last, hrun, hlast, hsame⟩ :=
          ih (w := visit s { w with stack := short } p) (Sound.visit (w := { w with stack := short })
            hsound hp) (trimmed_visit (w := { w with stack := short }) htrim) hcount
            (s.bounds_headersOf.keys _)
        refine ⟨last, (run_of_new hstack hp turns).trans hrun, hlast, ?_⟩
        rw [hsame, closureFrom, if_neg (by simp [hp])]
        rfl

/-- The walk from the sources ends, with the headers of the snapshot. -/
theorem run_start (s : Snapshot) :
    ∃ last, run s (s.sources.size + s.edgeCount) (start s) = some last ∧
      last.headers = s.discoveredHeaders := by
  have hlength : s.sources.keys.length = s.sources.size := List.length_map _
  have hturns : s.sources.keys.reverse.length + s.edgeCount ≤ s.sources.size + s.edgeCount +
      successorCount s.headersOf (∅ : PathSet).keys := by
    rw [List.length_reverse]
    omega
  obtain ⟨last, hrun, hlast, hvisited⟩ :=
    run_eq_closureFrom (sound_start s) (Trimmed.refl ∅ s.sources.keys.reverse) hturns
  refine ⟨last, hrun, ?_⟩
  rw [Sound, hvisited, ← hlength] at hlast
  exact hlast

end HeaderWalk

namespace Snapshot

/-- A path that some root source leads to through one include or more, each of which was resolved.
Whether the path has a state of its own does not matter. -/
def IncludedBySources (s : Snapshot) (p : Path) : Prop :=
  ∃ a ∈ s.sources.keys, ∃ h ∈ s.headersOf a, Reaches s.headersOf h p

/-- **The headers are what the sources reach, and the walk that collects them ends.** For any
snapshot, whatever its edges: the walk takes no more turns than there are root sources and resolved
includes; it collects each name once, in a spelling that some include has; and a name is collected
exactly when it is that of no root source and one include or more lead to it from a root source. -/
theorem discoveredHeaders_exact (s : Snapshot) :
    (∃ last, HeaderWalk.run s (s.sources.size + s.edgeCount) (.start s) = some last ∧
      last.headers = s.discoveredHeaders) ∧
    (s.discoveredHeaders.keys.Pairwise fun p q => p.steps ≠ q.steps) ∧
    (∀ p ∈ s.discoveredHeaders.keys, s.IncludedBySources p) ∧
    ∀ p, s.discoveredHeaders.contains p = true ↔
      s.isSource p = false ∧ ∃ q, s.IncludedBySources q ∧ p.steps = q.steps := by
  -- from a source to a path that is no source there is an include at least
  have hincluded : ∀ a ∈ s.sources.keys, ∀ p q, Reaches s.headersOf a q → p.steps = q.steps →
      s.isSource p = false → s.IncludedBySources q := by
    intro a ha p q hreach hsteps hp
    cases hreach with
    | refl =>
      have hsource : s.isSource p = true :=
        s.sources.contains_iff.2 ⟨a, ha, Path.compare_eq_iff.2 hsteps⟩
      cases hp.symm.trans hsource
    | step hh hrest => exact ⟨a, ha, _, hh, hrest⟩
  refine ⟨HeaderWalk.run_start s, ?_, fun p hp => ?_, fun p => ?_⟩
  · refine s.discoveredHeaders.keys_pairwise.imp fun {p q} hlt hsteps => ?_
    rw [Path.compare_eq_iff.2 hsteps] at hlt
    cases hlt
  · obtain ⟨hp, hsource⟩ := Table.mem_keys_difference.1 hp
    obtain ⟨a, ha, hreach⟩ := mem_keys_closure hp
    exact hincluded a ha p p hreach rfl hsource
  · rw [discoveredHeaders, Table.contains_difference,
      contains_closure s.bounds_headersOf s.headersOf_congr, and_comm]
    refine and_congr_right fun hp => ?_
    constructor
    · rintro ⟨a, ha, q, hreach, heq⟩
      have hsteps := Path.compare_eq_iff.1 heq
      exact ⟨q, hincluded a ha p q hreach hsteps hp, hsteps⟩
    · rintro ⟨q, ⟨a, ha, h, hh, hreach⟩, hsteps⟩
      exact ⟨a, ha, q, .step hh hreach, Path.compare_eq_iff.2 hsteps⟩

end Snapshot

end Recompile
