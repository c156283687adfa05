import Mathlib.Algebra.Ring.Nat
import Recompile.Closure
import Recompile.Proofs.Table

/-!
# The closure is what the starts reach

`closure next edges starts` holds exactly what some start reaches through `next`
(`contains_closure`), as long as `next` goes by names, not by spellings, and `edges` counts enough
successors (`Bounds`). The count matters because the stack is worked off under a bound: every
element that comes off it is a start or a successor of an element that was kept, and each is kept
once, so under `Bounds` the stack is empty before the bound is used up.
-/

namespace Recompile

/-- `b` is reached before `c` is left: paths can be prolonged at the end. -/
theorem Reaches.tail {α : Type} {next : α → List α} {a b c : α} (h : Reaches next a b)
    (hc : c ∈ next b) : Reaches next a c :=
  h.trans (.single hc)

/-- What is reached stays so when there are more successors. -/
theorem Reaches.mono {α : Type} {next next' : α → List α} {a b : α} (h : Reaches next a b)
    (hsub : ∀ c, next c ⊆ next' c) : Reaches next' a b := by
  induction h with
  | refl a => exact .refl a
  | step hb _ ih => exact .step (hsub _ hb) ih

section Closure

variable {α : Type} [Ord α]

/-- How many successors the elements of a list have together. -/
def successorCount (next : α → List α) (as : List α) : Nat :=
  (as.map fun a => (next a).length).sum

/-- No different elements have more than `edges` successors together. -/
def Bounds (next : α → List α) (edges : Nat) : Prop :=
  ∀ as : List α, (as.Pairwise fun x y => compare x y ≠ .eq) → successorCount next as ≤ edges

variable [Std.TransOrd α] {next : α → List α}

/-- Whatever the closure keeps was kept before or is reached from the stack. -/
theorem mem_keys_closureFrom {bound : Nat} {stack : List α} {seen : KeySet α} {x : α}
    (h : x ∈ (closureFrom next bound stack seen).keys) :
    x ∈ seen.keys ∨ ∃ a ∈ stack, Reaches next a x := by
  induction bound generalizing stack seen with
  | zero => exact .inl h
  | succ bound ih =>
    cases stack with
    | nil => exact .inl h
    | cons a stack =>
      rw [closureFrom] at h
      split at h
      · rcases ih h with hx | ⟨b, hb, hx⟩
        · exact .inl hx
        · exact .inr ⟨b, List.mem_cons_of_mem a hb, hx⟩
      · rcases ih h with hx | ⟨b, hb, hx⟩
        · rcases Table.mem_keys_insert hx with rfl | hx
          · exact .inr ⟨x, List.mem_cons_self, .refl x⟩
          · exact .inl hx
        · rcases List.mem_append.1 hb with hb | hb
          · exact .inr ⟨a, List.mem_cons_self, .step (List.mem_reverse.1 hb) hx⟩
          · exact .inr ⟨b, List.mem_cons_of_mem a hb, hx⟩

/-- Nothing that was kept is lost. -/
theorem contains_closureFrom_of_seen {bound : Nat} {stack : List α} {seen : KeySet α} {x : α}
    (h : seen.contains x = true) : (closureFrom next bound stack seen).contains x = true := by
  induction bound generalizing stack seen with
  | zero => exact h
  | succ bound ih =>
    cases stack with
    | nil => exact h
    | cons a stack =>
      rw [closureFrom]
      split
      · exact ih h
      · refine ih ?_
        rw [Table.contains_add, h, Bool.or_true]

/-- What was kept has its successors kept or on the stack. -/
def Pending (next : α → List α) (stack : List α) (seen : KeySet α) : Prop :=
  ∀ a ∈ seen.keys, ∀ b ∈ next a, seen.contains b = true ∨ b ∈ stack

omit [Std.TransOrd α] in
/-- An element that was kept before can be dropped from the stack. -/
theorem Pending.drop {a : α} {stack : List α} {seen : KeySet α}
    (h : Pending next (a :: stack) seen) (ha : seen.contains a = true) :
    Pending next stack seen := by
  intro c hc b hb
  rcases h c hc b hb with hb | hb
  · exact .inl hb
  · rcases List.mem_cons.1 hb with rfl | hb
    · exact .inl ha
    · exact .inr hb

/-- A new element can be kept once its successors are on the stack. -/
theorem Pending.add {a : α} {stack : List α} {seen : KeySet α}
    (h : Pending next (a :: stack) seen) (ha : seen.contains a = false) :
    Pending next ((next a).reverse ++ stack) (seen.add a) := by
  intro c hc b hb
  rcases (Table.mem_keys_insert_iff () ha).1 hc with rfl | hc
  · exact .inr (List.mem_append_left _ (List.mem_reverse.2 hb))
  · rcases h c hc b hb with hb | hb
    · exact .inl (by rw [Table.contains_add, hb, Bool.or_true])
    · rcases List.mem_cons.1 hb with rfl | hb
      · exact .inl (seen.contains_insert_self b ())
      · exact .inr (List.mem_append_right _ hb)

omit [Std.TransOrd α] in
theorem Bounds.keys {edges : Nat} (h : Bounds next edges) (seen : KeySet α) :
    successorCount next seen.keys ≤ edges := by
  refine h _ (seen.keys_pairwise.imp fun hlt heq => ?_)
  rw [heq] at hlt
  cases hlt

theorem successorCount_add {a : α} {seen : KeySet α} (ha : seen.contains a = false) :
    successorCount next (seen.add a).keys =
      (next a).length + successorCount next seen.keys :=
  ((Table.keys_insert_perm () ha).map fun a => (next a).length).sum_nat

/-- If the bound allows for the stack and the successors that are still to come, the whole stack is
kept, and what is kept is closed under `next`. -/
theorem closureFrom_closed {edges : Nat} (hbounds : Bounds next edges) {bound : Nat}
    {stack : List α} {seen : KeySet α} (hpending : Pending next stack seen)
    (hbound : stack.length + edges ≤ bound + successorCount next seen.keys) :
    (∀ a ∈ stack, (closureFrom next bound stack seen).contains a = true) ∧
      ∀ a ∈ (closureFrom next bound stack seen).keys, ∀ b ∈ next a,
        (closureFrom next bound stack seen).contains b = true := by
  have hseen := hbounds.keys seen
  induction bound generalizing stack seen with
  | zero =>
    have hnil : stack = [] := List.length_eq_zero_iff.1 (by omega)
    subst hnil
    refine ⟨fun a ha => absurd ha List.not_mem_nil, fun a ha b hb => ?_⟩
    exact (hpending a ha b hb).resolve_right List.not_mem_nil
  | succ bound ih =>
    cases stack with
    | nil =>
      refine ⟨fun a ha => absurd ha List.not_mem_nil, fun a ha b hb => ?_⟩
      exact (hpending a ha b hb).resolve_right List.not_mem_nil
    | cons a stack =>
      rw [closureFrom]
      rw [List.length_cons] at hbound
      by_cases ha : seen.contains a = true
      · rw [if_pos ha]
        obtain ⟨hstack, hclosed⟩ := ih (hpending.drop ha) (by omega) hseen
        refine ⟨fun b hb => ?_, hclosed⟩
        rcases List.mem_cons.1 hb with rfl | hb
        · exact contains_closureFrom_of_seen ha
        · exact hstack b hb
      · rw [if_neg ha]
        have hnew : seen.contains a = false := by simpa using ha
        have hbound' : ((next a).reverse ++ stack).length + edges ≤
            bound + successorCount next (seen.add a).keys := by
          rw [successorCount_add hnew, List.length_append, List.length_reverse]
          omega
        obtain ⟨hstack, hclosed⟩ := ih (hpending.add hnew) hbound' (hbounds.keys _)
        refine ⟨fun b hb => ?_, hclosed⟩
        rcases List.mem_cons.1 hb with rfl | hb
        · exact contains_closureFrom_of_seen (seen.contains_insert_self b ())
        · exact hstack b (List.mem_append_right _ hb)

theorem mem_keys_closure {edges : Nat} {starts : List α} {x : α}
    (h : x ∈ (closure next edges starts).keys) : ∃ a ∈ starts, Reaches next a x := by
  rcases mem_keys_closureFrom h with hx | ⟨a, ha, hx⟩
  · exact absurd hx List.not_mem_nil
  · exact ⟨a, List.mem_reverse.1 ha, hx⟩

/-- The closure holds exactly what the starts reach. -/
theorem contains_closure {edges : Nat} (hbounds : Bounds next edges)
    (hnext : ∀ a b, compare a b = .eq → next a = next b) (starts : List α) (x : α) :
    (closure next edges starts).contains x = true ↔
      ∃ a ∈ starts, ∃ y, Reaches next a y ∧ compare x y = .eq := by
  have hpending : Pending next starts.reverse (∅ : KeySet α) :=
    fun a ha => absurd ha List.not_mem_nil
  have hbound : starts.reverse.length + edges ≤
      starts.length + edges + successorCount next (∅ : KeySet α).keys := by
    rw [List.length_reverse]
    omega
  obtain ⟨hstack, hclosed⟩ := closureFrom_closed hbounds hpending hbound
  have hstep : ∀ a, (closure next edges starts).contains a = true → ∀ b ∈ next a,
      (closure next edges starts).contains b = true := by
    intro a ha b hb
    obtain ⟨a', ha', he⟩ := (Table.contains_iff _).1 ha
    exact hclosed a' ha' b (hnext a a' he ▸ hb)
  have hreach : ∀ a y, Reaches next a y → (closure next edges starts).contains a = true →
      (closure next edges starts).contains y = true := by
    intro a y h
    induction h with
    | refl a => exact id
    | step hb _ ih => exact fun ha => ih (hstep _ ha _ hb)
  constructor
  · intro h
    obtain ⟨y, hy, he⟩ := (Table.contains_iff _).1 h
    obtain ⟨a, ha, hay⟩ := mem_keys_closure hy
    exact ⟨a, ha, y, hay, he⟩
  · rintro ⟨a, ha, y, hay, he⟩
    rw [Table.contains_congr _ he]
    exact hreach a y hay (hstack a (List.mem_reverse.2 ha))

end Closure

end Recompile
