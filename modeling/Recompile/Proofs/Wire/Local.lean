import Recompile.Proofs.Snapshot.File

/-!
# Readers do not look ahead

A reader takes a part of its input from the front, and what it makes of the input hangs on that part
alone (`Reader.Local`): whatever stands behind the part is left as it is, and does not matter. So a
reader that takes exactly some bytes fails on any beginning of them that is not the whole, as it
could not have known where to stop (`Reader.Local.eq_none_of_take`). The readers of a header are
made of parts that take a number of bytes which was read before, and are local with these.
-/

namespace Recompile

namespace Wire.Reader

variable {α β : Type}

/-- What the reader makes of an input is decided by the part of it that it takes. -/
def Local (r : Reader α) : Prop :=
  ∀ ⦃input next : Input⦄ ⦃x : α⦄, r input = some (x, next) →
    ∃ used, input.rest = used ++ next.rest ∧
      ∀ rest, r ⟨used ++ rest, input.budget⟩ = some (x, ⟨rest, next.budget⟩)

theorem local_pure (x : α) : (pure x : Reader α).Local := by
  intro input next y h
  obtain ⟨rfl, rfl⟩ := Prod.mk.inj (Option.some.inj h)
  exact ⟨[], rfl, fun rest => rfl⟩

theorem local_failure : (failure : Reader α).Local := by
  intro input next x h
  cases h

theorem Local.bind {r : Reader α} {f : α → Reader β} (hr : r.Local) (hf : ∀ x, (f x).Local) :
    (r >>= f).Local := by
  intro input next y h
  obtain ⟨⟨x, middle⟩, hx, hy⟩ := Option.bind_eq_some_iff.1 h
  obtain ⟨used, hrest, hread⟩ := hr hx
  obtain ⟨used', hrest', hread'⟩ := hf x hy
  refine ⟨used ++ used', by rw [hrest, hrest', List.append_assoc], fun rest => ?_⟩
  rw [List.append_assoc]
  exact Option.bind_eq_some_iff.2 ⟨_, hread _, hread' rest⟩

theorem Local.map {r : Reader α} (hr : r.Local) (f : α → β) : (f <$> r).Local := by
  rw [map_eq_pure_bind]
  exact hr.bind fun x => local_pure (f x)

theorem local_charge (n : Nat) : (charge n).Local := by
  intro input next x h
  unfold charge at h
  split at h
  · next hle =>
    obtain ⟨rfl, rfl⟩ := Prod.mk.inj (Option.some.inj h)
    exact ⟨[], rfl, fun rest => by simp [charge, hle]⟩
  · cases h

theorem local_take (n : Nat) : (take n).Local := by
  intro input next bs h
  unfold take at h
  dsimp only at h
  split at h
  · next hlength =>
    obtain ⟨rfl, rfl⟩ := Prod.mk.inj (Option.some.inj h)
    refine ⟨input.rest.take n, (List.take_append_drop n input.rest).symm, fun rest => ?_⟩
    have hread := takes_take (input.rest.take n) rest input.budget
    rw [hlength] at hread
    exact hread
  · cases h

/-! ## Plain values, texts and digests -/

theorem local_byte : byte.Local := by
  refine (local_charge 1).bind fun _ => (local_take 1).bind fun bs => ?_
  cases bs with
  | nil => exact local_failure
  | cons b bs => exact local_pure b

theorem local_number (width : Nat) : (number width).Local := by
  refine (local_charge width).bind fun _ => (local_take 1).bind fun bs => ?_
  cases bs with
  | nil => exact local_failure
  | cons lead bs =>
    dsimp only
    split
    · exact local_pure _
    split
    · split
      · exact (local_take _).map _
      · exact local_failure
    · exact local_failure

theorem local_text : text.Local := by
  refine (local_number lengthWidth).bind fun n => (local_charge n).bind fun _ =>
    (local_take n).bind fun bs => ?_
  split
  · exact local_pure _
  · exact local_failure

theorem Local.times {item : Reader α} (h : item.Local) (n : Nat) : (times item n).Local := by
  induction n with
  | zero => exact local_pure []
  | succ n ih => exact h.bind fun x => ih.bind fun xs => local_pure (x :: xs)

theorem local_digest : digest.Local := by
  refine (local_byte.times 16).bind fun bs => ?_
  split
  · exact local_pure _
  · exact local_failure

/-! ## Beginnings of what is read -/

/-- A reader fails when the bytes run out that it takes. -/
theorem Local.eq_none_of_take {r : Reader α} (h : r.Local) {bs : Bytes} {cost : Nat} {x : α}
    (hr : r.Takes bs cost x) {k : Nat} (hk : k < bs.length) (budget : Nat) :
    r ⟨bs.take k, budget⟩ = none := by
  cases hread : r ⟨bs.take k, budget⟩ with
  | none => rfl
  | some result =>
    obtain ⟨y, next⟩ := result
    obtain ⟨used, hused, hany⟩ := h hread
    -- with the missing bytes behind it the same part is taken, so those bytes are left
    have hwhole : used ++ (next.rest ++ bs.drop k) = bs ++ [] := by
      rw [← List.append_assoc, ← hused, List.take_append_drop, List.append_nil]
    have hleft := hany (next.rest ++ bs.drop k)
    rw [hwhole, hr] at hleft
    split at hleft
    · have hnil : next.rest ++ bs.drop k = [] :=
        (congrArg (fun result => result.2.rest) (Option.some.inj hleft)).symm
      have hdrop := congrArg List.length (List.append_eq_nil_iff.1 hnil).2
      rw [List.length_drop, List.length_nil] at hdrop
      omega
    · cases hleft

end Wire.Reader

theorem SnapshotFile.Header.local_reader : Header.reader.Local :=
  (Wire.Reader.local_byte.times 4).bind fun _ =>
    (Wire.Reader.local_number Wire.Reader.shortWidth).bind fun _ =>
      Wire.Reader.local_text.bind fun _ => Wire.Reader.local_text.bind fun _ =>
        Wire.Reader.local_digest.bind fun _ => Wire.Reader.local_pure _

end Recompile
