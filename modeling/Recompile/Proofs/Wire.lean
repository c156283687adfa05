import Recompile.Wire
import Recompile.Proofs.Bytes
import Recompile.Proofs.Text.Utf8

/-!
# Reading what was written

`Reader.Takes r bs cost x` says all that a reader does on bytes that were written for it: if the
budget covers the cost it gives `x` and leaves what follows, and else it fails. Sequences of readers
add up their bytes and their costs (`Reader.Takes.bind`), so every writer and its reader are
compared by one such lemma. The cost is not the number of the bytes: a length costs eight, and most
lengths are written in one or three.
-/

namespace Recompile.Wire

namespace Reader

/-- The reader takes these bytes from the front of any input for this cost, and gives `x`. -/
def Takes {α : Type} (r : Reader α) (bs : Bytes) (cost : Nat) (x : α) : Prop :=
  ∀ rest budget, r ⟨bs ++ rest, budget⟩ =
    if cost ≤ budget then some (x, ⟨rest, budget - cost⟩) else none

variable {α β : Type}

theorem takes_pure (x : α) : (pure x : Reader α).Takes [] 0 x := fun _ _ => rfl

theorem Takes.bind {r : Reader α} {f : α → Reader β} {bs bs' : Bytes} {cost cost' : Nat} {x : α}
    {y : β} (hr : r.Takes bs cost x) (hf : (f x).Takes bs' cost' y) :
    (r >>= f).Takes (bs ++ bs') (cost + cost') y := by
  intro rest budget
  change (r ⟨bs ++ bs' ++ rest, budget⟩ >>= fun p => f p.1 p.2) = _
  rw [List.append_assoc, hr]
  by_cases h : cost ≤ budget
  · rw [if_pos h]
    change f x ⟨bs' ++ rest, budget - cost⟩ = _
    rw [hf]
    have hiff : cost' ≤ budget - cost ↔ cost + cost' ≤ budget := by omega
    simp only [hiff, Nat.sub_sub]
  · have h' : ¬ cost + cost' ≤ budget := by omega
    rw [if_neg h, if_neg h']
    rfl

/-- The last of a sequence of readers. -/
theorem Takes.last {r : Reader α} {f : α → Reader β} {bs : Bytes} {cost : Nat} {x : α} {y : β}
    (hr : r.Takes bs cost x) (hf : f x = pure y) : (r >>= f).Takes bs cost y := by
  have h := hr.bind (f := f) (hf ▸ takes_pure y)
  rwa [List.append_nil, Nat.add_zero] at h

theorem Takes.map {r : Reader α} {bs : Bytes} {cost : Nat} {x : α} (hr : r.Takes bs cost x)
    (f : α → β) : (f <$> r).Takes bs cost (f x) := by
  rw [map_eq_pure_bind]
  exact hr.last rfl

theorem Takes.cast {r : Reader α} {bs bs' : Bytes} {cost cost' : Nat} {x : α}
    (h : r.Takes bs cost x) (hbs : bs = bs') (hcost : cost = cost') : r.Takes bs' cost' x := by
  subst hbs hcost
  exact h

/-- A reader that is given only its own bytes. -/
theorem Takes.run_eq {r : Reader α} {bs : Bytes} {cost : Nat} {x : α} (h : r.Takes bs cost x)
    (budget : Nat) : r.run budget bs = if cost ≤ budget then some x else none := by
  have hread := h [] budget
  rw [List.append_nil] at hread
  rw [run, hread]
  split <;> rfl

/-! ## Plain values -/

/-- A reader that costs nothing by itself, behind a claim. -/
theorem Takes.charged {r : Reader α} {bs : Bytes} {x : α} (h : r.Takes bs 0 x) (n : Nat) :
    (do charge n; r).Takes bs n x := by
  have hcharge : (charge n).Takes [] n () := fun _ _ => rfl
  exact (hcharge.bind (f := fun _ => r) h).cast (List.nil_append bs) (Nat.add_zero n)

theorem takes_take (bs : Bytes) : (take bs.length).Takes bs 0 bs := by
  intro rest budget
  simp [take]

theorem takes_byte (b : UInt8) : byte.Takes [b] 1 b := by
  refine Takes.charged ((takes_take [b]).last ?_) 1
  rfl

theorem takes_bool (b : Bool) : bool.Takes (Wire.bool b) 1 b := by
  cases b with
  | false => exact (takes_byte 0).last rfl
  | true => exact (takes_byte 1).last rfl

/-- A number that a byte of its own holds, in any width. -/
theorem takes_number_byte {n : Nat} (h : n < 251) (width : Nat) :
    (number width).Takes (Wire.number n) width n := by
  have hn : (UInt8.ofNat n).toNat = n :=
    UInt8.toNat_ofNat_of_lt' (Nat.lt_trans h (by decide))
  have hlt : UInt8.ofNat n < 251 := by
    rw [UInt8.lt_iff_toNat_lt, hn]
    exact h
  rw [Wire.number, if_pos h]
  refine Takes.charged ((takes_take [UInt8.ofNat n]).last ?_) width
  dsimp only
  rw [if_pos hlt, hn]

/-- A number behind a mark, little-endian in the number of bytes that the mark stands for. -/
theorem takes_number_marked {lead : UInt8} {tail : Nat} (hlead : ¬ lead < 251)
    (htail : tailLength? lead = some tail) {n width : Nat} (hn : n < 256 ^ tail)
    (hwidth : tail ≤ width) :
    (number width).Takes (lead :: Bytes.littleEndian tail n) width n := by
  refine Takes.charged (((takes_take [lead]).bind ?_).cast rfl (Nat.zero_add 0)) width
  dsimp only
  rw [if_neg hlead, htail]
  dsimp only
  rw [if_pos hwidth]
  have hread := (takes_take (Bytes.littleEndian tail n)).map Bytes.ofLittleEndian
  rwa [Bytes.length_littleEndian, Bytes.ofLittleEndian_littleEndian, Nat.mod_eq_of_lt hn] at hread

/-- A number is read back in the width of a length. -/
theorem takes_length {n : Nat} (h : n < 2 ^ 64) : length.Takes (Wire.number n) lengthWidth n := by
  by_cases h₁ : n < 251
  · exact takes_number_byte h₁ lengthWidth
  rw [Wire.number, if_neg h₁]
  split
  · next h₂ => exact takes_number_marked (by decide) rfl h₂ (by decide)
  split
  · next h₂ => exact takes_number_marked (by decide) rfl h₂ (by decide)
  · exact takes_number_marked (by decide) rfl h (by decide)

/-! ## Texts and lists -/

theorem length_number_pos (n : Nat) : 0 < (Wire.number n).length := by
  rw [Wire.number]
  split
  · exact Nat.zero_lt_one
  split
  · exact Nat.succ_pos _
  split
  · exact Nat.succ_pos _
  · exact Nat.succ_pos _

theorem takes_text {s : String} (h : (Wire.text s).length < 2 ^ 64) :
    text.Takes (Wire.text s) (lengthWidth + (Utf8.ofString s).length) s := by
  have hlength : (Utf8.ofString s).length < 2 ^ 64 :=
    Nat.lt_of_le_of_lt (by simp [Wire.text]) h
  refine (takes_length hlength).bind (Takes.charged ((takes_take _).last ?_) _)
  rw [if_pos (Utf8.valid_ofString s), Utf8.ofList_decode_ofString]

variable {item : Reader α} {write : α → Bytes} {cost : α → Nat}

theorem takes_times {xs : List α} (h : ∀ x ∈ xs, item.Takes (write x) (cost x) x) :
    (times item xs.length).Takes (xs.flatMap write) (xs.map cost).sum xs := by
  induction xs with
  | nil => exact takes_pure []
  | cons x xs ih =>
    have hx := h x List.mem_cons_self
    have hxs := ih fun y hy => h y (List.mem_cons_of_mem x hy)
    exact hx.bind (hxs.last rfl)

theorem takes_bytes (bs : Bytes) : (times byte bs.length).Takes bs bs.length bs := by
  have hall : (times byte bs.length).Takes (bs.flatMap fun b => [b]) (bs.map fun _ => 1).sum bs :=
    takes_times fun b _ => takes_byte b
  exact hall.cast (by simp) (by simp)

theorem length_le_flatMap {xs : List α} (h : ∀ x ∈ xs, 0 < (write x).length) :
    xs.length ≤ (xs.flatMap write).length := by
  induction xs with
  | nil => exact Nat.zero_le _
  | cons x xs ih =>
    have hx := h x List.mem_cons_self
    have hxs := ih fun y hy => h y (List.mem_cons_of_mem x hy)
    simp only [List.length_cons, List.flatMap_cons, List.length_append]
    omega

theorem length_le_of_mem {xs : List α} {x : α} (h : x ∈ xs) :
    (write x).length ≤ (Wire.list write xs).length := by
  obtain ⟨before, after, rfl⟩ := List.append_of_mem h
  simp only [Wire.list, List.flatMap_append, List.flatMap_cons, List.length_append]
  omega

/-- A list whose items are read back, each from some bytes, is read back. -/
theorem takes_list (item : Reader α) (xs : List α) (hlist : (Wire.list write xs).length < 2 ^ 64)
    (hpos : ∀ x ∈ xs, 0 < (write x).length)
    (h : ∀ x ∈ xs, (write x).length < 2 ^ 64 → item.Takes (write x) (cost x) x) :
    (list item).Takes (Wire.list write xs) (lengthWidth + (xs.map cost).sum) xs := by
  have hlength : xs.length < 2 ^ 64 := by
    have hflat := length_le_flatMap hpos
    simp only [Wire.list, List.length_append] at hlist
    omega
  have hitems : ∀ x ∈ xs, item.Takes (write x) (cost x) x :=
    fun x hx => h x hx (Nat.lt_of_le_of_lt (length_le_of_mem hx) hlist)
  exact (takes_length hlength).bind (takes_times hitems)

end Reader

end Recompile.Wire
