import Mathlib.Data.List.Basic
import Recompile.Text.Utf8

/-!
# Characters and their bytes

The machine reads the bytes of a character as that character (`completes_encode`), so encoded text
is valid (`valid_encode`) and is read back (`decode_encode_chars`). It is valid in pieces: after a
valid beginning, what follows is valid or not by itself (`valid_append_iff`).
-/

namespace Recompile.Utf8

/-! ## One character -/

/-- The machine reads these bytes from this state, and with the last of them a character is
complete. -/
inductive Completes : Option Pending → Bytes → Char → Prop
  | last {state : Option Pending} {b : UInt8} {c : Char} (h : read state b = .complete c) :
      Completes state [b] c
  | more {state : Option Pending} {b : UInt8} {p : Pending} {bs : Bytes} {c : Char}
      (h : read state b = .more p) (hrest : Completes (some p) bs c) : Completes state (b :: bs) c

section Char

variable {state : Option Pending} {bs : Bytes} {c : Char}

theorem Completes.firstInvalidFrom_append (h : Completes state bs c) (start pos : Nat)
    (rest : Bytes) : firstInvalidFrom start pos state (bs ++ rest) =
      firstInvalidFrom (pos + bs.length) (pos + bs.length) none rest := by
  induction h generalizing pos with
  | last h => simp [firstInvalidFrom, h]
  | more h _ ih =>
    simp only [List.cons_append, firstInvalidFrom, h, ih, List.length_cons]
    rw [Nat.add_assoc, Nat.add_comm 1]

theorem Completes.decodeOnto_append (h : Completes state bs c) (done : List Char) (rest : Bytes) :
    decodeOnto done state (bs ++ rest) = decodeOnto (c :: done) none rest := by
  induction h with
  | last h => simp [decodeOnto, h]
  | more h _ ih => simp only [List.cons_append, decodeOnto, h, ih]

end Char

/-- A byte within the bounds carries six more bits of the character. -/
theorem take_ofNat {p : Pending} {n : Nat} (hlow : p.low.toNat ≤ n + 128)
    (hhigh : n + 128 ≤ p.high.toNat) : p.take (UInt8.ofNat (n + 128)) =
      match p.owed with
      | 0 => .complete (Char.ofNat (p.bits * 64 + n))
      | owed + 1 => .more ⟨owed, 0x80, 0xBF, p.bits * 64 + n⟩ := by
  have hn : (UInt8.ofNat (n + 128)).toNat = n + 128 :=
    UInt8.toNat_ofNat_of_lt' (Nat.lt_of_le_of_lt hhigh p.high.toNat_lt)
  have hbounds : p.low ≤ UInt8.ofNat (n + 128) ∧ UInt8.ofNat (n + 128) ≤ p.high := by
    rw [UInt8.le_iff_toNat_le, UInt8.le_iff_toNat_le, hn]
    exact ⟨hlow, hhigh⟩
  unfold Pending.take
  cases p.owed with
  | zero => simp only [if_pos hbounds, hn, Nat.add_sub_cancel]
  | succ owed => simp only [if_pos hbounds, hn, Nat.add_sub_cancel]

theorem lead_two : ∀ n < 32, 2 ≤ n → lead (UInt8.ofNat (n + 192)) = .more ⟨0, 0x80, 0xBF, n⟩ := by
  decide

theorem lead_three : ∀ n < 16, lead (UInt8.ofNat (n + 224)) =
    .more ⟨1, if n = 0 then 0xA0 else 0x80, if n = 13 then 0x9F else 0xBF, n⟩ := by
  decide

theorem lead_four : ∀ n < 5, lead (UInt8.ofNat (n + 240)) =
    .more ⟨2, if n = 0 then 0x90 else 0x80, if n = 4 then 0x8F else 0xBF, n⟩ := by
  decide

theorem lead_ascii {n : Nat} (h : n ≤ 127) : lead (UInt8.ofNat n) = .complete (Char.ofNat n) := by
  have hn : (UInt8.ofNat n).toNat = n :=
    UInt8.toNat_ofNat_of_lt' (Nat.lt_of_le_of_lt h (by decide))
  have hlt : UInt8.ofNat n < 0x80 := by
    rw [UInt8.lt_iff_toNat_lt, hn]
    exact Nat.lt_succ_of_le h
  rw [lead, if_pos hlt, hn]

theorem completes_two {v : Nat} (hlow : 127 < v) (hhigh : v ≤ 2047) :
    Completes none [UInt8.ofNat (v / 64 % 32 + 192), UInt8.ofNat (v % 64 + 128)] (Char.ofNat v) := by
  have hv : v / 64 % 32 * 64 + v % 64 = v := by omega
  refine .more (lead_two _ (by omega) (by omega)) (.last ?_)
  rw [read, take_ofNat (by simp) (by simp; omega)]
  simp only [hv]

/-- The bounds after the lead bytes `E0` and `ED` leave room for all characters of three bytes: the
numbers below `800` take two, and the surrogates are no characters. -/
theorem completes_three {v : Nat} (hlow : 2047 < v) (hhigh : v ≤ 65535)
    (hvalid : v < 0xD800 ∨ 0xDFFF < v) :
    Completes none [UInt8.ofNat (v / 4096 % 16 + 224), UInt8.ofNat (v / 64 % 64 + 128),
      UInt8.ofNat (v % 64 + 128)] (Char.ofNat v) := by
  have hv₁ : v / 4096 % 16 * 64 + v / 64 % 64 = v / 64 := by omega
  have hv₂ : v / 64 * 64 + v % 64 = v := by omega
  refine .more (lead_three _ (by omega)) (.more (p := ⟨0, 0x80, 0xBF, v / 64⟩) ?_ (.last ?_))
  · rw [read, take_ofNat]
    · simp only [hv₁]
    · dsimp only
      split
      · simp
        omega
      · simp
    · dsimp only
      split <;> (simp; omega)
  · rw [read, take_ofNat (by simp) (by simp; omega)]
    simp only [hv₂]

/-- The bounds after `F0` and `F4` leave room for all characters of four bytes: the numbers below
`10000` take fewer, and those above `10FFFF` are no characters. -/
theorem completes_four {v : Nat} (hlow : 65535 < v) (hhigh : v < 0x110000) :
    Completes none [UInt8.ofNat (v / 262144 % 8 + 240), UInt8.ofNat (v / 4096 % 64 + 128),
      UInt8.ofNat (v / 64 % 64 + 128), UInt8.ofNat (v % 64 + 128)] (Char.ofNat v) := by
  have hv₁ : v / 262144 % 8 * 64 + v / 4096 % 64 = v / 4096 := by omega
  have hv₂ : v / 4096 * 64 + v / 64 % 64 = v / 64 := by omega
  have hv₃ : v / 64 * 64 + v % 64 = v := by omega
  refine .more (lead_four _ (by omega)) (.more (p := ⟨1, 0x80, 0xBF, v / 4096⟩) ?_
    (.more (p := ⟨0, 0x80, 0xBF, v / 64⟩) ?_ (.last ?_)))
  · rw [read, take_ofNat]
    · simp only [hv₁]
    · dsimp only
      split
      · simp
        omega
      · simp
    · dsimp only
      split <;> (simp; omega)
  · rw [read, take_ofNat (by simp) (by simp; omega)]
    simp only [hv₂]
  · rw [read, take_ofNat (by simp) (by simp; omega)]
    simp only [hv₃]

theorem completes_encode (c : Char) : Completes none (String.utf8EncodeChar c) c := by
  have hvalid : c.val.toNat < 0xD800 ∨ 0xDFFF < c.val.toNat ∧ c.val.toNat < 0x110000 := c.valid
  suffices h : Completes none (String.utf8EncodeChar c) (Char.ofNat c.val.toNat) by
    rwa [show Char.ofNat c.val.toNat = c from Char.ofNat_toNat c] at h
  unfold String.utf8EncodeChar
  generalize c.val.toNat = v at hvalid
  dsimp only
  split
  · next h => exact .last (lead_ascii h)
  split
  · next h₁ h₂ => exact completes_two (Nat.lt_of_not_le h₁) h₂
  split
  · next h₁ h₂ => exact completes_three (Nat.lt_of_not_le h₁) h₂ (hvalid.imp_right And.left)
  · next h => exact completes_four (Nat.lt_of_not_le h) (by omega)

/-! ## Texts -/

theorem encode_cons (c : Char) (cs : List Char) :
    encode (c :: cs) = String.utf8EncodeChar c ++ encode cs := rfl

theorem encode_append (cs ds : List Char) : encode (cs ++ ds) = encode cs ++ encode ds :=
  List.flatMap_append

theorem valid_encode (cs : List Char) : Valid (encode cs) := by
  have hall : ∀ pos, firstInvalidFrom pos pos none (encode cs) = none := by
    induction cs with
    | nil => exact fun _ => rfl
    | cons c cs ih =>
      intro pos
      rw [encode_cons, (completes_encode c).firstInvalidFrom_append]
      exact ih _
  exact hall 0

theorem decodeOnto_encode (done cs : List Char) :
    decodeOnto done none (encode cs) = done.reverse ++ cs := by
  induction cs generalizing done with
  | nil => simp [encode, decodeOnto]
  | cons c cs ih =>
    rw [encode_cons, (completes_encode c).decodeOnto_append, ih]
    simp

theorem decode_encode_chars (cs : List Char) : decode (encode cs) = cs := decodeOnto_encode [] cs

theorem valid_ofString (s : String) : Valid (ofString s) := valid_encode s.toList

/-- A text is read back from its bytes. -/
theorem ofList_decode_ofString (s : String) : String.ofList (decode (ofString s)) = s := by
  rw [ofString, decode_encode_chars, String.ofList_toList]

/-! ## Pieces of a text -/

/-- Whether all is valid does not depend on where the counting begins. -/
theorem firstInvalidFrom_eq_none_congr (bs : Bytes) (start pos start' pos' : Nat)
    (state : Option Pending) : firstInvalidFrom start pos state bs = none ↔
      firstInvalidFrom start' pos' state bs = none := by
  induction bs generalizing start pos start' pos' state with
  | nil => simp [firstInvalidFrom]
  | cons b bs ih =>
    simp only [firstInvalidFrom]
    split
    · exact ih ..
    · exact ih ..
    · simp

theorem firstInvalidFrom_append {start pos : Nat} {state : Option Pending} {as : Bytes}
    (h : firstInvalidFrom start pos state as = none) (bs : Bytes) :
    firstInvalidFrom start pos state (as ++ bs) = none ↔ Valid bs := by
  induction as generalizing start pos state with
  | nil =>
    obtain rfl : state = none := by simpa [firstInvalidFrom] using h
    exact firstInvalidFrom_eq_none_congr bs ..
  | cons a as ih =>
    simp only [List.cons_append, firstInvalidFrom] at h ⊢
    split
    · next hread => exact ih (by simpa only [hread] using h)
    · next hread => exact ih (by simpa only [hread] using h)
    · next hread => simp [hread] at h

/-- After a valid beginning the rest is valid by itself. -/
theorem valid_append_iff {as : Bytes} (h : Valid as) (bs : Bytes) :
    Valid (as ++ bs) ↔ Valid bs :=
  firstInvalidFrom_append h bs

end Recompile.Utf8
