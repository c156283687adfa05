import Mathlib.Data.List.Infix
import Recompile.Proofs.Text.Utf8

/-!
# ASCII characters in encoded text

A byte below `80` is a character by itself and part of no other one. So ASCII characters that stand
side by side in the bytes of a text stand side by side in the text (`exists_of_encode_eq`), and what
is looked for byte by byte is found where it is in the text. When bytes are decoded, an ASCII byte
in front of them comes out as its character (`decode_cons_ascii`).
-/

namespace Recompile.Utf8

theorem utf8EncodeChar_of_ascii {c : Char} (h : c.toNat < 128) :
    String.utf8EncodeChar c = [UInt8.ofNat c.toNat] := by
  have hle : c.val.toNat ≤ 127 := Nat.le_of_lt_succ h
  simp only [String.utf8EncodeChar, if_pos hle]
  rfl

/-- A character that is not ASCII has no ASCII byte. -/
theorem le_of_mem_utf8EncodeChar {c : Char} (h : 128 ≤ c.toNat) {b : UInt8}
    (hb : b ∈ String.utf8EncodeChar c) : 0x80 ≤ b := by
  have hlt : ¬ c.val.toNat ≤ 127 := Nat.not_le.2 h
  have hcont : ∀ n, 128 ≤ n → n < 256 → 0x80 ≤ UInt8.ofNat n := by
    intro n hn hn'
    rw [UInt8.le_iff_toNat_le, UInt8.toNat_ofNat_of_lt' hn']
    exact hn
  simp only [String.utf8EncodeChar, if_neg hlt] at hb
  generalize c.val.toNat = v at hb
  split_ifs at hb <;>
    (simp only [List.mem_cons, List.not_mem_nil, or_false] at hb
     rcases hb with rfl | rfl | rfl | rfl <;> exact hcont _ (by omega) (by omega))

theorem encode_eq_nil {cs : List Char} : encode cs = [] ↔ cs = [] := by
  refine ⟨fun h => ?_, fun h => h ▸ rfl⟩
  rw [← decode_encode_chars cs, h]
  rfl

/-- An ASCII byte in encoded text is a character, with encoded text before it and behind it. -/
theorem exists_of_encode_eq_cons {cs : List Char} {us ws : Bytes} {b : UInt8} (hb : b < 0x80)
    (h : encode cs = us ++ b :: ws) :
    ∃ fs gs, cs = fs ++ Char.ofNat b.toNat :: gs ∧ us = encode fs ∧ ws = encode gs := by
  induction cs generalizing us with
  | nil => exact absurd h (by simp [encode])
  | cons c cs ih =>
    rw [encode_cons] at h
    by_cases hascii : c.toNat < 128
    · rw [utf8EncodeChar_of_ascii hascii, List.singleton_append] at h
      cases us with
      | nil =>
        obtain ⟨rfl, rfl⟩ := List.cons.inj h
        refine ⟨[], cs, ?_, rfl, rfl⟩
        rw [UInt8.toNat_ofNat_of_lt' (Nat.lt_trans hascii (by decide)), Char.ofNat_toNat]
        rfl
      | cons u us =>
        obtain ⟨rfl, hrest⟩ := List.cons.inj h
        obtain ⟨fs, gs, rfl, rfl, rfl⟩ := ih hrest
        exact ⟨c :: fs, gs, rfl, by rw [encode_cons, utf8EncodeChar_of_ascii hascii]; rfl, rfl⟩
    · -- the byte is none of the first character
      obtain ⟨vs, rfl, hrest⟩ : ∃ vs, us = String.utf8EncodeChar c ++ vs ∧
          encode cs = vs ++ b :: ws := by
        rcases List.append_eq_append_iff.1 h with hafter | ⟨vs, hchar, hrest⟩
        · exact hafter
        · cases vs with
          | nil => exact ⟨[], by simpa using hchar.symm, hrest.symm⟩
          | cons b' vs =>
            obtain ⟨rfl, -⟩ := List.cons.inj hrest
            have hmem : b ∈ String.utf8EncodeChar c :=
              hchar ▸ List.mem_append_right us List.mem_cons_self
            exact absurd hb (UInt8.not_lt.2 (le_of_mem_utf8EncodeChar (Nat.not_lt.1 hascii) hmem))
      obtain ⟨fs, gs, rfl, rfl, rfl⟩ := ih hrest
      exact ⟨c :: fs, gs, rfl, rfl, rfl⟩

/-- ASCII characters that stand side by side in encoded text do so in the text. -/
theorem exists_of_encode_eq {cs pat : List Char} {us ws : Bytes} (hne : pat ≠ [])
    (hpat : ∀ c ∈ pat, c.toNat < 128) (h : encode cs = us ++ (encode pat ++ ws)) :
    ∃ fs gs, cs = fs ++ (pat ++ gs) ∧ us = encode fs ∧ ws = encode gs := by
  induction pat generalizing cs us with
  | nil => exact absurd rfl hne
  | cons c pat ih =>
    have hc : c.toNat < 128 := hpat c List.mem_cons_self
    have hbyte : (UInt8.ofNat c.toNat).toNat = c.toNat :=
      UInt8.toNat_ofNat_of_lt' (Nat.lt_trans hc (by decide))
    have hlt : UInt8.ofNat c.toNat < 0x80 := by
      rw [UInt8.lt_iff_toNat_lt, hbyte]
      exact hc
    rw [encode_cons, utf8EncodeChar_of_ascii hc] at h
    obtain ⟨fs, gs, rfl, rfl, hrest⟩ := exists_of_encode_eq_cons hlt h
    rw [hbyte, Char.ofNat_toNat]
    by_cases hnil : pat = []
    · subst hnil
      exact ⟨fs, gs, rfl, rfl, hrest⟩
    · obtain ⟨fs', gs', rfl, hfs, rfl⟩ :=
        @ih gs [] hnil (fun d hd => hpat d (List.mem_cons_of_mem c hd)) hrest.symm
      obtain rfl : fs' = [] := encode_eq_nil.1 hfs.symm
      exact ⟨fs, gs', rfl, rfl, rfl⟩

theorem infix_of_encode {cs pat : List Char} (hne : pat ≠ []) (hpat : ∀ c ∈ pat, c.toNat < 128)
    (h : encode pat <:+: encode cs) : pat <:+: cs := by
  obtain ⟨us, ws, h⟩ := h
  obtain ⟨fs, gs, rfl, -, -⟩ := exists_of_encode_eq hne hpat (h.symm.trans (List.append_assoc ..))
  exact ⟨fs, gs, List.append_assoc ..⟩

theorem suffix_of_encode {cs pat : List Char} (hne : pat ≠ []) (hpat : ∀ c ∈ pat, c.toNat < 128)
    (h : encode pat <:+ encode cs) : pat <:+ cs := by
  obtain ⟨us, h⟩ := h
  have hends : encode cs = us ++ (encode pat ++ []) := by rw [List.append_nil, h]
  obtain ⟨fs, gs, rfl, -, hgs⟩ := exists_of_encode_eq hne hpat hends
  obtain rfl : gs = [] := encode_eq_nil.1 hgs.symm
  exact ⟨fs, by simp⟩

theorem mem_of_encode {cs : List Char} {c : Char} (hc : c.toNat < 128)
    (h : UInt8.ofNat c.toNat ∈ encode cs) : c ∈ cs := by
  have hchar : [UInt8.ofNat c.toNat] = encode [c] := by simp [encode, utf8EncodeChar_of_ascii hc]
  have hinfix : [c] <:+: cs := by
    refine infix_of_encode (List.cons_ne_nil c []) (by simpa using hc) ?_
    rwa [← hchar, List.singleton_infix_iff]
  exact (List.singleton_infix_iff ..).1 hinfix

/-! ## Decoding -/

theorem decodeOnto_eq (done : List Char) (state : Option Pending) (bs : Bytes) :
    decodeOnto done state bs = done.reverse ++ decodeOnto [] state bs := by
  induction bs generalizing done state with
  | nil =>
    unfold decodeOnto
    split_ifs <;> simp
  | cons b bs ih =>
    -- Every character read is put on those before it, so both sides put the same ones on.
    unfold decodeOnto
    split
    · rw [ih, ih [_]]
      simp
    · exact ih done _
    · split
      · rw [ih, ih [_]]
        simp
      · rw [ih, ih [_, _]]
        simp
      · rw [ih, ih [_]]
        simp
      · rw [ih, ih [_, _]]
        simp

theorem decode_of_completes {cs : Bytes} {c : Char} (h : Completes none cs c) (bs : Bytes) :
    decode (cs ++ bs) = c :: decode bs := by
  rw [decode, h.decodeOnto_append, decodeOnto_eq]
  rfl

theorem decode_cons_ascii {b : UInt8} (hb : b < 0x80) (bs : Bytes) :
    decode (b :: bs) = Char.ofNat b.toNat :: decode bs :=
  decode_of_completes (.last (if_pos hb)) bs

end Recompile.Utf8
