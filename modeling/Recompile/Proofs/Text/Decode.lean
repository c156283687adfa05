import Recompile.Proofs.Text.Ascii

/-!
# Valid bytes are encoded text

Every character has one spelling in bytes: what the machine reads as a character is the character's
encoding (`Completes.utf8EncodeChar_eq`), as its bounds rule out overlong forms. So a valid byte
string is the encoding of the text that it is decoded to (`encode_decode`), and nothing is lost in
between: bytes are text when a text is encoded so (`text?_eq_some_iff`).
-/

namespace Recompile.Utf8

/-! ## One step of the machine, read backwards -/

section Step

variable {p q : Pending} {b : UInt8} {c : Char}

theorem lead_eq_complete (h : lead b = .complete c) : b.toNat < 0x80 ∧ c = Char.ofNat b.toNat := by
  unfold lead at h
  split_ifs at h with hb
  exact ⟨UInt8.lt_iff_toNat_lt.1 hb, (Reading.complete.inj h).symm⟩

theorem take_eq_complete (h : p.take b = .complete c) :
    p.owed = 0 ∧ p.low.toNat ≤ b.toNat ∧ b.toNat ≤ p.high.toNat ∧
      c = Char.ofNat (p.bits * 64 + (b.toNat - 0x80)) := by
  unfold Pending.take at h
  split_ifs at h with hb
  dsimp only at h
  split at h
  · next howed =>
    exact ⟨howed, UInt8.le_iff_toNat_le.1 hb.1, UInt8.le_iff_toNat_le.1 hb.2,
      (Reading.complete.inj h).symm⟩
  · cases h

theorem take_eq_more (h : p.take b = .more q) :
    p.low.toNat ≤ b.toNat ∧ b.toNat ≤ p.high.toNat ∧ ∃ owed, p.owed = owed + 1 ∧
      q = ⟨owed, 0x80, 0xBF, p.bits * 64 + (b.toNat - 0x80)⟩ := by
  unfold Pending.take at h
  split_ifs at h with hb
  dsimp only at h
  split at h
  · cases h
  · next owed howed =>
    exact ⟨UInt8.le_iff_toNat_le.1 hb.1, UInt8.le_iff_toNat_le.1 hb.2, owed, howed,
      (Reading.more.inj h).symm⟩

/-- What a lead byte announces: how many bytes follow it, and that the next one lies within the
bounds that leave no overlong form and no surrogate. -/
inductive Leads (b : UInt8) (p : Pending) : Prop
  | two (hlow : 0xC2 ≤ b.toNat) (hhigh : b.toNat < 0xE0) (hp : p = ⟨0, 0x80, 0xBF, b.toNat - 0xC0⟩)
  | three (hlow : 0xE0 ≤ b.toNat) (hhigh : b.toNat < 0xF0) (howed : p.owed = 1)
      (hbits : p.bits = b.toNat - 0xE0) (hp : 0x80 ≤ p.low.toNat ∧ p.high.toNat ≤ 0xBF)
      (hoverlong : b.toNat = 0xE0 → 0xA0 ≤ p.low.toNat)
      (hsurrogate : b.toNat = 0xED → p.high.toNat ≤ 0x9F)
  | four (hlow : 0xF0 ≤ b.toNat) (hhigh : b.toNat < 0xF5) (howed : p.owed = 2)
      (hbits : p.bits = b.toNat - 0xF0) (hp : 0x80 ≤ p.low.toNat ∧ p.high.toNat ≤ 0xBF)
      (hoverlong : b.toNat = 0xF0 → 0x90 ≤ p.low.toNat)
      (hlast : b.toNat = 0xF4 → p.high.toNat ≤ 0x8F)

theorem leads_of_lead (h : lead b = .more p) : Leads b p := by
  have hlt (n : UInt8) : b < n ↔ b.toNat < n.toNat := UInt8.lt_iff_toNat_lt
  have heq (n : UInt8) : b = n ↔ b.toNat = n.toNat := UInt8.toNat_inj.symm
  unfold lead at h
  simp only [hlt, heq, UInt8.reduceToNat] at h
  split_ifs at h with h₁ h₂ h₃ h₄ h₅ h₆ h₇ h₈ h₉ <;> cases h
  · exact .two (by omega) h₃ rfl
  · exact .three (by omega) (by omega) rfl (by simp [h₄]) (by simp) (by simp) (by simp [h₄])
  · exact .three (by omega) (by omega) rfl (by simp [h₅]) (by simp) (by simp [h₅]) (by simp)
  · exact .three (by omega) h₆ rfl rfl (by simp) (by omega) (by omega)
  · exact .four (by omega) (by omega) rfl (by simp [h₇]) (by simp) (by simp) (by simp [h₇])
  · exact .four (by omega) (by omega) rfl rfl (by simp) (by omega) (by omega)
  · exact .four (by omega) (by omega) rfl (by simp [h₉]) (by simp) (by simp [h₉]) (by simp)

end Step

/-! ## One character -/

section Char

variable {bs : Bytes} {c : Char} {p : Pending} {v : Nat}

/-- The last byte that a character owes. -/
theorem Completes.of_owed_zero (h : Completes (some p) bs c) (howed : p.owed = 0) :
    ∃ b : UInt8, bs = [b] ∧ p.low.toNat ≤ b.toNat ∧ b.toNat ≤ p.high.toNat ∧
      c = Char.ofNat (p.bits * 64 + (b.toNat - 0x80)) := by
  cases h with
  | last h =>
    obtain ⟨-, hlow, hhigh, hc⟩ := take_eq_complete h
    exact ⟨_, rfl, hlow, hhigh, hc⟩
  | more h _ =>
    obtain ⟨-, -, owed, hmore, -⟩ := take_eq_more h
    exact absurd (hmore.symm.trans howed) (Nat.succ_ne_zero owed)

/-- A byte that is not the last one that a character owes. -/
theorem Completes.of_owed_succ (h : Completes (some p) bs c) {owed : Nat}
    (howed : p.owed = owed + 1) :
    ∃ (b : UInt8) (rest : Bytes), bs = b :: rest ∧ p.low.toNat ≤ b.toNat ∧
      b.toNat ≤ p.high.toNat ∧
      Completes (some ⟨owed, 0x80, 0xBF, p.bits * 64 + (b.toNat - 0x80)⟩) rest c := by
  cases h with
  | last h =>
    obtain ⟨hzero, -⟩ := take_eq_complete h
    exact absurd (howed.symm.trans hzero) (Nat.succ_ne_zero owed)
  | more h hrest =>
    obtain ⟨hlow, hhigh, owed', howed', rfl⟩ := take_eq_more h
    obtain rfl : owed' = owed := Nat.succ.inj (howed'.symm.trans howed)
    exact ⟨_, _, rfl, hlow, hhigh, hrest⟩

theorem utf8EncodeChar_ofNat (h : v < 0xD800 ∨ 0xDFFF < v ∧ v < 0x110000) :
    String.utf8EncodeChar (Char.ofNat v) =
      if v ≤ 127 then [UInt8.ofNat v]
      else if v ≤ 2047 then [UInt8.ofNat (v / 64 % 32 + 192), UInt8.ofNat (v % 64 + 128)]
      else if v ≤ 65535 then [UInt8.ofNat (v / 4096 % 16 + 224), UInt8.ofNat (v / 64 % 64 + 128),
        UInt8.ofNat (v % 64 + 128)]
      else [UInt8.ofNat (v / 262144 % 8 + 240), UInt8.ofNat (v / 4096 % 64 + 128),
        UInt8.ofNat (v / 64 % 64 + 128), UInt8.ofNat (v % 64 + 128)] := by
  have hvalid : v.isValidChar := h
  have hv : (Char.ofNat v).val.toNat = v := by
    rw [Char.ofNat, dif_pos hvalid]
    rfl
  rw [String.utf8EncodeChar, hv]

theorem ofNat_eq {b : UInt8} {n : Nat} (h : n = b.toNat) : UInt8.ofNat n = b := by
  rw [h, UInt8.ofNat_toNat]

/-- The bytes that are read as a character are its encoding. -/
theorem Completes.utf8EncodeChar_eq (h : Completes none bs c) : String.utf8EncodeChar c = bs := by
  cases h with
  | @last _ b _ h =>
    obtain ⟨hb, rfl⟩ := lead_eq_complete h
    rw [utf8EncodeChar_ofNat (by omega), if_pos (by omega), UInt8.ofNat_toNat]
  | @more _ b p rest _ h hrest =>
    cases leads_of_lead h with
    | two hlow hhigh hp =>
      subst hp
      obtain ⟨b₁, rfl, hlow₁, hhigh₁, hc⟩ := hrest.of_owed_zero rfl
      simp only [UInt8.reduceToNat] at hlow₁ hhigh₁
      rw [hc]
      generalize hv : (b.toNat - 0xC0) * 64 + (b₁.toNat - 0x80) = v
      rw [utf8EncodeChar_ofNat (v := v) (by omega), if_neg (by omega), if_pos (by omega),
        ofNat_eq (b := b) (by omega), ofNat_eq (b := b₁) (by omega)]
    | three hlow hhigh howed hbits hp hoverlong hsurrogate =>
      obtain ⟨b₁, rest, rfl, hlow₁, hhigh₁, hrest⟩ := hrest.of_owed_succ howed
      obtain ⟨b₂, rfl, hlow₂, hhigh₂, hc⟩ := hrest.of_owed_zero rfl
      simp only [UInt8.reduceToNat] at hlow₂ hhigh₂
      rw [hc, hbits]
      generalize hv : ((b.toNat - 0xE0) * 64 + (b₁.toNat - 0x80)) * 64 + (b₂.toNat - 0x80) = v
      rw [utf8EncodeChar_ofNat (v := v) (by omega), if_neg (by omega), if_neg (by omega),
        if_pos (by omega), ofNat_eq (b := b) (by omega), ofNat_eq (b := b₁) (by omega),
        ofNat_eq (b := b₂) (by omega)]
    | four hlow hhigh howed hbits hp hoverlong hlast =>
      obtain ⟨b₁, rest, rfl, hlow₁, hhigh₁, hrest⟩ := hrest.of_owed_succ howed
      obtain ⟨b₂, rest, rfl, hlow₂, hhigh₂, hrest⟩ := hrest.of_owed_succ rfl
      obtain ⟨b₃, rfl, hlow₃, hhigh₃, hc⟩ := hrest.of_owed_zero rfl
      simp only [UInt8.reduceToNat] at hlow₂ hhigh₂ hlow₃ hhigh₃
      rw [hc, hbits]
      generalize hv : (((b.toNat - 0xF0) * 64 + (b₁.toNat - 0x80)) * 64 + (b₂.toNat - 0x80)) * 64 +
        (b₃.toNat - 0x80) = v
      rw [utf8EncodeChar_ofNat (v := v) (by omega), if_neg (by omega), if_neg (by omega),
        if_neg (by omega), ofNat_eq (b := b) (by omega), ofNat_eq (b := b₁) (by omega),
        ofNat_eq (b := b₂) (by omega), ofNat_eq (b := b₃) (by omega)]

end Char

/-! ## Texts -/

/-- What is valid from some state on begins with the rest of a character. -/
theorem exists_completes {start pos : Nat} {state : Option Pending} {bs : Bytes}
    (h : firstInvalidFrom start pos state bs = none) (hne : bs ≠ []) :
    ∃ cs c rest, bs = cs ++ rest ∧ Completes state cs c ∧ Valid rest := by
  induction bs generalizing start pos state with
  | nil => exact absurd rfl hne
  | cons b bs ih =>
    simp only [firstInvalidFrom] at h
    split at h
    · next c hread =>
      exact ⟨[b], c, bs, rfl, .last hread, (firstInvalidFrom_eq_none_congr ..).1 h⟩
    · next p hread =>
      have hbs : bs ≠ [] := by
        rintro rfl
        cases h
      obtain ⟨cs, c, rest, rfl, hcs, hrest⟩ := ih h hbs
      exact ⟨b :: cs, c, rest, rfl, .more hread hcs, hrest⟩
    · cases h

/-- A valid byte string is the encoding of the text that it is decoded to. -/
theorem encode_decode {bs : Bytes} (h : Valid bs) : encode (decode bs) = bs := by
  induction hn : bs.length using Nat.strong_induction_on generalizing bs with
  | h n ih =>
    by_cases hne : bs = []
    · subst hne
      rfl
    · obtain ⟨cs, c, rest, rfl, hcs, hrest⟩ := exists_completes h hne
      have hlength : rest.length < n := by
        have hpos : cs ≠ [] := by cases hcs <;> exact List.cons_ne_nil _ _
        have := List.length_pos_of_ne_nil hpos
        rw [← hn, List.length_append]
        omega
      rw [decode_of_completes hcs, encode_cons, hcs.utf8EncodeChar_eq, ih _ hlength hrest rfl]

/-- Bytes are text when they are those of a text, and then of one only. -/
theorem text?_eq_some_iff {bs : Bytes} {s : String} : text? bs = some s ↔ bs = ofString s := by
  unfold text?
  constructor
  · intro h
    split_ifs at h with hvalid
    rw [← Option.some.inj h, ofString, String.toList_ofList, encode_decode hvalid]
  · rintro rfl
    rw [if_pos (valid_ofString s), ofList_decode_ofString]

@[simp] theorem text?_ofString (s : String) : text? (ofString s) = some s :=
  text?_eq_some_iff.2 rfl

theorem text?_of_not_valid {bs : Bytes} (h : ¬ Valid bs) : text? bs = none := if_neg h

theorem ofString_injective : Function.Injective ofString := fun a _ h =>
  Option.some.inj ((text?_ofString a).symm.trans (text?_eq_some_iff.2 h))

end Recompile.Utf8
