import Mathlib.Algebra.Ring.Nat
import Recompile.Bytes

/-!
# Little-endian numbers and their bytes

Reading undoes writing for every number that fits the width (`ofLittleEndian_littleEndian`), and
writing undoes reading for every byte string (`littleEndian_ofLittleEndian`).
-/

namespace Recompile.Bytes

theorem ofLittleEndian_littleEndian (w n : Nat) :
    ofLittleEndian (littleEndian w n) = n % 256 ^ w := by
  induction w generalizing n with
  | zero => simp [littleEndian, ofLittleEndian, Nat.mod_one]
  | succ w ih =>
    have hn : (UInt8.ofNat n).toNat = n % 256 := UInt8.toNat_ofNat'
    simp only [littleEndian, ofLittleEndian, ih, hn]
    rw [Nat.pow_succ', Nat.mod_mul]

/-- The byte strings of a given length are the numbers below `256 ^ length`. -/
theorem littleEndian_ofLittleEndian (bs : Bytes) :
    littleEndian bs.length (ofLittleEndian bs) = bs := by
  induction bs with
  | nil => rfl
  | cons b rest ih =>
    have hb : b.toNat < 256 := b.toNat_lt
    simp only [List.length_cons, littleEndian, ofLittleEndian]
    rw [Nat.add_mul_div_left _ _ (by decide), Nat.div_eq_of_lt hb, Nat.zero_add, ih]
    congr 1
    apply UInt8.toNat.inj
    simp

/-- Byte strings of one length are told apart by their numbers. -/
theorem ofLittleEndian_inj {bs bs' : Bytes} (hlength : bs.length = bs'.length)
    (h : ofLittleEndian bs = ofLittleEndian bs') : bs = bs' := by
  rw [← littleEndian_ofLittleEndian bs, h, hlength, littleEndian_ofLittleEndian]

end Recompile.Bytes
