/-!
# Byte strings

File contents and encoded snapshots are lists of bytes. This module holds what the formats need of
them: little-endian numbers of a given width and lowercase hexadecimal text.
-/

namespace Recompile

abbrev Bytes := List UInt8

namespace Bytes

/-- The `width` low bytes of `n`, the least significant first. -/
def littleEndian : (width : Nat) → (n : Nat) → Bytes
  | 0, _ => []
  | w + 1, n => UInt8.ofNat n :: littleEndian w (n / 256)

/-- The number whose bytes are given, the least significant first. -/
def ofLittleEndian : Bytes → Nat
  | [] => 0
  | b :: rest => b.toNat + 256 * ofLittleEndian rest

@[simp] theorem length_littleEndian (w n : Nat) : (littleEndian w n).length = w := by
  induction w generalizing n with
  | zero => rfl
  | succ w ih => simp [littleEndian, ih]

/-- The lowercase hexadecimal digit of a number below sixteen. -/
def hexDigit (n : Nat) : Char :=
  if n < 10 then Char.ofNat (n + 48) else Char.ofNat (n + 87)

def hexDigits : Bytes → List Char
  | [] => []
  | b :: rest => hexDigit (b.toNat / 16) :: hexDigit (b.toNat % 16) :: hexDigits rest

def hex (bs : Bytes) : String := String.ofList (hexDigits bs)

end Bytes

end Recompile
