import Recompile.Digest.Xxh3
import Recompile.Text.Utf8

/-!
# Content digests

A digest stands for the content of a file: files with equal digests are taken to be equal. It is
kept as its sixteen bytes, the number in little-endian order, which is also its form in a snapshot;
its text is the number in hexadecimal, most significant digit first.
-/

namespace Recompile

structure Digest where
  bytes : Vector UInt8 16
  deriving DecidableEq

namespace Digest

/-- The sixteen bytes of two words, the low one first. -/
def ofHalves (low high : UInt64) : Digest :=
  ⟨⟨(Bytes.littleEndian 8 low.toNat ++ Bytes.littleEndian 8 high.toNat).toArray, by simp⟩⟩

def ofContent (content : Bytes) : Digest :=
  let (low, high) := Xxh3.hash content
  ofHalves low high

def ofText (text : String) : Digest := ofContent (Utf8.ofString text)

def toBytes (d : Digest) : Bytes := d.bytes.toList

@[simp] theorem length_toBytes (d : Digest) : d.toBytes.length = 16 := by
  simp [toBytes]

/-- The 32 hexadecimal digits of the number, the most significant first. -/
def hex (d : Digest) : String := Bytes.hex d.toBytes.reverse

def brief (d : Digest) : String := "ContentHash(" ++ d.hex.take 8 ++ "..)"

instance : ToString Digest := ⟨hex⟩

/-- Digests are ordered by their bytes, the first byte first. -/
instance : Ord Digest := ⟨compareOn toBytes⟩

end Digest

end Recompile
