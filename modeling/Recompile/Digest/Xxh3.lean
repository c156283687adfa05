import Recompile.Bytes

/-!
# XXH3, 128 bits

The 128-bit XXH3 checksum with seed zero and the standard 192-byte secret. Inputs of up to 240 bytes
are mixed in pieces that are read from both ends; longer ones run through eight 64-bit lanes, one
64-byte stripe after the other, with a scramble after every sixteen stripes. All arithmetic wraps at
the width of its words, as the format asks. The result is the low and the high half.
-/

namespace Recompile.Xxh3

def prime32₁ : UInt64 := 0x9E3779B1
def prime32₂ : UInt64 := 0x85EBCA77
def prime32₃ : UInt64 := 0xC2B2AE3D
def prime64₁ : UInt64 := 0x9E3779B185EBCA87
def prime64₂ : UInt64 := 0xC2B2AE3D27D4EB4F
def prime64₃ : UInt64 := 0x165667B19E3779F9
def prime64₄ : UInt64 := 0x85EBCA77C2B2AE63
def prime64₅ : UInt64 := 0x27D4EB2F165667C5
def mixer₁ : UInt64 := 0x165667919E3779F9
def mixer₂ : UInt64 := 0x9FB21C651E98DF25

def secret : Bytes := [
  0xb8, 0xfe, 0x6c, 0x39, 0x23, 0xa4, 0x4b, 0xbe, 0x7c, 0x01, 0x81, 0x2c, 0xf7, 0x21, 0xad, 0x1c,
  0xde, 0xd4, 0x6d, 0xe9, 0x83, 0x90, 0x97, 0xdb, 0x72, 0x40, 0xa4, 0xa4, 0xb7, 0xb3, 0x67, 0x1f,
  0xcb, 0x79, 0xe6, 0x4e, 0xcc, 0xc0, 0xe5, 0x78, 0x82, 0x5a, 0xd0, 0x7d, 0xcc, 0xff, 0x72, 0x21,
  0xb8, 0x08, 0x46, 0x74, 0xf7, 0x43, 0x24, 0x8e, 0xe0, 0x35, 0x90, 0xe6, 0x81, 0x3a, 0x26, 0x4c,
  0x3c, 0x28, 0x52, 0xbb, 0x91, 0xc3, 0x00, 0xcb, 0x88, 0xd0, 0x65, 0x8b, 0x1b, 0x53, 0x2e, 0xa3,
  0x71, 0x64, 0x48, 0x97, 0xa2, 0x0d, 0xf9, 0x4e, 0x38, 0x19, 0xef, 0x46, 0xa9, 0xde, 0xac, 0xd8,
  0xa8, 0xfa, 0x76, 0x3f, 0xe3, 0x9c, 0x34, 0x3f, 0xf9, 0xdc, 0xbb, 0xc7, 0xc7, 0x0b, 0x4f, 0x1d,
  0x8a, 0x51, 0xe0, 0x4b, 0xcd, 0xb4, 0x59, 0x31, 0xc8, 0x9f, 0x7e, 0xc9, 0xd9, 0x78, 0x73, 0x64,
  0xea, 0xc5, 0xac, 0x83, 0x34, 0xd3, 0xeb, 0xc3, 0xc5, 0x81, 0xa0, 0xff, 0xfa, 0x13, 0x63, 0xeb,
  0x17, 0x0d, 0xdd, 0x51, 0xb7, 0xf0, 0xda, 0x49, 0xd3, 0x16, 0x55, 0x26, 0x29, 0xd4, 0x68, 0x9e,
  0x2b, 0x16, 0xbe, 0x58, 0x7d, 0x47, 0xa1, 0xfc, 0x8f, 0xf8, 0xb8, 0xd1, 0x7a, 0xd0, 0x31, 0xce,
  0x45, 0xcb, 0x3a, 0x8f, 0x95, 0x16, 0x04, 0x28, 0xaf, 0xd7, 0xfb, 0xca, 0xbb, 0x4b, 0x40, 0x7e]

/-! ## Reading and mixing words -/

def word32 (bs : Bytes) (i : Nat) : UInt64 :=
  UInt64.ofNat (Bytes.ofLittleEndian ((bs.drop i).take 4))

def word64 (bs : Bytes) (i : Nat) : UInt64 :=
  UInt64.ofNat (Bytes.ofLittleEndian ((bs.drop i).take 8))

/-- The low and the high half of the full product. -/
def product (a b : UInt64) : UInt64 × UInt64 :=
  let p := a.toNat * b.toNat
  (UInt64.ofNat p, UInt64.ofNat (p >>> 64))

/-- The two halves of the full product, combined. -/
def foldedProduct (a b : UInt64) : UInt64 :=
  let (low, high) := product a b
  low ^^^ high

def swap64 (x : UInt64) : UInt64 :=
  UInt64.ofNat (Bytes.ofLittleEndian (Bytes.littleEndian 8 x.toNat).reverse)

/-- The bytes of the low half of a word in reverse order. -/
def swap32 (x : UInt64) : UInt64 :=
  UInt64.ofNat (Bytes.ofLittleEndian (Bytes.littleEndian 4 x.toNat).reverse)

def low32 (x : UInt64) : UInt64 := x &&& 0xFFFFFFFF

/-- Spreads every bit of a word over the whole of it. -/
def avalanche (h : UInt64) : UInt64 :=
  let h := (h ^^^ (h >>> 37)) * mixer₁
  h ^^^ (h >>> 32)

/-- The stronger spreading that the shortest inputs need. -/
def avalancheShort (h : UInt64) : UInt64 :=
  let h := (h ^^^ (h >>> 33)) * prime64₂
  let h := (h ^^^ (h >>> 29)) * prime64₃
  h ^^^ (h >>> 32)

/-! ## Up to sixteen bytes -/

def hashEmpty : UInt64 × UInt64 :=
  (avalancheShort (word64 secret 64 ^^^ word64 secret 72),
    avalancheShort (word64 secret 80 ^^^ word64 secret 88))

/-- One to three bytes: the first, the middle and the last make one word with the length. -/
def hashTo3 (bs : Bytes) : UInt64 × UInt64 :=
  let byte (i : Nat) : UInt64 := (bs.getD i 0).toUInt64
  let n := bs.length
  let combined :=
    (byte 0 <<< 16) ||| (byte (n / 2) <<< 24) ||| byte (n - 1) ||| (UInt64.ofNat n <<< 8)
  let swapped := swap32 combined
  let rotated := low32 (swapped <<< 13) ||| (swapped >>> 19)
  (avalancheShort (combined ^^^ (word32 secret 0 ^^^ word32 secret 4)),
    avalancheShort (rotated ^^^ (word32 secret 8 ^^^ word32 secret 12)))

/-- Four to eight bytes, read as two words that may overlap. -/
def hashTo8 (bs : Bytes) : UInt64 × UInt64 :=
  let n := bs.length
  let input := word32 bs 0 + (word32 bs (n - 4) <<< 32)
  let keyed := input ^^^ (word64 secret 16 ^^^ word64 secret 24)
  let (low, high) := product keyed (prime64₁ + (UInt64.ofNat n <<< 2))
  let high := high + (low <<< 1)
  let low := low ^^^ (high >>> 3)
  let low := (low ^^^ (low >>> 35)) * mixer₂
  (low ^^^ (low >>> 28), avalanche high)

/-- Nine to sixteen bytes, read as two words that may overlap. -/
def hashTo16 (bs : Bytes) : UInt64 × UInt64 :=
  let n := bs.length
  let first := word64 bs 0
  let last := word64 bs (n - 8)
  let (low, high) :=
    product (first ^^^ last ^^^ (word64 secret 32 ^^^ word64 secret 40)) prime64₁
  let low := low + (UInt64.ofNat (n - 1) <<< 54)
  let last := last ^^^ (word64 secret 48 ^^^ word64 secret 56)
  let high := high + last + low32 last * (prime32₂ - 1)
  let low := low ^^^ swap64 high
  let (low', high') := product low prime64₂
  (avalanche low', avalanche (high' + high * prime64₂))

/-! ## Up to 240 bytes -/

/-- Mixes sixteen bytes at `i` with sixteen bytes of the secret at `k`. -/
def mix16 (bs : Bytes) (i k : Nat) : UInt64 :=
  foldedProduct (word64 bs i ^^^ word64 secret k) (word64 bs (i + 8) ^^^ word64 secret (k + 8))

/-- Mixes sixteen bytes at `i` and sixteen at `j` into the two halves. -/
def mix32 (bs : Bytes) (acc : UInt64 × UInt64) (i j k : Nat) : UInt64 × UInt64 :=
  let (low, high) := acc
  ((low + mix16 bs i k) ^^^ (word64 bs j + word64 bs (j + 8)),
    (high + mix16 bs j (k + 16)) ^^^ (word64 bs i + word64 bs (i + 8)))

/-- The last step for inputs of middle length. -/
def finishMiddle (n : UInt64) (acc : UInt64 × UInt64) : UInt64 × UInt64 :=
  let (low, high) := acc
  (avalanche (low + high), 0 - avalanche (low * prime64₁ + high * prime64₄ + n * prime64₂))

/-- 17 to 128 bytes: pairs of pieces from both ends, the innermost pair first. -/
def hashTo128 (bs : Bytes) : UInt64 × UInt64 :=
  let n := bs.length
  let pairs := (List.range ((n + 31) / 32)).reverse
  finishMiddle (UInt64.ofNat n) <|
    pairs.foldl (fun acc p => mix32 bs acc (16 * p) (n - 16 - 16 * p) (32 * p))
      (UInt64.ofNat n * prime64₁, 0)

/-- 129 to 240 bytes: pieces of 32 bytes from the front, then the last 32 in reverse order. -/
def hashTo240 (bs : Bytes) : UInt64 × UInt64 :=
  let n := bs.length
  let front := (List.range 4).foldl
    (fun acc p => mix32 bs acc (32 * p) (32 * p + 16) (32 * p)) (UInt64.ofNat n * prime64₁, 0)
  let spread := (avalanche front.1, avalanche front.2)
  let rest := (List.range (n / 32 - 4)).foldl
    (fun acc p => mix32 bs acc (32 * p + 128) (32 * p + 144) (32 * p + 3)) spread
  finishMiddle (UInt64.ofNat n) (mix32 bs rest (n - 16) (n - 32) 103)

/-! ## Longer inputs -/

/-- The values of the eight lanes before the first stripe. -/
def initialLanes : List UInt64 :=
  [prime32₃, prime64₁, prime64₂, prime64₃, prime64₄, prime32₂, prime64₅, prime32₁]

/-- The eight words of a piece that starts at offset `i`. -/
def eightWords (bs : Bytes) (i : Nat) : List UInt64 :=
  let piece := bs.drop i
  (List.range 8).map fun lane => word64 piece (8 * lane)

/-- Exchanges the neighbours 0 and 1, 2 and 3, and so on. -/
def exchangePairs : List UInt64 → List UInt64
  | a :: b :: rest => b :: a :: exchangePairs rest
  | short => short

/-- Adds one stripe to the lanes: each word goes to its neighbour's lane, and the product of the
halves of the keyed word to its own. -/
def addStripe (lanes words keys : List UInt64) : List UInt64 :=
  let products := List.zipWith
    (fun w k => let keyed := w ^^^ k; low32 keyed * (keyed >>> 32)) words keys
  List.zipWith (· + ·) lanes (List.zipWith (· + ·) (exchangePairs words) products)

/-- Stirs the lanes at the end of a block. -/
def scramble (lanes : List UInt64) : List UInt64 :=
  List.zipWith (fun (a k : UInt64) => ((a ^^^ (a >>> 47)) ^^^ k) * prime32₁) lanes
    (eightWords secret 128)

/-- The secret words of the sixteen stripes of a block. -/
def stripeKeys : List (List UInt64) := (List.range 16).map fun s => eightWords secret (8 * s)

/-- Adds the given number of stripes from the front of the input; a block that is complete, which
has used up all the keys, is scrambled and the keys start again. -/
def addStripes : (stripes : Nat) → (keys : List (List UInt64)) → Bytes → List UInt64 → List UInt64
  | 0, [], _, lanes => scramble lanes
  | 0, _ :: _, _, lanes => lanes
  | n + 1, k :: keys, bs, lanes =>
    addStripes n keys (bs.drop 64) (addStripe lanes (eightWords bs 0) k)
  | n + 1, [], bs, lanes =>
    match stripeKeys with
    | [] => lanes
    | k :: keys => addStripes n keys (bs.drop 64) (addStripe (scramble lanes) (eightWords bs 0) k)

/-- Folds the lanes, keyed with the secret at `k`, into one word. -/
def mergeLanes (lanes : List UInt64) (k : Nat) (start : UInt64) : UInt64 :=
  let keyed := List.zipWith (· ^^^ ·) lanes (eightWords secret k)
  let rec fold : List UInt64 → UInt64 → UInt64
    | a :: b :: rest, sum => fold rest (sum + foldedProduct a b)
    | _, sum => sum
  avalanche (fold keyed start)

/-- More than 240 bytes. The last 64 bytes are added as a stripe of their own; a full stripe that
ends the input is not added a second time before that. -/
def hashLong (bs : Bytes) : UInt64 × UInt64 :=
  let n := bs.length
  let lanes := addStripes ((n - 1) / 64) stripeKeys bs initialLanes
  let lanes := addStripe lanes (eightWords bs (n - 64)) (eightWords secret 121)
  (mergeLanes lanes 11 (UInt64.ofNat n * prime64₁),
    mergeLanes lanes 117 (UInt64.ofNat n * prime64₂ ^^^ 0xFFFFFFFFFFFFFFFF))

/-- The low and the high half of the checksum. -/
def hash (bs : Bytes) : UInt64 × UInt64 :=
  let n := bs.length
  if n = 0 then hashEmpty
  else if n ≤ 3 then hashTo3 bs
  else if n ≤ 8 then hashTo8 bs
  else if n ≤ 16 then hashTo16 bs
  else if n ≤ 128 then hashTo128 bs
  else if n ≤ 240 then hashTo240 bs
  else hashLong bs

end Recompile.Xxh3
