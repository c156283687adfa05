import Recompile.Text.Utf8

/-!
# The wire format

How plain values are written in a snapshot. A number below 251 is one byte; a greater one is a mark
and two, four or eight bytes, little-endian, whichever is the least that holds it. A text is its
length in bytes and its UTF-8, a list its length and its elements.

Reading is bounded by a budget. It is charged for the full width of each number, however few bytes
the number takes, and for the bytes of each text before they are read, so a length that is wrong
cannot make the reader ask for more than the budget. Numbers may be written longer than they need,
up to their width.
-/

namespace Recompile.Wire

/-! ## Writing -/

/-- A number below `2 ^ 64` in its shortest form. -/
def number (n : Nat) : Bytes :=
  if n < 251 then [UInt8.ofNat n]
  else if n < 0x10000 then 251 :: Bytes.littleEndian 2 n
  else if n < 0x100000000 then 252 :: Bytes.littleEndian 4 n
  else 253 :: Bytes.littleEndian 8 n

def bool (b : Bool) : Bytes := [if b then 1 else 0]

def text (s : String) : Bytes :=
  let bs := Utf8.ofString s
  number bs.length ++ bs

/-- A list of values, each written by `item`. -/
def list {α : Type} (item : α → Bytes) (xs : List α) : Bytes :=
  number xs.length ++ xs.flatMap item

/-! ## Reading -/

/-- What is left to read, and how much of it may still be claimed. -/
structure Input where
  rest : Bytes
  budget : Nat
  deriving DecidableEq, Repr

/-- A reader of values takes them from the front of its input, or fails. -/
abbrev Reader := StateT Input Option

namespace Reader

/-- Claims a part of the budget. -/
def charge (n : Nat) : Reader Unit := fun input =>
  if n ≤ input.budget then some ((), { input with budget := input.budget - n }) else none

/-- Takes exactly `n` bytes. -/
def take (n : Nat) : Reader Bytes := fun input =>
  let taken := input.rest.take n
  if taken.length = n then some (taken, { input with rest := input.rest.drop n }) else none

/-- One byte of its own. -/
def byte : Reader UInt8 := do
  charge 1
  match ← take 1 with
  | b :: _ => pure b
  | [] => failure

/-- How many bytes follow the first byte of a number, if it is no number itself. -/
def tailLength? (lead : UInt8) : Option Nat :=
  if lead = 251 then some 2
  else if lead = 252 then some 4
  else if lead = 253 then some 8
  else none

/-- A number of at most `width` bytes. -/
def number (width : Nat) : Reader Nat := do
  charge width
  match ← take 1 with
  | lead :: _ =>
    if lead < 251 then pure lead.toNat
    else
      match tailLength? lead with
      | some n => if n ≤ width then Bytes.ofLittleEndian <$> take n else failure
      | none => failure
  | [] => failure

/-- The width of a number that says which of several cases is meant, or which version. -/
def shortWidth : Nat := 4

/-- The width of a length. -/
def lengthWidth : Nat := 8

def length : Reader Nat := number lengthWidth

def bool : Reader Bool := do
  match ← byte with
  | 0 => pure false
  | 1 => pure true
  | _ => failure

def text : Reader String := do
  let n ← length
  charge n
  let bs ← take n
  if Utf8.Valid bs then pure (String.ofList (Utf8.decode bs)) else failure

/-- Exactly `n` values, each read by `item`. -/
def times {α : Type} (item : Reader α) : Nat → Reader (List α)
  | 0 => pure []
  | n + 1 => do
    let x ← item
    let xs ← times item n
    pure (x :: xs)

def list {α : Type} (item : Reader α) : Reader (List α) := do times item (← length)

/-- Reads a value from the front of some bytes, within a budget; what follows it is ignored. -/
def run {α : Type} (reader : Reader α) (budget : Nat) (bs : Bytes) : Option α :=
  (reader ⟨bs, budget⟩).map (·.1)

end Reader

end Recompile.Wire
