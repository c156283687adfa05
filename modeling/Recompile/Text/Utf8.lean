import Recompile.Bytes

/-!
# UTF-8

A machine that takes one byte at a time: between characters it waits for a lead byte, and inside one
it knows how many continuation bytes are owed and between which bounds the next one must lie. The
bounds rule out overlong forms, surrogates and numbers above `10FFFF` at the first byte that shows
them, so `firstInvalid?` can name the place where the valid text ends: the start of the character
that cannot be completed.
-/

namespace Recompile.Utf8

/-- A character of which some bytes have been read. -/
structure Pending where
  /-- How many continuation bytes are still owed, less one. -/
  owed : Nat
  low : UInt8
  high : UInt8
  bits : Nat
  deriving DecidableEq, Repr

inductive Reading where
  | complete (c : Char)
  | more (p : Pending)
  | refused
  deriving DecidableEq, Repr

/-- Reads a byte that stands where a character begins. -/
def lead (b : UInt8) : Reading :=
  if b < 0x80 then .complete (Char.ofNat b.toNat)
  else if b < 0xC2 then .refused
  else if b < 0xE0 then .more ⟨0, 0x80, 0xBF, b.toNat - 0xC0⟩
  else if b = 0xE0 then .more ⟨1, 0xA0, 0xBF, 0⟩
  else if b = 0xED then .more ⟨1, 0x80, 0x9F, 0xD⟩
  else if b < 0xF0 then .more ⟨1, 0x80, 0xBF, b.toNat - 0xE0⟩
  else if b = 0xF0 then .more ⟨2, 0x90, 0xBF, 0⟩
  else if b < 0xF4 then .more ⟨2, 0x80, 0xBF, b.toNat - 0xF0⟩
  else if b = 0xF4 then .more ⟨2, 0x80, 0x8F, 4⟩
  else .refused

/-- Reads a byte that stands inside a character. -/
def Pending.take (p : Pending) (b : UInt8) : Reading :=
  if p.low ≤ b ∧ b ≤ p.high then
    let bits := p.bits * 64 + (b.toNat - 0x80)
    match p.owed with
    | 0 => .complete (Char.ofNat bits)
    | owed + 1 => .more ⟨owed, 0x80, 0xBF, bits⟩
  else .refused

/-- One step of the machine, between characters or inside one. -/
def read : Option Pending → UInt8 → Reading
  | none, b => lead b
  | some p, b => p.take b

/-- Looks for the end of the valid text: `start` is where the present character begins, `pos` where
the next byte stands. -/
def firstInvalidFrom (start pos : Nat) (state : Option Pending) : Bytes → Option Nat
  | [] => state.map fun _ => start
  | b :: rest =>
    match read state b with
    | .complete _ => firstInvalidFrom (pos + 1) (pos + 1) none rest
    | .more p => firstInvalidFrom start (pos + 1) (some p) rest
    | .refused => some start

/-- Where the longest valid beginning of `bs` ends, if that is not all of it. -/
def firstInvalid? (bs : Bytes) : Option Nat := firstInvalidFrom 0 0 none bs

/-- A byte string is text when all of it is valid. -/
def Valid (bs : Bytes) : Prop := firstInvalid? bs = none

instance (bs : Bytes) : Decidable (Valid bs) := inferInstanceAs (Decidable (_ = none))

/-- The mark that stands in a decoded text for bytes that are none. -/
def replacement : Char := '\uFFFD'

/-- Decodes onto the characters read so far, which stand in reverse. -/
def decodeOnto (done : List Char) (state : Option Pending) : Bytes → List Char
  | [] => (if state.isSome then replacement :: done else done).reverse
  | b :: rest =>
    match read state b with
    | .complete c => decodeOnto (c :: done) none rest
    | .more p => decodeOnto done (some p) rest
    | .refused =>
      match state, lead b with
      | none, _ => decodeOnto (replacement :: done) none rest
      | some _, .complete c => decodeOnto (c :: replacement :: done) none rest
      | some _, .more p => decodeOnto (replacement :: done) (some p) rest
      | some _, .refused => decodeOnto (replacement :: replacement :: done) none rest

/-- The characters of a byte string; each longest broken piece of a character gives one replacement
mark, and a valid text gives none of its own. -/
def decode (bs : Bytes) : List Char := decodeOnto [] none bs

def encode (cs : List Char) : Bytes := cs.flatMap String.utf8EncodeChar

def ofString (s : String) : Bytes := encode s.toList

/-- The text that the bytes encode, if they are valid. -/
def text? (bs : Bytes) : Option String :=
  if Valid bs then some (String.ofList (decode bs)) else none

end Recompile.Utf8
