import Recompile.Snapshot.Wire
import Recompile.Store.Error

/-!
# Snapshot files

A snapshot file is the length of a header in four bytes, the header, and the payload, which is the
rest. The header names the format, the version of the producer and the task, and has the digest of
the payload; a file that differs in any of these is refused. Bytes after the header's last field,
within the length, do not count.

`encode` bounds the bytes it writes and `decode` what the reader claims, which is more than the
bytes for every number that is written short.
-/

namespace Recompile.SnapshotFile

/-- The four bytes that every header begins with, `CNDR`. -/
def magic : Bytes := [67, 78, 68, 82]

def formatVersion : Nat := 1

def maxHeader : Nat := 65536

def maxPayload : Nat := 1073741824

structure Header where
  magic : Bytes
  formatVersion : Nat
  producer : String
  task : String
  checksum : Digest
  deriving DecidableEq

namespace Header

def toBytes (h : Header) : Bytes :=
  h.magic ++ Wire.number h.formatVersion ++ Wire.text h.producer ++ Wire.text h.task ++
    Wire.digest h.checksum

def reader : Wire.Reader Header := do
  let magic ← Wire.Reader.times .byte 4
  let formatVersion ← Wire.Reader.number Wire.Reader.shortWidth
  let producer ← Wire.Reader.text
  let task ← Wire.Reader.text
  let checksum ← Wire.Reader.digest
  pure ⟨magic, formatVersion, producer, task, checksum⟩

end Header

def headerOf (producer task : String) (payload : Bytes) : Header :=
  ⟨magic, formatVersion, producer, task, .ofContent payload⟩

def encode (producer task : String) (s : Snapshot) : Except CodingFault Bytes :=
  let payload := Wire.snapshot s
  let header := (headerOf producer task payload).toBytes
  if header.length > maxHeader then .error .headerTooLong
  else if payload.length > maxPayload then .error .payloadTooLong
  else .ok (Bytes.littleEndian 4 header.length ++ header ++ payload)

/-- The snapshot in a file that was read from `path`, if it was written for the same task by the
same producer. -/
def decode (producer : String) (path : Path) (task : String) (raw : Bytes) :
    Except StoreError Snapshot :=
  let lengthBytes := raw.take 4
  if lengthBytes.length < 4 then .error (.invalidHeader path .truncatedLength)
  else
    let n := Bytes.ofLittleEndian lengthBytes
    let headerBytes := (raw.drop 4).take n
    let payload := (raw.drop 4).drop n
    if n > maxHeader then .error (.invalidHeader path .lengthOutOfRange)
    else if headerBytes.length < n then .error (.invalidHeader path .truncatedHeader)
    else
      match Header.reader.run maxHeader headerBytes with
      | none => .error (.invalidHeader path .undecodable)
      | some h =>
        if h.magic ≠ magic then .error (.invalidHeader path .noMagic)
        else if h.formatVersion ≠ formatVersion then
          .error (.versionMismatch path (toString formatVersion) (toString h.formatVersion))
        else if h.producer ≠ producer then
          .error (.versionMismatch path producer h.producer)
        else if h.task ≠ task then .error (.invalidHeader path .otherTask)
        else if payload.length > maxPayload then .error (.invalidHeader path .payloadOutOfRange)
        else
          let actual := Digest.ofContent payload
          if actual ≠ h.checksum then
            .error (.checksumMismatch path h.checksum.hex actual.hex)
          else
            match Wire.Reader.snapshot.run maxPayload payload with
            | some s => .ok s
            | none => .error (.coding .undecodable)

end Recompile.SnapshotFile
