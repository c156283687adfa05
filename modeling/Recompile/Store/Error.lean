import Recompile.Digest
import Recompile.FileTree

/-!
# Errors of snapshot stores

Why a snapshot cannot be read or written, and how that is said.
-/

namespace Recompile

inductive HeaderFault where
  | truncatedLength
  | lengthOutOfRange
  | truncatedHeader
  | undecodable
  | noMagic
  | otherTask
  | payloadOutOfRange
  /-- A fault in its own words. -/
  | other (reason : String)
  deriving DecidableEq, Repr

def HeaderFault.message : HeaderFault → String
  | truncatedLength => "truncated header length"
  | lengthOutOfRange => "header length out of range"
  | truncatedHeader => "truncated header"
  | undecodable => "undecodable header"
  | noMagic => "missing magic bytes"
  | otherTask => "snapshot belongs to another task"
  | payloadOutOfRange => "payload length out of range"
  | other reason => reason

inductive CodingFault where
  | headerTooLong
  | payloadTooLong
  | undecodable
  /-- A fault in its own words. -/
  | other (reason : String)
  deriving DecidableEq, Repr

def CodingFault.message : CodingFault → String
  | headerTooLong => "snapshot header exceeds 65536 bytes"
  | payloadTooLong => "compilation state exceeds 1073741824 bytes"
  | undecodable => "undecodable compilation state"
  | other reason => reason

inductive StoreError where
  | inaccessible (path : Path) (cause : FileError)
  | invalidHeader (path : Path) (fault : HeaderFault)
  /-- The payload has another digest than the header says. -/
  | checksumMismatch (path : Path) (expected actual : String)
  /-- Another version of the format or of the producer wrote the file. -/
  | versionMismatch (path : Path) (expected actual : String)
  /-- The store in memory was left unusable. -/
  | poisoned (reason : String)
  | coding (fault : CodingFault)
  deriving BEq

namespace StoreError

def message : StoreError → String
  | inaccessible path cause => "cannot access snapshot " ++ path.text ++ ": " ++ cause.message
  | invalidHeader path fault => "snapshot " ++ path.text ++ " is not usable: " ++ fault.message
  | checksumMismatch path expected actual =>
    "snapshot " ++ path.text ++ " is corrupt: payload hash " ++ actual ++
      " does not match recorded " ++ expected
  | versionMismatch path expected actual =>
    "snapshot " ++ path.text ++ " was written by version " ++ actual ++ ", expected " ++ expected
  | poisoned reason => "state store lock poisoned: " ++ reason
  | coding fault => "cannot encode compilation state: " ++ fault.message

def chain (e : StoreError) : List String :=
  match e with
  | inaccessible _ cause => [e.message, cause.message]
  | _ => [e.message]

end StoreError

end Recompile
