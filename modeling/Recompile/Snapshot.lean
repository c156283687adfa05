import Recompile.Include
import Recompile.Table

/-!
# Snapshots

A snapshot says, for one build of one task, which files were its root sources and, for each of them
and each header they reach, what the file held and where its directives led. Builds never change a
snapshot: each makes a new one and compares it with the one before.
-/

namespace Recompile

/-- A set of paths, in path order. -/
abbrev PathSet := KeySet Path

structure FileState where
  path : Path
  digest : Digest
  directives : Directives
  /-- What became of each directive, in the same order. -/
  includes : List Include
  deriving BEq

namespace FileState

/-- Whether the headers of the file cannot all be known. -/
def hasUnknown (f : FileState) : Bool := f.directives.unreadable || f.includes.any Include.isUnknown

def headers (f : FileState) : List Path := f.includes.filterMap Include.path?

end FileState

structure Snapshot where
  sources : PathSet
  /-- The state of every root source and every header reached from one. -/
  files : Table Path FileState
  deriving BEq

namespace Snapshot

/-- The snapshot of a build that never ran. -/
def empty : Snapshot := ⟨∅, ∅⟩

instance : EmptyCollection Snapshot := ⟨empty⟩
instance : Inhabited Snapshot := ⟨empty⟩

def isSource (s : Snapshot) (p : Path) : Bool := s.sources.contains p

def file? (s : Snapshot) (p : Path) : Option FileState := s.files.find? p

/-- The states of all tracked files, in path order. -/
def fileStates (s : Snapshot) : List FileState := s.files.values

def size (s : Snapshot) : Nat := s.files.size

def isEmpty (s : Snapshot) : Bool := s.files.isEmpty

def hasUnknown (s : Snapshot) : Bool := s.fileStates.any FileState.hasUnknown

def addSource (s : Snapshot) (p : Path) : Snapshot := { s with sources := s.sources.add p }

/-- Records the state of a file, in place of an earlier one. -/
def addFile (s : Snapshot) (f : FileState) : Snapshot :=
  { s with files := s.files.insert f.path f }

/-- The headers that a file of the snapshot includes itself; none for a file that is not tracked. -/
def headersOf (s : Snapshot) (p : Path) : List Path := (s.file? p).elim [] FileState.headers

def edgeCount (s : Snapshot) : Nat := (s.fileStates.flatMap FileState.headers).length

end Snapshot

end Recompile
