import Recompile.Closure
import Recompile.Survey

/-!
# What has to be compiled again

A build is compared with the snapshot of the build before. A file is a seed when it is new, holds
something else, or one of its directives leads elsewhere, and, on every build, when its headers
cannot all be known. A source is compiled when the build before did not have it or when it reaches a
seed; a source that is gone is to be cleaned up.

`Compilation.compute` finds this; `Compilation.inputs` is what a surrounding build has to watch.
-/

namespace Recompile

/-! ## The include graph -/

namespace Snapshot

/-- Every header reached from the root sources that is no root source itself. -/
def discoveredHeaders (s : Snapshot) : PathSet :=
  (closure s.headersOf s.edgeCount s.sources.keys).difference s.sources

def includersOf (s : Snapshot) (p : Path) : List Path :=
  (s.fileStates.filter fun f => f.headers.any (· == p)).map (·.path)

/-- The given files and all that include one of them, through any chain of headers. -/
def dependents (s : Snapshot) (seeds : List Path) : PathSet :=
  closure s.includersOf s.edgeCount seeds

/-- Whether a file differs from what this snapshot holds of it. -/
def isChanged (previous : Snapshot) (f : FileState) : Bool :=
  match previous.file? f.path with
  | none => true
  | some old => old.digest != f.digest || old.includes != f.includes

/-- The files that make every source that reaches them be compiled. -/
def seeds (previous current : Snapshot) : List Path :=
  (current.fileStates.filter fun f => f.hasUnknown || previous.isChanged f).map (·.path)

end Snapshot

/-! ## Compilations -/

structure Compilation where
  recompile : PathSet
  removed : PathSet
  /-- Every header that the root sources reach. -/
  headers : PathSet
  /-- Whether the headers of some file cannot all be known. -/
  unknownHeaders : Bool
  state : Snapshot

namespace Compilation

def isUpToDate (c : Compilation) : Bool := c.recompile.isEmpty && c.removed.isEmpty

def between (previous current : Snapshot) : Compilation :=
  let dirty := current.dependents (previous.seeds current)
  { recompile := current.sources.filter fun p _ => !previous.isSource p || dirty.contains p
    removed := previous.sources.difference current.sources
    headers := current.discoveredHeaders
    unknownHeaders := current.hasUnknown
    state := current }

/-- Surveys the sources, each under its normal name and once, and compares the result with the
snapshot of the build before. -/
def compute (disk : Disk) (limit : Nat) (previous : Snapshot) (survey : Survey)
    (sources : List Path) : Logged (Except SurveyError Compilation) := do
  Logged.report (.diffBegins sources.length)
  let names : PathSet := .setOf (sources.map Path.normalize)
  match ← survey.scan disk limit names.keys ∅ with
  | .error e => pure (.error e)
  | .ok (_, current) =>
    let c := between previous current
    Logged.report (.diffComputed (names.difference previous.sources).size c.removed.size
      (previous.seeds current).length c.recompile.size c.headers.size)
    pure (.ok c)

/-- What a surrounding build has to watch: the headers, and every include root when some header
cannot be known, as any file below a root may be the one. -/
def inputs (c : Compilation) (roots : List Path) : Logged PathSet := do
  if c.unknownHeaders then
    Logged.report (.rootsAreInputs roots.length)
    pure (c.headers.addAll roots)
  else pure c.headers

end Compilation

end Recompile
