import Recompile.Disk
import Recompile.Include
import Recompile.Log
import Recompile.Path.Normal

/-!
# Finding headers

A quoted directive is looked up in the directory of the file that holds it and then in the include
roots, a system one in the roots only, in the order the roots are declared; the first candidate that
is a regular file is the header. A candidate is normalized before it is tested.

A `SearchPath` remembers each test, so that a candidate is tested once however often it comes up: it
is meant to live for one build. `firstFile?` is the same search without a memory.
-/

namespace Recompile

/-- Where a directive leads, before any content is read. -/
inductive Location where
  /-- The first candidate that is a file. -/
  | found (path : Path)
  | notFound
  | notStatic
  deriving BEq

/-- The outcome of a directive that leads to a location, given the digest of each header that can be
read. A header that cannot be read is there all the same, so its directive is not unresolved. -/
def Location.outcome (digest? : Path → Option Digest) : Location → Outcome
  | found path =>
    match digest? path with
    | some digest => .resolved path digest
    | none => .unknown
  | notFound => .unresolved
  | notStatic => .unknown

/-- Include roots in search order, with the tests made so far. -/
structure SearchPath where
  roots : List Path
  /-- What each candidate tested so far turned out to be: a file or not. -/
  known : Table Path Bool

namespace SearchPath

def ofRoots (roots : List Path) : SearchPath := ⟨roots, ∅⟩

/-- The directories to search for a directive in the file `includer`, in order. -/
def directories (roots : List Path) (d : Directive) (includer : Path) : List Path :=
  match d.form with
  | .quoted => includer.parent.toList ++ roots
  | .system => roots
  | .expression => []

/-- The paths that a directive in the file `includer` may stand for, in order. -/
def candidates (roots : List Path) (d : Directive) (includer : Path) : List Path :=
  (directories roots d includer).map fun dir => (dir.joinText d.value).normalize

/-- Whether a candidate is a file, from memory if it was tested before. -/
def test (disk : Disk) (s : SearchPath) (p : Path) : Bool × SearchPath :=
  match s.known.find? p with
  | some known => (known, s)
  | none =>
    let is := disk.isFile p
    (is, { s with known := s.known.insert p is })

/-- The first of some candidates that is a file; those after it are not tested. -/
def firstOf (disk : Disk) (s : SearchPath) : List Path → Option Path × SearchPath
  | [] => (none, s)
  | p :: rest =>
    match s.test disk p with
    | (true, s) => (some p, s)
    | (false, s) => firstOf disk s rest

/-- Finds the file that a directive in the file `includer` refers to. -/
def locate (disk : Disk) (s : SearchPath) (d : Directive) (includer : Path) :
    Location × SearchPath :=
  match d.form with
  | .expression => (.notStatic, s)
  | _ =>
    match s.firstOf disk (candidates s.roots d includer) with
    | (some p, s) => (.found p, s)
    | (none, s) => (.notFound, s)

/-- The first of some candidates that is a file. -/
def firstFile? (disk : Disk) (candidates : List Path) : Option Path := candidates.find? disk.isFile

/-- The outcome of a directive in the file `includer`, with the digests given. -/
def resolveWith (disk : Disk) (digest? : Path → Option Digest) (s : SearchPath) (d : Directive)
    (includer : Path) : Include × SearchPath :=
  let (location, s) := s.locate disk d includer
  (⟨d, location.outcome digest?⟩, s)

/-- The outcome of a directive in the file `includer`, with the digest of the header on the disk. -/
def resolve (disk : Disk) (s : SearchPath) (d : Directive) (includer : Path) :
    Logged (Include × SearchPath) := do
  let (location, s) := s.locate disk d includer
  match location with
  | .found p =>
    match disk.read p with
    | .ok content => pure (⟨d, .resolved p (.ofContent content)⟩, s)
    | .error e => do
      Logged.report (.headerUnreadable p e)
      pure (⟨d, .unknown⟩, s)
  | _ => pure (⟨d, location.outcome fun _ => none⟩, s)

end SearchPath

end Recompile
