import Recompile.Directive.Reading
import Recompile.Log
import Recompile.SearchPath
import Recompile.Snapshot

/-!
# Surveys

A survey reads root sources and every header they reach and records what it saw in a snapshot. The
sources are read first, all of them; then files are taken from a queue in the order in which they
were first met, each is recorded with the outcome of its directives, and headers met for the first
time join the queue. A header is read once, and a header that cannot be read is remembered as that.

A survey can be used for several calls: it keeps what it read and which candidates it tested. Only
root sources are read anew by each call, and what is read then takes the place of what was read
before.

The queue is bounded by the names that the disk can offer, which the caller states as a limit; a
search that goes beyond the limit is given up and is not taken for an answer.
-/

namespace Recompile

structure FileScan where
  digest : Digest
  directives : Directives
  deriving BEq

def FileScan.ofContent (imports : Bool) (content : Bytes) : FileScan :=
  ⟨Digest.ofContent content, Directives.read imports content⟩

inductive SurveyError where
  | unreadable (path : Path) (cause : FileError)
  /-- The headers did not come to an end within the limit. -/
  | endless (limit : Nat)
  deriving BEq

structure Survey where
  /-- Whether `#import` counts as `#include`. -/
  imports : Bool
  search : SearchPath
  /-- Every file read so far; none for a header that is there and cannot be read. -/
  scans : Table Path (Option FileScan)

namespace Survey

def new (imports : Bool) (search : SearchPath) : Survey := ⟨imports, search, ∅⟩

/-- What was read of a file, if it could be read. -/
def scan? (s : Survey) (p : Path) : Option FileScan := (s.scans.find? p).join

def digest? (s : Survey) (p : Path) : Option Digest := (s.scan? p).map (·.digest)

/-- Reads a header unless it was read before. -/
def readHeader (disk : Disk) (s : Survey) (p : Path) : Logged Survey :=
  if s.scans.contains p then pure s
  else
    match disk.read p with
    | .ok content =>
      pure { s with scans := s.scans.insert p (some (.ofContent s.imports content)) }
    | .error e => do
      Logged.report (.includedUnreadable p e)
      pure { s with scans := s.scans.insert p none }

/-- Finds the header of a directive in the file `includer` and reads it. -/
def resolve (disk : Disk) (includer : Path) (s : Survey) (d : Directive) :
    Logged (Include × Survey) := do
  let (location, search) := s.search.locate disk d includer
  let s := { s with search }
  let s ← match location with
    | .found p => s.readHeader disk p
    | _ => pure s
  pure (⟨d, location.outcome s.digest?⟩, s)

def resolveAll (disk : Disk) (includer : Path) (s : Survey) :
    List Directive → Logged (List Include × Survey)
  | [] => pure ([], s)
  | d :: rest => do
    let (i, s) ← s.resolve disk includer d
    let (is, s) ← resolveAll disk includer s rest
    pure (i :: is, s)

/-- A search for headers that is under way. -/
structure Search where
  survey : Survey
  /-- The files that are still to be recorded, the next one first. -/
  queue : List Path
  /-- Every file that is or was in the queue. -/
  met : PathSet
  snapshot : Snapshot

namespace Search

/-- Puts a file at the end of the queue unless it was met before. -/
def meet (x : Search) (p : Path) : Search :=
  if x.met.contains p then x else { x with queue := x.queue ++ [p], met := x.met.add p }

/-- Takes in a root source with what was read of it. -/
def enter (x : Search) (source : Path) (scan : FileScan) : Search :=
  let x := x.meet source
  { x with
    snapshot := x.snapshot.addSource source
    survey := { x.survey with scans := x.survey.scans.insert source (some scan) } }

/-- Records a file and meets its headers. -/
def visit (disk : Disk) (x : Search) (p : Path) (scan : FileScan) : Logged Search := do
  let (includes, survey) ← x.survey.resolveAll disk p scan.directives.all
  let file : FileState := ⟨p, scan.digest, scan.directives, includes⟩
  Logged.report (.scanned p includes.length)
  pure (file.headers.foldl meet { x with survey, snapshot := x.snapshot.addFile file })

/-- Works the queue off; none if more than `limit` files come out of it. -/
def run (disk : Disk) : (limit : Nat) → Search → Logged (Option Search)
  | limit, x =>
    match x.queue with
    | [] => pure (some x)
    | p :: queue =>
      match limit with
      | 0 => pure none
      | limit + 1 =>
        let x := { x with queue }
        match x.survey.scan? p with
        | some scan => do run disk limit (← x.visit disk p scan)
        | none => run disk limit x

end Search

/-- Reads the root sources in order, up to the first that cannot be read. -/
def readSources (disk : Disk) (imports : Bool) :
    List Path → Except SurveyError (List (Path × FileScan))
  | [] => .ok []
  | p :: rest =>
    match disk.read p with
    | .error e => .error (.unreadable p e)
    | .ok content =>
      match readSources disk imports rest with
      | .error e => .error e
      | .ok scans => .ok ((p, .ofContent imports content) :: scans)

/-- Adds the root sources and every header they reach to a snapshot. If a source cannot be read
nothing is added and the survey is as before. The disk may offer up to `limit` names besides the
sources and what the survey has read. -/
def scan (disk : Disk) (limit : Nat) (s : Survey) (sources : List Path) (snapshot : Snapshot) :
    Logged (Except SurveyError (Survey × Snapshot)) := do
  match readSources disk s.imports sources with
  | .error e => pure (.error e)
  | .ok scans =>
    let entered := scans.foldl (fun x e => x.enter e.1 e.2) (⟨s, [], ∅, snapshot⟩ : Search)
    match ← entered.run disk (limit + sources.length + s.scans.size) with
    | some x => pure (.ok (x.survey, x.snapshot))
    | none => pure (.error (.endless limit))

end Survey

end Recompile
