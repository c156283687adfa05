import Recompile.Snapshot.File
import Recompile.Store

/-!
# Stores in a directory

Each task has one file in the directory, named by the digest of the task. Saving takes three steps
on the file tree: the directory is made if it is missing (`prepare`), the new content goes to a
temporary file beside the old one (`stage`), and the temporary file takes the place of the old one
at once (`commit`). What is loaded and collected are files with the extension of snapshots only, so
a temporary file that was left behind is never taken for one, and neither is a file whose name is no
text.
-/

namespace Recompile

/-- A directory of snapshots, and the version of the program that writes them. -/
structure DirectoryStore where
  dir : Path
  producer : String
  deriving Repr, Inhabited

namespace DirectoryStore

/-- The version that builds write into their snapshots. -/
def currentVersion : String := "0.1.0"

def ofCache (dir : Path) : DirectoryStore := ⟨dir, currentVersion⟩

def extension : String := "state"

/-- The stem of the file of a task. -/
def key (task : String) : String := (Digest.ofText task).hex

def snapshotPath (s : DirectoryStore) (task : String) : Path :=
  s.dir.joinText (key task ++ "." ++ extension)

def stagingPath (s : DirectoryStore) (task : String) : Path :=
  s.dir.joinText (key task ++ "." ++ extension ++ ".tmp")

/-! ## Reading -/

/-- The snapshot of a task, or why it cannot be used. -/
def readSnapshot (s : DirectoryStore) (t : FileTree) (task : String) :
    Except StoreError Snapshot :=
  let path := s.snapshotPath task
  match t.read path with
  | .error e => .error (.inaccessible path e)
  | .ok raw => SnapshotFile.decode s.producer path task raw

def load (s : DirectoryStore) (t : FileTree) (task : String) : Logged (Option Snapshot) :=
  match s.readSnapshot t task with
  | .ok snapshot => pure (some snapshot)
  | .error (.inaccessible _ .notFound) => do
    Logged.report (.noSnapshot task)
    pure none
  | .error _ => do
    Logged.report (.snapshotDiscarded task)
    pure none

/-! ## Saving -/

def prepare (s : DirectoryStore) (t : FileTree) : FileTree × Except StoreError Unit :=
  let (t, made) := t.makeDirectories s.dir
  (t, made.mapError (.inaccessible s.dir))

def stage (s : DirectoryStore) (t : FileTree) (task : String) (content : Bytes) :
    Except StoreError FileTree :=
  (t.write (s.stagingPath task) content).mapError (.inaccessible (s.stagingPath task))

/-- Puts the temporary file of a task in the place of its snapshot. If that fails the temporary file
is removed, as far as that is possible. -/
def commit (s : DirectoryStore) (t : FileTree) (task : String) :
    FileTree × Except StoreError Unit :=
  match t.rename (s.stagingPath task) (s.snapshotPath task) with
  | .ok t => (t, .ok ())
  | .error e =>
    ((t.remove (s.stagingPath task)).toOption.getD t,
      .error (.inaccessible (s.snapshotPath task) e))

/-- Saves the snapshot of a task; a step that fails ends it. -/
def save (s : DirectoryStore) (t : FileTree) (task : String) (snapshot : Snapshot) :
    Logged (FileTree × Except StoreError Unit) :=
  match s.prepare t with
  | (t, .error e) => pure (t, .error e)
  | (t, .ok ()) =>
    match SnapshotFile.encode s.producer task snapshot with
    | .error fault => pure (t, .error (.coding fault))
    | .ok content =>
      match s.stage t task content with
      | .error e => pure (t, .error e)
      | .ok t =>
        match s.commit t task with
        | (t, .error e) => pure (t, .error e)
        | (t, .ok ()) => do
          Logged.report (.snapshotStored task snapshot.size)
          pure (t, .ok ())

/-! ## Removing -/

/-- Removes the snapshot of a task; whether there was one. -/
def remove (s : DirectoryStore) (t : FileTree) (task : String) :
    Except StoreError (Bool × FileTree) :=
  let path := s.snapshotPath task
  match t.remove path with
  | .ok t => .ok (true, t)
  | .error .notFound => .ok (false, t)
  | .error e => .error (.inaccessible path e)

/-- The text of a name, if it is that of a snapshot whose key is not among those given. An extension
or a stem that is no text is none of a snapshot. -/
def stale? (liveKeys : List String) (name : Bytes) : Option String := do
  let (stem, ext) := Path.splitExtension name
  let ext ← ext.bind Utf8.text?
  let stem ← Utf8.text? stem
  if ext = extension ∧ stem ∉ liveKeys then some (stem ++ "." ++ ext) else none

/-- Removes the named entries of the directory in order, up to the first that cannot be removed. -/
def removeEntries (s : DirectoryStore) (t : FileTree) :
    List String → FileTree × Except StoreError Unit
  | [] => (t, .ok ())
  | name :: rest =>
    let path := s.dir.joinText name
    match t.remove path with
    | .ok t => removeEntries s t rest
    | .error e => (t, .error (.inaccessible path e))

/-- Removes, of the named entries of the directory, the snapshots of all tasks but the live ones, in
the order of the names; how many there were. -/
def collectNamed (s : DirectoryStore) (t : FileTree) (live : List String) (names : List Bytes) :
    FileTree × Except StoreError Nat :=
  let stale := names.filterMap (stale? (live.map key))
  match s.removeEntries t stale with
  | (t, .error e) => (t, .error e)
  | (t, .ok ()) => (t, .ok stale.length)

/-- Removes the snapshots of all tasks but the live ones; how many there were. -/
def collect (s : DirectoryStore) (t : FileTree) (live : List String) :
    Logged (FileTree × Except StoreError Nat) :=
  if !t.exists? s.dir then pure (t, .ok 0)
  else
    match t.entryNames s.dir with
    | .error e => pure (t, .error (.inaccessible s.dir e))
    | .ok names =>
      match s.collectNamed t live names with
      | (t, .error e) => pure (t, .error e)
      | (t, .ok removed) => do
        Logged.report (.snapshotsCollected removed)
        pure (t, .ok removed)

end DirectoryStore

end Recompile
