import Recompile.Proofs.Store.Files
import Recompile.Store.Memory

/-!
# Calls of stores

A history of calls, of one store or of several, is a list of `StoreCall`s. `StoreCall.perform` is one
call on a file tree, and `StoreCall.answers` is what the calls of a history return, one after the
other. A store in memory takes the same calls (`StoreCall.answersInMemory`): it forgets what is
removed, and forgets everything but the live tasks when it collects.
-/

namespace Recompile

inductive StoreCall where
  | save (s : DirectoryStore) (task : String) (snapshot : Snapshot)
  | load (s : DirectoryStore) (task : String)
  | remove (s : DirectoryStore) (task : String)
  | collect (s : DirectoryStore) (live : List String)

inductive StoreAnswer where
  | saved (result : Except StoreError Unit)
  | loaded (found : Option Snapshot)
  | removed (result : Except StoreError Bool)
  | collected (result : Except StoreError Nat)

namespace StoreCall

/-- The store that is called. -/
def store : StoreCall → DirectoryStore
  | save s _ _ | load s _ | remove s _ | collect s _ => s

/-- The tasks that a call names. -/
def tasks : StoreCall → List String
  | save _ task _ | load _ task | remove _ task => [task]
  | collect _ live => live

def perform (t : FileTree) : StoreCall → FileTree × StoreAnswer
  | save s task snapshot =>
    let saved := (s.save t task snapshot).value
    (saved.1, .saved saved.2)
  | load s task => (t, .loaded (s.load t task).value)
  | remove s task =>
    match s.remove t task with
    | .ok (found, t) => (t, .removed (.ok found))
    | .error e => (t, .removed (.error e))
  | collect s live =>
    let collected := (s.collect t live).value
    (collected.1, .collected collected.2)

/-- What the calls return, from the first to the last. -/
def answers (t : FileTree) : List StoreCall → List StoreAnswer
  | [] => []
  | call :: calls => (call.perform t).2 :: answers (call.perform t).1 calls

/-- One call of a store in memory. -/
def performInMemory (m : MemoryStore) : StoreCall → MemoryStore × StoreAnswer
  | save _ task snapshot =>
    let saved := m.save task snapshot
    (saved.1, .saved saved.2)
  | load _ task => (m, .loaded (m.load? task))
  | remove _ task => (m.forget task, .removed (.ok (m.load? task).isSome))
  | collect _ live =>
    let stale := m.snapshots.keys.filter (· ∉ live)
    (stale.foldl MemoryStore.forget m, .collected (.ok stale.length))

def answersInMemory (m : MemoryStore) : List StoreCall → List StoreAnswer
  | [] => []
  | call :: calls => (call.performInMemory m).2 :: answersInMemory (call.performInMemory m).1 calls

/-- The failure of the file system that a result reports. -/
def fileFault? {α : Type} : Except StoreError α → Option FileError
  | .error (.inaccessible _ cause) => some cause
  | _ => none

/-- No call of the file system fails, but there may be no snapshot to load. -/
def Undisturbed (t : FileTree) : StoreCall → Prop
  | save s task snapshot => fileFault? (s.save t task snapshot).value.2 = none
  | load s task =>
    fileFault? (s.readSnapshot t task) = none ∨
      fileFault? (s.readSnapshot t task) = some .notFound
  | remove s task => fileFault? (s.remove t task) = none
  | collect s live => fileFault? (s.collect t live).value.2 = none

instance (t : FileTree) (call : StoreCall) : Decidable (call.Undisturbed t) :=
  match call with
  | save .. | remove .. | collect .. => inferInstanceAs (Decidable (_ = _))
  | load .. => inferInstanceAs (Decidable (_ ∨ _))

/-- No call of the file system fails in a history. -/
def AllUndisturbed (t : FileTree) : List StoreCall → Prop
  | [] => True
  | call :: calls => call.Undisturbed t ∧ AllUndisturbed (call.perform t).1 calls

instance decidableAllUndisturbed (t : FileTree) :
    (calls : List StoreCall) → Decidable (AllUndisturbed t calls)
  | [] => inferInstanceAs (Decidable True)
  | call :: calls =>
    have := decidableAllUndisturbed (call.perform t).1 calls
    inferInstanceAs (Decidable (_ ∧ _))

/-- What is saved is far from the limits of the format. -/
def Fits : StoreCall → Prop
  | save s task snapshot => SnapshotFile.Fits s.producer task snapshot
  | load .. | remove .. | collect .. => True

instance (call : StoreCall) : Decidable call.Fits :=
  match call with
  | save s task snapshot => inferInstanceAs (Decidable (SnapshotFile.Fits s.producer task snapshot))
  | load .. | remove .. | collect .. => inferInstanceAs (Decidable True)

/-- No call takes a directory away. -/
theorem keeps_perform (t : FileTree) (call : StoreCall) : t.Keeps (call.perform t).1 := by
  -- The call is opened before anything is compared with it: a digest is not to be computed.
  unfold perform
  cases call with
  | save s task snapshot =>
    dsimp only
    exact s.keeps_save t task snapshot
  | load s task =>
    dsimp only
    exact .refl t
  | remove s task =>
    dsimp only
    split
    · next h => exact DirectoryStore.keeps_remove h
    · exact .refl t
  | collect s live =>
    dsimp only
    exact s.keeps_collect t live

end StoreCall

end Recompile
