import Recompile.Store
import Recompile.Table

/-!
# Stores in memory

A store that holds its snapshots itself. If a failure left it poisoned it holds nothing that can be
loaded, refuses what is saved and forgets nothing.
-/

namespace Recompile

structure MemoryStore where
  snapshots : Table String Snapshot
  /-- Whether something failed while it had the store to itself. -/
  poisoned : Bool

namespace MemoryStore

def empty : MemoryStore := ⟨∅, false⟩

/-- The store after a failure inside of it. -/
def poison (s : MemoryStore) : MemoryStore := { s with poisoned := true }

def load? (s : MemoryStore) (task : String) : Option Snapshot :=
  if s.poisoned then none else s.snapshots.find? task

def save (s : MemoryStore) (task : String) (snapshot : Snapshot) :
    MemoryStore × Except StoreError Unit :=
  if s.poisoned then (s, .error (.poisoned "poisoned lock: another task failed inside"))
  else ({ s with snapshots := s.snapshots.insert task snapshot }, .ok ())

def forget (s : MemoryStore) (task : String) : MemoryStore :=
  if s.poisoned then s else { s with snapshots := s.snapshots.erase task }

instance : SnapshotStore MemoryStore where
  load s task := pure (s.load? task)
  save s task snapshot := pure (s.save task snapshot)

end MemoryStore

end Recompile
