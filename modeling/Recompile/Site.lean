import Recompile.Settings
import Recompile.Store.Directory
import Recompile.Store.Memory

/-!
# Building sites

A site is a file tree with a snapshot store, in memory or in a directory of the tree. Builds at a
site read the tree and save to the store.
-/

namespace Recompile

inductive TaskStore where
  | memory (store : MemoryStore)
  | directory (store : DirectoryStore)

structure Site where
  tree : FileTree
  store : TaskStore

namespace Site

def load (s : Site) (task : String) : Logged (Option Snapshot) :=
  match s.store with
  | .memory store => pure (store.load? task)
  | .directory store => store.load s.tree task

def save (s : Site) (task : String) (snapshot : Snapshot) :
    Logged (Site × Except StoreError Unit) :=
  match s.store with
  | .memory store =>
    let (store, result) := store.save task snapshot
    pure ({ s with store := .memory store }, result)
  | .directory store => do
    let (tree, result) ← store.save s.tree task snapshot
    pure ({ s with tree }, result)

instance : SnapshotStore Site := ⟨load, save⟩

/-- Drops the snapshot of a task; whether there was one, where the store can tell. -/
def drop (s : Site) (task : String) : Except StoreError (Option Bool × Site) :=
  match s.store with
  | .memory store => .ok (none, { s with store := .memory (store.forget task) })
  | .directory store => do
    let (existed, tree) ← store.remove s.tree task
    .ok (some existed, { s with tree })

/-- Builds a task from the files of the tree. -/
def build (s : Site) (spec : TaskSpec) (compile : Compiler) (watched : PathSet) :
    Logged (Build Site) :=
  Build.execute s.tree.disk s.tree.nameCount s spec compile watched

end Site

end Recompile
