import Recompile.Log
import Recompile.Store.Error
import Recompile.Snapshot

/-!
# Snapshot stores

A store keeps one snapshot for each task. Loading never fails: a snapshot that cannot be used is as
good as none. Saving can fail, and then it is meant to leave the snapshot that was there.
-/

namespace Recompile

class SnapshotStore (σ : Type) where
  /-- The snapshot of a task, if there is one that can be used. -/
  load : σ → (task : String) → Logged (Option Snapshot)
  /-- Replaces the snapshot of a task; the store afterwards, and whether it worked. -/
  save : σ → (task : String) → Snapshot → Logged (σ × Except StoreError Unit)

end Recompile
