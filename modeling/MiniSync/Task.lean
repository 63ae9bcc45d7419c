import MiniSync.Common

/-!
# Synchronisation tasks

The fixed-size record that the monitor writes to the event pipe, and the event
types it may carry (`task.h`).
-/

namespace MiniSync

/-- The event types of `task.h`; `other` is any value the header does not name. -/
inductive EventType
  | create
  | modify
  | delete
  | rename
  | fullscan
  | exit
  | other (code : Int)
  deriving DecidableEq, Repr

def maxRetryCount : Nat := 3

structure SyncTask where
  event_type : EventType
  src_path : PathBuf
  rel_path : PathBuf
  old_rel_path : PathBuf
  file_size : Int
  mode : UInt32
  mtime : Int
  is_dir : Bool
  retry_count : Nat
  deriving DecidableEq

/-- `init_sync_task`: a zeroed record. -/
def initSyncTask : SyncTask where
  event_type := .other 0
  src_path := .empty
  rel_path := .empty
  old_rel_path := .empty
  file_size := 0
  mode := 0
  mtime := 0
  is_dir := false
  retry_count := 0

/-- The file name `a`. -/
def nameA : PathBuf := ⟨ascii "a", by decide, by decide⟩

/-- The task is a DELETE or a RENAME that names `path`, as its own path or as
the path it moves away from. -/
def SyncTask.removes (task : SyncTask) (path : PathBuf) : Prop :=
  (task.event_type = .delete ∨ task.event_type = .rename) ∧
    (task.rel_path = path ∨ task.old_rel_path = path)

instance (task : SyncTask) (path : PathBuf) : Decidable (task.removes path) := by
  unfold SyncTask.removes
  infer_instance

end MiniSync
