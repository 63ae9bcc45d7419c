import MiniSync.Transfer.Remote

/-!
# Synchronising into a local store

`sync_local_file` and `sync_task_local` of `transfer.c`.
-/

namespace MiniSync

variable {Fd : Type}

def localTargetPath (backup_root rel_path : Bytes) : Option Bytes := currentPath backup_root rel_path

def syncLocalFile (fuel : Nat) (dst_root : Bytes) (task : SyncTask) : Sys Fd Rc :=
  withSourceFile task do
    match localTargetPath dst_root task.rel_path.bytes with
    | none => return .err
    | some dst =>
        if (← backupOldVersion fuel dst_root task.rel_path.bytes) = .err then return .err
        let before ← hashFileFnv1a fuel task.src_path.bytes
        if (← copyFileAtomic fuel task.src_path.bytes dst) = .err then return .err
        let after ← hashFileFnv1a fuel dst
        if before ≠ after then return .err
        setFileMetadata dst task.mode (.ofInt task.mtime)
        return .ok

/-- The rename inside the store that a RENAME task asks for. -/
def renameLocal (fuel : Nat) (dst_root : Bytes) (task : SyncTask) : Sys Fd Rc := do
  match localTargetPath dst_root task.old_rel_path.bytes,
      localTargetPath dst_root task.rel_path.bytes with
  | some old_path, some new_path =>
      if (← ensureParentDirExists new_path) = .err then return .err
      safeRenameOrCopyUnlink fuel old_path new_path
  | _, _ => return .err

/-- A directory or a file at its present path. -/
def syncPathLocal (fuel : Nat) (dst_root : Bytes) (task : SyncTask) : Sys Fd Rc :=
  if task.is_dir then
    match localTargetPath dst_root task.rel_path.bytes with
    | none => return .err
    | some dst => ensureDirExists dst
  else syncLocalFile fuel dst_root task

def syncTaskLocal (fuel : Nat) (dst_root : Bytes) (task : SyncTask) : Sys Fd Rc := do
  if sanitizeRelPath task.rel_path.bytes = .err then return .err
  if task.event_type = .delete then moveToTrash fuel dst_root task.rel_path.bytes
  else if task.event_type = .rename ∧ task.old_rel_path.bytes ≠ [] then
    match ← renameLocal fuel dst_root task with
    | .ok => return .ok
    | .err => syncPathLocal fuel dst_root task
  else syncPathLocal fuel dst_root task

end MiniSync
