import MiniSync.Lib.Slots
import MiniSync.Task

/-!
# The tables of the monitor

The static arrays of `monitor.c`: the watched directories by watch descriptor,
and the snapshots against which the polling scan compares the source.
-/

namespace MiniSync.Monitor

def maxWatches : Nat := 4096

def maxSnapshots : Nat := 8192

/-! ## Watched directories -/

structure WatchItem where
  wd : Int
  path : Bytes
  deriving DecidableEq

/-- The first `watch_count` elements of `watch_items`. -/
structure WatchTable where
  items : List WatchItem
  length_le : items.length ≤ maxWatches

namespace WatchTable

def empty : WatchTable := ⟨[], Nat.zero_le _⟩

end WatchTable

/-- `add_watch_item`: the path of a known descriptor is replaced, cut off where
it does not fit; a new one takes the next element. -/
def addWatchItem (table : WatchTable) (wd : Int) (path : Bytes) : Rc × WatchTable :=
  if wd < 0 then (.err, table)
  else
    match table.items.findIdx? (fun item => item.wd = wd) with
    | some i =>
        (.ok, ⟨table.items.set i ⟨wd, path.take (maxPathLen - 1)⟩, by
          rw [List.length_set]; exact table.length_le⟩)
    | none =>
        if h : table.items.length < maxWatches then
          if path.length ≥ maxPathLen then (.err, table)
          else (.ok, ⟨table.items ++ [⟨wd, path⟩], by
            rw [List.length_append, List.length_singleton]; exact h⟩)
        else (.err, table)

def findPathByWd (table : WatchTable) (wd : Int) : Option Bytes :=
  (table.items.find? fun item => item.wd = wd).map WatchItem.path

/-! ## Snapshots -/

/-- `S_ISDIR` -/
def sIsDir (mode : UInt32) : Bool := mode &&& 0o170000 = 0o040000

/-- The mode that a failed `lstat` leaves. -/
theorem sIsDir_zero : sIsDir 0 = false := by decide

theorem zero_sIsDir : false = sIsDir 0 := sIsDir_zero.symm

/-- A task made by `build_task_from_path`, which sets `is_dir` from the mode. -/
structure BuiltTask extends SyncTask where
  is_dir_eq : is_dir = sIsDir mode

/-- Snapshots are written from built tasks only. -/
structure FileSnapshot where
  seen : Bool
  rel_path : PathBuf
  src_path : PathBuf
  size : Int
  mtime : Int
  mode : UInt32
  is_dir : Bool
  is_dir_eq : is_dir = sIsDir mode
  deriving DecidableEq

/-- `snapshots`; a slot with `used == 0` is `none`. -/
structure SnapshotTable where
  slots : List (Option FileSnapshot)
  length_eq : slots.length = maxSnapshots

namespace SnapshotTable

def empty : SnapshotTable := ⟨List.replicate maxSnapshots none, List.length_replicate⟩

/-- The used entries. -/
abbrev entries (table : SnapshotTable) : List FileSnapshot := Slots.entries table.slots

def set (table : SnapshotTable) (idx : Nat) (slot : Option FileSnapshot) : SnapshotTable :=
  ⟨table.slots.set idx slot, by rw [List.length_set, table.length_eq]⟩

end SnapshotTable

def snapshotFind (table : SnapshotTable) (rel_path : PathBuf) : Option Nat :=
  Slots.find? (fun entry => entry.rel_path = rel_path) table.slots

def snapshotAlloc (table : SnapshotTable) : Option Nat := Slots.free? table.slots

def snapshotMarkAllUnseen (table : SnapshotTable) : SnapshotTable :=
  ⟨table.slots.map (Option.map fun entry => { entry with seen := false }), by
    rw [List.length_map, table.length_eq]⟩

/-- What `snapshot_update_from_task` writes. -/
def BuiltTask.snapshot (task : BuiltTask) : FileSnapshot where
  seen := true
  rel_path := task.rel_path
  src_path := task.src_path
  size := task.file_size
  mtime := task.mtime
  mode := task.mode
  is_dir := task.is_dir
  is_dir_eq := task.is_dir_eq

def snapshotUpdateFromTask (table : SnapshotTable) (idx : Nat) (task : BuiltTask) :
    SnapshotTable :=
  table.set idx (some task.snapshot)

end MiniSync.Monitor
