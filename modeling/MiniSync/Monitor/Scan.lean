import MiniSync.Lib.Prog
import MiniSync.Monitor.Tables
import MiniSync.Paths

/-!
# The scans of the source directory

The recursive functions of `monitor.c`: watching a directory with everything
below it, reporting all of it, and comparing it with the snapshots.

A directory stream has one user, which passes along the names it has been given
so far.  Whatever a call answers is left open here.
-/

namespace MiniSync.Monitor

/-- What `lstat` and `stat` fill in. -/
structure StatBuf where
  st_size : Int
  st_mode : UInt32
  st_mtime : Int
  deriving DecidableEq

/-- `S_ISDIR(st.st_mode)` -/
def StatBuf.isDir (st : StatBuf) : Bool := sIsDir st.st_mode

theorem StatBuf.isDir_eq (st : StatBuf) : st.isDir = sIsDir st.st_mode := rfl

/-- The calls of the monitor; `Dir` is an open directory stream. -/
inductive MonitorCall (Dir : Type)
  | opendir (path : Bytes)
  | readdir (dp : Dir) (returned : List Bytes)
  | lstat (path : Bytes)
  | stat (path : Bytes)
  | inotifyAddWatch (path : Bytes)
  /-- `write_full` of one task to the event pipe. -/
  | emitTask (task : SyncTask)
  | currentTimeMs

/-- The response to each call. -/
def MonitorResp {Dir : Type} : MonitorCall Dir → Type
  | .opendir _ => Option Dir
  | .readdir _ _ => Option Bytes
  | .lstat _ => Option StatBuf
  | .stat _ => Option StatBuf
  | .inotifyAddWatch _ => Option Int
  | .emitTask _ => Rc
  | .currentTimeMs => Int

abbrev MonitorProg (Dir : Type) := Prog (MonitorCall Dir) MonitorResp

variable {Dir V : Type}

/-- Issue one call. -/
abbrev mcall (c : MonitorCall Dir) : MonitorProg Dir (MonitorResp c) := Prog.op c

/-- The static variables that the scans change. -/
structure MonitorVars where
  watch_items : WatchTable
  snapshots : SnapshotTable
  /-- `g_inotify_fd >= 0` -/
  inotifyOpen : Bool

def isDirectory (path : Bytes) : MonitorProg Dir Bool := do
  match ← mcall (.stat path) with
  | none => return false
  | some st => return sIsDir st.st_mode

def buildTaskFromPath (event_type : EventType) (root path : Bytes) :
    MonitorProg Dir (Option BuiltTask) :=
  match PathBuf.ofBytes? path with
  | none => return none
  | some src_path =>
      match (getRelativePath root path).bind PathBuf.ofBytes? with
      | none => return none
      | some rel_path => do
          let task := { initSyncTask with event_type, src_path, rel_path }
          match ← mcall (.lstat path) with
          | none => return some { task with is_dir_eq := sIsDir_zero.symm }
          | some st =>
              return some { task with
                file_size := st.st_size
                mode := st.st_mode
                mtime := st.st_mtime
                is_dir := sIsDir st.st_mode
                is_dir_eq := rfl }

/-- The loop over the entries of `dir` that the three scans share: `.` and `..`
and names that do not fit are passed over. -/
def forEachEntry (dir : Bytes) (dp : Dir) (body : Bytes → V → MonitorProg Dir V) :
    Nat → List Bytes → V → MonitorProg Dir V
  | 0, _, _ => .spin
  | fuel + 1, returned, v => do
      match ← mcall (.readdir dp returned) with
      | none => return v
      | some name =>
          if name = [dot] ∨ name = [dot, dot] then
            forEachEntry dir dp body fuel (returned ++ [name]) v
          else
            match joinPath dir name with
            | none => forEachEntry dir dp body fuel (returned ++ [name]) v
            | some path => do
                let v ← body path v
                forEachEntry dir dp body fuel (returned ++ [name]) v

def addWatchRecursive : Nat → Bytes → WatchTable → MonitorProg Dir (Rc × WatchTable)
  | 0, _, _ => .spin
  | fuel + 1, dir_path, table => do
      match ← mcall (.opendir dir_path) with
      | none => return (.err, table)
      | some dir =>
          match ← mcall (.inotifyAddWatch dir_path) with
          | none => return (.err, table)
          | some wd =>
              let table ← forEachEntry dir_path dir (fun child table => do
                if ← isDirectory child then
                  let (_, table) ← addWatchRecursive fuel child table
                  return table
                else return table) fuel [] (addWatchItem table wd dir_path).2
              return (.ok, table)

/-- The entry that is found, else the first unused one. -/
def snapshotSlot (table : SnapshotTable) (rel_path : PathBuf) : Option Nat :=
  match snapshotFind table rel_path with
  | some idx => some idx
  | none => snapshotAlloc table

/-- What the full scan records of a task it has emitted. -/
def recordSnapshot (table : SnapshotTable) (task : BuiltTask) : SnapshotTable :=
  match snapshotSlot table task.rel_path with
  | none => table
  | some idx => snapshotUpdateFromTask table idx task

def scanDirectoryAndEmitTasks (root : Bytes) :
    Nat → Bytes → MonitorVars → MonitorProg Dir (Rc × MonitorVars)
  | 0, _, _ => .spin
  | fuel + 1, dir, vars => do
      match ← mcall (.opendir dir) with
      | none => return (.err, vars)
      | some dp =>
          let vars ← forEachEntry dir dp (fun path vars => do
            let vars ← (do
              match ← buildTaskFromPath .fullscan root path with
              | none => return vars
              | some task =>
                  let _ ← mcall (.emitTask task.toSyncTask)
                  return { vars with snapshots := recordSnapshot vars.snapshots task })
            if ← isDirectory path then
              let vars ← (do
                if vars.inotifyOpen then
                  let (_, watch_items) ← addWatchRecursive fuel path vars.watch_items
                  return { vars with watch_items }
                else return vars)
              let (_, vars) ← scanDirectoryAndEmitTasks root fuel path vars
              return vars
            else return vars) fuel [] vars
          return (.ok, vars)

/-! ## The polling scan -/

/-- A task and a snapshot differ in what the polling scan compares. -/
def FileSnapshot.differs (entry : FileSnapshot) (task : SyncTask) : Bool :=
  entry.size ≠ task.file_size || entry.mtime ≠ task.mtime || entry.mode ≠ task.mode

/-- `snapshots[idx].seen = 1` -/
def markSeen (table : SnapshotTable) (idx : Nat) : SnapshotTable :=
  ⟨table.slots.modify idx (Option.map fun entry => { entry with seen := true }), by
    rw [List.length_modify, table.length_eq]⟩

/-- One entry of a directory, compared with its snapshot. -/
def pollEntry (task : BuiltTask) (table : SnapshotTable) : MonitorProg Dir SnapshotTable :=
  match snapshotFind table task.rel_path with
  | none =>
      match snapshotAlloc table with
      | none => return table
      | some idx => do
          let task := { task with event_type := .create }
          let _ ← mcall (.emitTask task.toSyncTask)
          return snapshotUpdateFromTask table idx task
  | some idx => do
      let table := markSeen table idx
      if (table.slots[idx]?.join).any (·.differs task.toSyncTask) then
        let task := { task with event_type := .modify }
        let _ ← mcall (.emitTask task.toSyncTask)
        return snapshotUpdateFromTask table idx task
      else return table

def pollScanPath (root : Bytes) : Nat → Bytes → SnapshotTable → MonitorProg Dir SnapshotTable
  | 0, _, _ => .spin
  | fuel + 1, dir, table => do
      match ← mcall (.opendir dir) with
      | none => return table
      | some dp =>
          forEachEntry dir dp (fun path table => do
            match ← buildTaskFromPath .modify root path with
            | none => return table
            | some task =>
                let table ← pollEntry task table
                if task.is_dir then pollScanPath root fuel path table
                else return table) fuel [] table

/-- The DELETE that the polling scan emits for an entry it has not seen. -/
def FileSnapshot.deleteTask (entry : FileSnapshot) : SyncTask :=
  { initSyncTask with
    event_type := .delete
    is_dir := entry.is_dir
    rel_path := entry.rel_path
    src_path := entry.src_path }

/-- Emit and clear the entries not seen, slot after slot from `idx`. -/
def sweepUnseen : Nat → Nat → SnapshotTable → MonitorProg Dir SnapshotTable
  | 0, _, table => return table
  | left + 1, idx, table =>
      match table.slots[idx]?.join with
      | none => sweepUnseen left (idx + 1) table
      | some entry =>
          if entry.seen then sweepUnseen left (idx + 1) table
          else do
            let _ ← mcall (.emitTask entry.deleteTask)
            sweepUnseen left (idx + 1) (table.set idx none)

def pollScanAndEmitChanges (fuel : Nat) (root : Bytes) (table : SnapshotTable) :
    MonitorProg Dir SnapshotTable := do
  let table ← pollScanPath root fuel root (snapshotMarkAllUnseen table)
  sweepUnseen maxSnapshots 0 table

end MiniSync.Monitor
