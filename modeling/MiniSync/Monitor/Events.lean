import MiniSync.Monitor.Scan

/-!
# The events of the monitor

`handle_event`, and the branch of `monitor_process` that is taken when `select` times
out, without the polling scan.  One record remembers the path that has been moved away
last, until its new path is known or two seconds have passed.
-/

namespace MiniSync.Monitor

open Prog

/-! ## inotify -/

/-- `IN_MODIFY` -/
def inModify : UInt32 := 0x2

/-- `IN_CLOSE_WRITE` -/
def inCloseWrite : UInt32 := 0x8

/-- `IN_MOVED_FROM` -/
def inMovedFrom : UInt32 := 0x40

/-- `IN_MOVED_TO` -/
def inMovedTo : UInt32 := 0x80

/-- `IN_CREATE` -/
def inCreate : UInt32 := 0x100

/-- `IN_DELETE` -/
def inDelete : UInt32 := 0x200

/-- `IN_ISDIR` -/
def inIsDir : UInt32 := 0x40000000

/-- `struct inotify_event`; `name` is what a C function sees of the name. -/
structure InotifyEvent where
  wd : Int
  mask : UInt32
  cookie : UInt32
  len : UInt32
  name : Bytes
  deriving DecidableEq

/-- `ev->mask & bit` -/
def InotifyEvent.has (ev : InotifyEvent) (bit : UInt32) : Bool := ev.mask &&& bit ≠ 0

structure MoveRecord where
  cookie : UInt32
  old_path : PathBuf
  old_rel_path : PathBuf
  is_dir : Bool
  ts_ms : Int

/-- `memset(move, 0, sizeof(*move))` -/
def MoveRecord.zero : MoveRecord := ⟨0, .empty, .empty, false, 0⟩

/-! ## `handle_event` -/

variable {Dir : Type}

/-- `rel` in `get_relative_path`, for a path that begins with the root. -/
def partBelow (root path : Bytes) : Bytes :=
  let rel := path.drop (stripTrailingSlashes root).length
  let rel := if rel.head? = some slash then rel.tail else rel
  if rel = [] then [dot] else rel

/-- What `get_relative_path` leaves in a zeroed buffer, also where it fails. -/
def relativePathBuffer (root path : Bytes) : PathBuf :=
  if (stripTrailingSlashes root).isPrefixOf path then
    ⟨(cString (partBelow root path)).take (maxPathLen - 1), by
      rw [List.length_take]
      have hpos : maxPathLen - 1 < maxPathLen := by decide
      omega, fun h => nul_notMem_cString _ (List.mem_of_mem_take h)⟩
  else .empty

/-- The path below the source, where it fits and passes. -/
def relativePath (root : Bytes) (path : PathBuf) : Option PathBuf :=
  (getRelativePath root path.bytes).bind PathBuf.ofBytes?

/-- `join_path(path, sizeof(path), parent, ev->name)` -/
def eventPath (parent : Bytes) (ev : InotifyEvent) : Option PathBuf :=
  (joinPath parent ev.name).bind PathBuf.ofBytes?

def emitDeleteTask (root : Bytes) (path : PathBuf) (is_dir : Bool) : MonitorProg Dir Rc :=
  match relativePath root path with
  | none => return .err
  | some rel_path =>
      mcall (.emitTask
        { initSyncTask with event_type := .delete, is_dir, src_path := path, rel_path })

/-- `if (build_task_from_path(..) == 0) emit_task(..)` -/
def emitBuilt (event_type : EventType) (root : Bytes) (path : PathBuf) : MonitorProg Dir Unit := do
  match ← buildTaskFromPath event_type root path.bytes with
  | none => return ()
  | some task =>
      let _ ← mcall (.emitTask task.toSyncTask)
      return ()

/-- A directory that has come into the tree is watched and scanned at once. -/
def watchAndScan (root : Bytes) (fuel : Nat) (path : PathBuf) (is_dir : Bool)
    (vars : MonitorVars) : MonitorProg Dir MonitorVars := do
  if is_dir then
    let (_, watch_items) ← addWatchRecursive fuel path.bytes vars.watch_items
    let (_, vars) ← scanDirectoryAndEmitTasks root fuel path.bytes { vars with watch_items }
    return vars
  else return vars

/-- The task of an `IN_MOVED_TO`, with the old path where the record has it. -/
def MoveRecord.complete (move : MoveRecord) (cookie : UInt32) (task : SyncTask) : SyncTask :=
  if move.cookie ≠ 0 ∧ move.cookie = cookie then
    { task with old_rel_path := move.old_rel_path }
  else task

/-- `handle_event` once the path is known. -/
def handlePathEvent (root : Bytes) (fuel : Nat) (ev : InotifyEvent) (path : PathBuf)
    (vars : MonitorVars) (move : MoveRecord) :
    MonitorProg Dir (Rc × MonitorVars × MoveRecord) := do
  let is_dir := ev.has inIsDir
  if ev.has inMovedFrom then
    let ts_ms : Int ← mcall .currentTimeMs
    let old_rel_path := relativePathBuffer root path.bytes
    return (.ok, vars, { cookie := ev.cookie, is_dir, ts_ms, old_path := path, old_rel_path })
  else if ev.has inMovedTo then
    match ← buildTaskFromPath .rename root path.bytes with
    | none => return (.err, vars, move)
    | some task =>
        let _ ← mcall (.emitTask (move.complete ev.cookie task.toSyncTask))
        let vars ← watchAndScan root fuel path is_dir vars
        return (.ok, vars, .zero)
  else if ev.has inDelete then
    let _ ← emitDeleteTask root path is_dir
    return (.ok, vars, move)
  else if ev.has inCreate then
    emitBuilt .create root path
    let vars ← watchAndScan root fuel path is_dir vars
    return (.ok, vars, move)
  else if (ev.has inCloseWrite || ev.has inModify) && !is_dir then
    emitBuilt .modify root path
    return (.ok, vars, move)
  else return (.ok, vars, move)

def handleEvent (root : Bytes) (fuel : Nat) (ev : InotifyEvent) (vars : MonitorVars)
    (move : MoveRecord) : MonitorProg Dir (Rc × MonitorVars × MoveRecord) :=
  match findPathByWd vars.watch_items ev.wd with
  | none => return (.ok, vars, move)
  | some parent =>
      if ev.len = 0 then return (.ok, vars, move)
      else
        match eventPath parent ev with
        | none => return (.err, vars, move)
        | some path => handlePathEvent root fuel ev path vars move

/-- What `monitor_process` does with the record when `select` times out. -/
def expireMove (root : Bytes) (move : MoveRecord) : MonitorProg Dir MoveRecord := do
  if move.cookie ≠ 0 then
    let now : Int ← mcall .currentTimeMs
    if now - move.ts_ms > 2000 then
      let _ ← emitDeleteTask root move.old_path move.is_dir
      return .zero
    else return move
  else return move

/-! ## The relative path in the record -/

section RelativePath

variable {root : Bytes} {path rel : PathBuf}

theorem getRelativePath_eq (root path : Bytes) :
    getRelativePath root path =
      if (stripTrailingSlashes root).isPrefixOf path then
        if (partBelow root path).length ≥ maxPathLen then none
        else if sanitizeRelPath (partBelow root path) = .err then none
        else some (partBelow root path)
      else none :=
  rfl

theorem nul_notMem_partBelow (root : Bytes) (path : PathBuf) :
    nul ∉ partBelow root path.bytes := by
  have hdrop : nul ∉ path.bytes.drop (stripTrailingSlashes root).length :=
    fun hmem => path.noNul (List.mem_of_mem_drop hmem)
  unfold partBelow
  dsimp only
  split_ifs
  · decide
  · exact fun hmem => hdrop (List.mem_of_mem_tail hmem)
  · decide
  · exact hdrop

/-- Where the relative path passes, it is what the buffer holds. -/
theorem relativePathBuffer_of_relativePath (h : relativePath root path = some rel) :
    relativePathBuffer root path.bytes = rel ∧ rel ≠ .empty := by
  obtain ⟨bytes, hbytes, hrel⟩ := Option.bind_eq_some_iff.mp h
  rw [getRelativePath_eq, Option.ite_none_right_eq_some, Option.ite_none_left_eq_some,
    Option.ite_none_left_eq_some, Option.some_inj] at hbytes
  obtain ⟨hroot, hfits, hsane, rfl⟩ := hbytes
  have hself := cString_of_nul_notMem (nul_notMem_partBelow root path)
  unfold PathBuf.ofBytes? at hrel
  rw [Option.dite_none_right_eq_some] at hrel
  obtain ⟨hlt, heq⟩ := hrel
  have hcontent : rel.bytes = partBelow root path.bytes := by
    rw [← Option.some.inj heq]
    exact hself
  refine ⟨PathBuf.eq_of_bytes_eq ?_, ?_⟩
  · unfold relativePathBuffer
    rw [if_pos hroot]
    dsimp only
    rw [hself, hcontent, List.take_of_length_le]
    rw [hself] at hlt
    omega
  · rintro rfl
    apply hsane
    rw [← hcontent]
    decide

end RelativePath

end MiniSync.Monitor
