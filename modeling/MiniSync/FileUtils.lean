import MiniSync.Hash
import MiniSync.Paths

/-!
# File utilities

The functions of `file_utils.c` that touch the file system.  `fuel` bounds each
read or write loop.
-/

namespace MiniSync

variable {Fd : Type}

/-! ## Directories -/

/-- `mkdir(path, 0755) < 0 && errno != EEXIST` for each path in turn. -/
def mkdirEach : List Bytes → Sys Fd Rc
  | [] => return .ok
  | path :: rest => do
      match ← sys (.mkdir path) with
      | .ok _ => mkdirEach rest
      | .error .exist => mkdirEach rest
      | .error _ => return .err

def ensureDirExists (dir : Bytes) : Sys Fd Rc :=
  if dir = [] then return .err
  else if dir.length ≥ maxPathLen then return .err
  else mkdirEach (dirsToMake dir)

def ensureParentDirExists (file_path : Bytes) : Sys Fd Rc :=
  if file_path.length ≥ maxPathLen then return .err
  else
    match parentPart file_path with
    | none => return .ok
    | some parent => ensureDirExists parent

theorem ensureDirExists_eq {dir : Bytes} (hdir : dir ≠ []) (hlen : dir.length < maxPathLen) :
    (ensureDirExists dir : Sys Fd Rc) = mkdirEach (dirsToMake dir) := by
  unfold ensureDirExists
  rw [if_neg hdir, if_neg (by omega)]

theorem ensureParentDirExists_eq {file_path : Bytes} (hlen : file_path.length < maxPathLen) :
    (ensureParentDirExists file_path : Sys Fd Rc) = mkdirEach (parentDirs file_path) := by
  unfold ensureParentDirExists parentDirs
  rw [if_neg (by omega)]
  cases hparent : parentPart file_path with
  | none => rfl
  | some parent =>
      exact ensureDirExists_eq (parentPart_ne_nil hparent)
        (lt_of_le_of_lt (parentPart_length_le hparent) hlen)

theorem all_mkdirEach {P : Call Fd → Prop} {dirs : List Bytes} (h : ∀ d ∈ dirs, P (.mkdir d)) :
    (mkdirEach dirs : Sys Fd Rc).All P fun _ => True := by
  induction dirs with
  | nil => trivial
  | cons d dirs ih =>
      have hrest := ih fun e he => h e (List.mem_cons_of_mem _ he)
      refine Prog.All.op_bind (h d List.mem_cons_self) fun r => ?_
      split
      · exact hrest
      · exact hrest
      · trivial

/-- Directories are made on the way to `dir` only. -/
theorem all_ensureDirExists {P : Call Fd → Prop} {dir : Bytes}
    (h : ∀ d, Leads d dir → P (.mkdir d)) :
    (ensureDirExists dir : Sys Fd Rc).All P fun _ => True := by
  unfold ensureDirExists
  split_ifs
  · trivial
  · trivial
  · exact all_mkdirEach fun d hd => h d (leads_of_mem_dirsToMake hd)

theorem all_ensureParentDirExists_on {P : Call Fd → Prop} {file_path : Bytes}
    (h : ∀ d ∈ parentDirs file_path, P (.mkdir d)) :
    (ensureParentDirExists file_path : Sys Fd Rc).All P fun _ => True := by
  unfold ensureParentDirExists
  unfold parentDirs at h
  split_ifs
  · trivial
  · cases hparent : parentPart file_path with
    | none => trivial
    | some parent =>
        rw [hparent] at h
        unfold ensureDirExists
        simp only
        split_ifs
        · trivial
        · trivial
        · exact all_mkdirEach h

theorem all_ensureParentDirExists {P : Call Fd → Prop} (file_path : Bytes)
    (h : ∀ d, P (.mkdir d)) : (ensureParentDirExists file_path : Sys Fd Rc).All P fun _ => True :=
  all_ensureParentDirExists_on fun d _ => h d

def isRegularFile (path : Bytes) : Sys Fd Bool := do
  match ← sys (.stat path) with
  | .ok (.regular _) => return true
  | _ => return false

def isDirectory (path : Bytes) : Sys Fd Bool := do
  match ← sys (.stat path) with
  | .ok .directory => return true
  | _ => return false

/-- What `st_size` says of a directory on ext4. -/
def dirSize : Nat := 4096

def getFileSize (path : Bytes) : Sys Fd (Option Nat) := do
  match ← sys (.stat path) with
  | .ok (.regular size) => return some size
  | .ok .directory => return some dirSize
  | .error _ => return none

/-! ## Copying -/

/-- The inner loop of `copy_file_plain`: `write` until nothing is left. -/
def writeLoop (out : Fd) : Nat → Nat → Bytes → Sys Fd Rc
  | 0, _, _ => .spin
  | fuel + 1, pos, left => do
      if left = [] then return .ok
      match ← sys (.pwrite out left pos) with
      | .error .intr => writeLoop out fuel pos left
      | .error _ => return .err
      | .ok written => writeLoop out fuel (pos + written) (left.drop written)

/-- The outer loop of `copy_file_plain`; both descriptors stand at `pos`. -/
def copyLoop (in_ out : Fd) : Nat → Nat → Sys Fd Rc
  | 0, _ => .spin
  | fuel + 1, pos => do
      match ← sys (.read in_ pos ioBufSize) with
      | .error .intr => copyLoop in_ out fuel pos
      | .error _ => return .err
      | .ok buf =>
          if buf = [] then return .ok
          match ← writeLoop out fuel pos buf with
          | .err => return .err
          | .ok => copyLoop in_ out fuel (pos + buf.length)

def copyFilePlain (fuel : Nat) (src dst : Bytes) : Sys Fd Rc := do
  match ← sys (.openFile src .readOnly) with
  | .error _ => return .err
  | .ok in_ =>
      match ← ensureParentDirExists dst with
      | .err =>
          sys (.close in_)
          return .err
      | .ok =>
          match ← sys (.openFile dst (.writeCreateTrunc 0o644)) with
          | .error _ =>
              sys (.close in_)
              return .err
          | .ok out =>
              let copied ← copyLoop in_ out fuel 0
              let synced ← sys (.fsync out)
              sys (.close out)
              sys (.close in_)
              return if synced.isOk then copied else .err

def safeRenameOrCopyUnlink (fuel : Nat) (src dst : Bytes) : Sys Fd Rc := do
  match ← ensureParentDirExists dst with
  | .err => return .err
  | .ok =>
      match ← sys (.rename src dst) with
      | .ok _ => return .ok
      | .error .xdev =>
          -- rename cannot cross file systems: copy completely, then unlink the source
          match ← copyFilePlain fuel src dst with
          | .err => return .err
          | .ok =>
              match ← sys (.unlink src) with
              | .ok _ => return .ok
              | .error _ => return .err
      | .error _ => return .err

def copyFileAtomic (fuel : Nat) (src dst : Bytes) : Sys Fd Rc := do
  match syncingPath dst with
  | none => return .err
  | some tmp =>
      match ← copyFilePlain fuel src tmp with
      | .err =>
          let _ ← sys (.unlink tmp)
          return .err
      | .ok =>
          match ← safeRenameOrCopyUnlink fuel tmp dst with
          | .err =>
              let _ ← sys (.unlink tmp)
              return .err
          | .ok => return .ok

def setFileMetadata (path : Bytes) (mode : UInt32) (mtime : Int64) : Sys Fd Unit := do
  let _ ← sys (.chmod path (mode &&& 0o7777))
  let _ ← sys (.utime path mtime)
  return ()

/-! ## Versions and trash -/

/-- A decimal number with at least `width` digits, as `%0*d` prints it. -/
def decimal (width n : Nat) : Bytes :=
  let digits := (Nat.toDigits 10 n).map Char.toUInt8
  List.replicate (width - digits.length) 48 ++ digits

/-- `strftime("%Y-%m-%d_%H-%M-%S")` -/
def timestampDirname (tm : Tm) : Bytes :=
  let dash : Byte := 45
  let underscore : Byte := 95
  decimal 1 tm.year ++ dash :: decimal 2 tm.mon ++ dash :: decimal 2 tm.mday ++
    underscore :: decimal 2 tm.hour ++ dash :: decimal 2 tm.min ++ dash :: decimal 2 tm.sec

/-- `make_timestamp_dirname` into a buffer of 64 bytes. -/
def makeTimestampDirname : Sys Fd (Option Bytes) := do
  let tm ← sys .localtime
  let stamp := timestampDirname tm
  return if stamp.length < 64 then some stamp else none

theorem all_isDirectory {P : Call Fd → Prop} {path : Bytes} (h : P (.stat path)) :
    (isDirectory path : Sys Fd Bool).All P fun _ => True := by
  refine Prog.All.op_bind h fun r => ?_
  split <;> trivial

theorem all_makeTimestampDirname {P : Call Fd → Prop} (h : P .localtime) :
    (makeTimestampDirname : Sys Fd (Option Bytes)).All P
      fun stamp => ∀ s, stamp = some s → ∃ tm, s = timestampDirname tm := by
  unfold makeTimestampDirname
  refine Prog.All.op_bind h fun tm => ?_
  intro s hs
  rw [Option.ite_none_right_eq_some] at hs
  exact ⟨tm, (Option.some.inj hs.2).symm⟩

/-- `root/<area>/<stamp>/rel`, where the area is `.versions` or `.trash`. -/
def stampedPath (area root stamp rel_path : Bytes) : Option Bytes := do
  let areaRoot ← joinPath root area
  let stampDir ← joinPath areaRoot stamp
  joinPath stampDir rel_path

def backupOldVersion (fuel : Nat) (backup_root rel_path : Bytes) : Sys Fd Rc := do
  match currentPath backup_root rel_path with
  | none => return .err
  | some src =>
      if !(← sys (.access src)) then return .ok
      match (← makeTimestampDirname).bind (stampedPath versionsName backup_root · rel_path) with
      | none => return .err
      | some dst =>
          if ← isDirectory src then ensureDirExists dst
          else copyFileAtomic fuel src dst

def moveToTrash (fuel : Nat) (backup_root rel_path : Bytes) : Sys Fd Rc := do
  match currentPath backup_root rel_path with
  | none => return .err
  | some src =>
      if !(← sys (.access src)) then return .ok
      match (← makeTimestampDirname).bind (stampedPath trashName backup_root · rel_path) with
      | none => return .err
      | some dst => safeRenameOrCopyUnlink fuel src dst

end MiniSync
