import MiniSync.FileUtils
import MiniSync.NetUtils

/-!
# The server

The handlers of `server.c` and the dispatch loop of a connection.  What a handler
does between taking and giving back `server_file_mutex` is a definition of its
own, which returns the text of the error reply on failure.
-/

namespace MiniSync

variable {Fd : Type}

/-- `S_ISDIR` -/
def isDirMode (mode : UInt32) : Bool := mode &&& 0o170000 = 0o040000

/-- `header->mode ? (mode_t)header->mode : 0644` -/
def openMode (mode : UInt32) : UInt32 := if mode = 0 then 0o644 else mode

def maxBlockLen : Nat := 16 * 1024 * 1024

/-- `(off_t)header->offset` -/
def SyncHeader.offT (header : SyncHeader) : Int := header.offset.toInt64.toInt

/-- `end_header.total_hash ? end_header.total_hash : header->total_hash` -/
def expectedHash (first end_ : SyncHeader) : UInt64 :=
  if end_.total_hash ≠ 0 then end_.total_hash else first.total_hash

/-! ## Receiving blocks -/

def recvFileBlocksUntilEnd (out_fd : Fd) (expected_hash : UInt64) :
    Nat → Sys Fd (Rc × SyncHeader)
  | 0 => .spin
  | fuel + 1 => do
      match ← recvHeader fuel with
      | none => return (.err, .zero)
      | some h =>
          if h.msg_type = msgFileEnd then
            if expected_hash ≠ 0 ∧ h.total_hash ≠ 0 ∧ expected_hash ≠ h.total_hash then
              return (.err, h)
            return (.ok, h)
          if h.msg_type ≠ msgFileBlock ∨ h.data_len = 0 ∨ h.data_len.toNat > maxBlockLen then
            return (.err, .zero)
          if !(← sys (.malloc h.data_len.toNat)) then return (.err, .zero)
          match ← readFull fuel .socket h.data_len.toNat with
          | none => return (.err, .zero)
          | some buf =>
              if h.block_hash ≠ 0 ∧ hashBufferFnv1a buf ≠ h.block_hash then
                return (.err, .zero)
              match ← sys (.pwrite out_fd buf h.offT) with
              | .error _ => return (.err, .zero)
              | .ok written =>
                  if written ≠ h.data_len.toNat then return (.err, .zero)
                  recvFileBlocksUntilEnd out_fd expected_hash fuel

/-- Both paths of a regular upload: `current/rel` and the temporary file next to it. -/
def uploadPaths (root rel_path : Bytes) : Option (Bytes × Bytes) := do
  let dst ← currentPath root rel_path
  let tmp ← syncingPath dst
  return (dst, tmp)

/-- Unlock, and answer the request. -/
def unlockAndReply (fuel : Nat) (outcome : Except Bytes Unit) (ack : UInt64) : Sys Fd Rc := do
  sys .unlockFiles
  match outcome with
  | .ok _ =>
      let _ ← sendAck fuel ack
      return .ok
  | .error message =>
      let _ ← sendError fuel message
      return .err

/-- `fsync` and `close` after the blocks: the new value of `ok`. -/
def syncAndClose (fd : Fd) (received : Rc) : Sys Fd Rc := do
  let synced ← sys (.fsync fd)
  sys (.close fd)
  return if synced.isOk then received else .err

/-- The final rename, and the metadata of the file it puts in place. -/
def publish (fuel : Nat) (header : SyncHeader) (tmp dst : Bytes) : Sys Fd Rc := do
  match ← safeRenameOrCopyUnlink fuel tmp dst with
  | .err => return .err
  | .ok =>
      setFileMetadata dst header.mode header.mtime
      return .ok

/-! ## `server_handle_file_begin` -/

def fileBeginCritical (fuel : Nat) (header : SyncHeader) (root rel_path dst tmp : Bytes) :
    Sys Fd (Except Bytes Unit) := do
  if (← ensureParentDirExists dst) = .err then
    return .error (ascii "prepare destination failed")
  if (← backupOldVersion fuel root rel_path) = .err then
    return .error (ascii "prepare destination failed")
  match ← sys (.openFile tmp (.writeCreateTrunc (openMode header.mode))) with
  | .error _ => return .error (ascii "open temp failed")
  | .ok fd =>
      let failed : Except Bytes Unit := .error (ascii "file receive failed")
      let (received, end_header) ← recvFileBlocksUntilEnd fd header.total_hash fuel
      if (← syncAndClose fd received) = .err then return failed
      let actual_hash ← hashFileFnv1a fuel tmp
      let expected_hash := expectedHash header end_header
      if expected_hash ≠ 0 ∧ actual_hash ≠ expected_hash then return failed
      if (← publish fuel header tmp dst) = .err then return failed
      return .ok ()

def serverHandleFileBegin (fuel : Nat) (header : SyncHeader) (root rel_path : Bytes) :
    Sys Fd Rc := do
  match uploadPaths root rel_path with
  | none =>
      let _ ← sendError fuel (ascii "invalid path")
      return .err
  | some (dst, tmp) =>
      if isDirMode header.mode then
        sys .lockFiles
        let made ← ensureDirExists dst
        unlockAndReply fuel (if made = .ok then .ok () else .error (ascii "mkdir failed")) 0
      else
        sys .lockFiles
        let outcome ← fileBeginCritical fuel header root rel_path dst tmp
        unlockAndReply fuel outcome header.file_size

/-! ## The small requests -/

def serverHandleFileDelete (fuel : Nat) (root rel_path : Bytes) : Sys Fd Rc := do
  sys .lockFiles
  let moved ← moveToTrash fuel root rel_path
  unlockAndReply fuel (if moved = .ok then .ok () else .error (ascii "delete failed")) 0

def renameCritical (fuel : Nat) (old_path new_path : Bytes) : Sys Fd (Except Bytes Unit) := do
  if (← ensureParentDirExists new_path) = .err then return .error (ascii "rename failed")
  if (← safeRenameOrCopyUnlink fuel old_path new_path) = .err then
    return .error (ascii "rename failed")
  return .ok ()

/-- `combined_path` holds the `path_len` bytes of the payload; a NUL follows them. -/
def serverHandleFileRename (fuel : Nat) (root combined_path : Bytes) : Sys Fd Rc := do
  let old_rel := cString combined_path
  if old_rel.length ≥ combined_path.length then
    let _ ← sendError fuel (ascii "invalid rename payload")
    return .err
  let new_rel := cString (combined_path.drop (old_rel.length + 1))
  if old_rel.length + 1 ≥ combined_path.length ∨ sanitizeRelPath old_rel = .err ∨
      sanitizeRelPath new_rel = .err then
    let _ ← sendError fuel (ascii "invalid rename path")
    return .err
  match currentPath root old_rel, currentPath root new_rel with
  | some old_path, some new_path =>
      sys .lockFiles
      let outcome ← renameCritical fuel old_path new_path
      unlockAndReply fuel outcome 0
  | _, _ =>
      let _ ← sendError fuel (ascii "rename path too long")
      return .err

def serverHandleQueryOffset (fuel : Nat) (root rel_path : Bytes) : Sys Fd Rc := do
  match uploadPaths root rel_path with
  | none =>
      let _ ← sendError fuel (ascii "invalid query path")
      return .err
  | some (_, tmp) =>
      let size := (← getFileSize tmp).getD 0
      sendHeader fuel { initSyncHeader msgOffsetReply with offset := .ofNat size }

/-! ## `handle_large_block_stream` -/

/-- The first block, whose header was read by the dispatch loop. -/
def recvFirstBlock (fuel : Nat) (fd : Fd) (first_block : SyncHeader) : Sys Fd Rc := do
  match ← readFull fuel .socket first_block.data_len.toNat with
  | none => return .err
  | some buf =>
      if hashBufferFnv1a buf ≠ first_block.block_hash then return .err
      match ← sys (.pwrite fd buf first_block.offT) with
      | .error _ => return .err
      | .ok written => return if written = first_block.data_len.toNat then .ok else .err

def recvBlockStream (fuel : Nat) (fd : Fd) (first_block : SyncHeader) :
    Sys Fd (Rc × SyncHeader) := do
  match ← recvFirstBlock fuel fd first_block with
  | .err => return (.err, .zero)
  | .ok => recvFileBlocksUntilEnd fd 0 fuel

/-- `expected_hash == 0 || hash_file_fnv1a(tmp) == expected_hash` -/
def hashAgrees (fuel : Nat) (tmp : Bytes) (expected_hash : UInt64) : Sys Fd Bool := do
  if expected_hash = 0 then return true
  return (← hashFileFnv1a fuel tmp) = expected_hash

def blockStreamCritical (fuel : Nat) (first_block : SyncHeader) (root rel_path dst tmp : Bytes) :
    Sys Fd (Except Bytes Unit) := do
  if (← ensureParentDirExists dst) = .err then
    return .error (ascii "prepare destination failed")
  match ← sys (.openFile tmp (.writeCreate (openMode first_block.mode))) with
  | .error _ => return .error (ascii "open temp failed")
  | .ok fd =>
      if !(← sys (.malloc first_block.data_len.toNat)) then
        sys (.close fd)
        return .error (ascii "alloc failed")
      let failed : Except Bytes Unit := .error (ascii "large file receive failed")
      let (received, end_header) ← recvBlockStream fuel fd first_block
      if (← syncAndClose fd received) = .err then return failed
      if (← hashAgrees fuel tmp (expectedHash first_block end_header)) = false then return failed
      -- the result of the backup is not looked at here
      let _ ← backupOldVersion fuel root rel_path
      if (← publish fuel first_block tmp dst) = .err then return failed
      return .ok ()

def handleLargeBlockStream (fuel : Nat) (first_block : SyncHeader) (root rel_path : Bytes) :
    Sys Fd Rc := do
  match uploadPaths root rel_path with
  | none =>
      let _ ← sendError fuel (ascii "invalid path")
      return .err
  | some (dst, tmp) =>
      sys .lockFiles
      let outcome ← blockStreamCritical fuel first_block root rel_path dst tmp
      unlockAndReply fuel outcome first_block.file_size

/-! ## `server_handle_connection` -/

/-- The handler that a message type selects; `rel_path` is the buffer as received. -/
def dispatch (fuel : Nat) (root : Bytes) (header : SyncHeader) (rel_path last_rel_path : Bytes) :
    Sys Fd Rc :=
  let path := cString rel_path
  if header.msg_type = msgHello then sendAck fuel 0
  else if header.msg_type = msgFileBegin then serverHandleFileBegin fuel header root path
  else if header.msg_type = msgQueryOffset then serverHandleQueryOffset fuel root path
  else if header.msg_type = msgFileBlock then
    if last_rel_path = [] then do
      let _ ← sendError fuel (ascii "missing path before block")
      return .err
    else handleLargeBlockStream fuel header root last_rel_path
  else if header.msg_type = msgFileDelete then serverHandleFileDelete fuel root path
  else if header.msg_type = msgFileRename then serverHandleFileRename fuel root rel_path
  else do
    let _ ← sendError fuel (ascii "unknown message type")
    return .err

/-- `header.path_len > 0 && recv_path(...)` into the zeroed `rel_path`. -/
def recvRelPath (fuel : Nat) (header : SyncHeader) : Sys Fd (Option Bytes) :=
  if header.path_len = 0 then return some []
  else recvPath fuel (maxNetPath + 1) header.path_len

/-- `last_rel_path` after a message: uploads and queries set it. -/
def lastRelPath (header : SyncHeader) (rel_path last_rel_path : Bytes) : Bytes :=
  if header.msg_type = msgFileBegin ∨ header.msg_type = msgQueryOffset then cString rel_path
  else last_rel_path

def serverHandleConnectionLoop (fuel : Nat) (root log_path : Bytes) :
    Nat → Bytes → Sys Fd Rc
  | 0, _ => .spin
  | rounds + 1, last_rel_path => do
      match ← recvHeader fuel with
      | none => return .err
      | some header =>
          if header.msg_type = msgExit then return .ok
          match ← recvRelPath fuel header with
          | none =>
              let _ ← sendError fuel (ascii "read path failed")
              return .err
          | some rel_path =>
              let last_rel_path := lastRelPath header rel_path last_rel_path
              let rc ← dispatch fuel root header rel_path last_rel_path
              sys (.appendLog log_path)
              if rc = .err then return .err
              if header.msg_type ≠ msgHello ∧ header.msg_type ≠ msgQueryOffset then return .ok
              serverHandleConnectionLoop fuel root log_path rounds last_rel_path

def serverHandleConnection (fuel : Nat) (root log_path : Bytes) : Sys Fd Rc :=
  serverHandleConnectionLoop fuel root log_path fuel []

end MiniSync
