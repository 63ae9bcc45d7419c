import MiniSync.FileUtils
import MiniSync.NetUtils
import MiniSync.Task

/-!
# Sending to a server

The client side of the protocol in `transfer.c`: requests of one message, small
files in one block, and large files, for which the client asks for the offset the
server has reached and sends the rest in blocks.
-/

namespace MiniSync

variable {Fd : Type}

/-- The part of `ClientConfig` that transfers look at, as `main` accepts it. -/
structure ClientConfig where
  block_size : Nat
  hash_threshold : Nat
  block_size_pos : 0 < block_size
  /-- It is a C `int`. -/
  block_size_lt : block_size < 2 ^ 31
  hash_threshold_pos : 0 < hash_threshold

def waitForAck (fuel : Nat) : Sys Fd Rc := do
  match ← recvHeader fuel with
  | none => return .err
  | some reply =>
      return if reply.msg_type = msgAck ∨ reply.msg_type = msgOffsetReply then .ok else .err

/-- The header of a message that carries a path. -/
def pathHeader (msg_type : UInt32) (rel_path : Bytes) : SyncHeader :=
  { initSyncHeader msg_type with path_len := .ofNat rel_path.length }

def sendHeaderWithPath (fuel : Nat) (msg_type : UInt32) (rel_path : Bytes) : Sys Fd Rc := do
  if (pathHeader msg_type rel_path).path_len.toNat > maxNetPath then return .err
  match ← sendHeader fuel (pathHeader msg_type rel_path) with
  | .err => return .err
  | .ok => sendPath fuel rel_path

/-! ## Requests of one message -/

/-- `if (ok == 0) { ok = next; }` -/
def andThen (rc : Rc) (next : Sys Fd Rc) : Sys Fd Rc :=
  match rc with
  | .err => return .err
  | .ok => next

@[simp] theorem andThen_ok (next : Sys Fd Rc) : andThen .ok next = next := rfl

@[simp] theorem andThen_err (next : Sys Fd Rc) : andThen .err next = Prog.ret .err := rfl

def sendRemoteDelete (fuel : Nat) (task : SyncTask) : Sys Fd Rc := do
  if !(← sys .connect) then return .err
  let rc ← sendHeaderWithPath fuel msgFileDelete task.rel_path.bytes
  andThen rc (waitForAck fuel)

/-- Both paths of a rename, with a NUL between them. -/
def renamePayload (task : SyncTask) : Bytes :=
  task.old_rel_path.bytes ++ nul :: task.rel_path.bytes

def sendRemoteRename (fuel : Nat) (task : SyncTask) : Sys Fd Rc := do
  if task.old_rel_path.bytes = [] then return .err
  if (renamePayload task).length > maxNetPath then return .err
  if !(← sys .connect) then return .err
  let header :=
    { initSyncHeader msgFileRename with path_len := .ofNat (renamePayload task).length }
  let rc ← sendHeader fuel header
  let rc ← andThen rc (writeFull fuel (renamePayload task))
  andThen rc (waitForAck fuel)

/-- `S_IFDIR` -/
def dirMode : UInt32 := 0o040000

/-- The header of a message that carries the path and the metadata of a task. -/
def beginHeader (task : SyncTask) : SyncHeader :=
  { initSyncHeader msgFileBegin with
    path_len := .ofNat task.rel_path.bytes.length
    mode := task.mode
    mtime := .ofInt task.mtime }

def sendRemoteDirCreate (fuel : Nat) (task : SyncTask) : Sys Fd Rc := do
  if !(← sys .connect) then return .err
  let rc ← sendHeader fuel { beginHeader task with mode := task.mode ||| dirMode }
  let rc ← andThen rc (sendPath fuel task.rel_path.bytes)
  andThen rc (waitForAck fuel)

/-! ## Blocks -/

/-- The header that `send_file_block` sends before `buf`. -/
def fileBlockHeader (task : SyncTask) (total_hash offset : UInt64) (buf : Bytes) : SyncHeader :=
  { initSyncHeader msgFileBlock with
    file_size := .ofInt task.file_size
    offset := offset
    data_len := .ofNat buf.length
    mode := task.mode
    mtime := .ofInt task.mtime
    total_hash := total_hash
    block_hash := hashBufferFnv1a buf }

def sendFileBlock (fuel : Nat) (task : SyncTask) (total_hash offset : UInt64) (buf : Bytes) :
    Sys Fd Rc := do
  match ← sendHeader fuel (fileBlockHeader task total_hash offset buf) with
  | .err => return .err
  | .ok => writeFull fuel buf

/-- The header that `send_file_end` sends. -/
def fileEndHeader (task : SyncTask) (total_hash : UInt64) : SyncHeader :=
  { initSyncHeader msgFileEnd with
    file_size := .ofInt task.file_size
    offset := .ofInt task.file_size
    mode := task.mode
    mtime := .ofInt task.mtime
    total_hash := total_hash }

def sendFileEnd (fuel : Nat) (task : SyncTask) (total_hash : UInt64) : Sys Fd Rc :=
  sendHeader fuel (fileEndHeader task total_hash)

/-! ## Small files -/

/-- `(size_t)task->file_size` -/
def taskSize (task : SyncTask) : Nat := (task.file_size % 2 ^ 64).toNat

/-- The first message of a small file. -/
def fileBeginHeader (task : SyncTask) (total_hash : UInt64) : SyncHeader :=
  { beginHeader task with
    file_size := .ofInt task.file_size
    total_hash := total_hash }

/-- The one block of a small file, whose length is cut to 32 bits, and the end. -/
def sendWholeFile (fuel : Nat) (task : SyncTask) (total_hash : UInt64) (in_ : Fd) : Sys Fd Rc := do
  let size := taskSize task
  if !(← sys (.malloc (if size = 0 then 1 else size))) then return .err
  if size = 0 then
    let rc ← sendFileEnd fuel task total_hash
    andThen rc (waitForAck fuel)
  else
    match ← readFull fuel (.file in_ 0) size with
    | none => return .err
    | some buf =>
        let rc ← sendFileBlock fuel task total_hash 0 (buf.take (size % 2 ^ 32))
        let rc ← andThen rc (sendFileEnd fuel task total_hash)
        andThen rc (waitForAck fuel)

def sendRemoteSmallFile (fuel : Nat) (task : SyncTask) : Sys Fd Rc := do
  if !(← sys .connect) then return .err
  let total_hash ← hashFileFnv1a fuel task.src_path.bytes
  let rc ← sendHeader fuel (fileBeginHeader task total_hash)
  let rc ← andThen rc (sendPath fuel task.rel_path.bytes)
  if rc = .err then return .err
  match ← sys (.openFile task.src_path.bytes .readOnly) with
  | .error _ => return .err
  | .ok in_ =>
      let sent ← sendWholeFile fuel task total_hash in_
      sys (.close in_)
      return sent

/-! ## Large files -/

def queryRemoteOffset (fuel : Nat) (task : SyncTask) : Sys Fd (Option UInt64) := do
  match ← sendHeaderWithPath fuel msgQueryOffset task.rel_path.bytes with
  | .err => return none
  | .ok =>
      match ← recvHeader fuel with
      | none => return none
      | some reply => return if reply.msg_type = msgOffsetReply then some reply.offset else none

/-- The loop that sends the file from where its descriptor stands; `at_` is the
offset of the descriptor and `pos` the offset that is announced. -/
def sendBlocksLoop (config : ClientConfig) (task : SyncTask) (total_hash : UInt64) (in_ : Fd) :
    Nat → Nat → UInt64 → Sys Fd Rc
  | 0, _, _ => .spin
  | fuel + 1, at_, pos => do
      match ← sys (.read in_ at_ config.block_size) with
      | .error .intr => sendBlocksLoop config task total_hash in_ fuel at_ pos
      | .error _ => return .err
      | .ok buf =>
          if buf = [] then return .ok
          match ← sendFileBlock fuel task total_hash pos buf with
          | .err => return .err
          | .ok =>
              sendBlocksLoop config task total_hash in_ fuel (at_ + buf.length)
                (pos + .ofNat buf.length)

/-- The blocks, the end message and the wait for the reply. -/
def sendFromOffset (fuel : Nat) (config : ClientConfig) (task : SyncTask) (total_hash : UInt64)
    (in_ : Fd) (offset : UInt64) : Sys Fd Rc := do
  match ← sendBlocksLoop config task total_hash in_ fuel offset.toNat offset with
  | .err => return .err
  | .ok =>
      match ← sendFileEnd fuel task total_hash with
      | .err => return .err
      | .ok => waitForAck fuel

def sendRemoteLargeFile (fuel : Nat) (config : ClientConfig) (task : SyncTask) : Sys Fd Rc := do
  if !(← sys .connect) then return .err
  match ← queryRemoteOffset fuel task with
  | none => return .err
  | some offset =>
      match ← sys (.openFile task.src_path.bytes .readOnly) with
      | .error _ => return .err
      | .ok in_ =>
          let total_hash ← hashFileFnv1a fuel task.src_path.bytes
          match ← sys (.lseek in_ offset.toInt64.toInt) with
          | .error _ =>
              sys (.close in_)
              return .err
          | .ok _ =>
              if !(← sys (.malloc config.block_size)) then
                sys (.close in_)
                return .err
              let sent ← sendFromOffset fuel config task total_hash in_ offset
              sys (.close in_)
              return sent

/-! ## `sync_task_remote` -/

/-- Where the source is a regular file that can be locked for reading. -/
def withSourceFile (task : SyncTask) (next : Sys Fd Rc) : Sys Fd Rc := do
  -- the source has disappeared
  if !(← isRegularFile task.src_path.bytes) then return .ok
  match ← sys (.openFile task.src_path.bytes .readOnly) with
  | .error _ => return .err
  | .ok lock_fd =>
      if !(← sys (.readLock lock_fd)) then
        sys (.close lock_fd)
        return .err
      sys (.unlockFd lock_fd)
      sys (.close lock_fd)
      next

/-- A directory or a file at its present path. -/
def syncPathRemote (fuel : Nat) (config : ClientConfig) (task : SyncTask) : Sys Fd Rc :=
  if task.is_dir then sendRemoteDirCreate fuel task
  else
    withSourceFile task
      (if task.file_size > config.hash_threshold then sendRemoteLargeFile fuel config task
      else sendRemoteSmallFile fuel task)

def syncTaskRemote (fuel : Nat) (config : ClientConfig) (task : SyncTask) : Sys Fd Rc := do
  if sanitizeRelPath task.rel_path.bytes = .err then return .err
  if task.event_type = .delete then sendRemoteDelete fuel task
  else if task.event_type = .rename ∧ task.old_rel_path.bytes ≠ [] then
    match ← sendRemoteRename fuel task with
    | .ok => return .ok
    | .err => syncPathRemote fuel config task
  else syncPathRemote fuel config task

end MiniSync
