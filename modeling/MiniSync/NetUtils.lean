import MiniSync.Protocol

/-!
# Reading and writing messages

The functions of `net_utils.c` that move bytes and headers over a descriptor.
-/

namespace MiniSync

variable {Fd : Type}

/-- What `readn` reads from: the socket, or a file whose offset was `start`. -/
inductive Source (Fd : Type)
  | socket
  | file (fd : Fd) (start : Nat)

/-- One `read` after `done` bytes have been read. -/
def Source.read (src : Source Fd) (done count : Nat) : Sys Fd (Except Errno Bytes) :=
  match src with
  | .socket => sys (.recv count)
  | .file fd start => sys (.read fd (start + done) count)

/-! ## Whole buffers -/

/-- The loop of `readn`: `buf` holds what has been read, `left` bytes are missing. -/
def readnLoop (src : Source Fd) : Nat → Nat → Bytes → Sys Fd (Option Bytes)
  | 0, _, _ => .spin
  | fuel + 1, left, buf => do
      if left = 0 then return some buf
      match ← src.read buf.length left with
      | .error .intr => readnLoop src fuel left buf
      | .error _ => return none
      | .ok piece =>
          if piece = [] then return some buf
          readnLoop src fuel (left - piece.length) (buf ++ piece)

def readn (fuel : Nat) (src : Source Fd) (n : Nat) : Sys Fd (Option Bytes) :=
  readnLoop src fuel n []

def readFull (fuel : Nat) (src : Source Fd) (n : Nat) : Sys Fd (Option Bytes) := do
  match ← readn fuel src n with
  | none => return none
  | some buf => return if buf.length = n then some buf else none

/-- The loop of `writen`, which waits and tries again where the socket is full. -/
def writenLoop : Nat → Bytes → Sys Fd Rc
  | 0, _ => .spin
  | fuel + 1, left => do
      if left = [] then return .ok
      match ← sys (.send left) with
      | .error .intr => writenLoop fuel left
      | .error .again => writenLoop fuel left
      | .error _ => return .err
      | .ok written => writenLoop fuel (left.drop written)

def writeFull (fuel : Nat) (buf : Bytes) : Sys Fd Rc := writenLoop fuel buf

theorem all_writeFull {P : Call Fd → Prop} (h : ∀ buf, P (.send buf)) (fuel : Nat) (buf : Bytes) :
    (writeFull fuel buf : Sys Fd Rc).All P fun _ => True := by
  unfold writeFull
  induction fuel generalizing buf with
  | zero => trivial
  | succ fuel ih =>
      rw [writenLoop]
      split_ifs
      · trivial
      · apply Prog.All.op_bind (h buf)
        intro r
        split
        · exact ih _
        · exact ih _
        · trivial
        · exact ih _

/-! ## Messages -/

def sendHeader (fuel : Nat) (header : SyncHeader) : Sys Fd Rc := writeFull fuel header.encode

def recvHeader (fuel : Nat) : Sys Fd (Option SyncHeader) := do
  match ← readFull fuel .socket headerSize with
  | none => return none
  | some bytes =>
      let header := SyncHeader.decode bytes
      return if validateSyncHeader header = .ok then some header else none

def sendPath (fuel : Nat) (rel_path : Bytes) : Sys Fd Rc :=
  if rel_path.length > maxNetPath then return .err
  else writeFull fuel rel_path

/-- `recv_path` into a zeroed buffer of `max_len` bytes. -/
def recvPath (fuel : Nat) (max_len : Nat) (path_len : UInt32) : Sys Fd (Option Bytes) :=
  if path_len.toNat ≥ max_len ∨ path_len.toNat > maxNetPath then return none
  else if path_len = 0 then return some []
  else readFull fuel .socket path_len.toNat

def sendAck (fuel : Nat) (offset : UInt64) : Sys Fd Rc :=
  sendHeader fuel { initSyncHeader msgAck with offset := offset }

def sendError (fuel : Nat) (message : Bytes) : Sys Fd Rc := do
  let length := min message.length maxNetPath
  match ← sendHeader fuel { initSyncHeader msgError with path_len := .ofNat length } with
  | .err => return .err
  | .ok => writeFull fuel (message.take length)

theorem all_sendError {P : Call Fd → Prop} (h : ∀ buf, P (.send buf)) (fuel : Nat)
    (message : Bytes) : (sendError fuel message : Sys Fd Rc).All P fun _ => True := by
  apply (all_writeFull h _ _).bind
  intro r _
  split
  · trivial
  · exact all_writeFull h _ _

end MiniSync
