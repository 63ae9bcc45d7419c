import MiniSync.Common
import MiniSync.Lib.Bytes
import MiniSync.Lib.FileTree
import MiniSync.Lib.PosixPath
import MiniSync.Lib.Prog

/-!
# System calls

The calls through which the program acts on the world, what POSIX answers to
each of them on a tree of files without links, and how a call may go wrong.

`read` and `write` carry the offset of the descriptor explicitly: no two users
share a descriptor, so its offset is always the sum of what its one user has
read or written.  Permission bits, disk space and name lengths are not part of
the tree; a call refused because of them is one of the faults below.
-/

namespace MiniSync

abbrev TreePath := List Bytes

abbrev Tree := FileTree Bytes Bytes

/-- The flags given to `open`. -/
inductive OpenHow
  /-- `O_RDONLY` -/
  | readOnly
  /-- `O_WRONLY | O_CREAT` -/
  | writeCreate (mode : UInt32)
  /-- `O_WRONLY | O_CREAT | O_TRUNC` -/
  | writeCreateTrunc (mode : UInt32)
  deriving DecidableEq

/-- What `stat` tells about a path. -/
inductive FileStat
  | regular (size : Nat)
  | directory
  deriving DecidableEq

/-- A broken-down local time, as `localtime_r` fills it in. -/
structure Tm where
  year : Nat
  mon : Nat
  mday : Nat
  hour : Nat
  min : Nat
  sec : Nat
  deriving DecidableEq

/-- Calls; `Fd` is whatever the kernel hands out for an open file. -/
inductive Call (Fd : Type)
  | openFile (path : Bytes) (how : OpenHow)
  | read (fd : Fd) (pos : Nat) (count : Nat)
  | pwrite (fd : Fd) (buf : Bytes) (pos : Int)
  | lseek (fd : Fd) (pos : Int)
  | fsync (fd : Fd)
  | close (fd : Fd)
  | mkdir (path : Bytes)
  | rename (src dst : Bytes)
  | unlink (path : Bytes)
  | stat (path : Bytes)
  | access (path : Bytes)
  | chmod (path : Bytes) (mode : UInt32)
  | utime (path : Bytes) (mtime : Int64)
  | readLock (fd : Fd)
  | unlockFd (fd : Fd)
  | localtime
  | malloc (size : Nat)
  | connect
  /-- `read` on the socket of the connection. -/
  | recv (count : Nat)
  /-- `write` on the socket of the connection. -/
  | send (buf : Bytes)
  /-- `pthread_mutex_lock(&server_file_mutex)` -/
  | lockFiles
  /-- `pthread_mutex_unlock(&server_file_mutex)` -/
  | unlockFiles
  /-- `server_log`: the log file is opened for appending and written. -/
  | appendLog (path : Bytes)

/-- The response to each call. -/
def Resp {Fd : Type} : Call Fd → Type
  | .openFile _ _ => Except Errno Fd
  | .read _ _ _ => Except Errno Bytes
  | .pwrite _ _ _ => Except Errno Nat
  | .lseek _ _ => Except Errno Unit
  | .fsync _ => Except Errno Unit
  | .close _ => Unit
  | .mkdir _ => Except Errno Unit
  | .rename _ _ => Except Errno Unit
  | .unlink _ => Except Errno Unit
  | .stat _ => Except Errno FileStat
  | .access _ => Bool
  | .chmod _ _ => Bool
  | .utime _ _ => Bool
  | .readLock _ => Bool
  | .unlockFd _ => Unit
  | .localtime => Tm
  | .malloc _ => Bool
  | .connect => Bool
  | .recv _ => Except Errno Bytes
  | .send _ => Except Errno Nat
  | .lockFiles => Unit
  | .unlockFiles => Unit
  | .appendLog _ => Unit

/-- Programs that make system calls. -/
abbrev Sys (Fd : Type) := Prog (Call Fd) Resp

/-- Issue one call. -/
abbrev sys {Fd : Type} (c : Call Fd) : Sys Fd (Resp c) := Prog.op c

/-- One end of a connected socket.  The peer is known by what it has sent once it
has received a given byte string; after that its stream ends. -/
structure Conn where
  peer : Bytes → Bytes
  received : Nat
  output : Bytes

namespace Conn

/-- What the peer has sent and has not yet been received. -/
def input (conn : Conn) : Bytes := (conn.peer conn.output).drop conn.received

/-- `n` bytes have been received, or as many as there are. -/
def take (conn : Conn) (n : Nat) : Conn :=
  { conn with received := conn.received + min n conn.input.length }

def push (conn : Conn) (buf : Bytes) : Conn := { conn with output := conn.output ++ buf }

@[simp] theorem take_output (conn : Conn) (n : Nat) : (conn.take n).output = conn.output := rfl

@[simp] theorem take_peer (conn : Conn) (n : Nat) : (conn.take n).peer = conn.peer := rfl

@[simp] theorem push_output (conn : Conn) (buf : Bytes) :
    (conn.push buf).output = conn.output ++ buf := rfl

@[simp] theorem push_peer (conn : Conn) (buf : Bytes) : (conn.push buf).peer = conn.peer := rfl

@[simp] theorem push_received (conn : Conn) (buf : Bytes) :
    (conn.push buf).received = conn.received := rfl

/-- A peer that does not listen. -/
theorem push_input {conn : Conn} {buf : Bytes} (h : ∀ a b, conn.peer a = conn.peer b) :
    (conn.push buf).input = conn.input :=
  congrArg (List.drop conn.received) (h _ _)

@[simp] theorem take_input (conn : Conn) (n : Nat) :
    (conn.take n).input = conn.input.drop n := by
  have hpeer : (conn.take n).input =
      (conn.peer conn.output).drop (conn.received + min n conn.input.length) := rfl
  rw [hpeer, ← List.drop_drop]
  change conn.input.drop (min n conn.input.length) = conn.input.drop n
  rcases Nat.le_total n conn.input.length with h | h
  · rw [Nat.min_eq_left h]
  · rw [Nat.min_eq_right h, List.drop_length, List.drop_of_length_le h]

end Conn

structure World where
  tree : Tree
  conn : Conn

/-- What does not change while a program runs. -/
structure Env where
  /-- The working directory. -/
  cwd : TreePath
  /-- The wall clock. -/
  now : Tm

/-! ## Path names -/

/-- The node that a path name refers to. -/
def resolve (cwd : TreePath) (path : Bytes) : TreePath :=
  PosixPath.walk slash dot (if path.head? = some slash then [] else cwd) path

/-- The path name asks for a directory. -/
def asksForDir (path : Bytes) : Bool := PosixPath.mustBeDir slash dot path

/-- The path name ends in `.` or `..`, or names nothing. -/
def endsInDot (path : Bytes) : Bool := PosixPath.lastIsDot slash dot path

/-! ## What POSIX answers -/

section Posix

variable (cwd : TreePath)

def posixOpenRead (tree : Tree) (path : Bytes) : Except Errno TreePath :=
  if path = [] then .error .noent
  else
    match tree.lookup (resolve cwd path) with
    | none => .error .noent
    | some .dir => .ok (resolve cwd path)
    | some (.file _) => if asksForDir path then .error .notdir else .ok (resolve cwd path)

/-- `open` for writing with `O_CREAT`, and with `O_TRUNC` where `trunc`. -/
def posixOpenWrite (tree : Tree) (path : Bytes) (trunc : Bool) : Except Errno TreePath × Tree :=
  let p := resolve cwd path
  if path = [] then (.error .noent, tree)
  else
    match tree.lookup p with
    | some .dir => (.error .isdir, tree)
    | some (.file data) =>
        if asksForDir path then (.error .notdir, tree)
        else (.ok p, tree.put p (.file (if trunc then [] else data)))
    | none =>
        if asksForDir path then (.error .isdir, tree)
        else if tree.parentIsDir p then (.ok p, tree.put p (.file []))
        else (.error (tree.parentErrno p), tree)

def posixOpen (tree : Tree) (path : Bytes) : OpenHow → Except Errno TreePath × Tree
  | .readOnly => (posixOpenRead cwd tree path, tree)
  | .writeCreate _ => posixOpenWrite cwd tree path false
  | .writeCreateTrunc _ => posixOpenWrite cwd tree path true

def posixRead (tree : Tree) (fd : TreePath) (pos count : Nat) : Except Errno Bytes :=
  match tree.lookup fd with
  | some (.file data) => .ok ((data.drop pos).take count)
  | some .dir => .error .isdir
  | none => .error .io

def posixWrite (tree : Tree) (fd : TreePath) (buf : Bytes) (pos : Int) :
    Except Errno Nat × Tree :=
  if pos < 0 then (.error .inval, tree)
  else
    match tree.lookup fd with
    | some (.file data) =>
        (.ok buf.length, tree.put fd (.file (ByteString.splice 0 data pos.toNat buf)))
    | _ => (.error .io, tree)

def posixMkdir (tree : Tree) (path : Bytes) : Except Errno Unit × Tree :=
  if path = [] then (.error .noent, tree)
  else if endsInDot path then
    match tree.lookup (resolve cwd path) with
    | none => (.error .noent, tree)
    | some _ => (.error .exist, tree)
  else
    match tree.mkdir (resolve cwd path) with
    | .ok tree' => (.ok (), tree')
    | .error e => (.error e, tree)

def posixRename (tree : Tree) (src dst : Bytes) : Except Errno Unit × Tree :=
  if src = [] ∨ dst = [] then (.error .noent, tree)
  else if endsInDot src ∨ endsInDot dst then (.error .busy, tree)
  else
    match tree.rename (resolve cwd src) (resolve cwd dst)
      (asksForDir src || asksForDir dst) with
    | .ok tree' => (.ok (), tree')
    | .error e => (.error e, tree)

def posixUnlink (tree : Tree) (path : Bytes) : Except Errno Unit × Tree :=
  if path = [] then (.error .noent, tree)
  else if asksForDir path then (.error .notdir, tree)
  else
    match tree.unlink (resolve cwd path) with
    | .ok tree' => (.ok (), tree')
    | .error e => (.error e, tree)

def posixStat (tree : Tree) (path : Bytes) : Except Errno FileStat :=
  if path = [] then .error .noent
  else
    match tree.lookup (resolve cwd path) with
    | none => .error .noent
    | some .dir => .ok .directory
    | some (.file data) => if asksForDir path then .error .notdir else .ok (.regular data.length)

end Posix

/-- The kernel when nothing goes wrong that the state does not force. -/
def posix (env : Env) : (c : Call TreePath) → World → Resp c × World
  | .openFile path how, w =>
      let r := posixOpen env.cwd w.tree path how
      (r.1, { w with tree := r.2 })
  | .read fd pos count, w => (posixRead w.tree fd pos count, w)
  | .pwrite fd buf pos, w =>
      let r := posixWrite w.tree fd buf pos
      (r.1, { w with tree := r.2 })
  | .lseek _ pos, w => (if pos < 0 then .error .inval else .ok (), w)
  | .fsync _, w => (.ok (), w)
  | .close _, w => ((), w)
  | .mkdir path, w =>
      let r := posixMkdir env.cwd w.tree path
      (r.1, { w with tree := r.2 })
  | .rename src dst, w =>
      let r := posixRename env.cwd w.tree src dst
      (r.1, { w with tree := r.2 })
  | .unlink path, w =>
      let r := posixUnlink env.cwd w.tree path
      (r.1, { w with tree := r.2 })
  | .stat path, w => (posixStat env.cwd w.tree path, w)
  | .access path, w => ((posixStat env.cwd w.tree path).toBool, w)
  | .chmod _ _, w => (true, w)
  | .utime _ _, w => (true, w)
  | .readLock _, w => (true, w)
  | .unlockFd _, w => ((), w)
  | .localtime, w => (env.now, w)
  | .malloc _, w => (true, w)
  | .connect, w => (true, w)
  | .recv count, w => (.ok (w.conn.input.take count), { w with conn := w.conn.take count })
  | .send buf, w => (.ok buf.length, { w with conn := w.conn.push buf })
  | .lockFiles, w => ((), w)
  | .unlockFiles, w => ((), w)
  | .appendLog _, w => ((), w)

/-! ## What may go wrong -/

/-- How a call may go wrong.  `mayFail` says which errors a call may report
without having done anything; reads and writes may also come up short. -/
def Faulty (mayFail : Call TreePath → Errno → Prop) :
    (c : Call TreePath) → World → Resp c → World → Prop
  | .openFile path how, w, r, w' => ∃ e, mayFail (.openFile path how) e ∧ r = .error e ∧ w' = w
  | .read fd pos count, w, r, w' =>
      w' = w ∧ ((∃ e, mayFail (.read fd pos count) e ∧ r = .error e) ∨
        ∃ n data, 0 < n ∧ n < count ∧ posixRead w.tree fd pos n = .ok data ∧ r = .ok data)
  | .pwrite fd buf pos, w, r, w' =>
      (∃ e, mayFail (.pwrite fd buf pos) e ∧ r = .error e ∧ w' = w) ∨
        ∃ n < buf.length, posixWrite w.tree fd (buf.take n) pos = (r, w'.tree) ∧ w'.conn = w.conn
  | .lseek fd pos, w, r, w' => ∃ e, mayFail (.lseek fd pos) e ∧ r = .error e ∧ w' = w
  | .fsync fd, w, r, w' => ∃ e, mayFail (.fsync fd) e ∧ r = .error e ∧ w' = w
  | .mkdir path, w, r, w' => ∃ e, mayFail (.mkdir path) e ∧ r = .error e ∧ w' = w
  | .rename src dst, w, r, w' => ∃ e, mayFail (.rename src dst) e ∧ r = .error e ∧ w' = w
  | .unlink path, w, r, w' => ∃ e, mayFail (.unlink path) e ∧ r = .error e ∧ w' = w
  | .stat path, w, r, w' => ∃ e, mayFail (.stat path) e ∧ r = .error e ∧ w' = w
  | .access path, w, r, w' => (∃ e, mayFail (.access path) e) ∧ r = false ∧ w' = w
  | .chmod path mode, w, r, w' => (∃ e, mayFail (.chmod path mode) e) ∧ r = false ∧ w' = w
  | .utime path mtime, w, r, w' => (∃ e, mayFail (.utime path mtime) e) ∧ r = false ∧ w' = w
  | .readLock fd, w, r, w' => (∃ e, mayFail (.readLock fd) e) ∧ r = false ∧ w' = w
  | .malloc size, w, r, w' => (∃ e, mayFail (.malloc size) e) ∧ r = false ∧ w' = w
  | .connect, w, r, w' => (∃ e, mayFail .connect e) ∧ r = false ∧ w' = w
  | .recv count, w, r, w' =>
      (∃ e, mayFail (.recv count) e ∧ r = .error e ∧ w' = w) ∨
        ∃ n, 0 < n ∧ n < count ∧ r = .ok (w.conn.input.take n) ∧ w'.tree = w.tree ∧
          w'.conn = w.conn.take n
  | .send buf, w, r, w' =>
      (∃ e, mayFail (.send buf) e ∧ r = .error e ∧ w' = w) ∨
        ∃ n < buf.length, r = .ok n ∧ w'.tree = w.tree ∧ w'.conn = w.conn.push (buf.take n)
  | .close _, _, _, _ => False
  | .unlockFd _, _, _, _ => False
  | .localtime, _, _, _ => False
  | .lockFiles, _, _, _ => False
  | .unlockFiles, _, _, _ => False
  | .appendLog _, _, _, _ => False

/-- One call of a program: at some time of day, POSIX answers it or it goes wrong. -/
def Kernel (cwd : TreePath) (mayFail : Call TreePath → Errno → Prop) (c : Call TreePath)
    (w : World) (r : Resp c) (w' : World) : Prop :=
  (∃ now, posix ⟨cwd, now⟩ c w = (r, w')) ∨ Faulty mayFail c w r w'

end MiniSync
