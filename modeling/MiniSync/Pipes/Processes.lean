import MiniSync.Lib.Pipe
import MiniSync.Lib.Rely
import MiniSync.NetUtils
import MiniSync.Pipes.Records

/-!
# The processes of the client

The main process starts a logger, a monitor and a transfer process and shares an event
pipe and a log pipe with them.  The state here is what they share once all three have been
started: the pipes, which processes have ended, and what has been printed and queued.
-/

namespace MiniSync.Pipes

open Prog

inductive Process
  | main
  | logger
  | monitor
  | transfer
  deriving DecidableEq

inductive ThreadId
  | main
  | logger
  | monitor
  | scheduler
  | worker (id : Nat)
  deriving DecidableEq

def ThreadId.process : ThreadId → Process
  | .main => .main
  | .logger => .logger
  | .monitor => .monitor
  | .scheduler => .transfer
  | .worker _ => .transfer

inductive PipeName
  | event
  | log
  deriving DecidableEq

/-- The processes that keep the write end of the pipe. -/
def PipeName.writers : PipeName → List Process
  | .event => [.main, .monitor]
  | .log => [.main, .monitor, .transfer]

/-- The process that keeps the read end. -/
def PipeName.reader : PipeName → Process
  | .event => .transfer
  | .log => .logger

/-- Where `write_log_record` prints. -/
inductive LogOut
  | file
  | stdout
  deriving DecidableEq

inductive ClientCall
  | write (pipe : PipeName) (buf : Bytes)
  | read (pipe : PipeName) (count : Nat)
  /-- `select` on the event pipe, for 100 ms. -/
  | select
  | errno
  | strerror
  /-- `fopen(log_path, "a")` -/
  | openLog
  /-- `format_time` -/
  | formatTime
  | fprintf (out : LogOut) (line : Bytes)
  | currentTimeMs
  | queuePush (task : SyncTask)
  | queueStop
  /-- `g_stop`, after 200 ms of sleep. -/
  | stopRequested
  /-- `waitpid(-1, &status, WNOHANG)` -/
  | waitAny
  /-- `kill(pid, SIGTERM)` -/
  | kill (process : Process)
  | waitpid (process : Process)
  /-- The main process closes its write end. -/
  | close (pipe : PipeName)
  | exit

def ClientResp : ClientCall → Type
  | .write _ _ => Except Errno Nat
  | .read _ _ => Except Errno Bytes
  | .select => Except Errno Bool
  | .errno => Errno
  | .strerror => Bytes
  | .openLog => Bool
  | .formatTime => Bytes
  | .fprintf _ _ => Rc
  | .currentTimeMs => Int
  | .queuePush _ => Unit
  | .queueStop => Unit
  | .stopRequested => Bool
  | .waitAny => Option Process
  | .kill _ => Unit
  | .waitpid _ => Unit
  | .close _ => Unit
  | .exit => Unit

abbrev ClientProg := Prog ClientCall ClientResp

abbrev ccall (c : ClientCall) : ClientProg (ClientResp c) := Prog.op c

structure ClientState where
  pipe : PipeName → Pipe ThreadId Byte
  dead : Process → Bool
  /-- Which write ends the main process has closed. -/
  closed : PipeName → Bool
  /-- The log file has been opened. -/
  opened : Bool
  /-- The lines given to `fprintf`. -/
  printed : LogOut → List Bytes
  /-- The tasks given to `task_queue_push` by the scheduler. -/
  pushed : List SyncTask

/-- Nothing has been written yet. -/
def ClientState.start : ClientState where
  pipe _ := .empty
  dead _ := false
  closed _ := false
  opened := false
  printed _ := []
  pushed := []

/-- The process is there and has the write end open. -/
def ClientState.CanWrite (s : ClientState) (name : PipeName) (process : Process) : Prop :=
  process ∈ name.writers ∧ s.dead process = false ∧ (process = .main → s.closed name = false)

def ClientState.setPipe (s : ClientState) (name : PipeName) (p : Pipe ThreadId Byte) :
    ClientState :=
  { s with pipe := Function.update s.pipe name p }

def ClientState.print (s : ClientState) (out : LogOut) (line : Bytes) : ClientState :=
  { s with printed := Function.update s.printed out (s.printed out ++ [line]) }

/-! ## What the calls do -/

/-- `PIPE_BUF` -/
def pipeBuf : Nat := 4096

/-- `write` waits for room; up to `PIPE_BUF` bytes go in at once.  Without a reader it
fails, `SIGPIPE` being ignored. -/
inductive WriteAnswer (capacity : Nat) (i : ThreadId) (name : PipeName) (buf : Bytes)
    (s : ClientState) : Except Errno Nat → ClientState → Prop
  | written {n : Nat} (hpos : 0 < n) (hle : n ≤ buf.length)
      (hwhole : buf.length ≤ pipeBuf → n = buf.length)
      (hroom : (s.pipe name).waiting.length + n ≤ capacity)
      (hopen : s.CanWrite name i.process) (hreader : s.dead name.reader = false) :
      WriteAnswer capacity i name buf s (.ok n)
        (s.setPipe name ((s.pipe name).push i (buf.take n)))
  | interrupted : WriteAnswer capacity i name buf s (.error .intr) s
  /-- `EPIPE`, which no caller tells from other errors. -/
  | broken (hreader : s.dead name.reader = true) :
      WriteAnswer capacity i name buf s (.error .io) s

/-- `read` waits for data, and ends where nobody can write any more. -/
inductive ReadAnswer (name : PipeName) (count : Nat) (s : ClientState) :
    Except Errno Bytes → ClientState → Prop
  | data {n : Nat} (hpos : 0 < n) (hcount : n ≤ count)
      (hle : n ≤ (s.pipe name).waiting.length) :
      ReadAnswer name count s (.ok ((s.pipe name).waiting.take n))
        (s.setPipe name ((s.pipe name).pull n))
  | ended (hwaiting : (s.pipe name).waiting = []) (hclosed : ∀ x, ¬ s.CanWrite name x) :
      ReadAnswer name count s (.ok []) s
  | interrupted : ReadAnswer name count s (.error .intr) s

/-- A process is dead: it has ended by itself, or something may have killed it. -/
def Ended (killable : Process → Prop) (s : ClientState) (x : Process) : Prop :=
  s.dead x = true ∨ killable x

def ClientState.bury (s : ClientState) (x : Process) : ClientState :=
  { s with dead := Function.update s.dead x true }

/-- What a call does; a thread of a dead process makes none.  That a process has been
killed shows when it is waited for: until then it may only have made no further call. -/
def Does (killable : Process → Prop) (capacity : Nat) (i : ThreadId) :
    (c : ClientCall) → ClientState → ClientResp c → ClientState → Prop
  | .write name buf, s, r, s' => WriteAnswer capacity i name buf s r s'
  | .read name count, s, r, s' => ReadAnswer name count s r s'
  | .openLog, s, r, s' => s' = { s with opened := r }
  | .fprintf out line, s, _, s' => s' = s.print out line
  | .queuePush task, s, _, s' => s' = { s with pushed := s.pushed ++ [task] }
  | .waitAny, s, r, s' => match r with
      | none => s' = s
      | some x => Ended killable s x ∧ s' = s.bury x
  | .waitpid x, s, _, s' => Ended killable s x ∧ s' = s.bury x
  | .close name, s, _, s' => s' = { s with closed := Function.update s.closed name true }
  | .exit, s, _, s' => s' = s.bury i.process
  | _, s, _, s' => s' = s

def clientKernel (killable : Process → Prop) (capacity : Nat) (i : ThreadId) (c : ClientCall)
    (s : ClientState) (r : ClientResp c) (s' : ClientState) : Prop :=
  s.dead i.process = false ∧ Does killable capacity i c s r s'

/-! ## Reading and writing -/

/-- `read` and `write` on a descriptor that is one of the pipes. -/
def onPipe (name : PipeName) : (c : Call Unit) → ClientProg (Resp c)
  | .recv count => ccall (.read name count)
  | .send buf => ccall (.write name buf)
  | _ => .spin

def writePipe (fuel : Nat) (name : PipeName) (buf : Bytes) : ClientProg Rc :=
  (@writeFull Unit fuel buf).translate (onPipe name)

def readnPipe (fuel : Nat) (name : PipeName) (n : Nat) : ClientProg (Option Bytes) :=
  (@readn Unit fuel .socket n).translate (onPipe name)

def readPipe (fuel : Nat) (name : PipeName) (n : Nat) : ClientProg (Option Bytes) :=
  (@readFull Unit fuel .socket n).translate (onPipe name)

/-! ## What the processes write -/

/-- `log_message` -/
def logMessage (fuel : Nat) (msg : LogMessage) : ClientProg Unit := do
  let _ ← writePipe fuel .log msg.encode
  return ()

def emitTask (fuel : Nat) (task : TaskRecord) : ClientProg Rc :=
  writePipe fuel .event task.encode

/-- What the monitor and the workers send through the pipes. -/
inductive Output
  | log (msg : LogMessage)
  | emit (task : TaskRecord)

/-- A thread that sends these, one after the other; what else it does is not seen here.  The
monitor's outputs are those of `monitor_process`, as `Pipes/MonitorTasks` states; what the
workers log is left open. -/
def daemon (fuel : Nat) : List Output → ClientProg Unit
  | [] => return ()
  | .log msg :: rest => do
      logMessage fuel msg
      daemon fuel rest
  | .emit task :: rest => do
      let _ ← emitTask fuel task
      daemon fuel rest

end MiniSync.Pipes
