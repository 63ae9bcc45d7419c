import MiniSync.Lib.Fuel
import MiniSync.Monitor.MovesReported
import MiniSync.Protocol

/-!
# The monitor process

`monitor_process`: it watches and scans the source once, and then waits for events.  What
`read` gives is a buffer with one event after the other; where `select` times out, the
source is compared with the snapshots.  However the events are cut into buffers, they are
handled one turn after the other, each once and in order.
-/

namespace MiniSync.Monitor

open Prog

/-! ## The buffer of events -/

/-- `NAME_MAX` -/
def nameMax : Nat := 255

/-- `sizeof(struct inotify_event)` -/
def inotifyEventSize : Nat := 16

/-- `sizeof(buf)` -/
def inotifyBufSize : Nat := inotifyEventSize + nameMax + 1

open SyncHeader in
/-- The `struct inotify_event` at `off`. -/
def bufferedEvent (buf : Bytes) (off : Nat) : InotifyEvent where
  wd := (UInt32.ofNat (field buf off 4)).toInt32.toInt
  mask := .ofNat (field buf (off + 4) 4)
  cookie := .ofNat (field buf (off + 8) 4)
  len := .ofNat (field buf (off + 12) 4)
  name := cString (buf.drop (off + inotifyEventSize))

/-- What the kernel puts into the buffer for an event; `name` has `len` bytes. -/
structure RawEvent where
  wd : Int32
  mask : UInt32
  cookie : UInt32
  name : Bytes
  length_le : name.length ≤ nameMax + 1
  /-- A name ends with a NUL, and may be padded with more. -/
  terminated : name ≠ [] → nul ∈ name

namespace RawEvent

open ByteString in
def encode (ev : RawEvent) : Bytes :=
  leBytes 4 ev.wd.toUInt32.toNat ++ leBytes 4 ev.mask.toNat ++ leBytes 4 ev.cookie.toNat ++
    leBytes 4 ev.name.length ++ ev.name

def event (ev : RawEvent) : InotifyEvent where
  wd := ev.wd.toInt
  mask := ev.mask
  cookie := ev.cookie
  len := .ofNat ev.name.length
  name := if ev.name = [] then [] else cString ev.name

end RawEvent

/-! ## The process -/

/-- The calls of the process beside those of the scans. -/
inductive DaemonCall (Dir : Type)
  | scan (c : MonitorCall Dir)
  | inotifyInit
  /-- `select` on the inotify descriptor, for one second. -/
  | select
  /-- `read` from the inotify descriptor. -/
  | readEvents (count : Nat)

def DaemonResp {Dir : Type} : DaemonCall Dir → Type
  | .scan c => MonitorResp c
  | .inotifyInit => Bool
  | .select => Except Errno Bool
  | .readEvents _ => Except Errno Bytes

variable {Dir α : Type}

abbrev DaemonProg (Dir : Type) := Prog (DaemonCall Dir) DaemonResp

abbrev dcall (c : DaemonCall Dir) : DaemonProg Dir (DaemonResp c) := Prog.op c

/-- A part of the process that only uses the calls of the scans. -/
abbrev scanning (p : MonitorProg Dir α) : DaemonProg Dir α :=
  p.translate fun c => dcall (.scan c)

/-- The loop over one buffer. -/
def handleBuffer (root : Bytes) (fuel : Nat) (buf : Bytes) :
    Nat → Nat → MonitorState → MonitorProg Dir MonitorState
  | 0, _, _ => .spin
  | turns + 1, off, s =>
      if off < buf.length then do
        let ev := bufferedEvent buf off
        let (_, vars, move) ← handleEvent root fuel ev s.vars s.move
        handleBuffer root fuel buf turns (off + inotifyEventSize + ev.len.toNat) ⟨vars, move⟩
      else return s

/-- The loop around `read`; without a result the process ends. -/
def drainEvents (root : Bytes) (fuel : Nat) :
    Nat → MonitorState → DaemonProg Dir (Option MonitorState)
  | 0, _ => .spin
  | turns + 1, s => do
      match ← dcall (.readEvents inotifyBufSize) with
      | .error .intr => drainEvents root fuel turns s
      | .error .again => return some s
      | .error _ => return none
      | .ok buf =>
          let s ← scanning (handleBuffer root fuel buf fuel 0 s)
          drainEvents root fuel turns s

/-- One turn of the loop of `monitor_process`. -/
def monitorTurn (root : Bytes) (fuel : Nat) (s : MonitorState) :
    DaemonProg Dir (Option MonitorState) := do
  match ← dcall .select with
  | .error .intr => return some s
  | .error _ => return none
  | .ok true => drainEvents root fuel fuel s
  | .ok false =>
      let move ← scanning (expireMove root s.move)
      let snapshots ← scanning (pollScanAndEmitChanges fuel root s.vars.snapshots)
      return some ⟨{ s.vars with snapshots }, move⟩

def monitorLoop (root : Bytes) (fuel : Nat) : Nat → MonitorState → DaemonProg Dir Unit
  | 0, _ => .spin
  | turns + 1, s => do
      match ← monitorTurn root fuel s with
      | none => return ()
      | some s => monitorLoop root fuel turns s

/-- What is done before the loop. -/
def initialScan (fuel : Nat) (root : Bytes) : MonitorProg Dir MonitorState := do
  let (_, watch_items) ← addWatchRecursive fuel root .empty
  let (_, vars) ← scanDirectoryAndEmitTasks root fuel root ⟨watch_items, .empty, true⟩
  return ⟨vars, .zero⟩

def monitorProcess (fuel : Nat) (src_root : PathBuf) : DaemonProg Dir Unit := do
  let opened : Bool ← dcall .inotifyInit
  if opened then
    let s ← scanning (initialScan fuel src_root.bytes)
    monitorLoop src_root.bytes fuel fuel s
  else return ()

/-! ## One event after the other -/

/-- The events in the order in which they were put into the buffer. -/
def handleEvents (root : Bytes) (fuel : Nat) :
    List InotifyEvent → MonitorState → MonitorProg Dir MonitorState
  | [], s => return s
  | ev :: events, s => do
      let (_, vars, move) ← handleEvent root fuel ev s.vars s.move
      handleEvents root fuel events ⟨vars, move⟩

section Buffer

open SyncHeader ByteString

variable {root front rest : Bytes} {fuel : Nat} {s : MonitorState}

theorem RawEvent.length_encode (ev : RawEvent) :
    ev.encode.length = inotifyEventSize + ev.name.length := by
  simp only [encode, List.length_append, length_leBytes]
  rfl

theorem RawEvent.len_toNat (ev : RawEvent) : ev.event.len.toNat = ev.name.length := by
  have hle := ev.length_le
  unfold nameMax at hle
  exact UInt32.toNat_ofNat_of_lt' (by change _ < 4294967296; omega)

/-- The fields of an event are read back from where it stands in the buffer; the text from
its name on may go on with the next event, where it has no name. -/
theorem bufferedEvent_encode (front rest : Bytes) (ev : RawEvent) :
    bufferedEvent (front ++ (ev.encode ++ rest)) front.length =
      { ev.event with name := cString (ev.name ++ rest) } := by
  have hle := ev.length_le
  unfold nameMax at hle
  have hfront {off w : Nat} : field (front ++ (ev.encode ++ rest)) (front.length + off) w =
      field (ev.encode ++ rest) off w := by
    rw [field_append (Nat.le_add_right _ _), Nat.add_sub_cancel_left]
  have hzero : field (front ++ (ev.encode ++ rest)) front.length 4 =
      field (ev.encode ++ rest) 0 4 := @hfront 0 4
  have hname : (front ++ (ev.encode ++ rest)).drop (front.length + inotifyEventSize) =
      ev.name ++ rest := by
    rw [← List.drop_drop, List.drop_left, RawEvent.encode, List.append_assoc]
    exact List.drop_left' (by simp only [List.length_append, length_leBytes]; rfl)
  have hlen : ev.name.length % 256 ^ 4 = ev.name.length := Nat.mod_eq_of_lt (by omega)
  unfold bufferedEvent
  rw [hzero, hfront, hfront, hfront, hname]
  simp only [RawEvent.encode, List.append_assoc]
  simp (disch := omega) only [field_leBytes_skip, Nat.sub_self, Nat.reduceSub,
    field_leBytes_self, field_four, hlen, Int32.toInt32_toUInt32]
  rfl

/-- A name ends before its padding. -/
theorem RawEvent.cString_name (ev : RawEvent) (h : ev.name ≠ []) (rest : Bytes) :
    cString (ev.name ++ rest) = ev.event.name := by
  have hmem := ev.terminated h
  have hshort : (ev.name.takeWhile (· != nul)).length ≠ ev.name.length := by
    intro hall
    have heq := (List.takeWhile_prefix (· != nul)).eq_of_length hall
    rw [List.takeWhile_eq_self_iff] at heq
    exact absurd (heq nul hmem) (by decide)
  unfold event
  dsimp only
  rw [if_neg h]
  unfold cString
  rw [List.takeWhile_append, if_neg hshort]

/-- Of an event without a name only the rest counts. -/
theorem handleEvent_bufferedEvent (front rest : Bytes) (ev : RawEvent) :
    (handleEvent root fuel (bufferedEvent (front ++ (ev.encode ++ rest)) front.length) s.vars
        s.move : MonitorProg Dir (Rc × MonitorVars × MoveRecord)) =
      handleEvent root fuel ev.event s.vars s.move := by
  rw [bufferedEvent_encode]
  by_cases hname : ev.name = []
  · have hlen : ev.event.len = 0 := by
      unfold RawEvent.event
      rw [hname]
      rfl
    unfold handleEvent
    cases findPathByWd s.vars.watch_items ev.event.wd with
    | none => rfl
    | some parent =>
        dsimp only
        rw [if_pos hlen, if_pos hlen]
  · rw [ev.cString_name hname]

/-- The loop over the buffer handles the events that are in it, each once and in order. -/
theorem handleBuffer_le (front : Bytes) (events : List RawEvent) (turns : Nat)
    (s : MonitorState) :
    (handleBuffer root fuel (front ++ events.flatMap RawEvent.encode) turns front.length s :
        MonitorProg Dir MonitorState).Le
      (handleEvents root fuel (events.map RawEvent.event) s) := by
  induction events generalizing front turns s with
  | nil =>
      cases turns with
      | zero => trivial
      | succ turns =>
          rw [handleBuffer, if_neg (by simp)]
          exact .refl _
  | cons ev events ih =>
      cases turns with
      | zero => trivial
      | succ turns =>
          have hlt : front.length < (front ++ (ev :: events).flatMap RawEvent.encode).length := by
            rw [List.length_append, List.flatMap_cons, List.length_append, ev.length_encode]
            unfold inotifyEventSize
            omega
          have hnext : front.length + inotifyEventSize + (bufferedEvent (front ++
              (ev.encode ++ events.flatMap RawEvent.encode)) front.length).len.toNat =
                (front ++ ev.encode).length := by
            rw [bufferedEvent_encode, List.length_append, ev.length_encode]
            dsimp only
            rw [ev.len_toNat, Nat.add_assoc]
          rw [handleBuffer, if_pos hlt]
          dsimp only
          rw [List.flatMap_cons, handleEvent_bufferedEvent, hnext, ← List.append_assoc,
            List.map_cons, handleEvents]
          exact Le.bind (.refl _) fun r => ih (front ++ ev.encode) turns _

end Buffer

/-! ## What one input makes of the process -/

/-- What the process has been given and has emitted, and the time. -/
structure DaemonState where
  now : Int
  /-- Events, and timeouts of `select`. -/
  inputs : List (Option InotifyEvent)
  emitted : List SyncTask

def DaemonState.start (now : Int) : DaemonState := ⟨now, [], []⟩

/-- A timeout of `select`. -/
def timeouts : Except Errno Bool → List (Option InotifyEvent)
  | .ok false => [none]
  | _ => []

/-- The kernel of the process.  `read` gives whole events; time may pass at every call.
Nothing is assumed of what is answered about the source. -/
def attending (c : DaemonCall Dir) (s : DaemonState) (r : DaemonResp c) (s' : DaemonState) : Prop :=
  s.now ≤ s'.now ∧
    match c, r with
    | .scan c, r => handling s.now c s.emitted r s'.emitted ∧ s'.inputs = s.inputs
    | .inotifyInit, _ => s'.emitted = s.emitted ∧ s'.inputs = s.inputs
    | .select, r => s'.emitted = s.emitted ∧ s'.inputs = s.inputs ++ timeouts r
    | .readEvents count, r => s'.emitted = s.emitted ∧ ∃ events : List RawEvent,
        s'.inputs = s.inputs ++ events.map (fun ev => some ev.event) ∧
          match r with
          | .ok buf => buf = events.flatMap RawEvent.encode ∧ buf.length ≤ count
          | .error _ => events = []

/-- The same for the calls of the scans. -/
def scanKernel (c : MonitorCall Dir) : DaemonState → MonitorResp c → DaemonState → Prop :=
  attending (.scan c)

/-- The types of the tasks that the monitor emits. -/
def FromMonitor (task : SyncTask) : Prop :=
  task.event_type ∈ [EventType.create, .modify, .delete, .rename, .fullscan]

section Inputs

variable {E : SyncTask → Prop} {root : Bytes} {path : PathBuf} {fuel : Nat} {ev : InotifyEvent}
  {vars : MonitorVars} {move : MoveRecord} {st st' : DaemonState}

/-- Tasks are added at the end. -/
theorem handling_append {c : MonitorCall Dir} {t : Int} {out out' : List SyncTask}
    {r : MonitorResp c} (hc : EmitsOnly E c) (h : handling t c out r out') :
    ∃ more, out' = out ++ more ∧ (∀ task ∈ more, E task) ∧
      ∀ t' before, handling t' c before r (before ++ more) := by
  cases c with
  | emitTask task =>
      refine ⟨[task], h, fun task' hmem => ?_, fun _ _ => rfl⟩
      rw [List.mem_singleton.mp hmem]
      exact hc
  | currentTimeMs => exact hc.elim
  | _ => exact ⟨[], (show out' = out from h).trans (List.append_nil out).symm,
      fun _ hmem => absurd hmem List.not_mem_nil, fun _ before => List.append_nil before⟩

/-- A program that does not ask for the time does the same at any time. -/
theorem exec_anytime {p : MonitorProg Dir α} {Q : α → Prop} {a : α} (h : p.All (EmitsOnly E) Q)
    (hexec : Exec scanKernel p st a st') :
    Q a ∧ st.now ≤ st'.now ∧ st'.inputs = st.inputs ∧ ∃ out, st'.emitted = st.emitted ++ out ∧
      (∀ task ∈ out, E task) ∧ ∀ t before, Exec (handling t) p before a (before ++ out) := by
  induction hexec with
  | ret a st =>
      refine ⟨h, le_rfl, rfl, [], (List.append_nil _).symm, fun _ hmem => ?_, fun t before => ?_⟩
      · cases hmem
      · rw [List.append_nil]
        exact .ret a before
  | call hK _ ih =>
      obtain ⟨hnow, hstep, hinputs⟩ := hK
      obtain ⟨more, hmore, hE, hcall⟩ := handling_append h.1 hstep
      obtain ⟨hQ, hnow', hinputs', out, hout, hE', hnext⟩ := ih (h.2 _)
      refine ⟨hQ, hnow.trans hnow', hinputs'.trans hinputs, more ++ out, ?_, fun task hmem => ?_,
        fun t before => ?_⟩
      · rw [hout, hmore, List.append_assoc]
      · exact (List.mem_append.mp hmem).elim (hE task) (hE' task)
      · rw [← List.append_assoc]
        exact .call (hcall t before) (hnext t _)

theorem emitsOnly_mono {E' : SyncTask → Prop} (hE : ∀ task, E task → E' task)
    {c : MonitorCall Dir} (h : EmitsOnly E c) : EmitsOnly E' c := by
  cases c with
  | emitTask task => exact hE task h
  | currentTimeMs => exact h
  | _ => trivial

/-- A scan emits tasks of the monitor. -/
theorem all_fromMonitor {p : MonitorProg Dir α} {Q : α → Prop}
    (h : p.All (EmitsOnly fun task => task.event_type = .fullscan) Q) :
    p.All (EmitsOnly FromMonitor) Q :=
  h.mono (fun _ => emitsOnly_mono fun task htype => by simp [FromMonitor, htype]) fun _ hQ => hQ

theorem all_emitBuilt_type {event_type : EventType}
    (htype : event_type ∈ [EventType.create, .modify]) :
    (emitBuilt event_type root path : MonitorProg Dir Unit).All (EmitsOnly FromMonitor)
      fun _ => True := by
  unfold emitBuilt
  apply (all_buildTaskFromPath_type event_type root path.bytes).bind
  intro built hbuilt
  cases built with
  | none => trivial
  | some task =>
      refine All.op_bind ?_ fun _ => trivial
      have hsame : task.toSyncTask.event_type = event_type := hbuilt task rfl
      rw [EmitsOnly, FromMonitor, hsame]
      simp only [List.mem_cons, List.not_mem_nil, or_false] at htype ⊢
      tauto

theorem all_emitDeleteTask_type (is_dir : Bool) :
    (emitDeleteTask root path is_dir : MonitorProg Dir Rc).All (EmitsOnly FromMonitor)
      fun _ => True := by
  unfold emitDeleteTask
  split
  · trivial
  · exact ⟨by simp [EmitsOnly, FromMonitor], fun _ => trivial⟩

/-- Only a path that is moved away makes `handle_event` ask for the time. -/
theorem all_handlePathEvent (hfrom : ev.has inMovedFrom = false) :
    (handlePathEvent root fuel ev path vars move :
        MonitorProg Dir (Rc × MonitorVars × MoveRecord)).All (EmitsOnly FromMonitor)
      fun _ => True := by
  have hscan (vars : MonitorVars) :
      (watchAndScan root fuel path (ev.has inIsDir) vars : MonitorProg Dir MonitorVars).All
        (EmitsOnly FromMonitor) fun _ => True :=
    all_fromMonitor (all_watchAndScan _)
  unfold handlePathEvent
  dsimp only
  rw [if_neg (by simp [hfrom])]
  split_ifs
  · apply (all_buildTaskFromPath_type .rename root path.bytes).bind
    intro built hbuilt
    cases built with
    | none => trivial
    | some task =>
        have htype : (move.complete ev.cookie task.toSyncTask).event_type = .rename := by
          unfold MoveRecord.complete
          split_ifs
          · exact hbuilt task rfl
          · exact hbuilt task rfl
        refine All.op_bind ?_ fun _ => (hscan vars).bind fun _ _ => trivial
        simp [EmitsOnly, FromMonitor, htype]
  · exact (all_emitDeleteTask_type _).bind fun _ _ => trivial
  · exact (all_emitBuilt_type (by simp)).bind fun _ _ => (hscan vars).bind fun _ _ => trivial
  · exact (all_emitBuilt_type (by simp)).bind fun _ _ => trivial
  · trivial

/-- What is emitted while one input is handled, which is at one time. -/
structure AtOneTime (st st' : DaemonState) (t : Int) (out : List SyncTask) : Prop where
  inputs : st'.inputs = st.inputs
  emitted : st'.emitted = st.emitted ++ out
  fromMonitor : ∀ task ∈ out, FromMonitor task
  after : st.now ≤ t
  before : t ≤ st'.now

theorem exec_handlePathEvent {r : Rc × MonitorVars × MoveRecord}
    (h : Exec scanKernel (handlePathEvent root fuel ev path vars move :
      MonitorProg Dir (Rc × MonitorVars × MoveRecord)) st r st') :
    ∃ t out, AtOneTime st st' t out ∧ Exec (handling t) (handlePathEvent root fuel ev path vars
      move : MonitorProg Dir (Rc × MonitorVars × MoveRecord)) [] r out := by
  by_cases hfrom : ev.has inMovedFrom = true
  · unfold handlePathEvent at h ⊢
    dsimp only at h ⊢
    rw [if_pos hfrom] at h ⊢
    cases h with
    | call hK hret =>
        obtain ⟨hnow, ⟨hemitted, rfl⟩, hinputs⟩ := hK
        obtain ⟨rfl, rfl⟩ := exec_ret hret
        refine ⟨st.now, [], ⟨hinputs, ?_, by simp, le_rfl, hnow⟩, ?_⟩
        · rw [hemitted, List.append_nil]
        · exact .call ⟨rfl, rfl⟩ (.ret _ _)
  · rw [Bool.not_eq_true] at hfrom
    obtain ⟨-, hnow, hinputs, out, hemitted, hE, hexec⟩ :=
      exec_anytime (all_handlePathEvent hfrom) h
    exact ⟨st.now, out, ⟨hinputs, hemitted, hE, le_rfl, hnow⟩, hexec st.now []⟩

theorem exec_handleEvent {r : Rc × MonitorVars × MoveRecord}
    (h : Exec scanKernel (handleEvent root fuel ev vars move :
      MonitorProg Dir (Rc × MonitorVars × MoveRecord)) st r st') :
    ∃ t out, AtOneTime st st' t out ∧ Exec (handling t) (handleEvent root fuel ev vars
      move : MonitorProg Dir (Rc × MonitorVars × MoveRecord)) [] r out := by
  have hdropped {r' : Rc × MonitorVars × MoveRecord} (h : Exec scanKernel (.ret r' :
      MonitorProg Dir (Rc × MonitorVars × MoveRecord)) st r st') :
      ∃ t out, AtOneTime st st' t out ∧ Exec (handling t) (.ret r' :
        MonitorProg Dir (Rc × MonitorVars × MoveRecord)) [] r out := by
    obtain ⟨rfl, rfl⟩ := exec_ret h
    exact ⟨st'.now, [], ⟨rfl, (List.append_nil _).symm, by simp, le_rfl, le_rfl⟩, .ret _ _⟩
  unfold handleEvent at h ⊢
  cases hparent : findPathByWd vars.watch_items ev.wd with
  | none =>
      rw [hparent] at h
      exact hdropped h
  | some parent =>
      rw [hparent] at h
      dsimp only at h ⊢
      split_ifs at h ⊢
      · exact hdropped h
      · cases hpath : eventPath parent ev with
        | none =>
            rw [hpath] at h
            exact hdropped h
        | some path =>
            rw [hpath] at h
            exact exec_handlePathEvent h

theorem exec_expireMove {move' : MoveRecord}
    (h : Exec scanKernel (expireMove root move : MonitorProg Dir MoveRecord) st move' st') :
    ∃ t out, AtOneTime st st' t out ∧
      Exec (handling t) (expireMove root move : MonitorProg Dir MoveRecord) [] move' out := by
  unfold expireMove at h ⊢
  split_ifs at h ⊢
  · cases h with
    | @call _ _ _ st₁ _ _ _ hK hnext =>
        obtain ⟨hnow, ⟨hemitted, rfl⟩, hinputs⟩ := hK
        have hall : (if st.now - move.ts_ms > 2000 then
            (do let _ ← emitDeleteTask root move.old_path move.is_dir; return .zero)
              else return move : MonitorProg Dir MoveRecord).All (EmitsOnly FromMonitor)
              fun _ => True := by
          split_ifs
          · exact (all_emitDeleteTask_type _).bind fun _ _ => trivial
          · trivial
        obtain ⟨-, hnow', hinputs', out, hout, hE, hexec⟩ := exec_anytime hall hnext
        refine ⟨st.now, out, ⟨hinputs'.trans hinputs, ?_, hE, le_rfl, hnow.trans hnow'⟩, ?_⟩
        · rw [hout, hemitted]
        · exact .call ⟨rfl, rfl⟩ (hexec st.now [])
  · obtain ⟨rfl, rfl⟩ := exec_ret h
    exact ⟨st'.now, [], ⟨rfl, (List.append_nil _).symm, by simp, le_rfl, le_rfl⟩, .ret _ _⟩

theorem all_pollEntry (task : BuiltTask) (table : SnapshotTable) :
    (pollEntry task table : MonitorProg Dir SnapshotTable).All (EmitsOnly FromMonitor)
      fun _ => True := by
  unfold pollEntry
  split
  · split
    · trivial
    · exact ⟨by simp [EmitsOnly, FromMonitor], fun _ => trivial⟩
  · dsimp only
    split_ifs
    · exact ⟨by simp [EmitsOnly, FromMonitor], fun _ => trivial⟩
    · trivial

theorem all_pollScanPath (dir : Bytes) (table : SnapshotTable) :
    (pollScanPath root fuel dir table : MonitorProg Dir SnapshotTable).All (EmitsOnly FromMonitor)
      fun _ => True := by
  induction fuel generalizing dir table with
  | zero => trivial
  | succ fuel ih =>
      rw [pollScanPath]
      apply All.op_bind trivial
      intro r
      cases r with
      | none => trivial
      | some dp =>
          refine all_forEachEntry (fun _ => trivial) (fun path table => ?_) fuel [] table
          apply (all_buildTaskFromPath_type .modify root path).bind
          intro built _
          cases built with
          | none => trivial
          | some task =>
              apply (all_pollEntry task table).bind
              intro table _
              split_ifs
              · exact ih path table
              · trivial

theorem all_sweepUnseen (left idx : Nat) (table : SnapshotTable) :
    (sweepUnseen left idx table : MonitorProg Dir SnapshotTable).All (EmitsOnly FromMonitor)
      fun _ => True := by
  induction left generalizing idx table with
  | zero => trivial
  | succ left ih =>
      rw [sweepUnseen]
      split
      · exact ih _ _
      · split_ifs
        · exact ih _ _
        · exact ⟨by simp [EmitsOnly, FromMonitor, FileSnapshot.deleteTask], fun _ => ih _ _⟩

theorem all_pollScanAndEmitChanges (table : SnapshotTable) :
    (pollScanAndEmitChanges fuel root table : MonitorProg Dir SnapshotTable).All
      (EmitsOnly FromMonitor) fun _ => True :=
  (all_pollScanPath root _).bind fun table _ => all_sweepUnseen maxSnapshots 0 table

theorem all_initialScan :
    (initialScan fuel root : MonitorProg Dir MonitorState).All (EmitsOnly FromMonitor)
      fun s => s.move = .zero := by
  apply (all_addWatchRecursive fuel root .empty).bind
  intro watched _
  exact (all_fromMonitor (all_scanDirectoryAndEmitTasks root fuel root _)).bind fun _ _ => rfl

end Inputs

/-! ## The process takes turns -/

/-- Turns from the first state to the last. -/
inductive MonitorTurns (Dir : Type) (root : Bytes) :
    MonitorState → List MonitorTurn → MonitorState → Prop
  | nil (s : MonitorState) : MonitorTurns Dir root s [] s
  | cons {s s₁ s' : MonitorState} {turn : MonitorTurn} {turns : List MonitorTurn} :
      MonitorStep Dir root s turn s₁ → MonitorTurns Dir root s₁ turns s' →
      MonitorTurns Dir root s (turn :: turns) s'

/-- What the process has done from one state to the next: turns at times in between, in
their order.  Beside what is emitted in the turns there are the tasks of the polling scans. -/
structure Took (Dir : Type) (root : Bytes) (s : MonitorState) (st : DaemonState)
    (turns : List MonitorTurn) (s' : MonitorState) (st' : DaemonState) : Prop where
  taken : MonitorTurns Dir root s turns s'
  emitted : ∃ out, st'.emitted = st.emitted ++ out ∧ (∀ task ∈ out, FromMonitor task) ∧
    (turns.flatMap MonitorTurn.emitted).Sublist out
  now : st.now ≤ st'.now
  times : ∀ turn ∈ turns, st.now ≤ turn.time ∧ turn.time ≤ st'.now
  ordered : turns.Pairwise fun turn later => turn.time ≤ later.time

section Turns

variable {root : Bytes} {fuel : Nat} {s s₁ s' : MonitorState} {st st₁ st' : DaemonState}
  {turns turns' : List MonitorTurn}

theorem MonitorTurns.append (h : MonitorTurns Dir root s turns s₁)
    (h' : MonitorTurns Dir root s₁ turns' s') : MonitorTurns Dir root s (turns ++ turns') s' := by
  induction h with
  | nil => exact h'
  | cons hstep _ ih => exact .cons hstep (ih h')

theorem MonitorTurns.run (h : MonitorTurns Dir root s turns s') :
    MonitorRun Dir root (fun _ _ => True) s turns := by
  induction h with
  | nil s => exact .nil s
  | cons hstep _ ih => exact .cons hstep trivial ih

/-- Nothing but tasks of a scan. -/
theorem Took.scan {out : List SyncTask} (hemitted : st'.emitted = st.emitted ++ out)
    (hE : ∀ task ∈ out, FromMonitor task) (hnow : st.now ≤ st'.now) :
    Took Dir root s st [] s st' where
  taken := .nil s
  emitted := ⟨out, hemitted, hE, List.nil_sublist out⟩
  now := hnow
  times _ hmem := absurd hmem List.not_mem_nil
  ordered := .nil

theorem Took.waited (hemitted : st'.emitted = st.emitted) (hnow : st.now ≤ st'.now) :
    Took Dir root s st [] s st' :=
  .scan (hemitted.trans (List.append_nil _).symm) (fun _ hmem => absurd hmem List.not_mem_nil) hnow

theorem Took.turn {turn : MonitorTurn} (hstep : MonitorStep Dir root s turn s')
    (h : AtOneTime st st' turn.time turn.emitted) : Took Dir root s st [turn] s' st' where
  taken := .cons hstep (.nil s')
  emitted := ⟨turn.emitted, h.emitted, h.fromMonitor, by simp⟩
  now := h.after.trans h.before
  times turn' hmem := by
    rw [List.mem_singleton.mp hmem]
    exact ⟨h.after, h.before⟩
  ordered := List.pairwise_singleton _ _

theorem Took.trans (h : Took Dir root s st turns s₁ st₁) (h' : Took Dir root s₁ st₁ turns' s' st') :
    Took Dir root s st (turns ++ turns') s' st' := by
  obtain ⟨out, hemitted, hE, hsub⟩ := h.emitted
  obtain ⟨out', hemitted', hE', hsub'⟩ := h'.emitted
  refine ⟨h.taken.append h'.taken, ⟨out ++ out', ?_, fun task hmem => ?_, ?_⟩, h.now.trans h'.now,
    fun turn hmem => ?_, ?_⟩
  · rw [hemitted', hemitted, List.append_assoc]
  · exact (List.mem_append.mp hmem).elim (hE task) (hE' task)
  · rw [List.flatMap_append]
    exact hsub.append hsub'
  · rcases List.mem_append.mp hmem with hmem | hmem
    · exact ⟨(h.times turn hmem).1, (h.times turn hmem).2.trans h'.now⟩
    · exact ⟨h.now.trans (h'.times turn hmem).1, (h'.times turn hmem).2⟩
  · refine List.pairwise_append.mpr ⟨h.ordered, h'.ordered, fun turn hmem later hlater => ?_⟩
    exact (h.times turn hmem).2.trans (h'.times later hlater).1

theorem exec_scanning {p : MonitorProg Dir α} {a : α}
    (h : Exec attending (scanning p) st a st') : Exec scanKernel p st a st' :=
  Exec.of_translate (g := fun c => dcall (.scan c))
    (fun c _ _ _ hcall => exec_op (K := attending) (c := .scan c) hcall) h

theorem took_handleEvents (events : List InotifyEvent)
    (h : Exec scanKernel (handleEvents root fuel events s : MonitorProg Dir MonitorState)
      st s' st') :
    ∃ turns, Took Dir root s st turns s' st' ∧ turns.map MonitorTurn.input = events.map some ∧
      st'.inputs = st.inputs := by
  induction events generalizing s st with
  | nil =>
      obtain ⟨rfl, rfl⟩ := exec_ret h
      exact ⟨[], .waited rfl le_rfl, rfl, rfl⟩
  | cons ev events ih =>
      obtain ⟨⟨rc, vars, move⟩, st₁, hevent, hrest⟩ := exec_bind.mp h
      obtain ⟨t, out, hone, hhandled⟩ := exec_handleEvent hevent
      obtain ⟨turns, htook, hinput, hinputs⟩ := ih hrest
      have hturn : Took Dir root s st [⟨t, some ev, s.vars.watch_items, out⟩] ⟨vars, move⟩ st₁ :=
        .turn (.event hhandled) hone
      refine ⟨_, hturn.trans htook, ?_, hinputs.trans hone.inputs⟩
      rw [List.singleton_append, List.map_cons, hinput, List.map_cons]

/-- A part of the process in which nothing is handled. -/
theorem took_nothing {r r' : Option MonitorState}
    (h : Exec attending (.ret r' : DaemonProg Dir (Option MonitorState)) st₁ r st')
    (hwaited : Took Dir root s st [] s st₁) (hinputs : st₁.inputs = st.inputs)
    (hr : ∀ s'', r' = some s'' → s'' = s) :
    ∃ turns s', Took Dir root s st turns s' st' ∧
      st'.inputs = st.inputs ++ turns.map MonitorTurn.input ∧ ∀ s'', r = some s'' → s'' = s' := by
  obtain ⟨rfl, rfl⟩ := exec_ret h
  exact ⟨[], s, hwaited, hinputs.trans (List.append_nil _).symm, hr⟩

theorem took_drainEvents (rounds : Nat) {r : Option MonitorState}
    (h : Exec attending (drainEvents root fuel rounds s : DaemonProg Dir (Option MonitorState))
      st r st') :
    ∃ turns s', Took Dir root s st turns s' st' ∧
      st'.inputs = st.inputs ++ turns.map MonitorTurn.input ∧ ∀ s'', r = some s'' → s'' = s' := by
  induction rounds generalizing s st with
  | zero => cases h
  | succ rounds ih =>
      rw [drainEvents] at h
      obtain ⟨answer, st₁, hread, hnext⟩ := exec_bind.mp h
      obtain ⟨hnow, hemitted, events, hinputs, hanswer⟩ := exec_op hread
      have hwaited : Took Dir root s st [] s st₁ := .waited hemitted hnow
      cases answer with
      | error e =>
          obtain rfl := (show events = [] from hanswer)
          have hsame : st₁.inputs = st.inputs := hinputs.trans (List.append_nil _)
          cases e with
          | intr =>
              obtain ⟨turns, s', htook, hinputs', hr⟩ := ih hnext
              exact ⟨turns, s', hwaited.trans htook, by rw [hinputs', hsame], hr⟩
          | again =>
              exact took_nothing hnext hwaited hsame fun s'' hs => (Option.some.inj hs).symm
          | _ => exact took_nothing hnext hwaited hsame fun s'' hs => by cases hs
      | ok buf =>
          obtain ⟨rfl, -⟩ := (show buf = _ ∧ _ from hanswer)
          obtain ⟨s₁, st₂, hbuffer, hrest⟩ := exec_bind.mp hnext
          have hevents := (handleBuffer_le [] events fuel s).exec (exec_scanning hbuffer)
          obtain ⟨turns, htook, hinput, hinputs₂⟩ := took_handleEvents _ hevents
          obtain ⟨turns', s', htook', hinputs', hr⟩ := ih hrest
          refine ⟨turns ++ turns', s', (hwaited.trans htook).trans htook', ?_, hr⟩
          rw [hinputs', hinputs₂, hinputs, List.map_append, hinput, List.append_assoc, List.map_map]
          rfl

theorem took_monitorTurn {r : Option MonitorState}
    (h : Exec attending (monitorTurn root fuel s : DaemonProg Dir (Option MonitorState))
      st r st') :
    ∃ turns s', Took Dir root s st turns s' st' ∧
      st'.inputs = st.inputs ++ turns.map MonitorTurn.input ∧ ∀ s'', r = some s'' → s'' = s' := by
  obtain ⟨answer, st₁, hselect, hnext⟩ := exec_bind.mp h
  obtain ⟨hnow, hemitted, hinputs⟩ := exec_op hselect
  have hwaited : Took Dir root s st [] s st₁ := .waited hemitted hnow
  cases answer with
  | error e =>
      have hsame : st₁.inputs = st.inputs := hinputs.trans (List.append_nil _)
      cases e with
      | intr => exact took_nothing hnext hwaited hsame fun s'' hs => (Option.some.inj hs).symm
      | _ => exact took_nothing hnext hwaited hsame fun s'' hs => by cases hs
  | ok ready =>
      cases ready with
      | true =>
          have hsame : st₁.inputs = st.inputs := hinputs.trans (List.append_nil _)
          obtain ⟨turns, s', htook, hinputs', hr⟩ := took_drainEvents fuel hnext
          exact ⟨turns, s', hwaited.trans htook, by rw [hinputs', hsame], hr⟩
      | false =>
          have htimeout : st₁.inputs = st.inputs ++ [none] := hinputs
          obtain ⟨move, st₂, hmove, hrest⟩ := exec_bind.mp hnext
          obtain ⟨snapshots, st₃, hpoll, hret⟩ := exec_bind.mp hrest
          obtain ⟨t, out, hone, hexpired⟩ := exec_expireMove (exec_scanning hmove)
          obtain ⟨-, hnow₃, hinputs₃, out₃, hemitted₃, hE, -⟩ :=
            exec_anytime (all_pollScanAndEmitChanges _) (exec_scanning hpoll)
          obtain ⟨rfl, rfl⟩ := exec_ret hret
          have hturn : Took Dir root s st₁ [⟨t, none, s.vars.watch_items, out⟩]
              ⟨{ s.vars with snapshots }, move⟩ st₂ := .turn (.timeout hexpired) hone
          refine ⟨_, _, (hwaited.trans hturn).trans (.scan hemitted₃ hE hnow₃), ?_,
            fun s'' hs => (Option.some.inj hs).symm⟩
          rw [hinputs₃, hone.inputs, htimeout]
          rfl

theorem took_monitorLoop (rounds : Nat)
    (h : Exec attending (monitorLoop root fuel rounds s : DaemonProg Dir Unit) st () st') :
    ∃ turns s', Took Dir root s st turns s' st' ∧
      st'.inputs = st.inputs ++ turns.map MonitorTurn.input := by
  induction rounds generalizing s st with
  | zero => cases h
  | succ rounds ih =>
      obtain ⟨r, st₁, hturn, hnext⟩ := exec_bind.mp h
      obtain ⟨turns, s₁, htook, hinputs, hr⟩ := took_monitorTurn hturn
      cases r with
      | none =>
          obtain ⟨-, rfl⟩ := exec_ret hnext
          exact ⟨turns, s₁, htook, hinputs⟩
      | some s₂ =>
          obtain rfl := hr s₂ rfl
          obtain ⟨turns', s', htook', hinputs'⟩ := ih hnext
          refine ⟨turns ++ turns', s', htook.trans htook', ?_⟩
          rw [hinputs', hinputs, List.map_append, List.append_assoc]

theorem took_monitorProcess {src_root : PathBuf} {now : Int}
    (h : Exec attending (monitorProcess fuel src_root : DaemonProg Dir Unit) (.start now) () st') :
    ∃ s turns s', s.move = .zero ∧ Took Dir src_root.bytes s (.start now) turns s' st' ∧
      turns.map MonitorTurn.input = st'.inputs := by
  obtain ⟨opened, st₁, hinit, hnext⟩ := exec_bind.mp h
  obtain ⟨hnow, hemitted, hinputs⟩ := exec_op hinit
  cases opened with
  | false =>
      obtain ⟨-, rfl⟩ := exec_ret hnext
      exact ⟨⟨⟨.empty, .empty, false⟩, .zero⟩, [], _, rfl, .waited hemitted hnow, hinputs.symm⟩
  | true =>
      obtain ⟨s, st₂, hscan, hloop⟩ := exec_bind.mp hnext
      obtain ⟨hmove, hnow₂, hinputs₂, out, hout, hE, -⟩ :=
        exec_anytime all_initialScan (exec_scanning hscan)
      obtain ⟨turns, s', htook, hturns⟩ := took_monitorLoop fuel hloop
      have hscanned : Took Dir src_root.bytes s (.start now) [] s st₂ :=
        .scan (by rw [hout, hemitted]) hE (hnow.trans hnow₂)
      refine ⟨s, turns, s', hmove, hscanned.trans htook, ?_⟩
      rw [hturns, hinputs₂, hinputs]
      rfl

/-- All that the process emits is a change of the source. -/
theorem fromMonitor_of_exec {src_root : PathBuf} {now : Int}
    (h : Exec attending (monitorProcess fuel src_root : DaemonProg Dir Unit) (.start now) () st') :
    ∀ task ∈ st'.emitted, FromMonitor task := by
  obtain ⟨s, turns, s', -, htook, -⟩ := took_monitorProcess h
  obtain ⟨out, hout, hE, -⟩ := htook.emitted
  intro task hmem
  rw [hout] at hmem
  exact hE task hmem

end Turns

/-- The file `a` is deleted in the directory that is watched as 1. -/
def deletionOfA : RawEvent := ⟨1, inDelete, 0, ascii "a" ++ [nul], by decide, by decide⟩

/-- An empty source, in which the deletion comes up; after it `select` fails. -/
def oneDeletion : (c : DaemonCall Unit) → DaemonState → DaemonResp c × DaemonState
  | .scan (.opendir _), st => (some (), st)
  | .scan (.readdir _ _), st => (none, st)
  | .scan (.lstat _), st => (none, st)
  | .scan (.stat _), st => (none, st)
  | .scan (.inotifyAddWatch _), st => (some (1 : Int), st)
  | .scan (.emitTask task), st => (.ok, { st with emitted := st.emitted ++ [task] })
  | .scan .currentTimeMs, st => (st.now, st)
  | .inotifyInit, st => (true, st)
  | .select, st => (if st.inputs = [] then .ok true else .error .io, st)
  | .readEvents count, st =>
      if st.inputs = [] ∧ deletionOfA.encode.length ≤ count then
        (.ok deletionOfA.encode, { st with inputs := [some deletionOfA.event] })
      else (.error .again, st)

theorem attending_oneDeletion (c : DaemonCall Unit) (st : DaemonState) :
    attending c st (oneDeletion c st).1 (oneDeletion c st).2 := by
  cases c with
  | scan c =>
      cases c with
      | currentTimeMs => exact ⟨le_rfl, ⟨rfl, rfl⟩, rfl⟩
      | _ => exact ⟨le_rfl, rfl, rfl⟩
  | inotifyInit => exact ⟨le_rfl, rfl, rfl⟩
  | select =>
      refine ⟨le_rfl, rfl, ?_⟩
      by_cases hinputs : st.inputs = []
      · simp [oneDeletion, hinputs, timeouts]
      · simp [oneDeletion, hinputs, timeouts]
  | readEvents count =>
      by_cases hread : st.inputs = [] ∧ deletionOfA.encode.length ≤ count
      · simp only [attending, oneDeletion, if_pos hread]
        exact ⟨le_rfl, trivial, [deletionOfA], by rw [hread.1]; rfl,
          (List.append_nil _).symm, hread.2⟩
      · simp only [attending, oneDeletion, if_neg hread]
        exact ⟨le_rfl, trivial, [], (List.append_nil _).symm, rfl⟩

end MiniSync.Monitor
