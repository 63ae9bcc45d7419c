import MiniSync.Pipes.Bounds
import MiniSync.Transfer.Scheduler

/-!
# What holds of the pipes at any time

Every write is one whole record.  The lines printed are those of the messages in the log
pipe, in order and up to the first EXIT; the tasks queued are those that the scheduler
queues after reading the tasks in the event pipe, in order.  Each daemon thread has sent a
front of what it sends.
-/

namespace MiniSync.Pipes

open Prog Beside

/-- The messages in the log pipe, read or not. -/
def messages (s : ClientState) : List LogMessage :=
  (s.pipe .log).records.map LogMessage.decode

/-- The tasks in the event pipe, read or not. -/
def tasks (s : ClientState) : List SyncTask :=
  (s.pipe .event).records.map fun bytes => (TaskRecord.decode bytes).toSyncTask

/-! ## Log lines -/

def logLevelToString (level : Int32) : Bytes :=
  if level = logInfo then ascii "INFO"
  else if level = logWarn then ascii "WARN"
  else if level = logError then ascii "ERROR"
  else if level = logDebug then ascii "DEBUG"
  else if level = logExit then ascii "EXIT"
  else ascii "UNKNOWN"

/-- The line of a message, with the time of printing. -/
def logLine (time : Bytes) (m : LogMessage) : Bytes :=
  ascii "[" ++ time ++ ascii "] [" ++ logLevelToString m.level ++ ascii "] [pid=" ++
    ascii (toString m.pid.toInt) ++ ascii "] " ++ m.message ++ ascii "\n"

/-- The line is that of the message. -/
def Prints (m : LogMessage) (line : Bytes) : Prop := ∃ time, line = logLine time m

/-- The lines are those of the messages. -/
abbrev PrintsAll : List LogMessage → List Bytes → Prop := List.Forall₂ Prints

/-- All that the logger ever prints has been printed: it has seen EXIT, or nobody can send
it anything. -/
structure Complete (s : ClientState) : Prop where
  stdout : PrintsAll (upTo LogMessage.isExit (messages s)) (s.printed .stdout)
  file : s.opened = true → PrintsAll (upTo LogMessage.isExit (messages s)) (s.printed .file)
  noMore : (∃ m ∈ messages s, LogMessage.isExit m = true) ∨ ∀ x, ¬ s.CanWrite .log x

structure LogInv (s : ClientState) : Prop where
  records : (s.pipe .log).InRecords logMessageSize
  writers : ∀ w ∈ (s.pipe .log).writes, ∃ m : LogMessage, w.2 = m.encode ∧
    (w.1 ≠ .main → LogMessage.isExit m = false)
  printed : ∀ out, ∃ ms, ms <+: upTo LogMessage.isExit (messages s) ∧
    PrintsAll ms (s.printed out)
  complete : s.dead .logger = true → Complete s
  /-- EXIT is sent once the monitor and the transfer process are dead. -/
  exit_last : (∃ m ∈ messages s, LogMessage.isExit m = true) →
    s.dead .monitor = true ∧ s.dead .transfer = true

/-! ## Turns of the scheduler -/

/-- The task that a turn reads. -/
def readTask (turn : Turn) : Option SyncTask :=
  match turn.wakeup with
  | .event task => some task
  | _ => none

def isExitTask (task : SyncTask) : Bool := task.event_type = .exit

structure EventInv (debounce_ms : Int) (s : ClientState) : Prop where
  records : (s.pipe .event).InRecords syncTaskSize
  writers : ∀ w ∈ (s.pipe .event).writes,
    w.1 = .monitor ∨ w = (.main, TaskRecord.exit.encode)
  pushed : ∃ turns, turns.filterMap readTask <+: upTo isExitTask (tasks s) ∧
    s.pushed <+: schedulerThreadMain debounce_ms .empty turns

/-! ## Daemons -/

/-- What goes into the pipe of that name. -/
def Output.record (name : PipeName) : Output → Option Bytes
  | .log msg => if name = .log then some msg.encode else none
  | .emit task => if name = .event then some task.encode else none

/-- What the monitor and the workers send. -/
structure Workload where
  monitor : List Output
  workers : Nat → List LogMessage
  monitor_level : ∀ msg, Output.log msg ∈ monitor → LogMessage.isExit msg = false
  monitor_type : ∀ task, Output.emit task ∈ monitor → isExitTask task.toSyncTask = false
  workers_level : ∀ id, ∀ msg ∈ workers id, LogMessage.isExit msg = false

def Workload.outputs (load : Workload) : ThreadId → Option (List Output)
  | .monitor => some load.monitor
  | .worker id => some ((load.workers id).map .log)
  | _ => none

def ScriptInv (load : Workload) (s : ClientState) : Prop :=
  ∀ i outs, load.outputs i = some outs → ∀ name,
    (s.pipe name).sentBy i <+: outs.filterMap (Output.record name)

structure Inv (load : Workload) (debounce_ms : Int) (s : ClientState) : Prop where
  log : LogInv s
  event : EventInv debounce_ms s
  script : ScriptInv load s

variable {load : Workload} {debounce_ms : Int} {i : ThreadId} {name : PipeName}
  {s s' : ClientState}

/-! ## Later states -/

theorem messages_of_later (h : Later s s') : ∃ more, messages s' = messages s ++ more := by
  obtain ⟨more, hmore, -⟩ := h.writes .log
  refine ⟨(more.map Prod.snd).map LogMessage.decode, ?_⟩
  unfold messages Pipe.records
  rw [hmore, List.map_append, List.map_append]

theorem tasks_of_later (h : Later s s') : ∃ more, tasks s' = tasks s ++ more := by
  obtain ⟨more, hmore, -⟩ := h.writes .event
  refine ⟨(more.map Prod.snd).map fun bytes => (TaskRecord.decode bytes).toSyncTask, ?_⟩
  unfold tasks Pipe.records
  rw [hmore, List.map_append, List.map_append]

theorem upTo_messages_of_later (h : Later s s') :
    upTo LogMessage.isExit (messages s) <+: upTo LogMessage.isExit (messages s') := by
  obtain ⟨more, hmore⟩ := messages_of_later h
  rw [hmore]
  exact upTo_prefix_append (messages s) more

theorem upTo_tasks_of_later (h : Later s s') :
    upTo isExitTask (tasks s) <+: upTo isExitTask (tasks s') := by
  obtain ⟨more, hmore⟩ := tasks_of_later h
  rw [hmore]
  exact upTo_prefix_append (tasks s) more

/-- Where nobody can write, nobody does. -/
theorem writes_eq_of_later (h : Later s s') (hnone : ∀ x, ¬ s.CanWrite name x) :
    (s'.pipe name).writes = (s.pipe name).writes := by
  obtain ⟨more, hmore, hcan⟩ := h.writes name
  cases more with
  | nil => rw [hmore, List.append_nil]
  | cons w more => exact absurd (hcan w List.mem_cons_self) (hnone w.1.process)

/-- A complete log stays complete. -/
theorem Complete.later (h : Complete s) (hlater : Later s s')
    (hprinted : s'.printed = s.printed) (hopened : s'.opened = s.opened) : Complete s' := by
  have hsame : upTo LogMessage.isExit (messages s') = upTo LogMessage.isExit (messages s) := by
    rcases h.noMore with hexit | hnone
    · obtain ⟨more, hmore⟩ := messages_of_later hlater
      rw [hmore, upTo_append_of_exists hexit]
    · unfold messages Pipe.records
      rw [writes_eq_of_later hlater hnone]
  refine ⟨?_, fun hopen => ?_, ?_⟩
  · rw [hsame, hprinted]
    exact h.stdout
  · rw [hsame, hprinted]
    exact h.file (hopened ▸ hopen)
  · rcases h.noMore with ⟨m, hm, hexit⟩ | hnone
    · obtain ⟨more, hmore⟩ := messages_of_later hlater
      exact Or.inl ⟨m, hmore ▸ List.mem_append_left more hm, hexit⟩
    · exact Or.inr fun x hx => hnone x (hx.of_later hlater.dead hlater.closed)

/-- Whoever can still send finds the logger there. -/
theorem Inv.logger_alive (h : Inv load debounce_ms s) {x : Process}
    (hx : x = .monitor ∨ x = .transfer) (halive : s.dead x = false) :
    s.dead .logger = false := by
  cases hdead : s.dead .logger with
  | false => rfl
  | true =>
      rcases (h.log.complete hdead).noMore with hexit | hnone
      · obtain ⟨hmonitor, htransfer⟩ := h.log.exit_last hexit
        rcases hx with rfl | rfl
        · exact absurd hmonitor (by rw [halive]; decide)
        · exact absurd htransfer (by rw [halive]; decide)
      · refine absurd ⟨?_, halive, ?_⟩ (hnone x)
        · rcases hx with rfl | rfl <;> decide
        · rcases hx with rfl | rfl <;> rintro ⟨⟩

/-! ## What keeps it -/

/-- Calls that do not use the pipes, print or queue. -/
theorem Inv.quiet (h : Inv load debounce_ms s) (hlater : Later s s') (hpipe : s'.pipe = s.pipe)
    (hprinted : s'.printed = s.printed) (hpushed : s'.pushed = s.pushed)
    (hopened : s.dead .logger = true → s'.opened = s.opened)
    (hdead : s'.dead .logger = true → s.dead .logger = true) : Inv load debounce_ms s' := by
  have hmessages : messages s' = messages s := by
    unfold messages
    rw [hpipe]
  have htasks : tasks s' = tasks s := by
    unfold tasks
    rw [hpipe]
  refine ⟨⟨?_, ?_, ?_, fun hl => ?_, fun hexit => ?_⟩, ⟨?_, ?_, ?_⟩, ?_⟩
  · rw [hpipe]
    exact h.log.records
  · rw [hpipe]
    exact h.log.writers
  · rw [hmessages, hprinted]
    exact h.log.printed
  · exact (h.log.complete (hdead hl)).later hlater hprinted (hopened (hdead hl))
  · rw [hmessages] at hexit
    exact (h.log.exit_last hexit).imp (hlater.dead _) (hlater.dead _)
  · rw [hpipe]
    exact h.event.records
  · rw [hpipe]
    exact h.event.writers
  · rw [htasks, hpushed]
    exact h.event.pushed
  · unfold ScriptInv
    rw [hpipe]
    exact h.script

/-- The logger leaves with a complete log. -/
theorem Inv.bury (h : Inv load debounce_ms s) (x : Process)
    (hcomplete : x = .logger → Complete s) : Inv load debounce_ms (s.bury x) := by
  refine ⟨⟨h.log.records, h.log.writers, h.log.printed, fun hl => ?_, fun hexit =>
    (h.log.exit_last hexit).imp ((later_bury s x).dead _) ((later_bury s x).dead _)⟩,
    ⟨h.event.records, h.event.writers, h.event.pushed⟩, h.script⟩
  apply Complete.later _ (later_bury s x) rfl rfl
  by_cases hx : x = .logger
  · exact hcomplete hx
  · apply h.log.complete
    have hupdate : Function.update s.dead x true .logger = true := hl
    rwa [Function.update_of_ne (Ne.symm hx)] at hupdate

theorem Inv.push_log (h : Inv load debounce_ms s) (msg : LogMessage)
    (hopen : s.CanWrite .log i.process) (hreader : s.dead .logger = false)
    (hlevel : LogMessage.isExit msg = true →
      i = .main ∧ s.dead .monitor = true ∧ s.dead .transfer = true)
    (hscript : ∀ outs, load.outputs i = some outs →
      (s.pipe .log).sentBy i ++ [msg.encode] <+: outs.filterMap (Output.record .log)) :
    Inv load debounce_ms (s.setPipe .log ((s.pipe .log).push i msg.encode)) := by
  have hlater : Later s (s.setPipe .log ((s.pipe .log).push i msg.encode)) := later_push hopen
  have hevent : (s.setPipe .log ((s.pipe .log).push i msg.encode)).pipe .event =
      s.pipe .event := setPipe_of_ne (by decide) _
  refine ⟨⟨?_, ?_, fun out => ?_, fun hl => ?_, ?_⟩, ⟨?_, ?_, ?_⟩, ?_⟩
  · rw [setPipe_self]
    exact h.log.records.push msg.length_encode
  · rw [setPipe_self]
    intro w hw
    rcases List.mem_append.mp hw with hw | hw
    · exact h.log.writers w hw
    · rw [List.mem_singleton] at hw
      subst hw
      refine ⟨msg, rfl, fun hi => ?_⟩
      rw [← Bool.not_eq_true]
      exact fun hexit => hi (hlevel hexit).1
  · obtain ⟨ms, hms, hprints⟩ := h.log.printed out
    exact ⟨ms, hms.trans (upTo_messages_of_later hlater), hprints⟩
  · exact absurd hl (by rw [show (s.setPipe _ _).dead = s.dead from rfl, hreader]; decide)
  · rintro ⟨m, hm, hexit⟩
    unfold messages at hm
    rw [setPipe_self, Pipe.records_push, List.map_append] at hm
    rcases List.mem_append.mp hm with hm | hm
    · exact h.log.exit_last ⟨m, hm, hexit⟩
    · rw [List.map_singleton, List.mem_singleton, msg.decode_encode] at hm
      exact (hlevel (hm ▸ hexit)).2
  · rw [hevent]
    exact h.event.records
  · rw [hevent]
    exact h.event.writers
  · unfold tasks
    rw [hevent]
    exact h.event.pushed
  · intro j outs houts other
    cases other with
    | event =>
        rw [hevent]
        exact h.script j outs houts .event
    | log =>
        rw [setPipe_self]
        by_cases hj : i = j
        · subst hj
          rw [Pipe.sentBy_push_self]
          exact hscript outs houts
        · rw [Pipe.sentBy_push_of_ne hj]
          exact h.script j outs houts .log

theorem Inv.push_event (h : Inv load debounce_ms s) (task : TaskRecord)
    (hopen : s.CanWrite .event i.process)
    (htask : i = .monitor ∨ i = .main ∧ task = .exit)
    (hscript : ∀ outs, load.outputs i = some outs →
      (s.pipe .event).sentBy i ++ [task.encode] <+: outs.filterMap (Output.record .event)) :
    Inv load debounce_ms (s.setPipe .event ((s.pipe .event).push i task.encode)) := by
  have hlater : Later s (s.setPipe .event ((s.pipe .event).push i task.encode)) :=
    later_push hopen
  have hlog : (s.setPipe .event ((s.pipe .event).push i task.encode)).pipe .log =
      s.pipe .log := setPipe_of_ne (by decide) _
  refine ⟨⟨?_, ?_, fun out => ?_, fun hl => ?_, ?_⟩, ⟨?_, ?_, ?_⟩, ?_⟩
  · rw [hlog]
    exact h.log.records
  · rw [hlog]
    exact h.log.writers
  · unfold messages
    rw [hlog]
    exact h.log.printed out
  · exact (h.log.complete hl).later hlater rfl rfl
  · unfold messages
    rw [hlog]
    exact h.log.exit_last
  · rw [setPipe_self]
    exact h.event.records.push task.length_encode
  · rw [setPipe_self]
    intro w hw
    rcases List.mem_append.mp hw with hw | hw
    · exact h.event.writers w hw
    · rw [List.mem_singleton] at hw
      subst hw
      refine htask.imp_right ?_
      rintro ⟨rfl, rfl⟩
      rfl
  · obtain ⟨turns, hread, hpushed⟩ := h.event.pushed
    exact ⟨turns, hread.trans (upTo_tasks_of_later hlater), hpushed⟩
  · intro j outs houts other
    cases other with
    | log =>
        rw [hlog]
        exact h.script j outs houts .log
    | event =>
        rw [setPipe_self]
        by_cases hj : i = j
        · subst hj
          rw [Pipe.sentBy_push_self]
          exact hscript outs houts
        · rw [Pipe.sentBy_push_of_ne hj]
          exact h.script j outs houts .event

theorem Inv.pull (h : Inv load debounce_ms s) {n : Nat} (hn : n ≤ (s.pipe name).waiting.length) :
    Inv load debounce_ms (s.setPipe name ((s.pipe name).pull n)) := by
  have hwrites : ∀ other, ((s.setPipe name ((s.pipe name).pull n)).pipe other).writes =
      (s.pipe other).writes := by
    intro other
    by_cases hother : other = name
    · subst hother
      rw [setPipe_self]
      rfl
    · rw [setPipe_of_ne hother]
  have hrecords : ∀ other, ((s.setPipe name ((s.pipe name).pull n)).pipe other).records =
      (s.pipe other).records := fun other => by rw [Pipe.records, hwrites]; rfl
  have hin : ∀ other size, (s.pipe other).InRecords size →
      ((s.setPipe name ((s.pipe name).pull n)).pipe other).InRecords size := by
    intro other size hsize
    by_cases hother : other = name
    · subst hother
      rw [setPipe_self]
      exact hsize.pull hn
    · rw [setPipe_of_ne hother]
      exact hsize
  refine ⟨⟨hin .log _ h.log.records, ?_, fun out => ?_, fun hl => ?_, ?_⟩,
    ⟨hin .event _ h.event.records, ?_, ?_⟩, fun j outs houts other => ?_⟩
  · rw [hwrites]
    exact h.log.writers
  · unfold messages
    rw [hrecords]
    exact h.log.printed out
  · exact (h.log.complete hl).later later_pull rfl rfl
  · unfold messages
    rw [hrecords]
    exact h.log.exit_last
  · rw [hwrites]
    exact h.event.writers
  · unfold tasks
    rw [hrecords]
    exact h.event.pushed
  · unfold Pipe.sentBy
    rw [hwrites]
    exact h.script j outs houts other

/-- The logger prints a line that comes next. -/
theorem Inv.print (h : Inv load debounce_ms s) {out : LogOut} {line : Bytes}
    (halive : s.dead .logger = false)
    (hline : ∃ ms, ms <+: upTo LogMessage.isExit (messages s) ∧
      PrintsAll ms (s.printed out ++ [line])) :
    Inv load debounce_ms (s.print out line) := by
  refine ⟨⟨h.log.records, h.log.writers, fun other => ?_, fun hl => ?_, h.log.exit_last⟩,
    ⟨h.event.records, h.event.writers, h.event.pushed⟩, h.script⟩
  · by_cases hother : other = out
    · subst hother
      rw [print_self]
      exact hline
    · rw [print_of_ne hother]
      exact h.log.printed other
  · exact absurd hl (by rw [show (s.print out line).dead = s.dead from rfl, halive]; decide)

/-- The scheduler queues a task that comes next. -/
theorem Inv.queue (h : Inv load debounce_ms s) {task : SyncTask}
    (hnext : ∃ turns, turns.filterMap readTask <+: upTo isExitTask (tasks s) ∧
      s.pushed ++ [task] <+: schedulerThreadMain debounce_ms .empty turns) :
    Inv load debounce_ms { s with pushed := s.pushed ++ [task] } :=
  ⟨⟨h.log.records, h.log.writers, h.log.printed, fun hl =>
      (h.log.complete hl).later (later_of_pipe_eq rfl (fun _ hx => hx) fun _ hc => hc) rfl rfl,
      h.log.exit_last⟩,
    ⟨h.event.records, h.event.writers, hnext⟩, h.script⟩

end MiniSync.Pipes
