import MiniSync.Monitor.Process
import MiniSync.Pipes.ClientMain

/-!
# From the source to the queue

Among the processes of the client the monitor is a list of outputs.  That of the modelled
monitor process is one: its tasks, in the memory layout, with messages for the log in
between.  So what the scheduler queues is what it makes of the tasks of the monitor process.
-/

namespace MiniSync.Pipes

open Prog Beside Monitor

/-- The outputs of a monitor that emits these tasks.  What it writes to the log is left open,
but for its level. -/
structure Sends (outs : List Output) (tasks : List SyncTask) : Prop where
  tasks_eq : (emitted outs).map TaskRecord.toSyncTask = tasks
  level : ∀ msg, Output.log msg ∈ outs → LogMessage.isExit msg = false

theorem isExitTask_of_fromMonitor {task : SyncTask} (h : FromMonitor task) :
    isExitTask task = false := by
  apply decide_eq_false
  intro hexit
  rw [FromMonitor, hexit] at h
  exact absurd h (by decide)

section Monitor

variable {Dir : Type} {src_root : PathBuf} {now : Int} {turns fuel capacity : Nat}
  {outs : List Output} {workers : Nat → List LogMessage} {killable : Process → Prop}
  {setup : ClientSetup} {st : DaemonState}
  {c : System ThreadId ClientCall ClientResp Unit ClientState}

theorem Sends.type (h : Sends outs st.emitted)
    (hmonitor : Exec attending (monitorProcess turns src_root : DaemonProg Dir Unit)
      (.start now) () st) (task : TaskRecord) (htask : Output.emit task ∈ outs) :
    isExitTask task.toSyncTask = false := by
  apply isExitTask_of_fromMonitor
  apply fromMonitor_of_exec hmonitor
  rw [← h.tasks_eq]
  exact List.mem_map_of_mem (List.mem_filterMap.mpr ⟨.emit task, htask, rfl⟩)

/-- What the monitor process sends in a run, beside the messages of the workers. -/
def Sends.workload (h : Sends outs st.emitted)
    (hmonitor : Exec attending (monitorProcess turns src_root : DaemonProg Dir Unit)
      (.start now) () st)
    (hworkers : ∀ id, ∀ msg ∈ workers id, LogMessage.isExit msg = false) : Workload where
  monitor := outs
  workers := workers
  monitor_level := h.level
  monitor_type := h.type hmonitor
  workers_level := hworkers

/-- The scheduler queues what it makes of the tasks that the monitor process emits, from the
first, whole, in order and each once, and of `main`'s EXIT, which may come after them. -/
theorem scheduler_queues_what_monitor_emits (hsends : Sends outs st.emitted)
    (hmonitor : Exec attending (monitorProcess turns src_root : DaemonProg Dir Unit)
      (.start now) () st)
    (hworkers : ∀ id, ∀ msg ∈ workers id, LogMessage.isExit msg = false)
    (hload : setup.load = hsends.workload hmonitor hworkers) (hkill : ¬ killable .logger)
    (hrun : Run (clientKernel killable capacity) (setup.system fuel) c) :
    ∃ read ts, ts <+: st.emitted ∧ (read.filterMap readTask = ts ∨
        read.filterMap readTask = ts ++ [TaskRecord.exit.toSyncTask]) ∧
      c.shared.pushed <+: schedulerThreadMain setup.debounce_ms .empty read := by
  obtain ⟨read, ⟨ts, hts, hread⟩, hpushed⟩ := (bounded_of_run hkill hrun).1.pushed_emitted
  have hemitted : (emitted setup.load.monitor).map TaskRecord.toSyncTask = st.emitted := by
    rw [hload]
    exact hsends.tasks_eq
  refine ⟨read, ts.map TaskRecord.toSyncTask, ?_, hread, hpushed⟩
  rw [← hemitted]
  exact hts.map _

end Monitor

/-- The deletion of `/s/a`, as it is sent. -/
def deletionRecord : TaskRecord :=
  { TaskRecord.init with
    event_type := 3
    src_path := pathSA
    rel_path := nameA }

/-- The deletion comes up in the source, and its task is queued. -/
theorem scheduler_queues_what_monitor_emits_oneDeletion :
    ∃ (st : DaemonState) (setup : ClientSetup)
      (c : System ThreadId ClientCall ClientResp Unit ClientState),
      st.emitted = [deletionRecord.toSyncTask] ∧
      Run (clientKernel (fun x => x = .monitor) 65536) (setup.system 9) c ∧
      c.shared.pushed = [deletionRecord.toSyncTask] ∧
      ∃ read ts, ts <+: st.emitted ∧ (read.filterMap readTask = ts ∨
          read.filterMap readTask = ts ++ [TaskRecord.exit.toSyncTask]) ∧
        c.shared.pushed <+: schedulerThreadMain setup.debounce_ms .empty read := by
  have hemitted : ((monitorProcess 4 ⟨ascii "/s", by decide, by decide⟩).run
      Monitor.oneDeletion (.start 0)).map (fun r => r.2.emitted) =
        some [deletionRecord.toSyncTask] := by
    decide +kernel
  obtain ⟨⟨_, st⟩, hrun, hst⟩ := Option.map_eq_some_iff.mp hemitted
  have hst' : st.emitted = [deletionRecord.toSyncTask] := hst
  have hmonitor := exec_of_run attending_oneDeletion hrun
  have hsends : Sends [.emit deletionRecord] st.emitted := ⟨hst'.symm, by simp⟩
  have hworkers : ∀ id : Nat, ∀ msg ∈ ([] : List LogMessage), LogMessage.isExit msg = false := by
    simp
  let setup : ClientSetup :=
    ⟨7, 10, ascii "main: MiniSync client started mode=local src=src", 500,
      @Sends.workload _ _ _ _ _ (fun _ => []) _ hsends hmonitor hworkers⟩
  obtain ⟨c, hclient, hpushed, -, -⟩ :=
    @exists_run_deletion setup deletionRecord rfl (by decide +kernel)
  exact ⟨st, setup, c, hst', hclient, hpushed,
    scheduler_queues_what_monitor_emits hsends hmonitor hworkers rfl (by decide) hclient⟩

end MiniSync.Pipes
