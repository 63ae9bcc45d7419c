import MiniSync.Pipes.Daemons
import MiniSync.Transfer.NoEventLost

/-!
# The scheduler on the event pipe

`scheduler_thread_main` as it waits for the event pipe, reads a `SyncTask` from it and
reads the clock.  What it queues is what the turns of the scheduler queue that read the
tasks in the pipe, in order: no task is cut, dropped or taken twice.
-/

namespace MiniSync.Pipes

open Prog Beside

def eventTypeToString : EventType → Bytes
  | .create => ascii "CREATE"
  | .modify => ascii "MODIFY"
  | .delete => ascii "DELETE"
  | .rename => ascii "RENAME"
  | .fullscan => ascii "FULLSCAN"
  | .exit => ascii "EXIT"
  | .other _ => ascii "UNKNOWN"

/-- `task_queue_push` for each of the tasks. -/
def pushAll : List SyncTask → ClientProg Unit
  | [] => return ()
  | task :: rest => do
      ccall (.queuePush task)
      pushAll rest

/-- What happens to a task that is not EXIT. -/
def scheduleTask (fuel : Nat) (pid : Int32) (table : PendingTable) (task : SyncTask) :
    ClientProg PendingTable := do
  let described := eventTypeToString task.event_type ++ ascii " " ++ task.rel_path.bytes
  if shouldDebounce task then
    let recordMs : Int ← ccall .currentTimeMs
    logMessage fuel (.of pid logDebug (ascii "scheduler: debounce update " ++ described))
    return (schedulerHandle table task recordMs).1
  else if task.event_type = .delete ∨ task.event_type = .rename then
    pushAll (schedulerHandle table task 0).2
    logMessage fuel (.of pid logDebug (ascii "scheduler: enqueue immediate " ++ described))
    return (schedulerHandle table task 0).1
  else
    pushAll (schedulerHandle table task 0).2
    return (schedulerHandle table task 0).1

/-- `pending_flush_stable_tasks` -/
def flushStable (debounce_ms : Int) (table : PendingTable) : ClientProg PendingTable := do
  let now : Int ← ccall .currentTimeMs
  pushAll (pendingFlushStableTasks table now debounce_ms).2
  return (pendingFlushStableTasks table now debounce_ms).1

/-- The loop; the table it leaves is flushed afterwards. -/
def schedulerLoop (fuel : Nat) (pid : Int32) (debounce_ms : Int) :
    Nat → PendingTable → ClientProg PendingTable
  | 0, _ => .spin
  | turns + 1, table => do
      let ready : Except Errno Bool ← ccall .select
      match ready with
      | .error .intr => schedulerLoop fuel pid debounce_ms turns table
      | .error _ =>
          let text : Bytes ← ccall .strerror
          logMessage fuel (.of pid logError (ascii "scheduler: select failed: " ++ text))
          return table
      | .ok false =>
          let table ← flushStable debounce_ms table
          schedulerLoop fuel pid debounce_ms turns table
      | .ok true =>
          match ← readPipe fuel .event syncTaskSize with
          | none =>
              logMessage fuel
                (.of pid logWarn (ascii "scheduler: event pipe closed or partial read"))
              return table
          | some bytes =>
              let task := (TaskRecord.decode bytes).toSyncTask
              if task.event_type = .exit then
                logMessage fuel (.of pid logInfo (ascii "scheduler: received EXIT"))
                return table
              else
                let table ← scheduleTask fuel pid table task
                let table ← flushStable debounce_ms table
                schedulerLoop fuel pid debounce_ms turns table

def schedulerThread (fuel : Nat) (pid : Int32) (debounce_ms : Int) : ClientProg Unit := do
  let table ← schedulerLoop fuel pid debounce_ms fuel .empty
  pushAll (pendingFlushAll table).2
  ccall .queueStop

/-! ## Turns that go on -/

/-- The turns take the empty table to `table` and queue `pushed`. -/
inductive WentOn (debounce_ms : Int) : List Turn → PendingTable → List SyncTask → Prop
  | nil : WentOn debounce_ms [] .empty []
  | snoc {turns : List Turn} {turn : Turn} {table table' : PendingTable}
      {pushed more : List SyncTask} (before : WentOn debounce_ms turns table pushed)
      (next : schedulerTurn debounce_ms table turn = some (table', more)) :
      WentOn debounce_ms (turns ++ [turn]) table' (pushed ++ more)

variable {killable : Process → Prop} {capacity : Nat} {load : Workload} {debounce_ms : Int}
  {fuel : Nat} {pid : Int32} {s s' : ClientState} {turns : List Turn} {turn : Turn}
  {table table' : PendingTable} {pushed more base seen : List SyncTask} {task : SyncTask}

/-- What the whole thread queues, with other turns to come. -/
theorem WentOn.main_append (h : WentOn debounce_ms turns table pushed) (rest : List Turn) :
    schedulerThreadMain debounce_ms .empty (turns ++ rest) =
      pushed ++ schedulerThreadMain debounce_ms table rest := by
  induction h generalizing rest with
  | nil => rfl
  | snoc _ hnext ih =>
      rw [List.append_assoc, List.singleton_append, ih,
        Scheduler.schedulerThreadMain_cons hnext, List.append_assoc]

theorem WentOn.main_eq (h : WentOn debounce_ms turns table pushed) :
    schedulerThreadMain debounce_ms .empty turns = pushed := by
  have hall := h.main_append []
  rwa [List.append_nil, schedulerThreadMain, List.append_nil] at hall

theorem continues_of_schedulerTurn (h : schedulerTurn debounce_ms table turn = some (table', more)) :
    turn.Continues := by
  rcases schedulerTurn_cases h with ⟨hw, -⟩ | ⟨hw, -⟩ | ⟨task, hw, hexit, -⟩
  · rw [Turn.Continues, hw]
    trivial
  · rw [Turn.Continues, hw]
    trivial
  · rw [Turn.Continues, hw]
    exact hexit

theorem WentOn.exits (h : WentOn debounce_ms turns table pushed) {rest : List Turn}
    (hrest : Exits rest) : Exits (turns ++ rest) := by
  induction h generalizing rest with
  | nil => exact hrest
  | snoc _ hnext ih =>
      rw [List.append_assoc]
      exact ih (.turn (continues_of_schedulerTurn hnext) hrest)

theorem WentOn.continues (h : WentOn debounce_ms turns table pushed) :
    ∀ turn ∈ turns, turn.Continues := by
  induction h with
  | nil => exact fun _ hmem => absurd hmem List.not_mem_nil
  | snoc _ hnext ih =>
      intro turn hmem
      rcases List.mem_append.mp hmem with hmem | hmem
      · exact ih turn hmem
      · rw [List.mem_singleton.mp hmem]
        exact continues_of_schedulerTurn hnext

theorem WentOn.read_ne_exit (h : WentOn debounce_ms turns table pushed) :
    ∀ task ∈ turns.filterMap readTask, isExitTask task = false := by
  intro task hmem
  obtain ⟨turn, hturn, hread⟩ := List.mem_filterMap.mp hmem
  have hgo := h.continues turn hturn
  unfold readTask at hread
  unfold Turn.Continues at hgo
  cases hw : turn.wakeup with
  | event task' =>
      rw [hw] at hread hgo
      cases hread
      exact decide_eq_false hgo
  | _ =>
      rw [hw] at hread
      cases hread

/-! ## What the scheduler has seen -/

/-- The scheduler has read these tasks, and nothing of the next. -/
structure Seen (seen : List SyncTask) (s : ClientState) : Prop where
  front : seen <+: upTo isExitTask (tasks s)
  read : (s.pipe .event).ReadTo syncTaskSize seen.length []

theorem Seen.of_others (h : Seen seen s) (hin : (s.pipe .event).InRecords syncTaskSize)
    (hE : Others .scheduler s s') : Seen seen s' := by
  exact ⟨h.front.trans (upTo_tasks_of_later hE.later),
    readTo_of_others hE (Or.inr ⟨rfl, rfl⟩) hin h.read⟩

theorem Seen.of_event_eq (h : Seen seen s) (heq : s'.pipe .event = s.pipe .event) :
    Seen seen s' := by
  obtain ⟨hfront, hread⟩ := h
  constructor
  · unfold tasks
    rw [heq]
    exact hfront
  · rw [heq]
    exact hread

/-- The state of the scheduler between two calls: what it has seen and queued. -/
structure At (seen base : List SyncTask) (s : ClientState) : Prop where
  seen : Seen seen s
  pushed : s.pushed = base
  records : (s.pipe .event).InRecords syncTaskSize

theorem At.of_others (h : At seen base s) (hI : Inv load debounce_ms s')
    (hE : Others .scheduler s s') : At seen base s' :=
  ⟨h.seen.of_others h.records hE, (hE.own.scheduler rfl).2.trans h.pushed, hI.event.records⟩

/-- The scheduler writes to the log pipe and queues tasks, and to the event pipe nothing. -/
theorem At.of_event_eq (h : At seen base s) (heq : s'.pipe .event = s.pipe .event)
    (hpushed : s'.pushed = s.pushed) : At seen base s' :=
  ⟨h.seen.of_event_eq heq, hpushed.trans h.pushed, heq ▸ h.records⟩

/-- The bounds of the scheduler. -/
abbrev Runs (killable : Process → Prop) (capacity : Nat) (load : Workload) (debounce_ms : Int)
    {α : Type} (Q : α → ClientState → Prop) (p : ClientProg α) (s : ClientState) : Prop :=
  Within (clientKernel killable capacity .scheduler) (Inv load debounce_ms) (Others .scheduler)
    (Mine .scheduler) Q p s

/-- A call that only answers. -/
theorem runs_ask {α : Type} {Q : α → ClientState → Prop} {c : ClientCall}
    {f : ClientResp c → ClientProg α}
    (hc : ∀ s r s', Does killable capacity .scheduler c s r s' → s' = s) (hs : At seen base s)
    (hf : ∀ r s, Inv load debounce_ms s → At seen base s →
      Runs killable capacity load debounce_ms Q (f r) s) :
    Runs killable capacity load debounce_ms Q (ccall c >>= f) s := by
  refine Within.op_bind fun s₁ r s' hI hE hK => ?_
  obtain rfl := hc s₁ r s' hK.2
  exact ⟨hI, .refl _ s', hf r s' hI (hs.of_others hI hE)⟩

theorem runs_logMessage {msg : LogMessage} (hI : Inv load debounce_ms s)
    (hlevel : LogMessage.isExit msg = false) (hs : At seen base s) :
    Runs killable capacity load debounce_ms (fun _ => At seen base) (logMessage fuel msg) s := by
  refine within_logMessage hI (fun _ _ hexit => absurd hexit (by rw [hlevel]; decide))
    (fun _ hI _ hself => hI.logger_alive (Or.inr rfl) hself)
    (fun _ _ hI hE h => h.of_others hI hE) (fun _ _ hI hE h => h.of_others hI hE)
    (fun _ _ outs houts => by cases houts) (fun s _ h _ => ?_) hs
  exact h.of_event_eq (setPipe_of_ne (by decide) _) rfl

/-- Queueing tasks that come next, and what is kept meanwhile. -/
theorem runs_pushAll_keeping {J : ClientState → Prop} (queued : List SyncTask)
    (hs : At seen base s)
    (hturns : ∃ turns, turns.filterMap readTask = seen ∧
      base ++ queued <+: schedulerThreadMain debounce_ms .empty turns)
    (hothers : ∀ s s', Others .scheduler s s' → J s → J s')
    (hpush : ∀ s task, J s → J { s with pushed := s.pushed ++ [task] }) (hJ : J s) :
    Runs killable capacity load debounce_ms (fun _ s => At seen (base ++ queued) s ∧ J s)
      (pushAll queued) s := by
  induction queued generalizing base s with
  | nil =>
      rw [List.append_nil]
      exact Within.ret fun s' hI hE => ⟨hs.of_others hI hE, hothers s s' hE hJ⟩
  | cons task queued ih =>
      refine Within.op_bind fun s₁ r s' hI hE hK => ?_
      obtain rfl : s' = { s₁ with pushed := s₁.pushed ++ [task] } := hK.2
      have hs₁ := hs.of_others hI hE
      obtain ⟨turns, hread, hmain⟩ := hturns
      have hsplit : base ++ task :: queued = base ++ [task] ++ queued := List.append_cons ..
      rw [hsplit] at hmain ⊢
      refine ⟨hI.queue ⟨turns, hread ▸ hs₁.seen.front, ?_⟩, ?_,
        ih ?_ ⟨turns, hread, hmain⟩ (hpush s₁ task (hothers s s₁ hE hJ))⟩
      · rw [hs₁.pushed]
        exact (List.prefix_append _ queued).trans hmain
      · exact mine_of_pipe_eq (later_of_pipe_eq rfl (fun _ h => h) fun _ h => h) rfl
          (Or.inr ⟨rfl, rfl, rfl⟩) (Or.inl rfl) (Or.inr rfl)
      · exact ⟨hs₁.seen.of_event_eq rfl, congrArg (· ++ [task]) hs₁.pushed, hs₁.records⟩

theorem runs_pushAll (queued : List SyncTask) (hs : At seen base s)
    (hturns : ∃ turns, turns.filterMap readTask = seen ∧
      base ++ queued <+: schedulerThreadMain debounce_ms .empty turns) :
    Runs killable capacity load debounce_ms (fun _ => At seen (base ++ queued))
      (pushAll queued) s :=
  (runs_pushAll_keeping (J := fun _ => True) queued hs hturns (fun _ _ _ _ => trivial)
    (fun _ _ _ => trivial) trivial).post fun _ _ _ h => h.1

/-! ## One turn -/

theorem schedulerTurn_event (hexit : task.event_type ≠ .exit) (recordMs flushMs : Int) :
    schedulerTurn debounce_ms table ⟨.event task, recordMs, flushMs⟩ =
      some ((pendingFlushStableTasks (schedulerHandle table task recordMs).1 flushMs
          debounce_ms).1,
        (schedulerHandle table task recordMs).2 ++
          (pendingFlushStableTasks (schedulerHandle table task recordMs).1 flushMs
            debounce_ms).2) := by
  unfold schedulerTurn
  dsimp only
  rw [if_neg hexit]

theorem filterMap_readTask_snoc (turns : List Turn) (turn : Turn) :
    (turns ++ [turn]).filterMap readTask =
      turns.filterMap readTask ++ (readTask turn).toList := by
  rw [List.filterMap_append]
  cases h : readTask turn <;> simp [h]

/-- What the tasks are that a turn queues before the flush. -/
theorem WentOn.handles (h : WentOn debounce_ms turns table pushed) (hexit : task.event_type ≠ .exit)
    (recordMs : Int) :
    ∃ turns', turns'.filterMap readTask = turns.filterMap readTask ++ [task] ∧
      pushed ++ (schedulerHandle table task recordMs).2 <+:
        schedulerThreadMain debounce_ms .empty turns' := by
  have hnext := h.snoc (schedulerTurn_event hexit recordMs 0)
  refine ⟨turns ++ [⟨.event task, recordMs, 0⟩], filterMap_readTask_snoc turns _, ?_⟩
  rw [hnext.main_eq, ← List.append_assoc]
  exact List.prefix_append _ _

/-- The rest of a turn that has handled a task. -/
theorem runs_scheduleTask (h : WentOn debounce_ms turns table pushed)
    (hI : Inv load debounce_ms s) (hexit : task.event_type ≠ .exit)
    (hs : At (turns.filterMap readTask ++ [task]) pushed s) :
    Runs killable capacity load debounce_ms
      (fun table' s => ∃ recordMs, table' = (schedulerHandle table task recordMs).1 ∧
        At (turns.filterMap readTask ++ [task])
          (pushed ++ (schedulerHandle table task recordMs).2) s)
      (scheduleTask fuel pid table task) s := by
  have hpush : Runs killable capacity load debounce_ms
      (fun _ => At (turns.filterMap readTask ++ [task])
        (pushed ++ (schedulerHandle table task 0).2))
      (pushAll (schedulerHandle table task 0).2) s :=
    runs_pushAll _ hs (h.handles hexit 0)
  unfold scheduleTask
  dsimp only
  split_ifs with hdebounce himmediate
  · apply runs_ask (c := .currentTimeMs) (fun _ _ _ hK => hK) hs
    intro (recordMs : Int) s₁ hI₁ hs₁
    have hnone : (schedulerHandle table task recordMs).2 = [] := by
      rw [schedulerHandle_debounced hdebounce]
    apply (runs_logMessage hI₁ (by rfl) hs₁).bind hI₁
    intro _ s₂ hI₂ hs₂
    refine Within.ret fun s₃ hI₃ hE => ⟨recordMs, rfl, ?_⟩
    rw [hnone, List.append_nil]
    exact hs₂.of_others hI₃ hE
  · apply hpush.bind hI
    intro _ s₁ hI₁ hs₁
    apply (runs_logMessage hI₁ (by rfl) hs₁).bind hI₁
    intro _ s₂ hI₂ hs₂
    exact Within.ret fun s₃ hI₃ hE => ⟨0, rfl, hs₂.of_others hI₃ hE⟩
  · apply hpush.bind hI
    intro _ s₁ hI₁ hs₁
    exact Within.ret fun s₃ hI₃ hE => ⟨0, rfl, hs₁.of_others hI₃ hE⟩

/-- A flush, where `turn` is the turn it belongs to. -/
theorem runs_flushStable {turn : Int → Turn} {handled : PendingTable}
    (h : WentOn debounce_ms turns table pushed)
    (hturn : ∀ flushMs, schedulerTurn debounce_ms table (turn flushMs) =
      some ((pendingFlushStableTasks handled flushMs debounce_ms).1,
        more ++ (pendingFlushStableTasks handled flushMs debounce_ms).2))
    (hread : ∀ flushMs, turns.filterMap readTask ++ (readTask (turn flushMs)).toList = seen)
    (hs : At seen (pushed ++ more) s) :
    Runs killable capacity load debounce_ms
      (fun table' s => ∃ flushMs pushed', WentOn debounce_ms (turns ++ [turn flushMs]) table' pushed' ∧
        At seen pushed' s)
      (flushStable debounce_ms handled) s := by
  unfold flushStable
  apply runs_ask (c := .currentTimeMs) (fun _ _ _ hK => hK) hs
  intro (flushMs : Int) s₁ hI₁ hs₁
  have hnext := h.snoc (hturn flushMs)
  rw [← List.append_assoc] at hnext
  have hseen : (turns ++ [turn flushMs]).filterMap readTask = seen := by
    rw [filterMap_readTask_snoc, hread]
  apply (runs_pushAll _ hs₁ ⟨_, hseen, by rw [hnext.main_eq]⟩).bind hI₁
  intro _ s₂ hI₂ hs₂
  exact Within.ret fun s₃ hI₃ hE => ⟨flushMs, _, hnext, hs₂.of_others hI₃ hE⟩

/-! ## Reading a task -/

/-- What `read_full` gives: the next task, or nothing where no more comes. -/
theorem runs_readPipe (hI : Inv load debounce_ms s) (hs : At seen base s)
    (hexit : ∀ task ∈ seen, isExitTask task = false) :
    Runs killable capacity load debounce_ms
      (fun r s => (r = none ∧ At seen base s ∧ seen = tasks s ∧ ∀ x, ¬ s.CanWrite .event x) ∨
        ∃ bytes, r = some bytes ∧
          At (seen ++ [(TaskRecord.decode bytes).toSyncTask]) base s)
      (readPipe fuel .event syncTaskSize) s := by
  have hreading : Runs killable capacity load debounce_ms
      (fun r s => (seen <+: tasks s ∧ s.pushed = base) ∧
        GotRecord syncTaskSize seen.length .event r s)
      (readnPipe fuel .event syncTaskSize) s := by
    refine within_readnPipeLoop (Or.inr ⟨rfl, rfl⟩) (fun s h => h.event.records)
      (fun s n h hn => h.pull hn) ?_ ?_ hI
      ⟨hs.seen.front.trans (upTo_front _ _), hs.pushed⟩ hs.seen.read rfl fuel
    · rintro s s' - hE ⟨hfront, hpushed⟩
      obtain ⟨more, hmore⟩ := tasks_of_later hE.later
      refine ⟨?_, (hE.own.scheduler rfl).2.trans hpushed⟩
      rw [hmore]
      exact hfront.trans (List.prefix_append _ more)
    · rintro s n ⟨hfront, hpushed⟩
      refine ⟨?_, hpushed⟩
      unfold tasks
      rw [setPipe_self, Pipe.records_pull]
      exact hfront
  rw [readPipe_eq]
  apply hreading.bind hI
  rintro r s₁ hI₁ ⟨⟨hfront, hpushed⟩, hgot⟩
  obtain ⟨buf, rfl, hread⟩ := hgot.got
  have hrecords := hI₁.event.records
  have htake : seen = (tasks s₁).take seen.length := List.prefix_iff_eq_take.mp hfront
  have hlevel : ∀ task ∈ (tasks s₁).take seen.length, isExitTask task = false := htake ▸ hexit
  rw [Option.bind_some]
  rcases hgot.whole buf rfl with hlen | ⟨rfl, hlength, hnone⟩
  · rw [if_pos hlen]
    have hnext : (tasks s₁)[seen.length]? = some (TaskRecord.decode buf).toSyncTask := by
      unfold tasks
      rw [List.getElem?_map, hread.record hrecords (by decide) hlen, Option.map_some]
    have hseen := take_append_prefix_upTo hlevel hnext
    rw [← htake] at hseen
    have hat : At (seen ++ [(TaskRecord.decode buf).toSyncTask]) base s₁ := by
      refine ⟨⟨hseen, ?_⟩, hpushed, hrecords⟩
      rw [List.length_append, List.length_singleton]
      exact hread.next hlen
    exact Within.ret fun s₂ hI₂ hE => Or.inr ⟨buf, rfl, hat.of_others hI₂ hE⟩
  · rw [if_neg (by decide)]
    have hall : seen = tasks s₁ := by
      apply hfront.eq_of_length
      rw [tasks, List.length_map]
      exact hlength.symm
    have hat : At seen base s₁ := by
      refine ⟨⟨?_, hread⟩, hpushed, hrecords⟩
      rw [upTo_of_forall (hall ▸ hexit), ← hall]
    refine Within.ret fun s₂ hI₂ hE => Or.inl ⟨rfl, hat.of_others hI₂ hE, ?_, fun x hx =>
      hnone x (hx.of_later hE.later.dead hE.later.closed)⟩
    rw [hall]
    unfold tasks Pipe.records
    rw [writes_eq_of_later hE.later hnone]

/-! ## The loop -/

/-- How the loop has ended: the turns, with the last one, on which it broke off. -/
structure BrokeOff (debounce_ms : Int) (table : PendingTable) (s : ClientState) (turns : List Turn)
    (last : Turn) : Prop where
  wentOn : WentOn debounce_ms turns table s.pushed
  breaks : schedulerTurn debounce_ms table last = none
  seen : Seen ((turns ++ [last]).filterMap readTask) s
  closed : last.wakeup = .pipeClosed →
    (turns ++ [last]).filterMap readTask = tasks s ∧ ∀ x, ¬ s.CanWrite .event x

theorem BrokeOff.of_others {last : Turn} (h : BrokeOff debounce_ms table s turns last)
    (hin : (s.pipe .event).InRecords syncTaskSize) (hE : Others .scheduler s s') :
    BrokeOff debounce_ms table s' turns last := by
  have hpushed := (hE.own.scheduler rfl).2
  refine ⟨hpushed ▸ h.wentOn, h.breaks, h.seen.of_others hin hE, fun hlast => ?_⟩
  obtain ⟨hall, hnone⟩ := h.closed hlast
  refine ⟨?_, fun x hx => hnone x (hx.of_later hE.later.dead hE.later.closed)⟩
  rw [hall]
  unfold tasks Pipe.records
  rw [writes_eq_of_later hE.later hnone]

theorem BrokeOff.of_event_eq {last : Turn} (h : BrokeOff debounce_ms table s turns last)
    (heq : s'.pipe .event = s.pipe .event) (hpushed : s'.pushed = s.pushed)
    (hdead : s'.dead = s.dead) (hclosed : s'.closed = s.closed) :
    BrokeOff debounce_ms table s' turns last := by
  refine ⟨hpushed ▸ h.wentOn, h.breaks, h.seen.of_event_eq heq, fun hlast => ?_⟩
  obtain ⟨hall, hnone⟩ := h.closed hlast
  constructor
  · rw [hall]
    unfold tasks
    rw [heq]
  · intro x hx
    unfold ClientState.CanWrite at hx
    rw [hdead, hclosed] at hx
    exact hnone x hx

/-- The log message with which the loop breaks off. -/
theorem runs_break {last : Turn} {msg : LogMessage} (hI : Inv load debounce_ms s)
    (hlevel : LogMessage.isExit msg = false) (h : BrokeOff debounce_ms table s turns last) :
    Runs killable capacity load debounce_ms
      (fun table' s => ∃ turns last, BrokeOff debounce_ms table' s turns last)
      (logMessage fuel msg >>= fun _ => .ret table) s := by
  have hstable : ∀ s s', Inv load debounce_ms s' → Others .scheduler s s' →
      BrokeOff debounce_ms table s turns last ∧ (s.pipe .event).InRecords syncTaskSize →
      BrokeOff debounce_ms table s' turns last ∧ (s'.pipe .event).InRecords syncTaskSize :=
    fun s s' hI' hE hs => ⟨hs.1.of_others hs.2 hE, hI'.event.records⟩
  apply (within_logMessage (i := .scheduler) hI (fun _ _ hexit => absurd hexit (by rw [hlevel]; decide))
    (fun _ hI _ hself => hI.logger_alive (Or.inr rfl) hself) hstable hstable
    (fun _ _ outs houts => by cases houts) (fun s _ hs _ => ?_) ⟨h, hI.event.records⟩).bind hI
  · exact fun _ s₁ hI₁ hs₁ => Within.ret fun s₂ hI₂ hE =>
      ⟨turns, last, (hstable s₁ s₂ hI₂ hE hs₁).1⟩
  · have heq : (s.setPipe .log ((s.pipe .log).push .scheduler msg.encode)).pipe .event =
        s.pipe .event := setPipe_of_ne (by decide) _
    exact ⟨hs.1.of_event_eq heq rfl rfl rfl, heq ▸ hs.2⟩

/-- A turn that neither reads nor queues, and ends the loop. -/
theorem At.brokeOff {last : Turn} (hs : At ((turns ++ [last]).filterMap readTask) pushed s)
    (h : WentOn debounce_ms turns table pushed)
    (hnone : schedulerTurn debounce_ms table last = none)
    (hclosed : last.wakeup = .pipeClosed → (turns ++ [last]).filterMap readTask = tasks s ∧
      ∀ x, ¬ s.CanWrite .event x) : BrokeOff debounce_ms table s turns last :=
  ⟨hs.pushed ▸ h, hnone, hs.seen, hclosed⟩

theorem runs_schedulerLoop (turnsLeft : Nat) (h : WentOn debounce_ms turns table pushed)
    (hI : Inv load debounce_ms s) (hs : At (turns.filterMap readTask) pushed s) :
    Runs killable capacity load debounce_ms
      (fun table' s => ∃ turns last, BrokeOff debounce_ms table' s turns last)
      (schedulerLoop fuel pid debounce_ms turnsLeft table) s := by
  induction turnsLeft generalizing turns table pushed s with
  | zero => trivial
  | succ turnsLeft ih =>
      have hquiet : ∀ {t : Turn} {s : ClientState}, readTask t = none →
          At (turns.filterMap readTask) pushed s →
          At ((turns ++ [t]).filterMap readTask) pushed s := by
        intro t s hnone hs
        rwa [filterMap_readTask_snoc, hnone, Option.toList_none, List.append_nil]
      have hflush : ∀ {f : Int → Turn} {t : PendingTable} {l l' : List SyncTask}
          {s : ClientState}, Inv load debounce_ms s →
          (∀ flushMs, schedulerTurn debounce_ms table (f flushMs) =
            some ((pendingFlushStableTasks t flushMs debounce_ms).1,
              l ++ (pendingFlushStableTasks t flushMs debounce_ms).2)) →
          (∀ flushMs, turns.filterMap readTask ++ (readTask (f flushMs)).toList = l') →
          At l' (pushed ++ l) s →
          Runs killable capacity load debounce_ms
            (fun table' s => ∃ turns last, BrokeOff debounce_ms table' s turns last)
            (flushStable debounce_ms t >>= schedulerLoop fuel pid debounce_ms turnsLeft) s := by
        intro f t l l' s hI hturn hread hs
        apply (runs_flushStable h hturn hread hs).bind hI
        rintro table' s' hI' ⟨flushMs, pushed', hwent, hs'⟩
        apply ih hwent hI'
        rwa [filterMap_readTask_snoc, hread]
      rw [schedulerLoop]
      apply runs_ask (c := .select) (fun _ _ _ hK => hK) hs
      intro (r : Except Errno Bool) s₁ hI₁ hs₁
      rcases r with e | ready
      · have hfail : Runs killable capacity load debounce_ms
            (fun table' s => ∃ turns last, BrokeOff debounce_ms table' s turns last)
            (ccall .strerror >>= fun text : Bytes => logMessage fuel (.of pid logError
              (ascii "scheduler: select failed: " ++ text)) >>= fun _ => .ret table) s₁ := by
          apply runs_ask (c := .strerror) (fun _ _ _ hK => hK) hs₁
          intro text s₂ hI₂ hs₂
          exact runs_break hI₂ (by rfl) ((hquiet (t := Turn.mk .selectFailed 0 0) rfl hs₂).brokeOff
            h rfl (by rintro ⟨⟩))
        cases e with
        | intr =>
            have hnext : WentOn debounce_ms (turns ++ [Turn.mk .interrupted 0 0]) table
                (pushed ++ []) := h.snoc rfl
            rw [List.append_nil] at hnext
            exact ih hnext hI₁ (hquiet rfl hs₁)
        | _ => exact hfail
      cases ready with
      | false =>
          apply hflush (f := Turn.mk .timeout 0) (l := []) hI₁ (fun _ => rfl)
            (fun _ => List.append_nil _)
          rw [List.append_nil]
          exact hs₁
      | true =>
          apply (runs_readPipe hI₁ hs₁ h.read_ne_exit).bind hI₁
          rintro r s₂ hI₂ (⟨rfl, hs₂, hall, hnone⟩ | ⟨bytes, rfl, hs₂⟩)
          · have hlast : (turns ++ [Turn.mk .pipeClosed 0 0]).filterMap readTask =
                turns.filterMap readTask := by
              rw [filterMap_readTask_snoc]
              exact List.append_nil _
            exact runs_break hI₂ (by rfl) ((hquiet (t := Turn.mk .pipeClosed 0 0) rfl hs₂).brokeOff
              h rfl fun _ => ⟨hlast.trans hall, hnone⟩)
          · dsimp only
            split_ifs with hexit
            · have hturn : schedulerTurn debounce_ms table
                  ⟨.event (TaskRecord.decode bytes).toSyncTask, 0, 0⟩ = none := if_pos hexit
              refine runs_break hI₂ (by rfl) (At.brokeOff ?_ h hturn (by rintro ⟨⟩))
              rw [filterMap_readTask_snoc]
              exact hs₂
            · apply (runs_scheduleTask h hI₂ hexit hs₂).bind hI₂
              rintro table' s₃ hI₃ ⟨recordMs, rfl, hs₃⟩
              exact hflush (f := Turn.mk (.event _) recordMs) hI₃
                (fun flushMs => schedulerTurn_event hexit recordMs flushMs) (fun _ => rfl) hs₃

/-! ## The whole thread -/

/-- How the scheduler has finished: it queued what its turns queue, and these read all
tasks up to EXIT, or all tasks there will ever be, unless `select` failed. -/
inductive Finished (debounce_ms : Int) (s : ClientState) : Prop
  | exit {turns : List Turn} (exits : Exits turns)
      (read : turns.filterMap readTask = upTo isExitTask (tasks s))
      (pushed : s.pushed = schedulerThreadMain debounce_ms .empty turns)
  | closed {turns : List Turn} (read : turns.filterMap readTask = upTo isExitTask (tasks s))
      (all : turns.filterMap readTask = tasks s) (noMore : ∀ x, ¬ s.CanWrite .event x)
      (pushed : s.pushed = schedulerThreadMain debounce_ms .empty turns)
  | selectFailed {turns : List Turn}
      (read : turns.filterMap readTask <+: upTo isExitTask (tasks s))
      (last : ∃ turn, turns.getLast? = some turn ∧ turn.wakeup = .selectFailed)
      (pushed : s.pushed = schedulerThreadMain debounce_ms .empty turns)

theorem BrokeOff.finished {last : Turn} {s₀ : ClientState}
    (h : BrokeOff debounce_ms table s₀ turns last) (hseen : Seen ((turns ++ [last]).filterMap readTask) s)
    (hpushed : s.pushed = s₀.pushed ++ (pendingFlushAll table).2)
    (hclosed : last.wakeup = .pipeClosed → (turns ++ [last]).filterMap readTask = tasks s ∧
      ∀ x, ¬ s.CanWrite .event x) : Finished debounce_ms s := by
  have hmain : s.pushed = schedulerThreadMain debounce_ms .empty (turns ++ [last]) := by
    rw [h.wentOn.main_append, schedulerThreadMain, h.breaks, hpushed]
  have hbreaks := h.breaks
  unfold schedulerTurn at hbreaks
  cases hw : last.wakeup with
  | interrupted => simp [hw] at hbreaks
  | timeout => simp [hw] at hbreaks
  | selectFailed =>
      exact .selectFailed hseen.front ⟨last, List.getLast?_concat, hw⟩ hmain
  | pipeClosed =>
      obtain ⟨hall, hnone⟩ := hclosed hw
      refine .closed ?_ hall hnone hmain
      apply hseen.front.eq_of_length_le
      rw [hall]
      exact (upTo_front _ _).length_le
  | event task =>
      have hexit : task.event_type = .exit := by
        by_contra hne
        simp [hw, hne] at hbreaks
      have hread : (turns ++ [last]).filterMap readTask = turns.filterMap readTask ++ [task] := by
        rw [filterMap_readTask_snoc, readTask, hw]
        rfl
      refine .exit (h.wentOn.exits (.exit hw hexit)) ?_ hmain
      have hstop : isExitTask task = true := decide_eq_true hexit
      obtain ⟨more, hmore⟩ := hseen.front.trans (upTo_front _ _)
      rw [← hmore, upTo_append_of_exists ⟨task, by rw [hread]; simp, hstop⟩, hread,
        upTo_append_of_forall h.wentOn.read_ne_exit, upTo, if_pos hstop]

theorem exists_exit_of_exits (h : Exits turns) :
    ∃ task ∈ turns.filterMap readTask, task.event_type = .exit := by
  induction h with
  | @exit turn task hread hexit =>
      refine ⟨task, List.mem_filterMap.mpr ⟨turn, List.mem_singleton_self turn, ?_⟩, hexit⟩
      rw [readTask, hread]
  | turn _ _ ih =>
      obtain ⟨task, hmem, hexit⟩ := ih
      obtain ⟨turn, hturn, hread⟩ := List.mem_filterMap.mp hmem
      exact ⟨task, List.mem_filterMap.mpr ⟨turn, List.mem_cons_of_mem _ hturn, hread⟩, hexit⟩

theorem Finished.of_others (h : Finished debounce_ms s) (hE : Others .scheduler s s') :
    Finished debounce_ms s' := by
  have hsame := (hE.own.scheduler rfl).2
  obtain ⟨more, hmore⟩ := tasks_of_later hE.later
  cases h with
  | exit exits read pushed =>
      refine .exit exits ?_ (hsame.trans pushed)
      have hexit : ∃ task ∈ tasks s, isExitTask task = true := by
        obtain ⟨task, hmem, hexit⟩ := exists_exit_of_exits exits
        rw [read] at hmem
        exact ⟨task, (upTo_front _ _).subset hmem, decide_eq_true hexit⟩
      rw [hmore, upTo_append_of_exists hexit, read]
  | closed read all noMore pushed =>
      have hsameTasks : tasks s' = tasks s := by
        unfold tasks Pipe.records
        rw [writes_eq_of_later hE.later noMore]
      exact .closed (by rw [hsameTasks, read]) (by rw [hsameTasks, all])
        (fun x hx => noMore x (hx.of_later hE.later.dead hE.later.closed)) (hsame.trans pushed)
  | selectFailed read last pushed =>
      exact .selectFailed (read.trans (upTo_tasks_of_later hE.later)) last (hsame.trans pushed)

/-- The scheduler finishes, if it does, with everything read that it could read. -/
theorem runs_schedulerThread (hI : Inv load debounce_ms s) (hs : At [] [] s) :
    Runs killable capacity load debounce_ms (fun _ => Finished debounce_ms)
      (schedulerThread fuel pid debounce_ms) s := by
  unfold schedulerThread
  apply (runs_schedulerLoop fuel .nil hI hs).bind hI
  rintro table s₁ hI₁ ⟨turns, last, hbroke⟩
  have hat : At ((turns ++ [last]).filterMap readTask) s₁.pushed s₁ :=
    ⟨hbroke.seen, rfl, hI₁.event.records⟩
  have hmain : s₁.pushed ++ (pendingFlushAll table).2 =
      schedulerThreadMain debounce_ms .empty (turns ++ [last]) := by
    rw [hbroke.wentOn.main_append, schedulerThreadMain, hbroke.breaks]
  apply (runs_pushAll_keeping (J := fun s => last.wakeup = .pipeClosed →
      (turns ++ [last]).filterMap readTask = tasks s ∧ ∀ x, ¬ s.CanWrite .event x) _ hat
    ⟨turns ++ [last], rfl, by rw [hmain]⟩ ?_ (fun _ _ h => h) hbroke.closed).bind hI₁
  · rintro _ s₂ hI₂ ⟨hs₂, hclosed⟩
    have hfinished := hbroke.finished hs₂.seen hs₂.pushed hclosed
    refine fun s₃ r s₄ hI₃ hE hK => ?_
    obtain rfl : s₄ = s₃ := hK.2
    exact ⟨hI₃, .refl _ s₄, fun s₅ _ hE' => (hfinished.of_others hE).of_others hE'⟩
  · intro s s' hE h hlast
    obtain ⟨hall, hnone⟩ := h hlast
    refine ⟨?_, fun x hx => hnone x (hx.of_later hE.later.dead hE.later.closed)⟩
    rw [hall]
    unfold tasks Pipe.records
    rw [writes_eq_of_later hE.later hnone]

end MiniSync.Pipes
