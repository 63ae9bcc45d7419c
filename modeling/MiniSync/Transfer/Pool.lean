import Mathlib.Algebra.BigOperators.Fin
import Mathlib.Logic.Function.Basic
import MiniSync.Transfer.Scheduler

/-!
# The scheduler and its workers

The threads of `transfer_process` around one task queue: the scheduler pushes what
its turns produce, and any number of workers pop, attempt and requeue.  Each step
is one access to what the threads share, in any interleaving.

A job is a task in circulation; its number counts the pushes of the scheduler and
follows the task through all its attempts.
-/

namespace MiniSync

structure Job where
  id : Nat
  task : SyncTask

/-- Where a worker is in `worker_thread_main`. -/
inductive Worker
  /-- At the test of `ctx->stop`. -/
  | testing
  /-- In `task_queue_pop`. -/
  | popping
  /-- In `sync_task_local` or `sync_task_remote`. -/
  | syncing (job : Job)
  /-- In `requeue_or_fail`, before the push. -/
  | requeueing (job : Job)
  | left

/-- Where the scheduler is. -/
inductive SchedulerPhase
  | looping
  /-- In `pending_flush_all`, or before `task_queue_stop`. -/
  | flushing
  /-- Before `ctx->stop = 1`. -/
  | stopping
  | returned
  deriving DecidableEq

/-- The threads with `n` workers; `outbox` holds the pushes that the scheduler has
still to make, `pushed` counts those it has made. -/
structure Pool (n : Nat) where
  table : PendingTable
  outbox : List SyncTask
  phase : SchedulerPhase
  pushed : Nat
  queue : List Job
  stopped : Bool
  stop : Bool
  workers : Fin n → Worker

inductive PoolEvent (n : Nat)
  /-- The scheduler goes round once. -/
  | turn (turn : Turn)
  | push (job : Job)
  | stopQueue
  | raiseStop
  /-- A worker finds `ctx->stop` not set, or set. -/
  | goOn (i : Fin n)
  | leaveStop (i : Fin n)
  | pop (i : Fin n) (job : Job)
  /-- `task_queue_pop` returns 0. -/
  | leaveEmpty (i : Fin n)
  /-- An attempt changes `current/rel_path`. -/
  | change (i : Fin n) (job : Job)
  | succeed (i : Fin n) (job : Job)
  /-- An attempt fails and is to be retried, or given up. -/
  | fail (i : Fin n) (job : Job)
  | giveUp (i : Fin n) (job : Job)
  /-- The push of `requeue_or_fail`; a stopped queue does not accept it. -/
  | requeue (i : Fin n) (job : Job) (accepted : Bool)

/-- `retry_count++` -/
def Job.retried (job : Job) : Job :=
  ⟨job.id, { job.task with retry_count := job.task.retry_count + 1 }⟩

@[simp] theorem Job.retried_id (job : Job) : job.retried.id = job.id := rfl

namespace Pool

variable {n : Nat}

def start (n : Nat) : Pool n where
  table := .empty
  outbox := []
  phase := .looping
  pushed := 0
  queue := []
  stopped := false
  stop := false
  workers := fun _ => .testing

/-- Worker `i` is now elsewhere. -/
def setWorker (s : Pool n) (i : Fin n) (w : Worker) : Pool n :=
  { s with workers := Function.update s.workers i w }

/-- `task_queue_push` -/
def enqueue (s : Pool n) (job : Job) : Pool n :=
  if s.stopped then s else { s with queue := s.queue ++ [job] }

/-- One step of one thread. -/
inductive Step (debounce_ms : Int) : Pool n → PoolEvent n → Pool n → Prop
  | turn {s : Pool n} {turn : Turn} {table : PendingTable} {pushes : List SyncTask}
      (hphase : s.phase = .looping) (hout : s.outbox = [])
      (hturn : schedulerTurn debounce_ms s.table turn = some (table, pushes)) :
      Step debounce_ms s (.turn turn) { s with table, outbox := pushes }
  | exit {s : Pool n} {turn : Turn} (hphase : s.phase = .looping) (hout : s.outbox = [])
      (hturn : schedulerTurn debounce_ms s.table turn = none) :
      Step debounce_ms s (.turn turn) { s with
        table := (pendingFlushAll s.table).1
        outbox := (pendingFlushAll s.table).2
        phase := .flushing }
  | push {s : Pool n} {task : SyncTask} {rest : List SyncTask} (hout : s.outbox = task :: rest) :
      Step debounce_ms s (.push ⟨s.pushed, task⟩)
        (enqueue { s with outbox := rest, pushed := s.pushed + 1 } ⟨s.pushed, task⟩)
  | stopQueue {s : Pool n} (hphase : s.phase = .flushing) (hout : s.outbox = []) :
      Step debounce_ms s .stopQueue { s with stopped := true, phase := .stopping }
  | raiseStop {s : Pool n} (hphase : s.phase = .stopping) :
      Step debounce_ms s .raiseStop { s with stop := true, phase := .returned }
  | goOn {s : Pool n} {i : Fin n} (hi : s.workers i = .testing) (hstop : s.stop = false) :
      Step debounce_ms s (.goOn i) (s.setWorker i .popping)
  | leaveStop {s : Pool n} {i : Fin n} (hi : s.workers i = .testing) (hstop : s.stop = true) :
      Step debounce_ms s (.leaveStop i) (s.setWorker i .left)
  | pop {s : Pool n} {i : Fin n} {job : Job} {rest : List Job} (hi : s.workers i = .popping)
      (hqueue : s.queue = job :: rest) :
      Step debounce_ms s (.pop i job) ({ s with queue := rest }.setWorker i (.syncing job))
  | leaveEmpty {s : Pool n} {i : Fin n} (hi : s.workers i = .popping) (hqueue : s.queue = [])
      (hstopped : s.stopped = true) :
      Step debounce_ms s (.leaveEmpty i) (s.setWorker i .left)
  | change {s : Pool n} {i : Fin n} {job : Job} (hi : s.workers i = .syncing job) :
      Step debounce_ms s (.change i job) s
  | succeed {s : Pool n} {i : Fin n} {job : Job} (hi : s.workers i = .syncing job) :
      Step debounce_ms s (.succeed i job) (s.setWorker i .testing)
  | fail {s : Pool n} {i : Fin n} {job : Job} (hi : s.workers i = .syncing job)
      (hretry : job.task.retry_count < maxRetryCount) :
      Step debounce_ms s (.fail i job) (s.setWorker i (.requeueing job.retried))
  | giveUp {s : Pool n} {i : Fin n} {job : Job} (hi : s.workers i = .syncing job)
      (hretry : ¬ job.task.retry_count < maxRetryCount) :
      Step debounce_ms s (.giveUp i job) (s.setWorker i .testing)
  | requeue {s : Pool n} {i : Fin n} {job : Job} (hi : s.workers i = .requeueing job) :
      Step debounce_ms s (.requeue i job (!s.stopped)) ((s.enqueue job).setWorker i .testing)

/-- A run whose steps all satisfy `C`, a condition on the state before the step. -/
inductive Run (debounce_ms : Int) (C : Pool n → PoolEvent n → Prop) :
    Pool n → List (PoolEvent n) → Pool n → Prop
  | nil (s : Pool n) : Run debounce_ms C s [] s
  | snoc {s s₁ s₂ : Pool n} {tr : List (PoolEvent n)} {e : PoolEvent n} :
      Run debounce_ms C s tr s₁ → Step debounce_ms s₁ e s₂ → C s₁ e →
        Run debounce_ms C s (tr ++ [e]) s₂

/-- Any run. -/
abbrev AnyRun (debounce_ms : Int) : Pool n → List (PoolEvent n) → Pool n → Prop :=
  Run debounce_ms fun _ _ => True

/-- Worker `i` has the job in its hands. -/
def Holds (s : Pool n) (i : Fin n) (job : Job) : Prop :=
  s.workers i = .syncing job ∨ s.workers i = .requeueing job

/-! ## What a step leaves alone -/

variable {debounce_ms : Int} {C : Pool n → PoolEvent n → Prop} {s s' : Pool n}
  {e : PoolEvent n} {tr : List (PoolEvent n)} {job : Job} {i : Fin n}

@[simp] theorem setWorker_queue (s : Pool n) (i : Fin n) (w : Worker) :
    (s.setWorker i w).queue = s.queue := rfl

@[simp] theorem setWorker_pushed (s : Pool n) (i : Fin n) (w : Worker) :
    (s.setWorker i w).pushed = s.pushed := rfl

@[simp] theorem setWorker_stopped (s : Pool n) (i : Fin n) (w : Worker) :
    (s.setWorker i w).stopped = s.stopped := rfl

@[simp] theorem setWorker_self (s : Pool n) (i : Fin n) (w : Worker) :
    (s.setWorker i w).workers i = w := Function.update_self ..

theorem setWorker_ne {j : Fin n} (hij : j ≠ i) (w : Worker) :
    (s.setWorker i w).workers j = s.workers j := Function.update_of_ne hij ..

@[simp] theorem enqueue_workers (s : Pool n) (job : Job) :
    (s.enqueue job).workers = s.workers := by
  unfold enqueue
  split_ifs <;> rfl

@[simp] theorem enqueue_pushed (s : Pool n) (job : Job) : (s.enqueue job).pushed = s.pushed := by
  unfold enqueue
  split_ifs <;> rfl

@[simp] theorem enqueue_stopped (s : Pool n) (job : Job) :
    (s.enqueue job).stopped = s.stopped := by
  unfold enqueue
  split_ifs <;> rfl

theorem enqueue_queue (h : s.stopped = false) (job : Job) :
    (s.enqueue job).queue = s.queue ++ [job] := by
  unfold enqueue
  rw [if_neg (by simp [h])]

theorem enqueue_of_stopped (h : s.stopped = true) (job : Job) : s.enqueue job = s := by
  unfold enqueue
  rw [if_pos h]

/-- The queue is stopped before the flag is raised, and only after the last push. -/
structure Phased (s : Pool n) : Prop where
  stopped_iff : s.stopped = true ↔ s.phase = .stopping ∨ s.phase = .returned
  stop_iff : s.stop = true ↔ s.phase = .returned
  outbox : s.stopped = true → s.outbox = []

theorem phased_start : (start n).Phased := ⟨by simp [start], by simp [start], by simp [start]⟩

theorem Step.phased (h : Step debounce_ms s e s') (hs : s.Phased) : s'.Phased := by
  have hopen : s.phase = .looping ∨ s.phase = .flushing → s.stopped = false := by
    intro hphase
    rw [← Bool.not_eq_true, hs.stopped_iff]
    rcases hphase with hphase | hphase <;> simp [hphase]
  cases h with
  | turn hphase hout hturn =>
      exact ⟨hs.stopped_iff, hs.stop_iff, fun h => by simp [hopen (Or.inl hphase)] at h⟩
  | exit hphase hout hturn =>
      have hstop : s.stop = false := by
        rw [← Bool.not_eq_true, hs.stop_iff, hphase]
        simp
      have hstopped := hopen (Or.inl hphase)
      exact ⟨by simp [hstopped], by simp [hstop], fun h => by simp [hstopped] at h⟩
  | push hout =>
      have hstopped : s.stopped = false := by
        rw [← Bool.not_eq_true]
        intro h
        rw [hs.outbox h] at hout
        cases hout
      unfold enqueue
      rw [if_neg (by simp [hstopped])]
      exact ⟨hs.stopped_iff, hs.stop_iff, fun h => by simp [hstopped] at h⟩
  | stopQueue hphase hout =>
      have hstop : s.stop = false := by
        rw [← Bool.not_eq_true, hs.stop_iff, hphase]
        simp
      exact ⟨by simp, by simp [hstop], fun _ => hout⟩
  | raiseStop hphase =>
      have hstopped := hs.stopped_iff.mpr (Or.inl hphase)
      exact ⟨by simp [hstopped], by simp, fun _ => hs.outbox hstopped⟩
  | requeue hi =>
      unfold enqueue
      split_ifs
      · exact ⟨hs.stopped_iff, hs.stop_iff, hs.outbox⟩
      · exact ⟨hs.stopped_iff, hs.stop_iff, hs.outbox⟩
  | _ => exact ⟨hs.stopped_iff, hs.stop_iff, hs.outbox⟩

theorem Run.phased (h : Run debounce_ms C (start n) tr s) : s.Phased := by
  generalize hs : start n = s₀ at h
  induction h with
  | nil => exact hs ▸ phased_start
  | snoc _ hstep _ ih => exact hstep.phased ih

end Pool

end MiniSync
