import MiniSync.Common
import MiniSync.Lib.LinkedQueue
import MiniSync.Task

/-!
# The task queue

`task_queue.c`: a queue of linked nodes on the heap, between threads that push and
threads that pop.  A mutex makes each critical section one step; in between, a thread
has a node of its own that it has allocated and not yet linked, or unlinked and not yet
freed.  The condition variable wakes one waiter or all; waiters may also wake by
themselves.

Whatever the threads do, the queue is the list of the tasks pushed and not yet popped.
-/

namespace MiniSync

/-! ## Critical sections -/

/-- An address; a pointer that may be `NULL` is an `Option Addr`. -/
abbrev Addr := Nat

structure TaskNode where
  task : SyncTask
  next : Option Addr

structure TaskQueue where
  front : Option Addr
  rear : Option Addr
  size : Int
  stopped : Bool

/-- `task_queue_init` -/
def taskQueueInit : TaskQueue := ⟨none, none, 0, false⟩

/-- The nodes on the heap and the queue that the mutex guards. -/
structure QueueMemory where
  heap : Heap Addr TaskNode
  queue : TaskQueue

/-- `task_queue_push` with the mutex held; `none` where it would follow a pointer to no
node. -/
def pushSection (m : QueueMemory) (node : Addr) : Option (Rc × QueueMemory) :=
  if m.queue.stopped then some (.err, m)
  else
    match m.queue.rear with
    | some rear => do
        let last ← m.heap rear
        return (.ok, {
          heap := m.heap.store rear { last with next := some node }
          queue := { m.queue with rear := some node, size := m.queue.size + 1 } })
    | none =>
        some (.ok, { m with
          queue := { m.queue with
            front := some node
            rear := some node
            size := m.queue.size + 1 } })

/-- How `task_queue_pop` comes out of its critical section. -/
inductive PopResult
  /-- Into `pthread_cond_wait`. -/
  | wait
  /-- To `return 0`. -/
  | stopped
  /-- To `free(node)` and `return 1`, with the task. -/
  | popped (task : SyncTask) (node : Addr)

/-- `task_queue_pop` with the mutex held: the test of its loop, and what follows. -/
def popSection (m : QueueMemory) : Option (PopResult × TaskQueue) :=
  if m.queue.size = 0 ∧ m.queue.stopped = false then some (.wait, m.queue)
  else if m.queue.size = 0 ∧ m.queue.stopped = true then some (.stopped, m.queue)
  else do
    let node ← m.queue.front
    let first ← m.heap node
    return (.popped first.task node, { m.queue with
      front := first.next
      rear := if first.next = none then none else m.queue.rear
      size := m.queue.size - 1 })

/-! ## Threads -/

/-- Where a thread is. -/
inductive Caller
  | outside
  /-- In `task_queue_push`, before the mutex; the node holds the task. -/
  | pushing (node : Addr) (task : SyncTask)
  /-- In `task_queue_pop`, before its first test. -/
  | entering
  /-- In `pthread_cond_wait`. -/
  | asleep
  /-- In `pthread_cond_wait`, woken; it takes the mutex again and repeats the test. -/
  | woken
  /-- Before `free(node)`, with the mutex given back. -/
  | freeing (node : Addr)
  deriving DecidableEq

/-- About to test `size` and `stopped` in `task_queue_pop`. -/
def Caller.Checking (c : Caller) : Prop := c = .entering ∨ c = .woken

/-- The node a thread has to itself. -/
def Caller.node : Caller → Option Addr
  | .pushing node _ => some node
  | .freeing node => some node
  | _ => none

inductive QueueEvent (n : Nat)
  /-- `calloc`, and `node->task = *task`. -/
  | calloc (i : Fin n) (task : SyncTask)
  /-- The critical section of `task_queue_push`, and what it is going to return. -/
  | push (i : Fin n) (task : SyncTask) (rc : Rc)
  | enterPop (i : Fin n)
  | sleep (i : Fin n)
  /-- `pthread_cond_wait` returns though nobody has signalled. -/
  | wakeUp (i : Fin n)
  | pop (i : Fin n) (task : SyncTask)
  /-- `task_queue_pop` returns 0. -/
  | popStopped (i : Fin n)
  | free (i : Fin n)
  /-- `task_queue_stop` -/
  | stop (i : Fin n)

/-- The nodes, the queue, and the threads that use it. -/
structure QueueUsers (n : Nat) where
  memory : QueueMemory
  callers : Fin n → Caller

namespace QueueUsers

variable {n : Nat}

/-- After `task_queue_init`, whatever else the heap holds. -/
def start (n : Nat) (heap : Heap Addr TaskNode) : QueueUsers n :=
  ⟨⟨heap, taskQueueInit⟩, fun _ => .outside⟩

/-- Whom `pthread_cond_signal` may wake: one waiter, if there is one. -/
def MayWake (callers : Fin n → Caller) : Option (Fin n) → Prop
  | some j => callers j = .asleep
  | none => ∀ j, callers j ≠ .asleep

instance (callers : Fin n → Caller) (woken : Option (Fin n)) :
    Decidable (MayWake callers woken) :=
  match woken with
  | some j => inferInstanceAs (Decidable (callers j = .asleep))
  | none => inferInstanceAs (Decidable (∀ j, callers j ≠ .asleep))

/-- `pthread_cond_signal` -/
def signal (callers : Fin n → Caller) : Option (Fin n) → Fin n → Caller
  | some j => Function.update callers j .woken
  | none => callers

/-- `pthread_cond_broadcast` -/
def broadcast (callers : Fin n → Caller) (j : Fin n) : Caller :=
  if callers j = .asleep then .woken else callers j

/-- One step of one thread. -/
inductive Step : QueueUsers n → QueueEvent n → QueueUsers n → Prop
  | calloc {s : QueueUsers n} {i : Fin n} {node : Addr} (task : SyncTask)
      (hi : s.callers i = .outside) (hunused : s.memory.heap node = none) :
      Step s (.calloc i task)
        ⟨{ s.memory with heap := s.memory.heap.store node ⟨task, none⟩ },
          Function.update s.callers i (.pushing node task)⟩
  | push {s : QueueUsers n} {i : Fin n} {node : Addr} {task : SyncTask} {memory : QueueMemory}
      {woken : Option (Fin n)} (hi : s.callers i = .pushing node task)
      (hpush : pushSection s.memory node = some (.ok, memory))
      (hwoken : MayWake s.callers woken) :
      Step s (.push i task .ok)
        ⟨memory, Function.update (signal s.callers woken) i .outside⟩
  | refuse {s : QueueUsers n} {i : Fin n} {node : Addr} {task : SyncTask} {memory : QueueMemory}
      (hi : s.callers i = .pushing node task)
      (hpush : pushSection s.memory node = some (.err, memory)) :
      Step s (.push i task .err) ⟨memory, Function.update s.callers i (.freeing node)⟩
  | enterPop {s : QueueUsers n} {i : Fin n} (hi : s.callers i = .outside) :
      Step s (.enterPop i) ⟨s.memory, Function.update s.callers i .entering⟩
  | sleep {s : QueueUsers n} {i : Fin n} {queue : TaskQueue} (hi : (s.callers i).Checking)
      (hpop : popSection s.memory = some (.wait, queue)) :
      Step s (.sleep i) ⟨{ s.memory with queue }, Function.update s.callers i .asleep⟩
  | wakeUp {s : QueueUsers n} {i : Fin n} (hi : s.callers i = .asleep) :
      Step s (.wakeUp i) ⟨s.memory, Function.update s.callers i .woken⟩
  | pop {s : QueueUsers n} {i : Fin n} {task : SyncTask} {node : Addr} {queue : TaskQueue}
      (hi : (s.callers i).Checking)
      (hpop : popSection s.memory = some (.popped task node, queue)) :
      Step s (.pop i task)
        ⟨{ s.memory with queue }, Function.update s.callers i (.freeing node)⟩
  | popStopped {s : QueueUsers n} {i : Fin n} {queue : TaskQueue} (hi : (s.callers i).Checking)
      (hpop : popSection s.memory = some (.stopped, queue)) :
      Step s (.popStopped i) ⟨{ s.memory with queue }, Function.update s.callers i .outside⟩
  | free {s : QueueUsers n} {i : Fin n} {node : Addr} (hi : s.callers i = .freeing node) :
      Step s (.free i)
        ⟨{ s.memory with heap := s.memory.heap.free node },
          Function.update s.callers i .outside⟩
  | stop {s : QueueUsers n} {i : Fin n} (hi : s.callers i = .outside) :
      Step s (.stop i)
        ⟨{ s.memory with queue := { s.memory.queue with stopped := true } },
          broadcast s.callers⟩

inductive Run : QueueUsers n → List (QueueEvent n) → QueueUsers n → Prop
  | nil (s : QueueUsers n) : Run s [] s
  | snoc {s s₁ s₂ : QueueUsers n} {tr : List (QueueEvent n)} {e : QueueEvent n} :
      Run s tr s₁ → Step s₁ e s₂ → Run s (tr ++ [e]) s₂

/-- The thread's next access to the memory follows no bad pointer and frees no node that
is not in use. -/
def Defined (s : QueueUsers n) (i : Fin n) : Prop :=
  match s.callers i with
  | .pushing node _ => (pushSection s.memory node).isSome
  | .entering => (popSection s.memory).isSome
  | .woken => (popSection s.memory).isSome
  | .freeing node => (s.memory.heap node).isSome
  | _ => True

end QueueUsers

/-! ## What a critical section does -/

variable {m m' : QueueMemory} {node : Addr} {queue : TaskQueue}

/-- A stopped queue accepts nothing. -/
theorem pushSection_of_stopped (h : m.queue.stopped = true) (node : Addr) :
    pushSection m node = some (.err, m) := if_pos h

theorem pushSection_eq_err (h : pushSection m node = some (.err, m')) :
    m.queue.stopped = true ∧ m' = m := by
  unfold pushSection at h
  split_ifs at h with hstopped
  · cases h
    exact ⟨hstopped, rfl⟩
  · cases hrear : m.queue.rear with
    | none =>
        rw [hrear] at h
        cases h
    | some rear =>
        rw [hrear] at h
        cases hlast : m.heap rear with
        | none => simp [hlast] at h
        | some last => simp [hlast] at h

/-- An accepted push adds one. -/
theorem pushSection_eq_ok (h : pushSection m node = some (.ok, m')) :
    m.queue.stopped = false ∧ m'.queue.stopped = false ∧
      m'.queue.size = m.queue.size + 1 := by
  unfold pushSection at h
  split_ifs at h with hstopped
  · cases h
  · have hopen : m.queue.stopped = false := Bool.eq_false_iff.mpr hstopped
    cases hrear : m.queue.rear with
    | none =>
        rw [hrear] at h
        cases h
        exact ⟨hopen, hopen, rfl⟩
    | some rear =>
        rw [hrear] at h
        cases hlast : m.heap rear with
        | none => simp [hlast] at h
        | some last =>
            simp only [hlast] at h
            cases h
            exact ⟨hopen, hopen, rfl⟩

theorem popSection_eq_wait (h : popSection m = some (.wait, queue)) :
    m.queue.size = 0 ∧ m.queue.stopped = false ∧ queue = m.queue := by
  unfold popSection at h
  split_ifs at h with hwait hstopped
  · cases h
    exact ⟨hwait.1, hwait.2, rfl⟩
  · cases h
  · cases hfront : m.queue.front with
    | none => simp [hfront] at h
    | some node => cases hfirst : m.heap node <;> simp [hfront, hfirst] at h

theorem popSection_eq_stopped (h : popSection m = some (.stopped, queue)) :
    m.queue.size = 0 ∧ m.queue.stopped = true ∧ queue = m.queue := by
  unfold popSection at h
  split_ifs at h with hwait hstopped
  · cases h
  · cases h
    exact ⟨hstopped.1, hstopped.2, rfl⟩
  · cases hfront : m.queue.front with
    | none => simp [hfront] at h
    | some node => cases hfirst : m.heap node <;> simp [hfront, hfirst] at h

/-- A pop unlinks the first node. -/
theorem popSection_eq_popped {task : SyncTask}
    (h : popSection m = some (.popped task node, queue)) :
    ∃ first, m.queue.front = some node ∧ m.heap node = some first ∧ task = first.task ∧
      queue = { m.queue with
        front := first.next
        rear := if first.next = none then none else m.queue.rear
        size := m.queue.size - 1 } := by
  unfold popSection at h
  split_ifs at h with hwait hstopped
  · cases h
  · cases h
  · cases hfront : m.queue.front with
    | none => simp [hfront] at h
    | some a =>
        cases hfirst : m.heap a with
        | none => simp [hfront, hfirst] at h
        | some first =>
            simp only [hfront, hfirst, Option.bind_eq_bind, Option.bind_some] at h
            cases h
            exact ⟨first, rfl, hfirst, rfl, rfl⟩

end MiniSync
