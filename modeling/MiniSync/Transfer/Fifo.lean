import MiniSync.Transfer.TaskQueue

/-!
# First in, first out

The linked task queue is the list of the tasks pushed and not yet popped, in the order
of the pushes.  The invariant says which nodes are linked and which belong to a thread;
no node is both, and no two threads have the same.
-/

namespace MiniSync

/-! ## The queue in memory -/

/-- The nodes at `as` are linked, and counted. -/
structure QueueMemory.Represents (m : QueueMemory) (as : List Addr) : Prop where
  linked : LinkedQueue TaskNode.next m.heap m.queue.front m.queue.rear as
  size : m.queue.size = as.length

/-- The tasks in the nodes at `as`. -/
def QueueMemory.tasks (m : QueueMemory) (as : List Addr) : List SyncTask :=
  contents TaskNode.task m.heap as

variable {m m' : QueueMemory} {as rest : List Addr} {node a : Addr} {task : SyncTask}
  {queue : TaskQueue}

namespace QueueMemory.Represents

theorem size_eq_zero (h : m.Represents as) (hsize : m.queue.size = 0) : as = [] := by
  rw [h.size] at hsize
  exact List.length_eq_zero_iff.mp (Int.natCast_eq_zero.mp hsize)

/-- What happens elsewhere in the heap does not matter. -/
theorem congr (h : m.Represents as) {heap : Heap Addr TaskNode}
    (hsame : ∀ a ∈ as, heap a = m.heap a) : ({ m with heap } : QueueMemory).Represents as :=
  ⟨h.linked.congr hsame, h.size⟩

/-- A push to a queue that is not stopped links the node behind the others. -/
theorem push (h : m.Represents as) (hopen : m.queue.stopped = false)
    (hnode : m.heap node = some ⟨task, none⟩) (hout : node ∉ as) :
    ∃ m', pushSection m node = some (.ok, m') ∧ m'.Represents (as ++ [node]) ∧
      m'.tasks (as ++ [node]) = m.tasks as ++ [task] ∧ ∀ a ∉ as, m'.heap a = m.heap a := by
  have hlinked := h.linked
  have hsize : m.queue.size + 1 = ((as ++ [node]).length : Int) := by
    rw [h.size, List.length_append, List.length_singleton]
    rfl
  unfold pushSection
  rw [if_neg (Bool.eq_false_iff.mp hopen)]
  cases hrear : m.queue.rear with
  | none =>
      rw [hrear] at hlinked
      have hfront : m.queue.front = none := hlinked.rear_eq_none_iff.mp rfl
      obtain ⟨rfl, hqueue⟩ := hlinked.enqueue_first hnode rfl
      refine ⟨_, rfl, ⟨hqueue, hsize⟩, ?_, fun _ _ => rfl⟩
      exact contents_singleton hnode
  | some rear =>
      rw [hrear] at hlinked
      obtain ⟨last, hlast, hqueue⟩ := hlinked.enqueue_behind
        (g := fun last => { last with next := some node }) (fun _ => rfl) hnode rfl hout
      have helsewhere : ∀ a, a ≠ rear →
          m.heap.store rear { last with next := some node } a = m.heap a :=
        fun a ha => Heap.store_ne ha _
      have hmem : rear ∈ as := by
        obtain ⟨bs, -, rfl, -⟩ := hlinked.rear_cell
        exact List.mem_concat_self
      have houtside : ∀ a ∉ as,
          m.heap.store rear { last with next := some node } a = m.heap a :=
        fun a ha => helsewhere a fun heq => ha (heq ▸ hmem)
      simp only [hlast]
      refine ⟨_, rfl, ⟨hqueue, hsize⟩, ?_, houtside⟩
      refine contents_append.trans (congrArg₂ _ (contents_congr fun a _ => ?_) ?_)
      · by_cases ha : a = rear
        · rw [ha, hlast]
          exact (congrArg (Option.map TaskNode.task) (Heap.store_self ..)).trans rfl
        · exact congrArg (Option.map TaskNode.task) (helsewhere a ha)
      · exact contents_singleton ((houtside node hout).trans hnode)

/-- A pop takes the first node and its task. -/
theorem pop (h : m.Represents as) (hpop : popSection m = some (.popped task node, queue)) :
    ∃ rest, as = node :: rest ∧ ({ m with queue } : QueueMemory).Represents rest ∧
      node ∉ rest ∧ (m.heap node).isSome ∧ m.tasks as = task :: m.tasks rest := by
  obtain ⟨first, hfront, hfirst, rfl, rfl⟩ := popSection_eq_popped hpop
  have hlinked := h.linked
  rw [hfront] at hlinked
  obtain ⟨first', rest, rfl, hfirst', hnotMem, hrest⟩ := hlinked.dequeue
  obtain rfl : first' = first := Option.some.inj (hfirst'.symm.trans hfirst)
  refine ⟨rest, rfl, ⟨hrest, ?_⟩, hnotMem, ?_, contents_cons hfirst⟩
  · have hsize := h.size
    rw [List.length_cons] at hsize
    change m.queue.size - 1 = (rest.length : Int)
    omega
  · rw [hfirst]
    rfl

/-- Where there is nothing to pop or something, the pointers lead to it. -/
theorem popSection_isSome (h : m.Represents as) : (popSection m).isSome := by
  unfold popSection
  split_ifs with hwait hstopped
  · rfl
  · rfl
  · have hsize : m.queue.size ≠ 0 := by
      intro hzero
      cases hflag : m.queue.stopped with
      | false => exact hwait ⟨hzero, hflag⟩
      | true => exact hstopped ⟨hzero, hflag⟩
    cases hfront : m.queue.front with
    | none =>
        have hnil : as = [] := h.linked.chain.eq_none_iff.mp hfront
        rw [h.size, hnil] at hsize
        exact absurd rfl hsize
    | some a =>
        have hlinked := h.linked
        rw [hfront] at hlinked
        obtain ⟨first, -, -, hfirst, -⟩ := hlinked.front_cell
        simp only [Option.bind_eq_bind, Option.bind_some, hfirst]
        rfl

end QueueMemory.Represents

/-! ## Who has which node -/

/-- The nodes that threads have to themselves are in use and not linked, no two threads
have the same, and a node to be pushed holds its task. -/
structure Owned {n : Nat} (heap : Heap Addr TaskNode) (as : List Addr)
    (callers : Fin n → Caller) : Prop where
  used : ∀ i a, (callers i).node = some a → (heap a).isSome
  apart : ∀ i a, (callers i).node = some a → a ∉ as
  distinct : ∀ i j a, (callers i).node = some a → (callers j).node = some a → i = j
  filled : ∀ i a task, callers i = .pushing a task → heap a = some ⟨task, none⟩

namespace Owned

variable {n : Nat} {heap heap' : Heap Addr TaskNode} {as' : List Addr}
  {callers callers' : Fin n → Caller} {i : Fin n} {c : Caller}

/-- Threads keep their nodes or let go of them, and the nodes stay as they are. -/
theorem keep (h : Owned heap as callers)
    (hcallers : ∀ j, callers' j = callers j ∨ (callers' j).node = none)
    (hheap : ∀ j a, callers' j = callers j → (callers j).node = some a →
      heap' a = heap a ∧ a ∉ as') : Owned heap' as' callers' := by
  have hsame : ∀ j a, (callers' j).node = some a → callers' j = callers j := by
    intro j a hj
    rcases hcallers j with heq | hnone
    · exact heq
    · rw [hnone] at hj
      cases hj
  refine ⟨?_, ?_, ?_, ?_⟩
  · intro j a hj
    have heq := hsame j a hj
    rw [heq] at hj
    rw [(hheap j a heq hj).1]
    exact h.used j a hj
  · intro j a hj
    have heq := hsame j a hj
    exact (hheap j a heq (heq ▸ hj)).2
  · intro j k a hj hk
    exact h.distinct j k a (hsame j a hj ▸ hj) (hsame k a hk ▸ hk)
  · intro j a task hj
    have heq := hsame j a (by rw [hj]; rfl)
    rw [heq] at hj
    rw [(hheap j a heq (by rw [hj]; rfl)).1]
    exact h.filled j a task hj

/-- A thread comes to have a node that nobody else has. -/
theorem take (h : Owned heap as callers) (hnode : c.node = some node)
    (hused : (heap node).isSome) (hout : node ∉ as)
    (hothers : ∀ j, j ≠ i → (callers j).node ≠ some node)
    (hfilled : ∀ task, c = .pushing node task → heap node = some ⟨task, none⟩) :
    Owned heap as (Function.update callers i c) := by
  have hself : ∀ a, (Function.update callers i c i).node = some a → a = node := by
    intro a ha
    rw [Function.update_self, hnode] at ha
    exact (Option.some.inj ha).symm
  have hne : ∀ j, j ≠ i → Function.update callers i c j = callers j :=
    fun j hj => Function.update_of_ne hj ..
  refine ⟨?_, ?_, ?_, ?_⟩
  · intro j a hj
    by_cases hji : j = i
    · subst hji
      rw [hself a hj]
      exact hused
    · exact h.used j a (hne j hji ▸ hj)
  · intro j a hj
    by_cases hji : j = i
    · subst hji
      rw [hself a hj]
      exact hout
    · exact h.apart j a (hne j hji ▸ hj)
  · intro j k a hj hk
    by_cases hji : j = i
    · by_cases hki : k = i
      · rw [hji, hki]
      · subst hji
        rw [hself a hj, hne k hki] at hk
        exact absurd hk (hothers k hki)
    · by_cases hki : k = i
      · subst hki
        rw [hself a hk, hne j hji] at hj
        exact absurd hj (hothers j hji)
      · exact h.distinct j k a (hne j hji ▸ hj) (hne k hki ▸ hk)
  · intro j a task hj
    by_cases hji : j = i
    · subst hji
      have ha : a = node := hself a (by rw [hj]; rfl)
      rw [Function.update_self] at hj
      rw [ha] at hj ⊢
      exact hfilled task hj
    · exact h.filled j a task (hne j hji ▸ hj)

end Owned

/-! ## One step -/

/-- The task that an event adds to the queue. -/
def QueueEvent.pushed {n : Nat} : QueueEvent n → List SyncTask
  | .push _ task .ok => [task]
  | _ => []

/-- The task that an event takes out of the queue. -/
def QueueEvent.popped {n : Nat} : QueueEvent n → List SyncTask
  | .pop _ task => [task]
  | _ => []

namespace QueueUsers

variable {n : Nat} {s s' : QueueUsers n} {e : QueueEvent n} {tr : List (QueueEvent n)}
  {i : Fin n} {heap : Heap Addr TaskNode}

/-- The nodes at `as` are the queue, all others in use belong to threads. -/
structure Sound (s : QueueUsers n) (as : List Addr) : Prop where
  queue : s.memory.Represents as
  owned : Owned s.memory.heap as s.callers

theorem sound_start (n : Nat) (heap : Heap Addr TaskNode) : (start n heap).Sound [] :=
  ⟨⟨.empty, rfl⟩, ⟨nofun, nofun, nofun, nofun⟩⟩

/-- A thread that is elsewhere, and has no node there. -/
theorem update_cases {callers : Fin n → Caller} {c : Caller} (hc : c.node = none) (j : Fin n) :
    Function.update callers i c j = callers j ∨ (Function.update callers i c j).node = none := by
  by_cases hji : j = i
  · subst hji
    rw [Function.update_self]
    exact Or.inr hc
  · exact Or.inl (Function.update_of_ne hji ..)

theorem signal_cases (callers : Fin n → Caller) (woken : Option (Fin n)) (j : Fin n) :
    signal callers woken j = callers j ∨ (signal callers woken j).node = none := by
  cases woken with
  | none => exact Or.inl rfl
  | some k => exact update_cases rfl j

theorem broadcast_cases (callers : Fin n → Caller) (j : Fin n) :
    broadcast callers j = callers j ∨ (broadcast callers j).node = none := by
  unfold broadcast
  split_ifs
  · exact Or.inr rfl
  · exact Or.inl rfl

/-- A step that leaves the memory alone, and after which threads have no more nodes. -/
theorem Sound.move {as : List Addr} {callers : Fin n → Caller} (hs : s.Sound as)
    (hcallers : ∀ j, callers j = s.callers j ∨ (callers j).node = none) :
    (⟨s.memory, callers⟩ : QueueUsers n).Sound as :=
  ⟨hs.queue, hs.owned.keep hcallers fun j a _ ha => ⟨rfl, hs.owned.apart j a ha⟩⟩

/-- A step pushes at the rear, pops at the front, or leaves the queue as it is. -/
theorem Step.sound {as : List Addr} (h : Step s e s') (hs : s.Sound as) :
    ∃ as', s'.Sound as' ∧
      e.popped ++ s'.memory.tasks as' = s.memory.tasks as ++ e.pushed := by
  cases h with
  | @calloc i node task hi hunused =>
      have hout : node ∉ as := hs.queue.linked.notMem_of_unused hunused
      have hne : ∀ a, (s.memory.heap a).isSome → a ≠ node := by
        rintro a ha rfl
        rw [hunused] at ha
        cases ha
      have hlinked : ∀ a ∈ as, s.memory.heap.store node ⟨task, none⟩ a = s.memory.heap a :=
        fun a ha => Heap.store_ne (ne_of_mem_of_not_mem ha hout) _
      refine ⟨as, ⟨hs.queue.congr hlinked, ?_⟩, ?_⟩
      · refine (hs.owned.keep (fun j => Or.inl rfl) fun j a _ ha => ?_).take rfl ?_ hout ?_ ?_
        · exact ⟨Heap.store_ne (hne a (hs.owned.used j a ha)) _, hs.owned.apart j a ha⟩
        · exact Option.isSome_iff_exists.mpr ⟨_, Heap.store_self ..⟩
        · exact fun j _ hj => hne node (hs.owned.used j node hj) rfl
        · rintro task' ⟨⟩
          exact Heap.store_self ..
      · refine (contents_congr fun a ha => ?_).trans (List.append_nil _).symm
        exact congrArg (Option.map TaskNode.task) (hlinked a ha)
  | @push i node task memory woken hi hpush hwoken =>
      have hnode : (s.callers i).node = some node := by rw [hi]; rfl
      have hopen : s.memory.queue.stopped = false := (pushSection_eq_ok hpush).1
      obtain ⟨m', hsection, hqueue, htasks, hheap⟩ := hs.queue.push hopen
        (hs.owned.filled i node task hi) (hs.owned.apart i node hnode)
      obtain ⟨-, rfl⟩ : Rc.ok = .ok ∧ m' = memory :=
        Prod.ext_iff.mp (Option.some.inj (hsection.symm.trans hpush))
      have hcallers : ∀ j, Function.update (signal s.callers woken) i .outside j = s.callers j ∨
          (Function.update (signal s.callers woken) i .outside j).node = none := by
        intro j
        rcases @update_cases n i (signal s.callers woken) .outside rfl j with heq | hnone
        · rw [heq]
          exact signal_cases s.callers woken j
        · exact Or.inr hnone
      refine ⟨as ++ [node], ⟨hqueue, hs.owned.keep hcallers fun j a hj ha => ?_⟩, htasks⟩
      have hji : j ≠ i := by
        rintro rfl
        have houtside : Caller.outside = s.callers j := (Function.update_self ..).symm.trans hj
        rw [← houtside] at ha
        cases ha
      have hane : a ≠ node := by
        rintro rfl
        exact hji (hs.owned.distinct j i a ha hnode)
      have hout : a ∉ as := hs.owned.apart j a ha
      refine ⟨hheap a hout, fun hmem => ?_⟩
      rcases List.mem_append.mp hmem with hmem | hmem
      · exact hout hmem
      · exact hane (List.mem_singleton.mp hmem)
  | @refuse i node task memory hi hpush =>
      have hnode : (s.callers i).node = some node := by rw [hi]; rfl
      obtain ⟨-, rfl⟩ := pushSection_eq_err hpush
      refine ⟨as, ⟨hs.queue, hs.owned.take rfl ?_ ?_ ?_ nofun⟩, (List.append_nil _).symm⟩
      · exact hs.owned.used i node hnode
      · exact hs.owned.apart i node hnode
      · exact fun j hji hj => hji (hs.owned.distinct j i node hj hnode)
  | enterPop hi => exact ⟨as, hs.move (update_cases rfl), (List.append_nil _).symm⟩
  | sleep hi hpop =>
      obtain ⟨-, -, rfl⟩ := popSection_eq_wait hpop
      exact ⟨as, hs.move (update_cases rfl), (List.append_nil _).symm⟩
  | wakeUp hi => exact ⟨as, hs.move (update_cases rfl), (List.append_nil _).symm⟩
  | @pop i task node queue hi hpop =>
      obtain ⟨rest, rfl, hqueue, hout, hused, htasks⟩ := hs.queue.pop hpop
      refine ⟨rest, ⟨hqueue, ?_⟩, (htasks.symm.trans (List.append_nil _).symm)⟩
      have hrest : Owned s.memory.heap rest s.callers := hs.owned.keep (fun j => Or.inl rfl)
        fun j a _ ha => ⟨rfl, fun hmem => hs.owned.apart j a ha (List.mem_cons_of_mem node hmem)⟩
      exact hrest.take rfl hused hout
        (fun j _ hj => hs.owned.apart j node hj List.mem_cons_self) nofun
  | popStopped hi hpop =>
      obtain ⟨-, -, rfl⟩ := popSection_eq_stopped hpop
      exact ⟨as, hs.move (update_cases rfl), (List.append_nil _).symm⟩
  | @free i node hi =>
      have hnode : (s.callers i).node = some node := by rw [hi]; rfl
      have hout : node ∉ as := hs.owned.apart i node hnode
      have hlinked : ∀ a ∈ as, s.memory.heap.free node a = s.memory.heap a :=
        fun a ha => Heap.free_ne (ne_of_mem_of_not_mem ha hout)
      refine ⟨as, ⟨hs.queue.congr hlinked, ?_⟩, ?_⟩
      · refine hs.owned.keep (update_cases rfl) fun j a hj ha => ?_
        have hane : a ≠ node := by
          rintro rfl
          obtain rfl : j = i := hs.owned.distinct j i a ha hnode
          have houtside : Caller.outside = s.callers j := (Function.update_self ..).symm.trans hj
          rw [← houtside] at ha
          cases ha
        exact ⟨Heap.free_ne hane, hs.owned.apart j a ha⟩
      · refine (contents_congr fun a ha => ?_).trans (List.append_nil _).symm
        exact congrArg (Option.map TaskNode.task) (hlinked a ha)
  | stop hi =>
      refine ⟨as, ⟨⟨hs.queue.linked, hs.queue.size⟩, ?_⟩, (List.append_nil _).symm⟩
      exact (hs.move (broadcast_cases s.callers)).owned

/-! ## Runs -/

theorem Run.sound (h : Run (start n heap) tr s) :
    ∃ as, s.Sound as ∧ tr.flatMap QueueEvent.popped ++ s.memory.tasks as =
      tr.flatMap QueueEvent.pushed := by
  induction h with
  | nil => exact ⟨[], sound_start n heap, rfl⟩
  | @snoc s₁ s₂ tr e hrun hstep ih =>
      obtain ⟨as, hsound, htasks⟩ := ih
      obtain ⟨as', hsound', htasks'⟩ := hstep.sound hsound
      refine ⟨as', hsound', ?_⟩
      calc (tr ++ [e]).flatMap QueueEvent.popped ++ s₂.memory.tasks as'
          = tr.flatMap QueueEvent.popped ++ (e.popped ++ s₂.memory.tasks as') := by
            rw [List.flatMap_append, List.flatMap_singleton, List.append_assoc]
        _ = tr.flatMap QueueEvent.popped ++ s₁.memory.tasks as ++ e.pushed := by
            rw [htasks', List.append_assoc]
        _ = (tr ++ [e]).flatMap QueueEvent.pushed := by
            rw [htasks, List.flatMap_append, List.flatMap_singleton]

/-- Only `task_queue_stop` sets the flag, and nothing clears it. -/
theorem Step.stopped_iff (h : Step s e s') : s'.memory.queue.stopped = true ↔
    s.memory.queue.stopped = true ∨ ∃ i, e = .stop i := by
  cases h with
  | push hi hpush hwoken =>
      obtain ⟨hbefore, hafter, -⟩ := pushSection_eq_ok hpush
      simp [hbefore, hafter]
  | refuse hi hpush =>
      obtain ⟨-, rfl⟩ := pushSection_eq_err hpush
      simp
  | sleep hi hpop =>
      obtain ⟨-, -, rfl⟩ := popSection_eq_wait hpop
      simp
  | pop hi hpop =>
      obtain ⟨first, -, -, -, rfl⟩ := popSection_eq_popped hpop
      simp
  | popStopped hi hpop =>
      obtain ⟨-, -, rfl⟩ := popSection_eq_stopped hpop
      simp
  | stop hi => simp
  | _ => simp

theorem Run.stopped_iff (h : Run (start n heap) tr s) :
    s.memory.queue.stopped = true ↔ ∃ i, .stop i ∈ tr := by
  induction h with
  | nil => simp [start, taskQueueInit]
  | snoc hrun hstep ih =>
      rw [hstep.stopped_iff, ih]
      simp only [List.mem_append, List.mem_singleton, exists_or, eq_comm]

/-- No thread is about to follow a bad pointer or to free a node twice. -/
theorem Sound.defined {as : List Addr} (hs : s.Sound as) (i : Fin n) : s.Defined i := by
  unfold Defined
  cases hi : s.callers i with
  | pushing node task =>
      change (pushSection s.memory node).isSome
      cases hstopped : s.memory.queue.stopped with
      | true =>
          rw [pushSection_of_stopped hstopped]
          rfl
      | false =>
          obtain ⟨m', hsection, -⟩ := hs.queue.push hstopped (hs.owned.filled i node task hi)
            (hs.owned.apart i node (by rw [hi]; rfl))
          rw [hsection]
          rfl
  | entering => exact hs.queue.popSection_isSome
  | woken => exact hs.queue.popSection_isSome
  | freeing node => exact hs.owned.used i node (by rw [hi]; rfl)
  | outside => trivial
  | asleep => trivial

/-- The chain from `front` has `size` nodes and ends at `rear`; what has been popped and
what is in the chain is what has been pushed, in the order of the pushes.  Once the queue
is stopped a push fails and changes nothing, a pop returns 0 only when the queue is
stopped and empty, and no thread ever follows a bad pointer. -/
theorem taskQueue_fifo (h : Run (start n heap) tr s) :
    (∃ as, Chain TaskNode.next s.memory.heap s.memory.queue.front as none ∧
      s.memory.queue.size = as.length ∧
      (s.memory.queue.rear = none ↔ s.memory.queue.front = none) ∧
      (∀ rear, s.memory.queue.rear = some rear → as.getLast? = some rear ∧
        ∃ last, s.memory.heap rear = some last ∧ last.next = none) ∧
      tr.flatMap QueueEvent.popped ++ s.memory.tasks as = tr.flatMap QueueEvent.pushed) ∧
    (∀ i task rc s', Step s (.push i task rc) s' → (∃ j, .stop j ∈ tr) →
      rc = .err ∧ s'.memory = s.memory) ∧
    (∀ i s', Step s (.popStopped i) s' →
      s.memory.queue.front = none ∧ s.memory.queue.stopped = true) ∧
    ∀ i, s.Defined i := by
  obtain ⟨as, hsound, htasks⟩ := h.sound
  have hlinked := hsound.queue.linked
  refine ⟨⟨as, hlinked.chain, hsound.queue.size, hlinked.rear_eq_none_iff, ?_, htasks⟩,
    ?_, ?_, hsound.defined⟩
  · intro rear hrear
    rw [hrear] at hlinked
    obtain ⟨bs, last, -, -, hlast, hnext⟩ := hlinked.rear_cell
    exact ⟨hlinked.rear_eq.symm, last, hlast, hnext⟩
  · intro i task rc s' hstep hstop
    have hstopped : s.memory.queue.stopped = true := h.stopped_iff.mpr hstop
    cases hstep with
    | push hi hpush hwoken =>
        rw [(pushSection_eq_ok hpush).1] at hstopped
        cases hstopped
    | refuse hi hpush => exact ⟨rfl, (pushSection_eq_err hpush).2⟩
  · intro i s' hstep
    cases hstep with
    | popStopped hi hpop =>
        obtain ⟨hsize, hstopped, -⟩ := popSection_eq_stopped hpop
        exact ⟨hlinked.chain.eq_none_iff.mpr (hsound.queue.size_eq_zero hsize), hstopped⟩

def secondTask : SyncTask := { initSyncTask with retry_count := 1 }

/-- Two threads push, and the first then pops. -/
theorem taskQueue_fifo_two_threads :
    ∃ (s : QueueUsers 2) (as : List Addr), Run (start 2 fun _ => none)
      [.calloc 0 initSyncTask, .calloc 1 secondTask, .push 1 secondTask .ok,
        .push 0 initSyncTask .ok, .enterPop 0, .pop 0 secondTask] s ∧
      [secondTask] ++ s.memory.tasks as = [secondTask, initSyncTask] := by
  have hrun := ((((((Run.nil (start 2 fun _ => none)).snoc
    (@Step.calloc 2 _ 0 7 initSyncTask rfl rfl)).snoc
    (@Step.calloc 2 _ 1 8 secondTask rfl rfl)).snoc
    (@Step.push 2 _ 1 8 secondTask _ none rfl rfl (by decide))).snoc
    (@Step.push 2 _ 0 7 initSyncTask _ none rfl rfl (by decide))).snoc
    (@Step.enterPop 2 _ 0 rfl)).snoc
    (@Step.pop 2 _ 0 secondTask 8 _ (Or.inl rfl) rfl)
  obtain ⟨as, -, -, -, -, htasks⟩ := (taskQueue_fifo hrun).1
  exact ⟨_, as, hrun, htasks⟩

end QueueUsers

end MiniSync
