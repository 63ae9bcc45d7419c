import MiniSync.Lib.Counting
import MiniSync.Transfer.Fifo

/-!
# No wakeup is lost

While a thread sleeps in `task_queue_pop` there are at least as many threads on their
way out of `pthread_cond_wait` as there are tasks in the queue.  A push adds one to
both; a newcomer that takes a task only makes the queue shorter; and a thread goes to
sleep only when the queue is empty.
-/

namespace MiniSync

namespace QueueUsers

variable {n : Nat}

/-- Nobody sleeps once the queue is stopped, nor while there are more tasks than threads
that have been woken. -/
structure Wakeful (queue : TaskQueue) (callers : Fin n → Caller) : Prop where
  stopped : queue.stopped = true → ∀ i, callers i ≠ .asleep
  enough : ∀ i, callers i = .asleep → queue.size ≤ countOf callers .woken

variable {s s' : QueueUsers n} {e : QueueEvent n} {tr : List (QueueEvent n)} {i : Fin n}
  {heap : Heap Addr TaskNode} {queue : TaskQueue} {callers : Fin n → Caller} {c : Caller}

/-- Who sleeps now has slept before, unless he is the one who has moved. -/
theorem asleep_of_update {j : Fin n} (h : Function.update callers i c j = .asleep)
    (hc : c ≠ .asleep) : callers j = .asleep := by
  by_cases hji : j = i
  · subst hji
    rw [Function.update_self] at h
    exact absurd h hc
  · rwa [Function.update_of_ne hji] at h

/-- A thread that has not been woken goes anywhere but to sleep. -/
theorem Wakeful.move (h : Wakeful queue callers) (hi : callers i ≠ .woken) (hc : c ≠ .asleep) :
    Wakeful queue (Function.update callers i c) := by
  refine ⟨fun hstopped j hj => h.stopped hstopped j (asleep_of_update hj hc), fun j hj => ?_⟩
  have hbefore : queue.size ≤ countOf callers .woken := h.enough j (asleep_of_update hj hc)
  have hcount := countOf_update callers i .woken c
  rw [if_neg hi] at hcount
  omega

/-- A woken thread goes anywhere but to sleep, and takes a task with it. -/
theorem Wakeful.leave {queue' : TaskQueue} (h : Wakeful queue callers) (hi : callers i = .woken)
    (hc : c ≠ .asleep) (hsize : queue'.size = queue.size - 1)
    (hstopped : queue'.stopped = queue.stopped) :
    Wakeful queue' (Function.update callers i c) := by
  refine ⟨fun hflag j hj => ?_, fun j hj => ?_⟩
  · exact h.stopped (hstopped ▸ hflag) j (asleep_of_update hj hc)
  · have hbefore : queue.size ≤ countOf callers .woken := h.enough j (asleep_of_update hj hc)
    have hcount := countOf_update callers i .woken c
    rw [if_pos hi] at hcount
    omega

/-- One more task, and one more thread woken if any sleeps. -/
theorem Wakeful.signal {queue' : TaskQueue} {woken : Option (Fin n)} (h : Wakeful queue callers)
    (hwoken : MayWake callers woken) (hsize : queue'.size = queue.size + 1)
    (hopen : queue'.stopped = false) : Wakeful queue' (QueueUsers.signal callers woken) := by
  refine ⟨fun hflag => absurd (hopen.symm.trans hflag) nofun, fun j hj => ?_⟩
  cases woken with
  | none => exact absurd hj (hwoken j)
  | some k =>
      have hbefore : queue.size ≤ countOf callers .woken :=
        h.enough j (asleep_of_update hj nofun)
      have hcount := countOf_update callers k .woken .woken
      have hk : callers k ≠ .woken := by
        rw [show callers k = .asleep from hwoken]
        nofun
      rw [if_neg hk, if_pos rfl] at hcount
      change queue'.size ≤ (countOf (Function.update callers k .woken) .woken : Nat)
      omega

theorem Step.wakeful (h : Step s e s') (hs : Wakeful s.memory.queue s.callers) :
    Wakeful s'.memory.queue s'.callers := by
  cases h with
  | calloc task hi hunused => exact hs.move (by rw [hi]; nofun) nofun
  | @push i node task memory woken hi hpush hwoken =>
      obtain ⟨-, hopen, hsize⟩ := pushSection_eq_ok hpush
      have hsignal := hs.signal hwoken hsize hopen
      refine hsignal.move ?_ nofun
      cases woken with
      | none =>
          change s.callers i ≠ .woken
          rw [hi]
          nofun
      | some j =>
          have hij : i ≠ j := by
            rintro rfl
            rw [show s.callers i = .asleep from hwoken] at hi
            cases hi
          change Function.update s.callers j .woken i ≠ .woken
          rw [Function.update_of_ne hij, hi]
          nofun
  | refuse hi hpush =>
      obtain ⟨-, rfl⟩ := pushSection_eq_err hpush
      exact hs.move (by rw [hi]; nofun) nofun
  | enterPop hi => exact hs.move (by rw [hi]; nofun) nofun
  | sleep hi hpop =>
      obtain ⟨hsize, hopen, rfl⟩ := popSection_eq_wait hpop
      refine ⟨fun hflag => absurd (hopen.symm.trans hflag) nofun, fun j _ => ?_⟩
      change s.memory.queue.size ≤ _
      rw [hsize]
      exact Int.natCast_nonneg _
  | wakeUp hi => exact hs.move (by rw [hi]; nofun) nofun
  | @pop i task node queue hi hpop =>
      obtain ⟨first, -, -, -, rfl⟩ := popSection_eq_popped hpop
      rcases hi with hi | hi
      · have hmove := hs.move (i := i) (c := .freeing node) (by rw [hi]; nofun) nofun
        refine ⟨hmove.stopped, fun j hj => ?_⟩
        exact (Int.sub_le_self _ Int.one_nonneg).trans (hmove.enough j hj)
      · exact hs.leave hi nofun rfl rfl
  | popStopped hi hpop =>
      obtain ⟨-, hstopped, rfl⟩ := popSection_eq_stopped hpop
      have hnobody := hs.stopped hstopped
      exact ⟨fun _ j hj => hnobody j (asleep_of_update hj nofun),
        fun j hj => absurd (asleep_of_update hj nofun) (hnobody j)⟩
  | free hi => exact hs.move (by rw [hi]; nofun) nofun
  | stop hi =>
      have hnobody : ∀ j, broadcast s.callers j ≠ .asleep := by
        intro j
        unfold broadcast
        split_ifs with hj
        · nofun
        · exact hj
      exact ⟨fun _ => hnobody, fun j hj => absurd hj (hnobody j)⟩

theorem Run.wakeful (h : Run (start n heap) tr s) : Wakeful s.memory.queue s.callers := by
  induction h with
  | nil => exact ⟨nofun, nofun⟩
  | snoc _ hstep ih => exact hstep.wakeful ih

/-- While the queue is not empty or is stopped, and a thread sleeps in `task_queue_pop`,
another has been woken and is about to repeat the test.  Once the queue is stopped nobody
sleeps. -/
theorem taskQueue_no_lost_wakeup (h : Run (start n heap) tr s) :
    (s.memory.queue.front ≠ none ∨ s.memory.queue.stopped = true →
      (∃ i, s.callers i = .asleep) → ∃ j, s.callers j = .woken) ∧
    ((∃ i, .stop i ∈ tr) → ∀ j, s.callers j ≠ .asleep) := by
  have hwakeful := h.wakeful
  constructor
  · rintro (hfront | hstopped) ⟨i, hi⟩
    · obtain ⟨as, hsound, -⟩ := h.sound
      have hne : as ≠ [] := mt hsound.queue.linked.chain.eq_none_iff.mpr hfront
      have hlength : 0 < as.length := List.length_pos_of_ne_nil hne
      have hsize := hsound.queue.size
      have henough := hwakeful.enough i hi
      exact exists_of_countOf_pos (by omega)
    · exact absurd hi (hwakeful.stopped hstopped i)
  · exact fun hstop => hwakeful.stopped (h.stopped_iff.mpr hstop)

/-- Two threads sleep and a third pushes: one of the two is woken. -/
theorem taskQueue_no_lost_wakeup_two_asleep :
    ∃ s : QueueUsers 3, Run (start 3 fun _ => none)
      [.enterPop 0, .sleep 0, .enterPop 1, .sleep 1, .calloc 2 initSyncTask,
        .push 2 initSyncTask .ok] s ∧
      s.callers 1 = .asleep ∧ ∃ j, s.callers j = .woken := by
  have hrun := ((((((Run.nil (start 3 fun _ => none)).snoc
    (@Step.enterPop 3 _ 0 rfl)).snoc
    (@Step.sleep 3 _ 0 _ (Or.inl rfl) rfl)).snoc
    (@Step.enterPop 3 _ 1 rfl)).snoc
    (@Step.sleep 3 _ 1 _ (Or.inl rfl) rfl)).snoc
    (@Step.calloc 3 _ 2 7 initSyncTask rfl rfl)).snoc
    (@Step.push 3 _ 2 7 initSyncTask _ (some 0) rfl rfl (by decide))
  exact ⟨_, hrun, rfl, (taskQueue_no_lost_wakeup hrun).1 (Or.inl nofun) ⟨1, rfl⟩⟩

end QueueUsers

end MiniSync
