import Mathlib.Algebra.Order.BigOperators.Group.Finset
import MiniSync.Lib.Counting
import MiniSync.Transfer.Pool

/-!
# No task is lost or doubled

Each pushed task is in one place at a time: in the queue, in the hands of one
worker, or done with.  A task is done with when an attempt succeeds, when it is
given up, or when the queue is stopped before it can be pushed again.
-/

namespace MiniSync

open Finset

/-- The worker has the job with this number. -/
def Worker.holding (id : Nat) : Worker → Nat
  | .syncing job => if job.id = id then 1 else 0
  | .requeueing job => if job.id = id then 1 else 0
  | _ => 0

namespace PoolEvent

variable {n : Nat}

/-- An attempt of the job begins. -/
def attempts (id : Nat) : PoolEvent n → Bool
  | .pop _ job => job.id = id
  | _ => false

/-- An attempt of the job fails. -/
def fails (id : Nat) : PoolEvent n → Bool
  | .fail _ job => job.id = id
  | .giveUp _ job => job.id = id
  | _ => false

/-- The job is done with. -/
def ends (id : Nat) : PoolEvent n → Bool
  | .succeed _ job => job.id = id
  | .giveUp _ job => job.id = id
  | .requeue _ job accepted => !accepted && job.id = id
  | _ => false

end PoolEvent

namespace Pool

variable {n : Nat}

def queueCount (s : Pool n) (id : Nat) : Nat := s.queue.countP fun job => job.id = id

def heldCount (s : Pool n) (id : Nat) : Nat := ∑ i, (s.workers i).holding id

/-- How often the job has been attempted, and how many attempts have failed. -/
def attempts (tr : List (PoolEvent n)) (id : Nat) : Nat := tr.countP (PoolEvent.attempts id)

def failures (tr : List (PoolEvent n)) (id : Nat) : Nat := tr.countP (PoolEvent.fails id)

/-- The states a task can be in while the queue is not stopped. -/
inductive Place (n : Nat)
  | queued
  | held (i : Fin n)
  | succeeded
  | gaveUp
  deriving DecidableEq

/-- Job `id` is there, after the events `tr`. -/
def Place.Has (s : Pool n) (tr : List (PoolEvent n)) (id : Nat) : Place n → Prop
  | .queued => s.queueCount id = 1
  | .held i => ∃ job, s.Holds i job ∧ job.id = id
  | .succeeded => ∃ i job, .succeed i job ∈ tr ∧ job.id = id
  | .gaveUp => (∃ i job, .giveUp i job ∈ tr ∧ job.id = id) ∧
      failures tr id = maxRetryCount + 1

/-! ## The ledger -/

variable {debounce_ms : Int} {C : Pool n → PoolEvent n → Prop} {s s' : Pool n}
  {e : PoolEvent n} {tr : List (PoolEvent n)} {job first : Job} {i : Fin n} {id : Nat}

theorem heldCount_setWorker (s : Pool n) (i : Fin n) (w : Worker) (id : Nat) :
    (s.setWorker i w).heldCount id + (s.workers i).holding id =
      s.heldCount id + w.holding id := by
  have hupdate : (s.setWorker i w).heldCount id =
      ∑ j, Function.update (fun j => (s.workers j).holding id) i (w.holding id) j := by
    unfold heldCount
    refine Finset.sum_congr rfl fun j _ => ?_
    by_cases hj : j = i
    · subst hj
      rw [setWorker_self, Function.update_self]
    · rw [setWorker_ne hj, Function.update_of_ne hj]
  rw [hupdate]
  exact sum_update_add (fun j => (s.workers j).holding id) i (w.holding id)

@[simp] theorem heldCount_enqueue (s : Pool n) (job : Job) (id : Nat) :
    (s.enqueue job).heldCount id = s.heldCount id := by
  unfold heldCount
  rw [enqueue_workers]

theorem Holds.holding (h : s.Holds i job) : (s.workers i).holding job.id = 1 := by
  rcases h with h | h
  · rw [h]
    exact if_pos rfl
  · rw [h]
    exact if_pos rfl

/-- Every number given out is in one place, and no other number in any. -/
def Ledger (s : Pool n) (tr : List (PoolEvent n)) : Prop :=
  ∀ id, id < s.pushed ∧
      s.queueCount id + s.heldCount id + tr.countP (PoolEvent.ends id) = 1 ∨
    s.pushed ≤ id ∧ s.queueCount id + s.heldCount id + tr.countP (PoolEvent.ends id) = 0

theorem ledger_start : (start n).Ledger [] := by
  intro id
  simp [start, queueCount, heldCount, Worker.holding]

theorem Step.ledger (h : Step debounce_ms s e s') (hphased : s.Phased) (hs : s.Ledger tr) :
    s'.Ledger (tr ++ [e]) := by
  intro id
  have hid := hs id
  rw [List.countP_append, List.countP_singleton]
  -- What moves a worker without touching the queue.
  have hmove : ∀ (i : Fin n) (w : Worker), (s.setWorker i w).heldCount id +
      (s.workers i).holding id = s.heldCount id + w.holding id :=
    fun i w => heldCount_setWorker s i w id
  cases h with
  | turn => simpa [PoolEvent.ends, queueCount, heldCount] using hid
  | exit => simpa [PoolEvent.ends, queueCount, heldCount] using hid
  | @push task rest hout =>
      have hstopped : s.stopped = false := by
        rw [← Bool.not_eq_true]
        intro hst
        rw [hphased.outbox hst] at hout
        cases hout
      have hqueue : (enqueue { s with outbox := rest, pushed := s.pushed + 1 }
          ⟨s.pushed, task⟩).queueCount id = s.queueCount id + if s.pushed = id then 1 else 0 := by
        have hopen : Pool.stopped { s with outbox := rest, pushed := s.pushed + 1 } = false :=
          hstopped
        unfold queueCount
        rw [enqueue_queue hopen, List.countP_append, List.countP_singleton]
        simp
      rw [hqueue, heldCount_enqueue, enqueue_pushed]
      have hheld : Pool.heldCount { s with outbox := rest, pushed := s.pushed + 1 } id =
          s.heldCount id := rfl
      rw [hheld]
      simp only [PoolEvent.ends, Bool.false_eq_true, if_false, Nat.add_zero]
      split_ifs with hnew
      · omega
      · omega
  | stopQueue => simpa [PoolEvent.ends, queueCount, heldCount] using hid
  | raiseStop => simpa [PoolEvent.ends, queueCount, heldCount] using hid
  | @goOn i hi _ =>
      have := hmove i .popping
      rw [hi] at this
      simp only [Worker.holding, PoolEvent.ends, queueCount, setWorker_queue, setWorker_pushed,
        Bool.false_eq_true, if_false] at this hid ⊢
      omega
  | @leaveStop i hi _ =>
      have := hmove i .left
      rw [hi] at this
      simp only [Worker.holding, PoolEvent.ends, queueCount, setWorker_queue, setWorker_pushed,
        Bool.false_eq_true, if_false] at this hid ⊢
      omega
  | @pop i job rest hi hqueue =>
      have := heldCount_setWorker { s with queue := rest } i (.syncing job) id
      have hsame : Pool.heldCount { s with queue := rest } id = s.heldCount id := rfl
      rw [hsame] at this
      simp only [hi, Worker.holding] at this
      simp only [queueCount, hqueue, List.countP_cons, setWorker_queue, setWorker_pushed,
        PoolEvent.ends, Bool.false_eq_true, if_false, decide_eq_true_eq] at hid ⊢
      omega
  | @leaveEmpty i hi _ _ =>
      have := hmove i .left
      rw [hi] at this
      simp only [Worker.holding, PoolEvent.ends, queueCount, setWorker_queue, setWorker_pushed,
        Bool.false_eq_true, if_false] at this hid ⊢
      omega
  | change => simpa [PoolEvent.ends] using hid
  | @succeed i job hi =>
      have := hmove i .testing
      rw [hi] at this
      simp only [Worker.holding, PoolEvent.ends, queueCount, setWorker_queue, setWorker_pushed,
        decide_eq_true_eq] at this hid ⊢
      omega
  | @fail i job hi _ =>
      have hsame : (Worker.requeueing job.retried).holding id = (Worker.syncing job).holding id :=
        rfl
      have := hmove i (.requeueing job.retried)
      rw [hi, hsame] at this
      simp only [PoolEvent.ends, queueCount, setWorker_queue, setWorker_pushed,
        Bool.false_eq_true, if_false] at this hid ⊢
      omega
  | @giveUp i job hi _ =>
      have := hmove i .testing
      rw [hi] at this
      simp only [Worker.holding, PoolEvent.ends, queueCount, setWorker_queue, setWorker_pushed,
        decide_eq_true_eq] at this hid ⊢
      omega
  | @requeue i job hi =>
      have := heldCount_setWorker (s.enqueue job) i .testing id
      rw [heldCount_enqueue, enqueue_workers, hi] at this
      simp only [Worker.holding, PoolEvent.ends, queueCount, setWorker_queue, setWorker_pushed,
        enqueue_pushed, Bool.not_not] at this hid ⊢
      cases hstopped : s.stopped with
      | true =>
          rw [enqueue_of_stopped hstopped] at this ⊢
          simp only [Bool.true_and, decide_eq_true_eq]
          omega
      | false =>
          rw [enqueue_queue hstopped, List.countP_append, List.countP_singleton]
          simp only [Bool.false_and, Bool.false_eq_true, if_false, decide_eq_true_eq]
          omega

theorem Run.ledger (h : Run debounce_ms C (start n) tr s) : s.Ledger tr := by
  generalize hs : start n = s₀ at h
  induction h with
  | nil => exact hs ▸ ledger_start
  | snoc hrun hstep _ ih =>
      subst hs
      exact hstep.ledger hrun.phased ih

/-! ## What the ledger excludes -/

theorem heldCount_pos (h : s.Holds i job) : 1 ≤ s.heldCount job.id := by
  rw [← h.holding]
  exact Finset.single_le_sum (f := fun j => (s.workers j).holding job.id)
    (fun j _ => Nat.zero_le _) (Finset.mem_univ i)

theorem heldCount_two {j : Fin n} {job' : Job} (h : s.Holds i job) (h' : s.Holds j job')
    (hid : job.id = job'.id) (hij : i ≠ j) : 2 ≤ s.heldCount job.id := by
  have hpair : ∑ k ∈ {i, j}, (s.workers k).holding job.id = 2 := by
    rw [Finset.sum_pair hij, h.holding, hid, h'.holding]
  rw [← hpair]
  exact Finset.sum_le_sum_of_subset (Finset.subset_univ _)

theorem queueCount_pos (h : job ∈ s.queue) : 1 ≤ s.queueCount job.id := by
  unfold queueCount
  exact List.countP_pos_iff.mpr ⟨job, h, by simp⟩

theorem ends_pos (he : e ∈ tr) (h : e.ends id = true) : 1 ≤ tr.countP (PoolEvent.ends id) :=
  List.countP_pos_iff.mpr ⟨e, he, h⟩

theorem Ledger.le_one (h : s.Ledger tr) (id : Nat) :
    s.queueCount id + s.heldCount id + tr.countP (PoolEvent.ends id) ≤ 1 := by
  have := h id
  omega

theorem Ledger.holds_unique (h : s.Ledger tr) {j : Fin n} {job' : Job} (hi : s.Holds i job)
    (hj : s.Holds j job') (hid : job.id = job'.id) : i = j ∧ job = job' := by
  have hij : i = j := by
    by_contra hne
    have := heldCount_two hi hj hid hne
    have := h.le_one job.id
    omega
  subst hij
  refine ⟨rfl, ?_⟩
  rcases hi with hi | hi <;> rcases hj with hj | hj <;> rw [hi] at hj <;> cases hj <;> rfl

theorem Ledger.not_queued (h : s.Ledger tr) (hi : s.Holds i job) : ∀ job' ∈ s.queue,
    job'.id ≠ job.id := by
  intro job' hmem hid
  have := queueCount_pos hmem
  have := heldCount_pos hi
  have := h.le_one job.id
  rw [hid] at *
  omega

theorem Ledger.not_ended (h : s.Ledger tr) {id : Nat}
    (hlive : 1 ≤ s.queueCount id + s.heldCount id) : ∀ e ∈ tr, e.ends id = false := by
  intro e he
  rw [← Bool.not_eq_true]
  intro hend
  have := ends_pos he hend
  have := h.le_one id
  omega

/-! ## One task through its attempts -/

/-- What the retry counter of a job says about its attempts; `first` is the job as
the scheduler pushed it. -/
structure Tracks (s : Pool n) (tr : List (PoolEvent n)) (first : Job) : Prop where
  queued : ∀ job ∈ s.queue, job.id = first.id →
    job.task = { first.task with retry_count := attempts tr first.id } ∧
      attempts tr first.id ≤ maxRetryCount ∧ failures tr first.id = attempts tr first.id
  syncing : ∀ i job, s.workers i = .syncing job → job.id = first.id →
    job.task = { first.task with retry_count := failures tr first.id } ∧
      failures tr first.id ≤ maxRetryCount ∧ attempts tr first.id = failures tr first.id + 1
  requeueing : ∀ i job, s.workers i = .requeueing job → job.id = first.id →
    job.task = { first.task with retry_count := attempts tr first.id } ∧
      attempts tr first.id ≤ maxRetryCount ∧ failures tr first.id = attempts tr first.id
  bound : attempts tr first.id ≤ maxRetryCount + 1
  gaveUp : (∃ i job, .giveUp i job ∈ tr ∧ job.id = first.id) →
    failures tr first.id = maxRetryCount + 1

theorem attempts_append (tr : List (PoolEvent n)) (e : PoolEvent n) (id : Nat) :
    attempts (tr ++ [e]) id = attempts tr id + if e.attempts id then 1 else 0 := by
  unfold attempts
  rw [List.countP_append, List.countP_singleton]

theorem failures_append (tr : List (PoolEvent n)) (e : PoolEvent n) (id : Nat) :
    failures (tr ++ [e]) id = failures tr id + if e.fails id then 1 else 0 := by
  unfold failures
  rw [List.countP_append, List.countP_singleton]

/-- A step that is no attempt of the job and no failure keeps its account. -/
theorem Tracks.frame (ht : s.Tracks tr first) (hatt : e.attempts first.id = false)
    (hfail : e.fails first.id = false)
    (hqueued : ∀ job ∈ s'.queue, job.id = first.id →
      job ∈ s.queue ∨ ∃ i, s.workers i = .requeueing job)
    (hsyncing : ∀ j job, s'.workers j = .syncing job → job.id = first.id →
      s.workers j = .syncing job)
    (hrequeueing : ∀ j job, s'.workers j = .requeueing job → job.id = first.id →
      s.workers j = .requeueing job) : s'.Tracks (tr ++ [e]) first := by
  have h₁ : attempts (tr ++ [e]) first.id = attempts tr first.id := by
    simp [attempts_append, hatt]
  have h₂ : failures (tr ++ [e]) first.id = failures tr first.id := by
    simp [failures_append, hfail]
  constructor
  · intro job hmem hid
    rw [h₁, h₂]
    cases hqueued job hmem hid with
    | inl hqueue => exact ht.queued job hqueue hid
    | inr hworker =>
        obtain ⟨i, hi⟩ := hworker
        exact ht.requeueing i job hi hid
  · intro j job hj hid
    rw [h₁, h₂]
    exact ht.syncing j job (hsyncing j job hj hid) hid
  · intro j job hj hid
    rw [h₁, h₂]
    exact ht.requeueing j job (hrequeueing j job hj hid) hid
  · rw [h₁]
    exact ht.bound
  · rintro ⟨i, job, hmem, hid⟩
    rw [h₂]
    refine ht.gaveUp ⟨i, job, ?_, hid⟩
    cases List.mem_append.mp hmem with
    | inl hold => exact hold
    | inr hnew =>
        -- The event would be a failure of the job.
        rw [← List.mem_singleton.mp hnew] at hfail
        simp [PoolEvent.fails, hid] at hfail

/-- A worker that is elsewhere than `w` after worker `i` went to `w` was there before. -/
theorem workers_of_setWorker {w w' : Worker} {j : Fin n} (hj : (s.setWorker i w).workers j = w')
    (hne : w ≠ w') : s.workers j = w' := by
  by_cases hij : j = i
  · subst hij
    rw [setWorker_self] at hj
    exact absurd hj hne
  · rwa [setWorker_ne hij] at hj

/-- A worker goes to a place where it holds nothing. -/
theorem Tracks.setWorker {w : Worker} (ht : s.Tracks tr first)
    (hatt : e.attempts first.id = false) (hfail : e.fails first.id = false)
    (hsyncing : ∀ job, w = .syncing job → job.id ≠ first.id)
    (hrequeueing : ∀ job, w = .requeueing job → job.id ≠ first.id) :
    (s.setWorker i w).Tracks (tr ++ [e]) first := by
  refine ht.frame hatt hfail (fun job hmem _ => Or.inl hmem) ?_ ?_
  · intro j job hj hid
    exact workers_of_setWorker hj fun hw => hsyncing job hw hid
  · intro j job hj hid
    exact workers_of_setWorker hj fun hw => hrequeueing job hw hid

theorem Step.tracks (h : Step debounce_ms s e s') (hphased : s.Phased) (hs : s.Ledger tr)
    (hfirst : first.id < s.pushed) (ht : s.Tracks tr first) : s'.Tracks (tr ++ [e]) first := by
  have hs' := h.ledger hphased hs
  have hatt := attempts_append tr e first.id
  have hfail := failures_append tr e first.id
  cases h with
  | turn | exit | stopQueue | raiseStop | change =>
      exact ht.frame rfl rfl (fun job hmem _ => Or.inl hmem) (fun j job hj _ => hj)
        fun j job hj _ => hj
  | @push task rest hout =>
      refine ht.frame rfl rfl ?_ (fun j job hj _ => ?_) fun j job hj _ => ?_
      · intro job hmem hid
        unfold enqueue at hmem
        split_ifs at hmem
        · exact Or.inl hmem
        · cases List.mem_append.mp hmem with
          | inl hold => exact Or.inl hold
          | inr hnew =>
              rw [List.mem_singleton.mp hnew] at hid
              exact absurd hid (Nat.ne_of_gt hfirst)
      · rwa [enqueue_workers] at hj
      · rwa [enqueue_workers] at hj
  | goOn | leaveStop | leaveEmpty | succeed =>
      exact ht.setWorker rfl rfl nofun nofun
  | @pop i job rest hi hqueue =>
      have hother : ∀ {w' : Worker} {j : Fin n},
          (({ s with queue := rest } : Pool n).setWorker i (.syncing job)).workers j = w' →
          Worker.syncing job ≠ w' → s.workers j = w' := fun hj hne =>
        (workers_of_setWorker hj hne : Pool.workers { s with queue := rest } _ = _)
      by_cases hid : job.id = first.id
      · -- The job itself: it was queued, and nothing else has its number.
        obtain ⟨htask, hle, hfails⟩ := ht.queued job (by rw [hqueue]; simp) hid
        have hholds : Pool.Holds (({ s with queue := rest } : Pool n).setWorker i (.syncing job))
            i job := Or.inl (setWorker_self ..)
        have h₁ : attempts (tr ++ [.pop i job]) first.id = attempts tr first.id + 1 := by
          rw [hatt]
          simp [PoolEvent.attempts, hid]
        have h₂ : failures (tr ++ [.pop i job]) first.id = failures tr first.id := by
          rw [hfail]
          simp [PoolEvent.fails]
        constructor
        · intro job' hmem hid'
          exact absurd (hid'.trans hid.symm) (hs'.not_queued hholds job' hmem)
        · intro j job' hj hid'
          obtain ⟨-, rfl⟩ := hs'.holds_unique hholds (Or.inl hj) (hid.trans hid'.symm)
          rw [h₁, h₂, hfails]
          exact ⟨htask, hle, rfl⟩
        · intro j job' hj hid'
          obtain ⟨rfl, rfl⟩ := hs'.holds_unique hholds (Or.inr hj) (hid.trans hid'.symm)
          rw [setWorker_self] at hj
          cases hj
        · rw [h₁]
          omega
        · rintro ⟨j, job', hmem, hid'⟩
          rw [h₂]
          exact ht.gaveUp ⟨j, job', by simpa using hmem, hid'⟩
      · refine ht.frame (by simp [PoolEvent.attempts, hid]) rfl ?_ ?_ ?_
        · intro job' hmem _
          exact Or.inl (by rw [hqueue]; exact List.mem_cons_of_mem _ hmem)
        · intro j job' hj hid'
          refine hother hj ?_
          rintro ⟨⟩
          exact hid hid'
        · exact fun j job' hj _ => hother hj nofun
  | @fail i job hi hretry =>
      by_cases hid : job.id = first.id
      · obtain ⟨htask, -, hatts⟩ := ht.syncing i job hi hid
        have hholds : (s.setWorker i (.requeueing job.retried)).Holds i job.retried :=
          Or.inr (setWorker_self ..)
        have hretry' : failures tr first.id < maxRetryCount := by
          rw [htask] at hretry
          exact hretry
        have h₁ : attempts (tr ++ [.fail i job]) first.id = attempts tr first.id := by
          rw [hatt]
          simp [PoolEvent.attempts]
        have h₂ : failures (tr ++ [.fail i job]) first.id = failures tr first.id + 1 := by
          rw [hfail]
          simp [PoolEvent.fails, hid]
        constructor
        · intro job' hmem hid'
          exact absurd (hid'.trans hid.symm) (hs'.not_queued hholds job' hmem)
        · intro j job' hj hid'
          obtain ⟨rfl, rfl⟩ := hs'.holds_unique hholds (Or.inl hj) (hid.trans hid'.symm)
          rw [setWorker_self] at hj
          cases hj
        · intro j job' hj hid'
          obtain ⟨-, rfl⟩ := hs'.holds_unique hholds (Or.inr hj) (hid.trans hid'.symm)
          rw [h₁, h₂, hatts]
          refine ⟨?_, by omega, rfl⟩
          rw [Job.retried, htask]
        · rw [h₁]
          exact ht.bound
        · rintro ⟨j, job', hmem, hid'⟩
          have := ht.gaveUp ⟨j, job', by simpa using hmem, hid'⟩
          omega
      · refine ht.setWorker rfl (by simp [PoolEvent.fails, hid]) nofun ?_
        rintro job' ⟨⟩
        exact hid
  | @giveUp i job hi hretry =>
      by_cases hid : job.id = first.id
      · obtain ⟨htask, hle, hatts⟩ := ht.syncing i job hi hid
        have hretry' : failures tr first.id = maxRetryCount := by
          rw [htask] at hretry
          exact Nat.le_antisymm hle (Nat.not_lt.mp hretry)
        have h₁ : attempts (tr ++ [.giveUp i job]) first.id = attempts tr first.id := by
          rw [hatt]
          simp [PoolEvent.attempts]
        have h₂ : failures (tr ++ [.giveUp i job]) first.id = failures tr first.id + 1 := by
          rw [hfail]
          simp [PoolEvent.fails, hid]
        -- The job has ended: it is neither queued nor held.
        have hgone : ¬ 1 ≤ (s.setWorker i .testing).queueCount first.id +
            (s.setWorker i .testing).heldCount first.id := by
          intro hlive
          have hend := hs'.not_ended hlive (.giveUp i job) (by simp)
          simp [PoolEvent.ends, hid] at hend
        have hfree : ∀ {j : Fin n} {job' : Job},
            (s.setWorker i .testing).Holds j job' → job'.id ≠ first.id := by
          intro j job' hj hid'
          have := heldCount_pos hj
          rw [hid'] at this
          omega
        constructor
        · intro job' hmem hid'
          have := queueCount_pos hmem
          rw [hid'] at this
          omega
        · exact fun j job' hj hid' => absurd hid' (hfree (Or.inl hj))
        · exact fun j job' hj hid' => absurd hid' (hfree (Or.inr hj))
        · rw [h₁]
          exact ht.bound
        · intro _
          rw [h₂, hretry']
      · exact ht.setWorker rfl (by simp [PoolEvent.fails, hid]) nofun nofun
  | @requeue i job hi =>
      have hother : ∀ {w' : Worker} {j : Fin n},
          ((s.enqueue job).setWorker i .testing).workers j = w' →
          Worker.testing ≠ w' → s.workers j = w' := by
        intro w' j hj hne
        have := workers_of_setWorker hj hne
        rwa [enqueue_workers] at this
      refine ht.frame rfl rfl ?_ (fun j job hj _ => hother hj nofun)
        fun j job hj _ => hother hj nofun
      intro job' hmem _
      rw [setWorker_queue] at hmem
      unfold enqueue at hmem
      split_ifs at hmem
      · exact Or.inl hmem
      · cases List.mem_append.mp hmem with
        | inl hold => exact Or.inl hold
        | inr hnew => exact Or.inr ⟨i, List.mem_singleton.mp hnew ▸ hi⟩

/-! ## Runs -/

theorem Step.pushed_le (h : Step debounce_ms s e s') : s.pushed ≤ s'.pushed := by
  cases h <;> simp

/-- Nothing has happened yet to a job that is still to be pushed. -/
theorem Run.fresh (h : Run debounce_ms C (start n) tr s) {id : Nat} (hid : s.pushed ≤ id) :
    attempts tr id = 0 ∧ failures tr id = 0 := by
  generalize hs : start n = s₀ at h
  induction h with
  | nil => exact ⟨rfl, rfl⟩
  | @snoc s₁ s₂ tr e hrun hstep _ ih =>
      subst hs
      have hold : s₁.pushed ≤ id := hstep.pushed_le.trans hid
      obtain ⟨h₁, h₂⟩ := ih hold
      have hcount := hrun.ledger id
      rw [attempts_append, failures_append, h₁, h₂]
      have hqueued : ∀ job ∈ s₁.queue, job.id ≠ id := by
        intro job hmem heq
        have := queueCount_pos hmem
        rw [heq] at this
        omega
      have hheld : ∀ i job, s₁.Holds i job → job.id ≠ id := by
        intro i job hi heq
        have := heldCount_pos hi
        rw [heq] at this
        omega
      cases hstep with
      | @pop i job rest hi hqueue =>
          have := hqueued job (by simp [hqueue])
          simp [PoolEvent.attempts, PoolEvent.fails, this]
      | fail hi _ => simp [PoolEvent.attempts, PoolEvent.fails, hheld _ _ (Or.inl hi)]
      | giveUp hi _ => simp [PoolEvent.attempts, PoolEvent.fails, hheld _ _ (Or.inl hi)]
      | _ => exact ⟨rfl, rfl⟩

theorem Run.push_lt (h : Run debounce_ms C (start n) tr s) (hpush : .push first ∈ tr) :
    first.id < s.pushed := by
  generalize hs : start n = s₀ at h
  induction h with
  | nil => simp at hpush
  | @snoc s₁ s₂ tr e hrun hstep _ ih =>
      cases List.mem_append.mp hpush with
      | inl hold => exact (ih hold).trans_le hstep.pushed_le
      | inr hnew =>
          rw [← List.mem_singleton.mp hnew] at hstep
          cases hstep
          rw [enqueue_pushed]
          exact Nat.lt_succ_self _

/-- The push of a job opens its account. -/
theorem Step.tracks_push (h : Step debounce_ms s (.push first) s') (hs : s.Ledger tr)
    (hfresh : attempts tr first.id = 0 ∧ failures tr first.id = 0)
    (hretry : first.task.retry_count = 0) : s'.Tracks (tr ++ [.push first]) first := by
  obtain ⟨h₁, h₂⟩ := hfresh
  have hcount := hs first.id
  generalize he : PoolEvent.push first = e at h
  cases h <;> cases he
  rename_i task rest hout
  change _ ∨ _ at hcount
  simp only at h₁ h₂ hcount hretry
  have hatt : attempts (tr ++ [.push ⟨s.pushed, task⟩]) s.pushed = 0 := by
    rw [attempts_append, h₁]
    rfl
  have hfail : failures (tr ++ [.push ⟨s.pushed, task⟩]) s.pushed = 0 := by
    rw [failures_append, h₂]
    rfl
  have hheld : ∀ i job, s.Holds i job → job.id ≠ s.pushed := by
    intro i job hi hid
    have := heldCount_pos hi
    rw [hid] at this
    omega
  constructor
  · intro job hmem hid
    have hjob : job = ⟨s.pushed, task⟩ := by
      have hold : job ∉ s.queue := by
        intro hold
        have := queueCount_pos hold
        simp only [hid] at this
        omega
      unfold enqueue at hmem
      split_ifs at hmem
      · exact absurd hmem hold
      · cases List.mem_append.mp hmem with
        | inl h => exact absurd h hold
        | inr hnew => exact List.mem_singleton.mp hnew
    rw [hjob, hatt, hfail]
    exact ⟨by rw [← hretry], Nat.zero_le _, rfl⟩
  · intro i job hi hid
    rw [enqueue_workers] at hi
    exact absurd hid (hheld i job (Or.inl hi))
  · intro i job hi hid
    rw [enqueue_workers] at hi
    exact absurd hid (hheld i job (Or.inr hi))
  · rw [hatt]
    exact Nat.zero_le _
  · rintro ⟨i, job, hmem, hid⟩
    have hnone := List.countP_eq_zero.mp hfail _ hmem
    simp [PoolEvent.fails, hid] at hnone

theorem Run.tracks (h : Run debounce_ms C (start n) tr s) (hpush : .push first ∈ tr)
    (hretry : first.task.retry_count = 0) : s.Tracks tr first := by
  generalize hs : start n = s₀ at h
  induction h with
  | nil => simp at hpush
  | @snoc s₁ s₂ tr e hrun hstep _ ih =>
      subst hs
      by_cases hold : .push first ∈ tr
      · exact hstep.tracks hrun.phased hrun.ledger (hrun.push_lt hold) (ih hold)
      · have he : e = .push first := by
          cases List.mem_append.mp hpush with
          | inl h => exact absurd h hold
          | inr h => exact (List.mem_singleton.mp h).symm
        subst he
        have hid : first.id = s₁.pushed := by
          generalize he : PoolEvent.push first = e at hstep
          cases hstep <;> cases he
          rfl
        exact hstep.tracks_push hrun.ledger (hrun.fresh hid.ge) hretry

/-- A push is refused only once the queue is stopped, and it stays stopped. -/
theorem Run.accepted (h : Run debounce_ms C (start n) tr s) (hopen : s.stopped = false) :
    ∀ i job, .requeue i job false ∉ tr := by
  induction h with
  | nil => simp
  | @snoc s₁ s₂ tr e hrun hstep _ ih =>
      have hold : s₁.stopped = false := by
        cases hstep with
        | stopQueue => cases hopen
        | _ => simpa using hopen
      intro i job hmem
      cases List.mem_append.mp hmem with
      | inl h => exact ih hold i job h
      | inr h =>
          rw [← List.mem_singleton.mp h] at hstep
          generalize haccepted : false = accepted at hstep
          cases hstep
          simp [hold] at haccepted

/-! ## The account of a task -/

/-- While the queue is open, what ends a job is a success or that it is given up. -/
theorem Run.end_open (h : Run debounce_ms C (start n) tr s) (hopen : s.stopped = false)
    {id : Nat} (hend : 1 ≤ tr.countP (PoolEvent.ends id)) :
    (∃ i job, .succeed i job ∈ tr ∧ job.id = id) ∨ ∃ i job, .giveUp i job ∈ tr ∧ job.id = id := by
  obtain ⟨e, hmem, he⟩ := List.countP_pos_iff.mp hend
  cases e with
  | succeed i job => exact Or.inl ⟨i, job, hmem, by simpa [PoolEvent.ends] using he⟩
  | giveUp i job => exact Or.inr ⟨i, job, hmem, by simpa [PoolEvent.ends] using he⟩
  | requeue i job accepted =>
      cases accepted with
      | false => exact absurd hmem (h.accepted hopen i job)
      | true => simp [PoolEvent.ends] at he
  | _ => simp [PoolEvent.ends] at he

/-- A job that is done with is not somewhere else as well, and is done with once. -/
theorem Ledger.ended_once (h : s.Ledger tr) (id : Nat) {e' : PoolEvent n} (he : e ∈ tr) (he' : e' ∈ tr)
    (hend : e.ends id = true) (hend' : e'.ends id = true) : e = e' := by
  by_contra hne
  have htwo : 2 ≤ tr.countP (PoolEvent.ends id) := by
    rw [List.countP_eq_length_filter]
    have hpair : [e, e'].Subperm (tr.filter (PoolEvent.ends id)) := by
      refine List.subperm_of_subset (by simp [hne]) ?_
      intro a ha
      rcases List.mem_pair.mp ha with rfl | rfl
      · exact List.mem_filter.mpr ⟨he, hend⟩
      · exact List.mem_filter.mpr ⟨he', hend'⟩
    exact hpair.length_le
  have := h.le_one id
  omega

/-- What each place takes of the ledger. -/
theorem Place.Has.count {place : Place n} (h : place.Has s tr id) :
    place = .queued ∧ 1 ≤ s.queueCount id ∨ (∃ i, place = .held i) ∧ 1 ≤ s.heldCount id ∨
      (place = .succeeded ∨ place = .gaveUp) ∧ 1 ≤ tr.countP (PoolEvent.ends id) := by
  cases place with
  | queued => exact Or.inl ⟨rfl, Nat.le_of_eq h.symm⟩
  | held i =>
      obtain ⟨job, hi, hid⟩ := h
      exact Or.inr (Or.inl ⟨⟨i, rfl⟩, hid ▸ heldCount_pos hi⟩)
  | succeeded =>
      obtain ⟨i, job, hmem, hid⟩ := h
      exact Or.inr (Or.inr ⟨Or.inl rfl, ends_pos hmem (by simp [PoolEvent.ends, hid])⟩)
  | gaveUp =>
      obtain ⟨⟨i, job, hmem, hid⟩, -⟩ := h
      exact Or.inr (Or.inr ⟨Or.inr rfl, ends_pos hmem (by simp [PoolEvent.ends, hid])⟩)

theorem Ledger.not_both_ends (h : s.Ledger tr) (hsucceeded : Place.succeeded.Has s tr id)
    (hgaveUp : Place.gaveUp.Has s tr id) : False := by
  obtain ⟨i, job, hmem, hid⟩ := hsucceeded
  obtain ⟨⟨j, job', hmem', hid'⟩, -⟩ := hgaveUp
  have := h.ended_once id hmem hmem' (by simp [PoolEvent.ends, hid])
    (by simp [PoolEvent.ends, hid'])
  cases this

theorem Ledger.place_unique (h : s.Ledger tr) {a b : Place n} (ha : a.Has s tr id)
    (hb : b.Has s tr id) : a = b := by
  have hone := h.le_one id
  rcases ha.count with ⟨rfl, hqueue⟩ | ⟨⟨i, rfl⟩, hheld⟩ | ⟨hend, hends⟩
  · rcases hb.count with ⟨rfl, -⟩ | ⟨-, hheld⟩ | ⟨-, hends⟩
    · rfl
    · omega
    · omega
  · rcases hb.count with ⟨-, hqueue⟩ | ⟨⟨j, rfl⟩, -⟩ | ⟨-, hends⟩
    · omega
    · obtain ⟨job, hi, hid⟩ := ha
      obtain ⟨job', hj, hid'⟩ := hb
      rw [(h.holds_unique hi hj (hid.trans hid'.symm)).1]
    · omega
  · rcases hb.count with ⟨-, hqueue⟩ | ⟨-, hheld⟩ | ⟨hend', -⟩
    · omega
    · omega
    · rcases hend with rfl | rfl <;> rcases hend' with rfl | rfl
      · rfl
      · exact (h.not_both_ends ha hb).elim
      · exact (h.not_both_ends hb ha).elim
      · rfl

theorem heldCount_holds (h : 1 ≤ s.heldCount id) : ∃ i job, s.Holds i job ∧ job.id = id := by
  obtain ⟨i, -, hi⟩ := Finset.exists_ne_zero_of_sum_ne_zero (Nat.ne_of_gt h)
  cases hw : s.workers i with
  | syncing job =>
      refine ⟨i, job, Or.inl hw, ?_⟩
      by_contra hne
      simp [hw, Worker.holding, hne] at hi
  | requeueing job =>
      refine ⟨i, job, Or.inr hw, ?_⟩
      by_contra hne
      simp [hw, Worker.holding, hne] at hi
  | _ => simp [hw, Worker.holding] at hi

theorem Run.place (h : Run debounce_ms C (start n) tr s) (hpush : .push first ∈ tr)
    (hretry : first.task.retry_count = 0) (hopen : s.stopped = false) :
    ∃ place : Place n, place.Has s tr first.id := by
  have hsum : s.queueCount first.id + s.heldCount first.id +
      tr.countP (PoolEvent.ends first.id) = 1 := by
    have := h.push_lt hpush
    have := h.ledger first.id
    omega
  have hcases : s.queueCount first.id = 1 ∨ 1 ≤ s.heldCount first.id ∨
      1 ≤ tr.countP (PoolEvent.ends first.id) := by
    omega
  rcases hcases with hqueue | hheld | hend
  · exact ⟨.queued, hqueue⟩
  · obtain ⟨i, job, hi, hid⟩ := heldCount_holds hheld
    exact ⟨.held i, job, hi, hid⟩
  · rcases h.end_open hopen hend with hsucceed | hgiveUp
    · exact ⟨.succeeded, hsucceed⟩
    · exact ⟨.gaveUp, hgiveUp, (h.tracks hpush hretry).gaveUp hgiveUp⟩

/-- A task pushed with no retries is attempted at most `MAX_RETRY_COUNT + 1` times
and is never held twice; while the queue is open it is in exactly one place. -/
theorem task_conservation (debounce_ms : Int) {tr : List (PoolEvent n)} {s : Pool n}
    (h : AnyRun debounce_ms (start n) tr s) {first : Job} (hpush : .push first ∈ tr)
    (hretry : first.task.retry_count = 0) :
    attempts tr first.id ≤ maxRetryCount + 1 ∧
      s.queueCount first.id + s.heldCount first.id ≤ 1 ∧
      (∀ i j job job', s.Holds i job → s.Holds j job' → job.id = first.id →
        job'.id = first.id → i = j) ∧
      (∀ job, job ∈ s.queue ∨ (∃ i, s.Holds i job) → job.id = first.id →
        ∃ retries, job.task = { first.task with retry_count := retries }) ∧
      (s.stopped = false → ∃! place : Place n, place.Has s tr first.id) := by
  have hledger := h.ledger
  have htracks := h.tracks hpush hretry
  refine ⟨htracks.bound, ?_, ?_, ?_, fun hopen => ?_⟩
  · have := hledger.le_one first.id
    omega
  · intro i j job job' hi hj hid hid'
    exact (hledger.holds_unique hi hj (hid.trans hid'.symm)).1
  · intro job hlive hid
    rcases hlive with hqueue | ⟨i, hsyncing | hrequeueing⟩
    · exact ⟨_, (htracks.queued job hqueue hid).1⟩
    · exact ⟨_, (htracks.syncing i job hsyncing hid).1⟩
    · exact ⟨_, (htracks.requeueing i job hrequeueing hid).1⟩
  · obtain ⟨place, hplace⟩ := h.place hpush hretry hopen
    exact ⟨place, hplace, fun other hother => hledger.place_unique hother hplace⟩

/-- A deletion whose first attempt fails. -/
def failingDelete : SyncTask :=
  { initSyncTask with event_type := .delete, rel_path := nameA }

/-- The worker is about to push the deletion again. -/
def failedOnce : Pool 1 where
  table := .empty
  outbox := []
  phase := .looping
  pushed := 1
  queue := []
  stopped := false
  stop := false
  workers := fun _ => .requeueing (Job.mk 0 failingDelete).retried

def failedOnceEvents : List (PoolEvent 1) :=
  [.turn ⟨.event failingDelete, 0, 0⟩, .push ⟨0, failingDelete⟩, .goOn 0,
    .pop 0 ⟨0, failingDelete⟩, .fail 0 ⟨0, failingDelete⟩]

theorem failedOnce_reached : AnyRun defaultDebounceMs (start 1) failedOnceEvents failedOnce := by
  have hturn := schedulerTurn_immediate_empty (Or.inl rfl : failingDelete.event_type = .delete ∨ _)
    0 0 defaultDebounceMs
  have hrun := (((((Run.nil (C := fun _ _ => True) (start 1)).snoc (.turn rfl rfl hturn) trivial).snoc
    (.push rfl) trivial).snoc (.goOn (i := 0) rfl rfl) trivial).snoc (.pop (i := 0) rfl rfl)
    trivial).snoc (.fail (i := 0) rfl (by decide)) trivial
  convert hrun using 1
  · rfl
  · simp only [failedOnce, start, enqueue, setWorker, Bool.false_eq_true, if_false,
      Function.update_idem, List.nil_append, Pool.mk.injEq, true_and, zero_add]
    funext j
    rw [Subsingleton.elim j 0, Function.update_self]

theorem task_conservation_failedOnce :
    failedOnce.queueCount 0 + failedOnce.heldCount 0 ≤ 1 ∧
      ∃! place : Place 1, place.Has failedOnce failedOnceEvents 0 := by
  have hpush : PoolEvent.push ⟨0, failingDelete⟩ ∈ failedOnceEvents := by
    simp [failedOnceEvents]
  obtain ⟨-, honce, -, -, hplace⟩ := task_conservation defaultDebounceMs failedOnce_reached hpush rfl
  exact ⟨honce, hplace rfl⟩

end Pool

end MiniSync
