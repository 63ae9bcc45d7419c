import MiniSync.Transfer.Conservation

/-!
# What EXIT leaves undone

After EXIT the scheduler pushes what is still pending, stops the queue and raises
`ctx->stop`.  `task_queue_pop` goes on until the queue is empty, but a worker that
finds `ctx->stop` set leaves without it, and a stopped queue refuses a retry.
-/

namespace MiniSync.Pool

variable {n : Nat} {debounce_ms : Int} {s s' s₀ s₁ : Pool n} {e : PoolEvent n}
  {tr : List (PoolEvent n)} {job : Job} {i : Fin n}

/-- What is to be done once the scheduler has read EXIT in state `s₀`: `before` are
the events until then, `after` those that follow the turn that read it. -/
structure Drained (s₀ : Pool n) (before : List (PoolEvent n)) (turn : Turn)
    (after : List (PoolEvent n)) : Prop where
  queued : ∀ job ∈ s₀.queue, ∃ i, .pop i job ∈ after
  /-- The scheduler pushes the pending entries in their order. -/
  pending : ∀ k entry, s₀.table.entries[k]? = some entry →
    ∃ i, .pop i ⟨s₀.pushed + k, entry.task⟩ ∈ after
  retried : ∀ pre i job post, before ++ .turn turn :: after = pre ++ .fail i job :: post →
    ∃ j, .pop j job.retried ∈ post

/-- The last worker to leave does not leave a task behind, and no retry comes after
`task_queue_stop`. -/
def Drains (s : Pool n) : PoolEvent n → Prop
  | .leaveStop i => s.queue = [] ∨ ∃ j, j ≠ i ∧ s.workers j ≠ .left
  | .requeue _ _ _ => s.stopped = false
  | _ => True

/-- The job is still to be popped. -/
def Due (s : Pool n) (job : Job) : Prop :=
  job ∈ s.queue ∨ (∃ i, s.workers i = .requeueing job) ∨
    ∃ k, s.outbox[k]? = some job.task ∧ s.pushed + k = job.id

/-! ## A job that is due stays due until it is popped -/

theorem requeueing_setWorker {j : Fin n} {w : Worker} (hj : s.workers j = .requeueing job)
    (hi : s.workers i ≠ .requeueing job) : (s.setWorker i w).workers j = .requeueing job := by
  have hij : j ≠ i := by
    intro h
    rw [h] at hj
    exact hi hj
  rw [setWorker_ne hij, hj]

/-- A worker that holds no retry moves, and nothing else happens. -/
theorem Due.setWorker {w : Worker} (h : s.Due job) (hi : s.workers i ≠ .requeueing job) :
    (s.setWorker i w).Due job := by
  rcases h with hqueue | ⟨j, hj⟩ | hout
  · exact Or.inl hqueue
  · exact Or.inr (Or.inl ⟨j, requeueing_setWorker hj hi⟩)
  · exact Or.inr (Or.inr hout)

theorem Step.due (h : Step debounce_ms s e s') (hdrains : Drains s e) (hs : s.Phased)
    (hdue : s.Due job) : s'.Due job ∨ ∃ i, e = .pop i job := by
  cases h with
  | turn _ hout _ | exit _ hout _ =>
      refine Or.inl ?_
      rcases hdue with hqueue | hworker | ⟨k, hk, -⟩
      · exact Or.inl hqueue
      · exact Or.inr (Or.inl hworker)
      · simp [hout] at hk
  | @push task rest hout =>
      have hstopped : s.stopped = false := by
        rw [← Bool.not_eq_true]
        intro hst
        rw [hs.outbox hst] at hout
        cases hout
      have hqueue : (enqueue { s with outbox := rest, pushed := s.pushed + 1 }
          ⟨s.pushed, task⟩).queue = s.queue ++ [⟨s.pushed, task⟩] :=
        enqueue_queue (s := { s with outbox := rest, pushed := s.pushed + 1 }) hstopped _
      have houtbox : (enqueue { s with outbox := rest, pushed := s.pushed + 1 }
          ⟨s.pushed, task⟩).outbox = rest := by
        unfold enqueue
        split_ifs <;> rfl
      refine Or.inl ?_
      rcases hdue with hold | ⟨i, hi⟩ | ⟨k, hk, hid⟩
      · exact Or.inl (by rw [hqueue]; exact List.mem_append_left _ hold)
      · exact Or.inr (Or.inl ⟨i, by rw [enqueue_workers]; exact hi⟩)
      · rw [hout] at hk
        cases k with
        | zero =>
            -- It is the task that is pushed now.
            have hjob : job = ⟨s.pushed, task⟩ := by
              cases job
              simp only [List.getElem?_cons_zero, Option.some.injEq] at hk
              simp only at hid
              rw [hk, ← hid]
              rfl
            exact Or.inl (by rw [hqueue, hjob]; simp)
        | succ k =>
            refine Or.inr (Or.inr ⟨k, ?_, ?_⟩)
            · rw [houtbox]
              simpa using hk
            · rw [enqueue_pushed]
              change s.pushed + 1 + k = job.id
              omega
  | stopQueue | raiseStop | change => exact Or.inl hdue
  | @goOn i hi _ | @leaveStop i hi _ | @leaveEmpty i hi _ _ | @succeed i _ hi
  | @fail i _ hi _ | @giveUp i _ hi _ =>
      exact Or.inl (hdue.setWorker (by rw [hi]; nofun))
  | @pop i popped rest hi hqueue =>
      rcases hdue with hold | ⟨j, hj⟩ | hout
      · rw [hqueue] at hold
        cases List.mem_cons.mp hold with
        | inl heq => exact Or.inr ⟨i, by rw [heq]⟩
        | inr hrest => exact Or.inl (Or.inl hrest)
      · have hi' : Pool.workers { s with queue := rest } i ≠ .requeueing job := by
          intro h
          rw [show Pool.workers { s with queue := rest } i = _ from hi] at h
          cases h
        exact Or.inl (Or.inr (Or.inl ⟨j,
          requeueing_setWorker (s := { s with queue := rest }) hj hi'⟩))
      · exact Or.inl (Or.inr (Or.inr hout))
  | @requeue i pushed hi =>
      have hopen : s.stopped = false := hdrains
      have hqueue := enqueue_queue hopen pushed
      have houtbox : (s.enqueue pushed).outbox = s.outbox := by
        unfold enqueue
        split_ifs <;> rfl
      refine Or.inl ?_
      rcases hdue with hold | ⟨j, hj⟩ | hout
      · exact Or.inl (by rw [setWorker_queue, hqueue]; exact List.mem_append_left _ hold)
      · by_cases hjob : pushed = job
        · exact Or.inl (by rw [setWorker_queue, hqueue, hjob]; simp)
        · refine Or.inr (Or.inl ⟨j, requeueing_setWorker ?_ ?_⟩)
          · rw [enqueue_workers, hj]
          · rw [enqueue_workers, hi]
            rintro ⟨⟩
            exact hjob rfl
      · refine Or.inr (Or.inr ?_)
        change ∃ k, (s.enqueue pushed).outbox[k]? = _ ∧ (s.enqueue pushed).pushed + k = _
        rw [houtbox, enqueue_pushed]
        exact hout

theorem Run.due (h : Run debounce_ms Drains s tr s') (hs : s.Phased) (hdue : s.Due job) :
    s'.Due job ∨ ∃ i, .pop i job ∈ tr := by
  suffices hboth : s'.Phased ∧ (s'.Due job ∨ ∃ i, .pop i job ∈ tr) from hboth.2
  induction h with
  | nil => exact ⟨hs, Or.inl hdue⟩
  | snoc _ hstep hdrains ih =>
      refine ⟨hstep.phased ih.1, ?_⟩
      cases ih.2 with
      | inl hold =>
          cases hstep.due hdrains ih.1 hold with
          | inl hnew => exact Or.inl hnew
          | inr hpop =>
              obtain ⟨i, rfl⟩ := hpop
              exact Or.inr ⟨i, by simp⟩
      | inr hpop =>
          obtain ⟨i, hi⟩ := hpop
          exact Or.inr ⟨i, List.mem_append_left _ hi⟩

/-! ## Once every worker has left -/

/-- The last worker leaves behind a stopped and empty queue. -/
def Settled (s : Pool n) : Prop :=
  (∀ i, s.workers i = .left) → s.queue = [] ∧ s.stopped = true

theorem settled_of_worker {s : Pool n} (i : Fin n) (h : s.workers i ≠ .left) : s.Settled :=
  fun hall => absurd (hall i) h

theorem Step.settled (h : Step debounce_ms s e s') (hdrains : Drains s e) (hphased : s.Phased)
    (hs : s.Settled) : s'.Settled := by
  cases h with
  | turn hphase _ _ | exit hphase _ _ =>
      intro hall
      have hstopped := hphased.stopped_iff.mp (hs hall).2
      rw [hphase] at hstopped
      simp at hstopped
  | @push task rest hout =>
      intro hall
      rw [enqueue_workers] at hall
      rw [hphased.outbox (hs hall).2] at hout
      cases hout
  | stopQueue => exact fun hall => ⟨(hs hall).1, rfl⟩
  | raiseStop => exact hs
  | change => exact hs
  | @goOn i | @succeed i | @fail i | @giveUp i | @pop i | @requeue i =>
      refine settled_of_worker i ?_
      rw [setWorker_self]
      nofun
  | @leaveStop i hi hstop =>
      intro hall
      have hstopped := hphased.stopped_iff.mpr (Or.inr (hphased.stop_iff.mp hstop))
      cases hdrains with
      | inl hempty => exact ⟨hempty, hstopped⟩
      | inr hother =>
          obtain ⟨j, hji, hj⟩ := hother
          have := hall j
          rw [setWorker_ne hji] at this
          exact absurd this hj
  | leaveEmpty _ hqueue hstopped => exact fun _ => ⟨hqueue, hstopped⟩

theorem settled_start (hn : 0 < n) : (start n).Settled :=
  settled_of_worker ⟨0, hn⟩ nofun

theorem Run.settled (h : Run debounce_ms Drains s tr s') (hphased : s.Phased)
    (hs : s.Settled) : s'.Phased ∧ s'.Settled := by
  induction h with
  | nil => exact ⟨hphased, hs⟩
  | snoc _ hstep hdrains ih => exact ⟨hstep.phased ih.1, hstep.settled hdrains ih.1 ih.2⟩

/-- Nothing is due any more. -/
theorem not_due (hphased : s.Phased) (hs : s.Settled) (hall : ∀ i, s.workers i = .left) :
    ¬ s.Due job := by
  obtain ⟨hqueue, hstopped⟩ := hs hall
  rintro (hmem | ⟨i, hi⟩ | ⟨k, hk, -⟩)
  · rw [hqueue] at hmem
    cases hmem
  · rw [hall i] at hi
    cases hi
  · rw [hphased.outbox hstopped] at hk
    simp at hk

/-! ## The whole run -/

theorem Run.append {C : Pool n → PoolEvent n → Prop} {tr' : List (PoolEvent n)} {s'' : Pool n}
    (h : Run debounce_ms C s tr s') (h' : Run debounce_ms C s' tr' s'') :
    Run debounce_ms C s (tr ++ tr') s'' := by
  induction h' with
  | nil => rwa [List.append_nil]
  | snoc _ hstep hC ih =>
      rw [← List.append_assoc]
      exact ih.snoc hstep hC

/-- A run, taken apart at one of its events. -/
theorem Run.split {C : Pool n → PoolEvent n → Prop} (h : Run debounce_ms C s tr s')
    {pre post : List (PoolEvent n)} (htr : tr = pre ++ e :: post) :
    ∃ t t', Run debounce_ms C s pre t ∧ Step debounce_ms t e t' ∧ C t e ∧
      Run debounce_ms C t' post s' := by
  induction h generalizing post with
  | nil => simp at htr
  | @snoc s₁ s₂ tr e' hrun hstep hC ih =>
      rcases List.eq_nil_or_concat post with hpost | ⟨post', last, hpost⟩
      · -- The event is the last one.
        rw [hpost, ← List.singleton_append, ← List.nil_append [e], ← List.append_assoc,
          List.append_nil, List.nil_append] at htr
        obtain ⟨rfl, hlast⟩ := List.append_inj' htr rfl
        cases hlast
        rw [hpost]
        exact ⟨s₁, s₂, hrun, hstep, hC, .nil _⟩
      · rw [hpost, List.concat_eq_append, ← List.cons_append, ← List.append_assoc] at htr
        obtain ⟨rfl, hlast⟩ := List.append_inj' htr rfl
        cases hlast
        obtain ⟨t, t', hpre, he, hCe, hpost'⟩ := ih rfl
        rw [hpost, List.concat_eq_append]
        exact ⟨t, t', hpre, he, hCe, hpost'.snoc hstep hC⟩

/-- When all workers have left, the accepted work is done, in a run where the last
of them leaves an empty queue and no retry meets a stopped one. -/
theorem drained_of_drains (debounce_ms : Int) (hn : 0 < n) {before after : List (PoolEvent n)}
    {turn : Turn} {task : SyncTask} {s₀ s₁ s : Pool n}
    (h₀ : Run debounce_ms Drains (start n) before s₀) (hexit : Step debounce_ms s₀ (.turn turn) s₁)
    (hread : turn.wakeup = .event task) (htask : task.event_type = .exit)
    (h₁ : Run debounce_ms Drains s₁ after s) (hall : ∀ i, s.workers i = .left) :
    Drained s₀ before turn after := by
  have hphased₁ : s₁.Phased := hexit.phased h₀.phased
  have hstop : schedulerTurn debounce_ms s₀.table turn = none := by
    unfold schedulerTurn
    rw [hread]
    simp only [htask, if_pos]
  have hwhole : Run debounce_ms Drains (start n) (before ++ .turn turn :: after) s := by
    rw [← List.singleton_append, ← List.append_assoc]
    exact (h₀.snoc hexit trivial).append h₁
  obtain ⟨hphased, hsettled⟩ := hwhole.settled phased_start (settled_start hn)
  have hdone : ∀ {t : Pool n} {tr : List (PoolEvent n)} {job : Job}, t.Phased →
      Run debounce_ms Drains t tr s → t.Due job → ∃ i, .pop i job ∈ tr := by
    intro t tr job ht hrun hdue
    cases hrun.due ht hdue with
    | inl hstill => exact absurd hstill (not_due hphased hsettled hall)
    | inr hpop => exact hpop
  -- What EXIT finds is due in the state that follows it.
  have hafter : s₁.queue = s₀.queue ∧ s₁.outbox = s₀.table.entries.map PendingTask.task ∧
      s₁.pushed = s₀.pushed := by
    generalize he : PoolEvent.turn turn = e at hexit
    cases hexit with
    | turn _ _ hturn =>
        cases he
        rw [hstop] at hturn
        cases hturn
    | exit => exact ⟨rfl, rfl, rfl⟩
    | _ => cases he
  obtain ⟨hqueue, hout, hpushed⟩ := hafter
  constructor
  · intro job hmem
    exact hdone hphased₁ h₁ (Or.inl (hqueue ▸ hmem))
  · intro k entry hk
    refine hdone hphased₁ h₁ (Or.inr (Or.inr ⟨k, ?_, ?_⟩))
    · rw [hout, List.getElem?_map, hk]
      rfl
    · rw [hpushed]
  · intro pre i job post htr
    obtain ⟨t, t', hpre, hfail, -, hpost⟩ := hwhole.split htr
    have ht' : t'.Phased := hfail.phased hpre.phased
    have hdue : t'.Due job.retried := by
      generalize he : PoolEvent.fail i job = e at hfail
      cases hfail <;> cases he
      exact Or.inr (Or.inl ⟨i, setWorker_self ..⟩)
    exact hdone ht' hpost hdue

/-! ## One worker and one deletion -/

/-- The deletion is in the queue and the worker is at its test. -/
def queuedDelete : Pool 1 where
  table := .empty
  outbox := []
  phase := .looping
  pushed := 1
  queue := [⟨0, failingDelete⟩]
  stopped := false
  stop := false
  workers := fun _ => .testing

def queuedDeleteEvents : List (PoolEvent 1) :=
  [.turn ⟨.event failingDelete, 0, 0⟩, .push ⟨0, failingDelete⟩]

def exitTask : SyncTask := { initSyncTask with event_type := .exit }

/-- The turn that reads EXIT. -/
def readExit : Turn := ⟨.event exitTask, 0, 0⟩

/-- The queue as EXIT finds it. -/
def exitRead : Pool 1 := { queuedDelete with phase := .flushing }

theorem queuedDelete_reached (C : Pool 1 → PoolEvent 1 → Prop) (hturn : ∀ s t, C s (.turn t))
    (hpush : ∀ s job, C s (.push job)) :
    Run defaultDebounceMs C (start 1) queuedDeleteEvents queuedDelete := by
  have hread := schedulerTurn_immediate_empty (Or.inl rfl : failingDelete.event_type = .delete ∨ _)
    0 0 defaultDebounceMs
  exact ((Run.nil (start 1)).snoc (.turn rfl rfl hread) (hturn _ _)).snoc (.push rfl) (hpush _ _)

theorem exitRead_step : Step defaultDebounceMs queuedDelete (.turn readExit) exitRead := by
  have hnone : schedulerTurn defaultDebounceMs queuedDelete.table readExit = none := rfl
  have hstep := Step.exit (s := queuedDelete) rfl rfl hnone
  have hflush : pendingFlushAll queuedDelete.table = (PendingTable.empty, []) := by
    unfold pendingFlushAll
    rw [show queuedDelete.table = PendingTable.empty from rfl, entries_empty]
    rfl
  rw [hflush] at hstep
  exact hstep

/-- The worker that was busy elsewhere finds the flag and leaves the task queued. -/
theorem exit_drops_task : ¬ ∀ (before after : List (PoolEvent 1)) (turn : Turn) (task : SyncTask)
    (s₀ s₁ s : Pool 1), AnyRun defaultDebounceMs (start 1) before s₀ →
      Step defaultDebounceMs s₀ (.turn turn) s₁ → turn.wakeup = .event task →
      task.event_type = .exit → AnyRun defaultDebounceMs s₁ after s →
      (∀ i, s.workers i = .left) → Drained s₀ before turn after := by
  intro hclaim
  have hnil : AnyRun defaultDebounceMs exitRead [] exitRead := .nil _
  have hafter := ((hnil.snoc (.stopQueue rfl rfl) trivial).snoc (.raiseStop rfl) trivial).snoc
    (.leaveStop (i := 0) rfl rfl) trivial
  have hall : ∀ i, (setWorker { exitRead with stopped := true, stop := true, phase := .returned } 0
      .left).workers i = .left := by
    intro i
    rw [Subsingleton.elim i 0, setWorker_self]
  have hdrained := hclaim queuedDeleteEvents _ readExit exitTask queuedDelete exitRead _
    (queuedDelete_reached _ (fun _ _ => trivial) fun _ _ => trivial) exitRead_step rfl rfl hafter
    hall
  obtain ⟨i, hi⟩ := hdrained.queued ⟨0, failingDelete⟩ (by simp [queuedDelete])
  simp at hi

/-- The worker pops the deletion before the queue is stopped. -/
theorem drained_of_drains_queuedDelete :
    Drained queuedDelete queuedDeleteEvents readExit
      [.goOn 0, .pop 0 ⟨0, failingDelete⟩, .succeed 0 ⟨0, failingDelete⟩, .stopQueue,
        .raiseStop, .leaveStop 0] := by
  have hnil : Run defaultDebounceMs Drains exitRead [] exitRead := .nil _
  have hafter := (((((hnil.snoc (.goOn (i := 0) rfl rfl) trivial).snoc
    (.pop (i := 0) rfl rfl) trivial).snoc (.succeed (i := 0) rfl) trivial).snoc
    (.stopQueue rfl rfl) trivial).snoc (.raiseStop rfl) trivial).snoc
    (.leaveStop (i := 0) rfl rfl) (Or.inl rfl)
  refine drained_of_drains defaultDebounceMs Nat.zero_lt_one
    (queuedDelete_reached _ (fun _ _ => trivial) fun _ _ => trivial) exitRead_step rfl rfl hafter ?_
  intro i
  rw [Subsingleton.elim i 0, setWorker_self]

end MiniSync.Pool
