import MiniSync.Transfer.Drain

/-!
# The order in which tasks take effect

Workers do not look at the paths of the tasks they take, and a failed task goes to
the tail of the queue.  Tasks for one path keep their order as long as no worker
takes one while another worker is busy with the same path, and no failed one is
put behind a later one.
-/

namespace MiniSync.Pool

variable {n : Nat} {debounce_ms : Int} {s s' : Pool n} {e : PoolEvent n}
  {tr : List (PoolEvent n)} {job : Job} {i : Fin n}

/-- Two jobs are for one path. -/
def SamePath (a b : Job) : Prop := a.task.rel_path = b.task.rel_path

/-- The job is in circulation. -/
def Live (s : Pool n) (job : Job) : Prop := job ∈ s.queue ∨ ∃ i, s.Holds i job

/-- No attempt of a job changes its path after a later job for the path has
succeeded. -/
def InOrder (tr : List (PoolEvent n)) : Prop :=
  ∀ pre j b post, tr = pre ++ .succeed j b :: post →
    ∀ i a, .change i a ∈ post → SamePath a b → ¬ a.id < b.id

/-- A worker takes no job for a path that another worker is busy with, and no failed
job is put behind a later one for its path. -/
def KeepsOrder (s : Pool n) : PoolEvent n → Prop
  | .pop _ job => ∀ j other, s.Holds j other → ¬ SamePath job other
  | .requeue _ job accepted => accepted = true → ∀ other ∈ s.queue, SamePath job other →
      ¬ job.id < other.id
  | _ => True

/-- Jobs for one path wait in the order of their pushes, behind the one that is
being worked on and any that has succeeded. -/
structure Ordered (s : Pool n) (tr : List (PoolEvent n)) : Prop where
  queue : s.queue.Pairwise fun a b => SamePath a b → a.id < b.id
  held : ∀ i a, s.Holds i a → ∀ b ∈ s.queue, SamePath a b → a.id < b.id
  alone : ∀ i j a b, s.Holds i a → s.Holds j b → SamePath a b → i = j
  later : ∀ j b, .succeed j b ∈ tr → ∀ a, s.Live a → SamePath a b → b.id < a.id

theorem holds_setWorker {j : Fin n} {w : Worker} {a : Job} (h : (s.setWorker i w).Holds j a) :
    j = i ∧ (w = .syncing a ∨ w = .requeueing a) ∨ j ≠ i ∧ s.Holds j a := by
  unfold Holds at h
  by_cases hij : j = i
  · subst hij
    rw [setWorker_self] at h
    exact Or.inl ⟨rfl, h⟩
  · rw [setWorker_ne hij] at h
    exact Or.inr ⟨hij, h⟩

/-- A worker lets go of its job, or keeps it. -/
theorem holds_of_setWorker {j : Fin n} {w : Worker} {a : Job}
    (h : (s.setWorker i w).Holds j a) (hw : w ≠ .syncing a ∧ w ≠ .requeueing a) :
    j ≠ i ∧ s.Holds j a := by
  cases holds_setWorker h with
  | inl hsame =>
      cases hsame.2 with
      | inl hsyncing => exact absurd hsyncing hw.1
      | inr hrequeueing => exact absurd hrequeueing hw.2
  | inr hother => exact hother

theorem ordered_start : (start n).Ordered [] := by
  have hnone : ∀ i a, ¬ (start n).Holds i a := by
    rintro i a (h | h) <;> cases h
  refine ⟨List.Pairwise.nil, fun i a hi => absurd hi (hnone i a),
    fun i j a b hi => absurd hi (hnone i a), fun j b hmem => by cases hmem⟩

/-- Nothing is added to the queue or taken by a worker; a job may change its counter
in the worker's hands. -/
theorem Ordered.shrink (h : s.Ordered tr) (hqueue : s'.queue.Sublist s.queue)
    (hholds : ∀ j a, s'.Holds j a → ∃ a₀, s.Holds j a₀ ∧ a₀.id = a.id ∧
      a₀.task.rel_path = a.task.rel_path)
    (hsucceed : ∀ j b, e = .succeed j b → ∀ a, s'.Live a → SamePath a b → b.id < a.id) :
    s'.Ordered (tr ++ [e]) := by
  refine ⟨h.queue.sublist hqueue, ?_, ?_, ?_⟩
  · intro i a hi b hb hab
    obtain ⟨a₀, hi₀, hid, hpath⟩ := hholds i a hi
    rw [← hid]
    exact h.held i a₀ hi₀ b (hqueue.subset hb) (hpath.trans hab)
  · intro i j a b hi hj hab
    obtain ⟨a₀, hi₀, -, hpa⟩ := hholds i a hi
    obtain ⟨b₀, hj₀, -, hpb⟩ := hholds j b hj
    exact h.alone i j a₀ b₀ hi₀ hj₀ (hpa.trans (hab.trans hpb.symm))
  · intro j b hmem a hlive hab
    cases List.mem_append.mp hmem with
    | inr hnew => exact hsucceed j b (List.mem_singleton.mp hnew).symm a hlive hab
    | inl hold =>
        rcases hlive with hq | ⟨i, hi⟩
        · exact h.later j b hold a (Or.inl (hqueue.subset hq)) hab
        · obtain ⟨a₀, hi₀, hid, hpath⟩ := hholds i a hi
          rw [← hid]
          exact h.later j b hold a₀ (Or.inr ⟨i, hi₀⟩) (hpath.trans hab)

/-- A job joins the tail of the queue. -/
theorem Ordered.extend (h : s.Ordered tr) (hqueue : s'.queue = s.queue ++ [job])
    (hholds : ∀ j a, s'.Holds j a → s.Holds j a)
    (hbehind : ∀ a, s'.Live a → a ≠ job → SamePath a job → a.id < job.id)
    (hlater : ∀ j b, .succeed j b ∈ tr → SamePath job b → b.id < job.id)
    (hfresh : ∀ i, ¬ s'.Holds i job) (hnew : job ∉ s.queue) (hquiet : ∀ j b, e ≠ .succeed j b) :
    s'.Ordered (tr ++ [e]) := by
  refine ⟨?_, ?_, fun i j a b hi hj => h.alone i j a b (hholds i a hi) (hholds j b hj), ?_⟩
  · rw [hqueue, List.pairwise_append]
    refine ⟨h.queue, List.pairwise_singleton _ _, ?_⟩
    intro a ha b hb hab
    rw [List.mem_singleton.mp hb] at hab ⊢
    refine hbehind a (Or.inl ?_) ?_ hab
    · rw [hqueue]
      exact List.mem_append_left _ ha
    · rintro rfl
      exact hnew ha
  · intro i a hi b hb hab
    rw [hqueue] at hb
    cases List.mem_append.mp hb with
    | inl hold => exact h.held i a (hholds i a hi) b hold hab
    | inr hb =>
        rw [List.mem_singleton.mp hb] at hab ⊢
        refine hbehind a (Or.inr ⟨i, hi⟩) ?_ hab
        rintro rfl
        exact hfresh i hi
  · intro j b hmem a hlive hab
    have hold : .succeed j b ∈ tr := by
      cases List.mem_append.mp hmem with
      | inl hold => exact hold
      | inr hnew => exact absurd (List.mem_singleton.mp hnew).symm (hquiet j b)
    rcases hlive with hq | ⟨i, hi⟩
    · rw [hqueue] at hq
      cases List.mem_append.mp hq with
      | inl hq => exact h.later j b hold a (Or.inl hq) hab
      | inr hq =>
          rw [List.mem_singleton.mp hq] at hab ⊢
          exact hlater j b hold hab
    · exact h.later j b hold a (Or.inr ⟨i, hholds i a hi⟩) hab

/-- Every number in circulation, or in the events, has been given out. -/
theorem Ledger.lt_pushed (h : s.Ledger tr) : (∀ a, s.Live a → a.id < s.pushed) ∧
    ∀ j b, .succeed j b ∈ tr → b.id < s.pushed := by
  constructor
  · intro a hlive
    have hcount := h a.id
    rcases hlive with hq | ⟨i, hi⟩
    · have := queueCount_pos hq
      omega
    · have := heldCount_pos hi
      omega
  · intro j b hmem
    have hcount := h b.id
    have hends : 1 ≤ tr.countP (PoolEvent.ends b.id) := ends_pos hmem (by simp [PoolEvent.ends])
    omega

theorem Step.ordered (h : Step debounce_ms s e s') (hphased : s.Phased) (hledger : s.Ledger tr)
    (hkeeps : KeepsOrder s e) (hs : s.Ordered tr) : s'.Ordered (tr ++ [e]) := by
  obtain ⟨hlive, hdone⟩ := hledger.lt_pushed
  cases h with
  | turn | exit | stopQueue | raiseStop | change =>
      exact hs.shrink (List.Sublist.refl _) (fun j a hj => ⟨a, hj, rfl, rfl⟩) nofun
  | @push task rest hout =>
      have hstopped : s.stopped = false := by
        rw [← Bool.not_eq_true]
        intro hst
        rw [hphased.outbox hst] at hout
        cases hout
      have hqueue : (enqueue { s with outbox := rest, pushed := s.pushed + 1 }
          ⟨s.pushed, task⟩).queue = s.queue ++ [⟨s.pushed, task⟩] :=
        enqueue_queue (s := { s with outbox := rest, pushed := s.pushed + 1 }) hstopped _
      have hholds : ∀ j a, (enqueue { s with outbox := rest, pushed := s.pushed + 1 }
          ⟨s.pushed, task⟩).Holds j a → s.Holds j a := by
        intro j a hj
        unfold Holds at hj
        rwa [enqueue_workers] at hj
      refine hs.extend hqueue hholds ?_ (fun j b hmem _ => hdone j b hmem) ?_ ?_ nofun
      · intro a hlive' hne _
        refine hlive a ?_
        rcases hlive' with hq | ⟨i, hi⟩
        · rw [hqueue] at hq
          cases List.mem_append.mp hq with
          | inl hq => exact Or.inl hq
          | inr hq => exact absurd (List.mem_singleton.mp hq) hne
        · exact Or.inr ⟨i, hholds i a hi⟩
      · intro i hi
        exact Nat.lt_irrefl _ (hlive _ (Or.inr ⟨i, hholds i _ hi⟩))
      · intro hmem
        exact Nat.lt_irrefl _ (hlive _ (Or.inl hmem))
  | goOn | leaveStop | leaveEmpty | giveUp =>
      refine hs.shrink (List.Sublist.refl _) (fun j a hj => ?_) nofun
      exact ⟨a, (holds_of_setWorker hj ⟨nofun, nofun⟩).2, rfl, rfl⟩
  | @pop i job rest hi hqueue =>
      have hholds : ∀ j a, (({ s with queue := rest } : Pool n).setWorker i
          (.syncing job)).Holds j a → j = i ∧ a = job ∨ j ≠ i ∧ s.Holds j a := by
        intro j a hj
        rcases holds_setWorker hj with ⟨rfl, ha | ha⟩ | hother
        · cases ha
          exact Or.inl ⟨rfl, rfl⟩
        · cases ha
        · exact Or.inr hother
      have hlive' : ∀ a, (({ s with queue := rest } : Pool n).setWorker i
          (.syncing job)).Live a → s.Live a := by
        rintro a (hq | ⟨j, hj⟩)
        · refine Or.inl ?_
          rw [hqueue]
          exact List.mem_cons_of_mem _ hq
        · rcases hholds j a hj with ⟨-, rfl⟩ | ⟨-, hother⟩
          · exact Or.inl (by rw [hqueue]; simp)
          · exact Or.inr ⟨j, hother⟩
      have hpairs := hs.queue
      rw [hqueue, List.pairwise_cons] at hpairs
      refine ⟨hpairs.2, ?_, ?_, ?_⟩
      · intro j a hj b hb hab
        rcases hholds j a hj with ⟨-, rfl⟩ | ⟨-, hother⟩
        · exact hpairs.1 b hb hab
        · exact hs.held j a hother b (by rw [hqueue]; exact List.mem_cons_of_mem _ hb) hab
      · intro j k a b hj hk hab
        rcases hholds j a hj with ⟨rfl, rfl⟩ | ⟨-, ha⟩
        · rcases hholds k b hk with ⟨rfl, -⟩ | ⟨-, hb⟩
          · rfl
          · exact absurd hab (hkeeps k b hb)
        · rcases hholds k b hk with ⟨rfl, rfl⟩ | ⟨-, hb⟩
          · exact absurd hab.symm (hkeeps j a ha)
          · exact hs.alone j k a b ha hb hab
      · intro j b hmem a ha hab
        exact hs.later j b (by simpa using hmem) a (hlive' a ha) hab
  | @succeed i job hi =>
      have hholds : ∀ j a, (s.setWorker i .testing).Holds j a → j ≠ i ∧ s.Holds j a :=
        fun j a hj => holds_of_setWorker hj ⟨nofun, nofun⟩
      refine hs.shrink (List.Sublist.refl _) (fun j a hj => ⟨a, (hholds j a hj).2, rfl, rfl⟩) ?_
      rintro j b ⟨⟩ a (hq | ⟨k, hk⟩) hab
      · exact hs.held i job (Or.inl hi) a hq hab.symm
      · obtain ⟨hne, hk⟩ := hholds k a hk
        exact absurd (hs.alone k i a job hk (Or.inl hi) hab) hne
  | @fail i job hi hretry =>
      refine hs.shrink (List.Sublist.refl _) (fun j a hj => ?_) nofun
      rcases holds_setWorker hj with ⟨rfl, ha | ha⟩ | ⟨-, hother⟩
      · cases ha
      · cases ha
        exact ⟨job, Or.inl hi, rfl, rfl⟩
      · exact ⟨a, hother, rfl, rfl⟩
  | @requeue i job hi =>
      have hholds : ∀ j a, ((s.enqueue job).setWorker i .testing).Holds j a →
          j ≠ i ∧ s.Holds j a := by
        intro j a hj
        obtain ⟨hne, hother⟩ := holds_of_setWorker hj ⟨nofun, nofun⟩
        unfold Holds at hother
        rw [enqueue_workers] at hother
        exact ⟨hne, hother⟩
      cases hstopped : s.stopped with
      | true =>
          refine hs.shrink ?_ (fun j a hj => ⟨a, (hholds j a hj).2, rfl, rfl⟩) nofun
          rw [setWorker_queue, enqueue_of_stopped hstopped]
      | false =>
          have hqueue : ((s.enqueue job).setWorker i .testing).queue = s.queue ++ [job] := by
            rw [setWorker_queue, enqueue_queue hstopped]
          refine hs.extend hqueue (fun j a hj => (hholds j a hj).2) ?_ ?_ ?_ ?_ nofun
          · rintro a (hq | ⟨j, hj⟩) hne hab
            · rw [hqueue] at hq
              cases List.mem_append.mp hq with
              | inr hq => exact absurd (List.mem_singleton.mp hq) hne
              | inl hq =>
                  -- Every job for the path that waits here was pushed later.
                  have hlater := hs.held i job (Or.inr hi) a hq hab.symm
                  exact absurd hlater (hkeeps (by rw [hstopped]; rfl) a hq hab.symm)
            · obtain ⟨hji, hj⟩ := hholds j a hj
              exact absurd (hs.alone j i a job hj (Or.inr hi) hab) hji
          · exact fun j b hmem hab => hs.later j b hmem job (Or.inr ⟨i, Or.inr hi⟩) hab
          · intro j hj
            obtain ⟨hji, hj⟩ := hholds j job hj
            exact hji (hs.alone j i job job hj (Or.inr hi) rfl)
          · intro hmem
            exact Nat.lt_irrefl _ (hs.held i job (Or.inr hi) job hmem rfl)

theorem Run.ordered (h : Run debounce_ms KeepsOrder (start n) tr s) : s.Ordered tr := by
  generalize hs : start n = s₀ at h
  induction h with
  | nil => exact hs ▸ ordered_start
  | snoc hrun hstep hkeeps ih =>
      subst hs
      exact hstep.ordered hrun.phased hrun.ledger hkeeps ih

/-- Whether `current/path` stands after an event, as far as the tasks for that path go:
an attempt of a DELETE may take it away, and a success of a task of another kind leaves
it there, its source being there. -/
def stands (path : PathBuf) (there : Bool) : PoolEvent n → Bool
  | .change _ job =>
      if job.task.rel_path = path ∧ job.task.event_type = .delete then false else there
  | .succeed _ job =>
      if job.task.rel_path = path ∧ job.task.event_type ≠ .delete then true else there
  | _ => there

/-- Nothing is left to do. -/
def Emptied (s : Pool n) : Prop := s.queue = [] ∧ ∀ i job, ¬ s.Holds i job

/-- The job is neither given up nor refused by the stopped queue. -/
def NotDropped (tr : List (PoolEvent n)) (job : Job) : Prop :=
  ∀ i other, other.id = job.id → .giveUp i other ∉ tr ∧ .requeue i other false ∉ tr

/-- A job whose attempts are under way was pushed for the same path and event. -/
def Pushed (tr : List (PoolEvent n)) (job : Job) : Prop :=
  ∃ first, .push first ∈ tr ∧ first.id = job.id ∧ SamePath first job ∧
    first.task.event_type = job.task.event_type

theorem Pushed.append (h : Pushed tr job) (tr' : List (PoolEvent n)) :
    Pushed (tr ++ tr') job := by
  obtain ⟨first, hpush, hfirst⟩ := h
  exact ⟨first, List.mem_append_left _ hpush, hfirst⟩

/-- What circulates, and what changes a path or succeeds, was pushed. -/
structure Traced (s : Pool n) (tr : List (PoolEvent n)) : Prop where
  live : ∀ job, s.Live job → Pushed tr job
  change : ∀ i job, .change i job ∈ tr → Pushed tr job
  succeed : ∀ i job, .succeed i job ∈ tr → Pushed tr job

/-- What is live after a step was live before it, apart from the push and the counter of
a failed job. -/
theorem Step.live (h : Step debounce_ms s e s') (hlive : s'.Live job) :
    e = .push job ∨ ∃ old, s.Live old ∧ old.id = job.id ∧ SamePath old job ∧
      old.task.event_type = job.task.event_type := by
  have hsame : s.Live job → ∃ old, s.Live old ∧ old.id = job.id ∧ SamePath old job ∧
      old.task.event_type = job.task.event_type := fun hold => ⟨job, hold, rfl, rfl, rfl⟩
  have hset : ∀ {i : Fin n} {w : Worker} {t : Pool n}, (t.setWorker i w).Live job →
      t.Live job ∨ w = .syncing job ∨ w = .requeueing job := by
    rintro i w t (hqueue | ⟨j, hj⟩)
    · exact Or.inl (Or.inl hqueue)
    · rcases holds_setWorker hj with ⟨-, hw⟩ | ⟨-, hj⟩
      · exact Or.inr hw
      · exact Or.inl (Or.inr ⟨j, hj⟩)
  have henqueue : ∀ {t : Pool n} {added : Job}, (t.enqueue added).Live job →
      t.Live job ∨ job = added := by
    rintro t added (hqueue | ⟨j, hj⟩)
    · unfold enqueue at hqueue
      split_ifs at hqueue
      · exact Or.inl (Or.inl hqueue)
      · rcases List.mem_append.mp hqueue with hold | hnew
        · exact Or.inl (Or.inl hold)
        · exact Or.inr (List.mem_singleton.mp hnew)
    · unfold Holds at hj
      rw [enqueue_workers] at hj
      exact Or.inl (Or.inr ⟨j, hj⟩)
  cases h with
  | turn | exit | stopQueue | raiseStop | change => exact Or.inr (hsame hlive)
  | push hout =>
      rcases henqueue hlive with hold | hnew
      · exact Or.inr (hsame hold)
      · exact Or.inl (by rw [hnew])
  | goOn | leaveStop | leaveEmpty | succeed | giveUp =>
      rcases hset hlive with hold | hw | hw
      · exact Or.inr (hsame hold)
      · cases hw
      · cases hw
  | @pop i popped rest hi hqueue =>
      rcases hset hlive with hold | hw | hw
      · refine Or.inr (hsame ?_)
        rcases hold with hold | hheld
        · exact Or.inl (by rw [hqueue]; exact List.mem_cons_of_mem _ hold)
        · exact Or.inr hheld
      · cases hw
        exact Or.inr (hsame (Or.inl (by rw [hqueue]; exact List.mem_cons_self)))
      · cases hw
  | @fail i failed hi hretry =>
      rcases hset hlive with hold | hw | hw
      · exact Or.inr (hsame hold)
      · cases hw
      · cases hw
        exact Or.inr ⟨failed, Or.inr ⟨i, Or.inl hi⟩, rfl, rfl, rfl⟩
  | @requeue i queued hi =>
      rcases hset hlive with hold | hw | hw
      · rcases henqueue hold with hold | hnew
        · exact Or.inr (hsame hold)
        · exact Or.inr (hsame (hnew ▸ Or.inr ⟨i, Or.inr hi⟩))
      · cases hw
      · cases hw

/-- A job that is not dropped has succeeded once nothing is left to do. -/
theorem Run.succeeded {C : Pool n → PoolEvent n → Prop} (h : Run debounce_ms C (start n) tr s)
    (hempty : s.Emptied) (hpush : .push job ∈ tr) (hkept : NotDropped tr job) :
    ∃ i done, .succeed i done ∈ tr ∧ done.id = job.id := by
  have hqueue : s.queueCount job.id = 0 := by
    unfold queueCount
    rw [hempty.1]
    rfl
  have hheld : s.heldCount job.id = 0 := by
    by_contra hpos
    obtain ⟨i, other, hi, -⟩ := heldCount_holds (Nat.one_le_iff_ne_zero.mpr hpos)
    exact hempty.2 i other hi
  have hend : 0 < tr.countP (PoolEvent.ends job.id) := by
    have := h.push_lt hpush
    have := h.ledger job.id
    omega
  obtain ⟨e, hmem, he⟩ := List.countP_pos_iff.mp hend
  cases e with
  | succeed i done => exact ⟨i, done, hmem, by simpa [PoolEvent.ends] using he⟩
  | giveUp i other => exact absurd hmem (hkept i other (by simpa [PoolEvent.ends] using he)).1
  | requeue i other accepted =>
      cases accepted with
      | false =>
          exact absurd hmem (hkept i other (by simpa [PoolEvent.ends] using he)).2
      | true => simp [PoolEvent.ends] at he
  | _ => simp [PoolEvent.ends] at he

/-- The file that `failingDelete` deletes comes back. -/
def recreate : SyncTask := { failingDelete with event_type := .create }

/-- The two turns and the pushes that follow each of them. -/
def deleteCreateEvents : List (PoolEvent n) :=
  [.turn ⟨.event failingDelete, 0, 0⟩, .push ⟨0, failingDelete⟩,
    .turn ⟨.event recreate, 0, 1500⟩, .push ⟨1, recreate⟩]

/-- Both tasks are in the queue and the workers are at their test. -/
def deleteCreateQueued (n : Nat) : Pool n where
  table := .empty
  outbox := []
  phase := .looping
  pushed := 2
  queue := [⟨0, failingDelete⟩, ⟨1, recreate⟩]
  stopped := false
  stop := false
  workers := fun _ => .testing

theorem deleteCreate_reached (C : Pool n → PoolEvent n → Prop) (hturn : ∀ s t, C s (.turn t))
    (hpush : ∀ s job, C s (.push job)) :
    Run defaultDebounceMs C (start n) deleteCreateEvents (deleteCreateQueued n) := by
  have hdelete := schedulerTurn_immediate_empty
    (Or.inl rfl : failingDelete.event_type = .delete ∨ _) 0 0 defaultDebounceMs
  have hcreate := schedulerTurn_debounced_empty (rfl : shouldDebounce recreate = true)
    (show (1500 : Int) - 0 ≥ defaultDebounceMs by decide)
  have hnil : Run defaultDebounceMs C (start n) [] (start n) := .nil _
  exact (((hnil.snoc (.turn rfl rfl hdelete) (hturn _ _)).snoc (.push rfl) (hpush _ _)).snoc
    (.turn rfl rfl hcreate) (hturn _ _)).snoc (.push rfl) (hpush _ _)

/-- No failure is needed with two workers: the second creates the file while the first
is still deleting it. -/
theorem other_worker_overtakes : ¬ ∀ (tr : List (PoolEvent 2)) (s : Pool 2),
    AnyRun defaultDebounceMs (start 2) tr s → InOrder tr := by
  intro hclaim
  have hqueued := deleteCreate_reached (n := 2) (fun _ _ => True) (fun _ _ => trivial)
    fun _ _ => trivial
  have hdeleting := (hqueued.snoc (.goOn (i := 0) rfl rfl) trivial).snoc
    (.pop (i := 0) rfl rfl) trivial
  have hcreated := ((hdeleting.snoc (.goOn (i := 1) rfl rfl) trivial).snoc
    (.pop (i := 1) rfl rfl) trivial).snoc (.succeed (i := 1) rfl) trivial
  have hdeleted := hcreated.snoc (.change (i := 0) rfl) trivial
  have horder := hclaim _ _ hdeleted
  refine horder (deleteCreateEvents ++ [.goOn 0, .pop 0 ⟨0, failingDelete⟩, .goOn 1,
      .pop 1 ⟨1, recreate⟩]) 1 ⟨1, recreate⟩ [.change 0 ⟨0, failingDelete⟩] rfl 0
    ⟨0, failingDelete⟩ ?_ rfl ?_
  · simp
  · exact Nat.zero_lt_one

end MiniSync.Pool
