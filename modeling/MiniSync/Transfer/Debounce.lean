import MiniSync.Transfer.NoEventLost

/-!
# What the flushes push

A debounced task that is pushed out of the pending table is the last one read for
its path.  Turns are counted from the start of a run: the task that turn `k` records
is told from an equal one that another turn records.
-/

namespace MiniSync.Scheduler

/-! ## Turns of a run -/

/-- The pending table when turn `j` begins. -/
def tableBefore (debounce_ms : Int) (turns : List Turn) (j : Nat) : PendingTable :=
  tableAfter debounce_ms .empty (turns.take j)

/-- The loop comes to turn `j`. -/
def Reaches (turns : List Turn) (j : Nat) (turn : Turn) : Prop :=
  turns[j]? = some turn ∧ ∀ u ∈ turns.take j, u.Continues

/-- The table once a turn has handled what it reads. -/
def handled (table : PendingTable) (turn : Turn) : PendingTable :=
  match turn.wakeup with
  | .event task => (schedulerHandle table task turn.recordMs).1
  | _ => table

/-- What a turn pushes out of the table: the stable entries, or all of them where
the loop breaks. -/
def flushed (debounce_ms : Int) (table : PendingTable) (turn : Turn) : List SyncTask :=
  match turn.wakeup with
  | .interrupted => []
  | .timeout => (pendingFlushStableTasks table turn.flushMs debounce_ms).2
  | .event task =>
      if task.event_type = .exit then (pendingFlushAll table).2
      else (pendingFlushStableTasks (handled table turn) turn.flushMs debounce_ms).2
  | .selectFailed => (pendingFlushAll table).2
  | .pipeClosed => (pendingFlushAll table).2

/-- A DELETE or RENAME that names `path`.  An empty `old_rel_path` is not set. -/
def Cancels (task : SyncTask) (path : PathBuf) : Prop :=
  (task.event_type = .delete ∨ task.event_type = .rename) ∧
    (task.rel_path = path ∨ (task.old_rel_path.bytes ≠ [] ∧ task.old_rel_path = path))

/-- Turn `k` reads a task to debounce, and finds a slot for it. -/
def Records (debounce_ms : Int) (turns : List Turn) (k : Nat) (task : SyncTask) (ms : Int) : Prop :=
  ∃ u, turns[k]? = some u ∧ u.wakeup = .event task ∧ u.recordMs = ms ∧
    shouldDebounce task = true ∧
    pendingSlot (tableBefore debounce_ms turns k) task.rel_path ≠ none

/-- The task says something about `path`: it is to debounce for it, or cancels it. -/
def Concerns (task : SyncTask) (path : PathBuf) : Prop :=
  (shouldDebounce task = true ∧ task.rel_path = path) ∨ Cancels task path

/-- No task is read for `path` after turn `k` and before turn `j`. -/
def Quiet (turns : List Turn) (k j : Nat) (path : PathBuf) : Prop :=
  ∀ i u task, k < i → i < j → turns[i]? = some u → u.wakeup = .event task → ¬ Concerns task path

/-- In turn `j` the task is pushed that turn `k` has recorded, at time `ms`. -/
structure Flushes (debounce_ms : Int) (turns : List Turn) (k j : Nat) (task : SyncTask)
    (ms : Int) : Prop where
  pushed : ∃ turn, Reaches turns j turn ∧
    task ∈ flushed debounce_ms (tableBefore debounce_ms turns j) turn
  before : k ≤ j
  recorded : Records debounce_ms turns k task ms
  latest : Quiet turns k (j + 1) task.rel_path

/-- The paths that wait are distinct, and what is pushed was read last for its path,
long enough ago, and is pushed once.  The first two fields say that beside the
flushes no debounced task is pushed. -/
structure Debounced (debounce_ms : Int) (turns : List Turn) : Prop where
  goesOn : ∀ j (turn : Turn), turn.Continues → ∃ table' immediate,
    schedulerTurn debounce_ms (tableBefore debounce_ms turns j) turn =
      some (table', immediate ++ flushed debounce_ms (tableBefore debounce_ms turns j) turn) ∧
    ∀ t ∈ immediate, shouldDebounce t = false
  breaks : ∀ j (turn : Turn) rest, ¬ turn.Continues →
    schedulerThreadMain debounce_ms (tableBefore debounce_ms turns j) (turn :: rest) =
      flushed debounce_ms (tableBefore debounce_ms turns j) turn
  distinct : ∀ j, ((tableBefore debounce_ms turns j).entries.map fun e => e.task.rel_path).Nodup
  distinctHandled : ∀ j turn, ((handled (tableBefore debounce_ms turns j) turn).entries.map
    fun e => e.task.rel_path).Nodup
  latest : ∀ j turn task, Reaches turns j turn →
    task ∈ flushed debounce_ms (tableBefore debounce_ms turns j) turn →
    ∃ k ms, Flushes debounce_ms turns k j task ms ∧
      (turn.Continues → ms ≤ turn.flushMs - debounce_ms)
  once : ∀ j turn, Reaches turns j turn →
    ((flushed debounce_ms (tableBefore debounce_ms turns j) turn).map SyncTask.rel_path).Nodup
  never_again : ∀ k j j' task task' ms ms', Flushes debounce_ms turns k j task ms →
    Flushes debounce_ms turns k j' task' ms' → j = j'

variable {debounce_ms : Int} {table : PendingTable} {turn : Turn} {task : SyncTask}
  {turns rest : List Turn} {entry : PendingTask} {path : PathBuf} {ms : Int} {i j k : Nat}

/-! ## The table with distinct paths -/

/-- The paths that wait are distinct. -/
def Separate (table : PendingTable) : Prop :=
  Slots.Distinct (fun e : PendingTask => e.task.rel_path) table.slots

theorem separate_empty : Separate .empty := by
  unfold Separate Slots.Distinct
  rw [show Slots.entries PendingTable.empty.slots = [] from entries_empty]
  exact List.nodup_nil

theorem pendingSlot_holds (h : pendingSlot table path = some i) :
    Slots.Holds (fun e : PendingTask => e.task.rel_path) table.slots i path := by
  unfold pendingSlot at h
  split at h
  · rename_i idx hfind
    cases h
    exact Or.inl (pendingFind_eq_some hfind)
  · rename_i hfind
    exact Or.inr ⟨Slots.free?_eq_some h, Slots.find?_eq_none_iff_get?.mp hfind⟩

theorem Separate.remove (h : Separate table) (path : PathBuf) :
    Separate (pendingRemove table path) := by
  unfold pendingRemove
  split
  · exact Slots.Distinct.set_none h _
  · exact h

/-- Nothing waits for a removed path. -/
theorem Separate.mem_remove (h : Separate table)
    (hmem : entry ∈ (pendingRemove table path).entries) : entry.task.rel_path ≠ path := by
  unfold pendingRemove at hmem
  split at hmem
  · rename_i idx hfind
    exact Slots.Distinct.fresh h (Or.inl (pendingFind_eq_some hfind)) entry hmem
  · rename_i hfind
    intro hpath
    exact pendingFind_eq_none.mp hfind ⟨entry, hmem, hpath⟩

theorem Separate.update (h : Separate table) (task : SyncTask) (ms : Int) :
    Separate (pendingUpdateOrInsert table task ms) := by
  unfold pendingUpdateOrInsert
  split
  · rename_i idx hslot
    exact Slots.Distinct.set_of_holds h (pendingSlot_holds hslot)
  · exact h

/-- What waits after a task has been recorded is the task, or waits for another path. -/
theorem Separate.mem_update (h : Separate table)
    (hmem : entry ∈ (pendingUpdateOrInsert table task ms).entries) :
    (entry = ⟨task, ms⟩ ∧ pendingSlot table task.rel_path ≠ none) ∨
      entry.task.rel_path ≠ task.rel_path := by
  unfold pendingUpdateOrInsert at hmem
  split at hmem
  · rename_i idx hslot
    have hholds := pendingSlot_holds hslot
    have hperm := Slots.entries_set_perm (a := (⟨task, ms⟩ : PendingTask)) hholds.lt_length
    rcases List.mem_cons.mp (hperm.mem_iff.mp hmem) with heq | hother
    · exact Or.inl ⟨heq, by rw [hslot]; nofun⟩
    · exact Or.inr (Slots.Distinct.fresh h hholds entry hother)
  · rename_i hslot
    refine Or.inr fun hpath => ?_
    exact (pendingSlot_eq_none.mp hslot).1 ⟨entry, hmem, hpath⟩

theorem Separate.handle (h : Separate table) (task : SyncTask) (ms : Int) :
    Separate (schedulerHandle table task ms).1 := by
  unfold schedulerHandle
  split
  · dsimp only
    split
    · exact (h.remove task.rel_path).remove task.old_rel_path
    · exact h.remove task.rel_path
  · split
    · exact h.update task ms
    · exact h

/-- What waits after a task has been handled is the task, or waited before and is not
concerned. -/
theorem Separate.mem_handle (h : Separate table)
    (hmem : entry ∈ (schedulerHandle table task ms).1.entries) :
    (shouldDebounce task = true ∧ entry = ⟨task, ms⟩ ∧ pendingSlot table task.rel_path ≠ none) ∨
      (entry ∈ table.entries ∧ ¬ Concerns task entry.task.rel_path) := by
  rcases mem_of_mem_handle hmem with hnew | hbefore
  · exact Or.inl hnew
  unfold schedulerHandle at hmem
  split at hmem
  · rename_i hkind
    refine Or.inr ⟨hbefore, ?_⟩
    rintro (⟨hdeb, -⟩ | ⟨-, hnames⟩)
    · exact shouldDebounce_not_immediate hdeb hkind
    dsimp only at hmem
    split at hmem
    · have hold := (h.remove task.rel_path).mem_remove hmem
      have hrel := h.mem_remove (mem_entries_of_mem_remove hmem)
      rcases hnames with hpath | ⟨-, hpath⟩
      · exact hrel hpath.symm
      · exact hold hpath.symm
    · rename_i hunset
      have hrel := h.mem_remove hmem
      rcases hnames with hpath | ⟨hset, -⟩
      · exact hrel hpath.symm
      · exact hunset hset
  · rename_i hkind
    split at hmem
    · rename_i hdeb
      rcases h.mem_update hmem with ⟨heq, hslot⟩ | hpath
      · exact Or.inl ⟨hdeb, heq, hslot⟩
      · refine Or.inr ⟨hbefore, ?_⟩
        rintro (⟨-, hsame⟩ | hcancel)
        · exact hpath hsame.symm
        · exact hkind hcancel.1
    · rename_i hdeb
      refine Or.inr ⟨hbefore, ?_⟩
      rintro (⟨hdeb', -⟩ | hcancel)
      · exact hdeb hdeb'
      · exact hkind hcancel.1

theorem Separate.handled (h : Separate table) (turn : Turn) : Separate (handled table turn) := by
  unfold Scheduler.handled
  split
  · exact h.handle _ _
  · exact h

/-! ## What leaves the table -/

/-- The entry goes in this turn. -/
def leaves (debounce_ms : Int) (turn : Turn) (entry : PendingTask) : Bool :=
  match turn.wakeup with
  | .interrupted => false
  | .timeout => entry.stable turn.flushMs debounce_ms
  | .event task => task.event_type = .exit ∨ entry.stable turn.flushMs debounce_ms
  | .selectFailed => true
  | .pipeClosed => true

theorem handled_of_exit (hread : turn.wakeup = .event task) (hexit : task.event_type = .exit) :
    handled table turn = table := by
  unfold handled schedulerHandle
  simp [hread, hexit, shouldDebounce]

theorem flushed_eq (debounce_ms : Int) (table : PendingTable) (turn : Turn) :
    flushed debounce_ms table turn =
      ((handled table turn).entries.filter (leaves debounce_ms turn)).map PendingTask.task := by
  have hall : leaves debounce_ms turn = (fun _ => true) →
      ((table.entries.filter (leaves debounce_ms turn)).map PendingTask.task) =
        (pendingFlushAll table).2 := by
    intro hleaves
    rw [hleaves, List.filter_true]
    rfl
  cases hw : turn.wakeup with
  | interrupted => simp [flushed, handled, leaves, hw]
  | timeout =>
      have hleaves : leaves debounce_ms turn = PendingTask.stable turn.flushMs debounce_ms := by
        funext e
        simp [leaves, hw]
      simp [flushed, handled, hleaves, hw, pendingFlushStableTasks]
  | selectFailed =>
      simp only [flushed, handled, hw]
      exact (hall (by funext e; simp [leaves, hw])).symm
  | pipeClosed =>
      simp only [flushed, handled, hw]
      exact (hall (by funext e; simp [leaves, hw])).symm
  | event task =>
      by_cases hexit : task.event_type = .exit
      · rw [handled_of_exit hw hexit]
        simp only [flushed, hw, if_pos hexit]
        exact (hall (by funext e; simp [leaves, hw, hexit])).symm
      · have hleaves : leaves debounce_ms turn = PendingTask.stable turn.flushMs debounce_ms := by
          funext e
          simp [leaves, hw, hexit]
        simp [flushed, hleaves, hw, hexit, pendingFlushStableTasks]

theorem mem_flushed : task ∈ flushed debounce_ms table turn ↔
    ∃ e ∈ (handled table turn).entries, leaves debounce_ms turn e = true ∧ e.task = task := by
  rw [flushed_eq, List.mem_map]
  constructor
  · rintro ⟨e, he, rfl⟩
    rw [List.mem_filter] at he
    exact ⟨e, he.1, he.2, rfl⟩
  · rintro ⟨e, he, hleaves, rfl⟩
    exact ⟨e, List.mem_filter.mpr ⟨he, hleaves⟩, rfl⟩

theorem stable_of_leaves (hgo : turn.Continues) (h : leaves debounce_ms turn entry = true) :
    entry.last_update_ms ≤ turn.flushMs - debounce_ms := by
  have hstable : entry.stable turn.flushMs debounce_ms = true := by
    unfold leaves at h
    unfold Turn.Continues at hgo
    cases hw : turn.wakeup with
    | interrupted => simp [hw] at h
    | timeout => simpa [hw] using h
    | selectFailed => simp [hw] at hgo
    | pipeClosed => simp [hw] at hgo
    | event task =>
        simp only [hw] at h hgo
        exact (of_decide_eq_true h).resolve_left hgo
  have hge : turn.flushMs - entry.last_update_ms ≥ debounce_ms := of_decide_eq_true hstable
  omega

/-- A turn that goes on pushes what it does not debounce, and then flushes. -/
theorem schedulerTurn_flushed (hgo : turn.Continues) (debounce_ms : Int) (table : PendingTable) :
    ∃ table' immediate, schedulerTurn debounce_ms table turn =
        some (table', immediate ++ flushed debounce_ms table turn) ∧
      (∀ t ∈ immediate, shouldDebounce t = false) ∧
      table'.entries = (handled table turn).entries.filter fun e => !leaves debounce_ms turn e := by
  unfold Turn.Continues at hgo
  unfold schedulerTurn
  cases hw : turn.wakeup with
  | interrupted =>
      refine ⟨table, [], ?_, by simp, ?_⟩
      · simp [flushed, hw]
      · simp [handled, leaves, hw]
  | timeout =>
      refine ⟨(pendingFlushStableTasks table turn.flushMs debounce_ms).1, [], ?_, by simp, ?_⟩
      · simp [flushed, hw]
      · simp only [handled, leaves, hw]
        exact entries_flushStable _ _
  | selectFailed => simp [hw] at hgo
  | pipeClosed => simp [hw] at hgo
  | event task =>
      simp only [hw] at hgo
      refine ⟨(pendingFlushStableTasks (handled table turn) turn.flushMs debounce_ms).1,
        (schedulerHandle table task turn.recordMs).2, ?_, fun t ht => ?_, ?_⟩
      · simp [flushed, handled, hw, hgo]
      · unfold schedulerHandle at ht
        split at ht
        · rename_i hkind
          rw [List.mem_singleton.mp ht, Bool.eq_false_iff]
          exact fun hdeb => shouldDebounce_not_immediate hdeb hkind
        · split at ht
          · cases ht
          · rename_i hdeb
            rw [List.mem_singleton.mp ht, Bool.eq_false_iff]
            exact hdeb
      · rw [entries_flushStable]
        simp [leaves, hw, hgo, handled]

/-- The turn that breaks the loop pushes what is left. -/
theorem schedulerThreadMain_flushed (hbreak : ¬ turn.Continues) (debounce_ms : Int)
    (table : PendingTable) :
    schedulerThreadMain debounce_ms table (turn :: rest) = flushed debounce_ms table turn := by
  unfold Turn.Continues at hbreak
  unfold schedulerThreadMain schedulerTurn flushed
  cases hw : turn.wakeup with
  | interrupted => simp [hw] at hbreak
  | timeout => simp [hw] at hbreak
  | selectFailed => rfl
  | pipeClosed => rfl
  | event task =>
      simp only [hw, not_not] at hbreak
      simp [hbreak]

/-! ## From turn to turn -/

theorem separate_tableAfter (h : Separate table) (debounce_ms : Int) (turns : List Turn) :
    Separate (tableAfter debounce_ms table turns) := by
  induction turns generalizing table with
  | nil => exact h
  | cons turn rest ih =>
      unfold tableAfter
      split
      · exact h
      · rename_i table' pushed hturn
        apply ih
        rcases schedulerTurn_cases hturn with ⟨-, rfl, -⟩ | ⟨-, hflush⟩ |
          ⟨task, -, -, table₁, immediate, out, hhandle, hflush, -⟩
        · exact h
        · have htable : table' = _ := congrArg Prod.fst hflush
          rw [htable]
          exact Slots.Distinct.clear h _
        · have hsep := h.handle task turn.recordMs
          rw [hhandle] at hsep
          have htable : _ = table' := congrArg Prod.fst hflush
          rw [← htable]
          exact Slots.Distinct.clear hsep _

theorem separate_tableBefore (debounce_ms : Int) (turns : List Turn) (j : Nat) :
    Separate (tableBefore debounce_ms turns j) :=
  separate_tableAfter separate_empty debounce_ms _

theorem Reaches.take_succ (h : Reaches turns j turn) :
    turns.take (j + 1) = turns.take j ++ [turn] := by
  rw [List.take_add_one, h.1]
  rfl

/-- The turn before. -/
theorem Reaches.pred (h : Reaches turns (j + 1) turn) : ∃ u, Reaches turns j u ∧ u.Continues := by
  have hlt : j + 1 < turns.length := (List.getElem?_eq_some_iff.mp h.1).1
  have hget : turns[j]? = some turns[j] := List.getElem?_eq_getElem (by omega)
  have htake : turns.take (j + 1) = turns.take j ++ [turns[j]] := by
    rw [List.take_add_one, hget]
    rfl
  have hgo := h.2
  rw [htake] at hgo
  exact ⟨turns[j], ⟨hget, fun v hv => hgo v (List.mem_append_left _ hv)⟩,
    hgo _ (List.mem_append_right _ (List.mem_singleton.mpr rfl))⟩

/-- What waits at the next turn has not left in this one. -/
theorem tableBefore_succ (h : Reaches turns j turn) (hgo : turn.Continues) :
    (tableBefore debounce_ms turns (j + 1)).entries =
      (handled (tableBefore debounce_ms turns j) turn).entries.filter
        fun e => !leaves debounce_ms turn e := by
  obtain ⟨table', immediate, hturn, -, hentries⟩ :=
    schedulerTurn_flushed hgo debounce_ms (tableBefore debounce_ms turns j)
  have hnext : tableBefore debounce_ms turns (j + 1) = table' := by
    rw [tableBefore, h.take_succ, tableAfter_append h.2]
    exact tableAfter_cons hturn
  rw [hnext, hentries]

/-! ## Where an entry comes from -/

/-- Every entry has been recorded before turn `j`, and nothing has been read for its
path since. -/
def Traced (debounce_ms : Int) (turns : List Turn) (j : Nat) (table : PendingTable) : Prop :=
  ∀ e ∈ table.entries, ∃ k < j, Records debounce_ms turns k e.task e.last_update_ms ∧
    Quiet turns k j e.task.rel_path

theorem Quiet.succ (h : Quiet turns k j path)
    (hj : ∀ u task, turns[j]? = some u → u.wakeup = .event task → ¬ Concerns task path) :
    Quiet turns k (j + 1) path := by
  intro i u task hk hi hget hread
  by_cases hij : i = j
  · subst hij
    exact hj u task hget hread
  · exact h i u task hk (by omega) hget hread

theorem Traced.handled (h : Traced debounce_ms turns j (tableBefore debounce_ms turns j))
    (hget : turns[j]? = some turn) :
    Traced debounce_ms turns (j + 1) (handled (tableBefore debounce_ms turns j) turn) := by
  have hkept : ∀ e ∈ (tableBefore debounce_ms turns j).entries,
      (∀ task, turn.wakeup = .event task → ¬ Concerns task e.task.rel_path) →
      ∃ k < j + 1, Records debounce_ms turns k e.task e.last_update_ms ∧
        Quiet turns k (j + 1) e.task.rel_path := by
    intro e he hread
    obtain ⟨k, hk, hrec, hquiet⟩ := h e he
    refine ⟨k, by omega, hrec, hquiet.succ fun u task hu => ?_⟩
    cases hget.symm.trans hu
    exact hread task
  intro e he
  unfold Scheduler.handled at he
  split at he
  · rename_i task hread
    rcases (separate_tableBefore debounce_ms turns j).mem_handle he with
      ⟨hdeb, rfl, hslot⟩ | ⟨hmem, hnot⟩
    · refine ⟨j, by omega, ⟨turn, hget, hread, rfl, hdeb, hslot⟩, ?_⟩
      intro i u task' hj hi
      omega
    · refine hkept e hmem fun task' hread' => ?_
      cases hread.symm.trans hread'
      exact hnot
  · rename_i hnone
    exact hkept e he fun task hread => absurd hread (hnone task)

theorem traced_tableBefore (h : Reaches turns j turn) :
    Traced debounce_ms turns j (tableBefore debounce_ms turns j) := by
  -- induction on the turn; a flush only takes entries away
  induction j generalizing turn with
  | zero =>
      intro e he
      rw [tableBefore, List.take_zero] at he
      rw [show (tableAfter debounce_ms .empty []).entries = [] from entries_empty] at he
      cases he
  | succ j ih =>
      obtain ⟨u, hu, hgo⟩ := h.pred
      intro e he
      rw [tableBefore_succ hu hgo] at he
      exact (ih hu).handled hu.1 e (List.mem_filter.mp he).1

/-! ## Paths that do not wait -/

theorem not_waits_handled (h : ¬ table.Waits path)
    (hread : ∀ task, turn.wakeup = .event task → ¬ Concerns task path) :
    ¬ (handled table turn).Waits path := by
  rintro ⟨e, he, rfl⟩
  unfold handled at he
  split at he
  · rename_i task hwake
    rcases mem_of_mem_handle he with ⟨hdeb, rfl, -⟩ | hmem
    · exact hread task hwake (Or.inl ⟨hdeb, rfl⟩)
    · exact h ⟨e, hmem, rfl⟩
  · exact h ⟨e, he, rfl⟩

theorem not_waits_tableBefore_succ (h : Reaches turns j turn) (hgo : turn.Continues)
    (hnot : ¬ (handled (tableBefore debounce_ms turns j) turn).Waits path) :
    ¬ (tableBefore debounce_ms turns (j + 1)).Waits path := by
  rintro ⟨e, he, hpath⟩
  rw [tableBefore_succ h hgo] at he
  exact hnot ⟨e, (List.mem_filter.mp he).1, hpath⟩

/-- A path does not wait before something is read for it. -/
theorem not_waits_of_quiet (h : Reaches turns j turn) (hij : i ≤ j)
    (hnot : ¬ (tableBefore debounce_ms turns i).Waits path)
    (hquiet : ∀ l u task, i ≤ l → l ≤ j → turns[l]? = some u → u.wakeup = .event task →
      ¬ Concerns task path) :
    ¬ (handled (tableBefore debounce_ms turns j) turn).Waits path := by
  induction j, hij using Nat.le_induction generalizing turn with
  | base => exact not_waits_handled hnot fun task => hquiet i turn task (le_refl i) (le_refl i) h.1
  | succ j hij ih =>
      obtain ⟨u, hu, hgo⟩ := h.pred
      have hbefore := ih hu fun l v task hl hlj => hquiet l v task hl (by omega)
      exact not_waits_handled (not_waits_tableBefore_succ hu hgo hbefore)
        fun task => hquiet (j + 1) turn task (by omega) (le_refl _) h.1

/-- What leaves the table in a turn does not wait at the next. -/
theorem not_waits_of_flushed (h : Reaches turns j turn) (hgo : turn.Continues)
    (hmem : task ∈ flushed debounce_ms (tableBefore debounce_ms turns j) turn) :
    ¬ (tableBefore debounce_ms turns (j + 1)).Waits task.rel_path := by
  obtain ⟨e, he, hleaves, rfl⟩ := mem_flushed.mp hmem
  rintro ⟨e', he', hpath⟩
  rw [tableBefore_succ h hgo, List.mem_filter] at he'
  have hsep := (separate_tableBefore debounce_ms turns j).handled turn
  have hsame : e' = e := Slots.Distinct.eq_of_key hsep he'.1 he hpath
  rw [hsame, hleaves] at he'
  simp at he'

/-! ## Quiet, latest and once -/

theorem flushed_latest (h : Reaches turns j turn)
    (hmem : task ∈ flushed debounce_ms (tableBefore debounce_ms turns j) turn) :
    ∃ k ms, Flushes debounce_ms turns k j task ms ∧
      (turn.Continues → ms ≤ turn.flushMs - debounce_ms) := by
  obtain ⟨e, he, hleaves, rfl⟩ := mem_flushed.mp hmem
  obtain ⟨k, hk, hrec, hquiet⟩ := (traced_tableBefore h).handled h.1 e he
  exact ⟨k, e.last_update_ms, ⟨⟨turn, h, hmem⟩, by omega, hrec, hquiet⟩,
    fun hgo => stable_of_leaves hgo hleaves⟩

theorem Reaches.continues {j' : Nat} {turn' : Turn} (h : Reaches turns j turn)
    (h' : Reaches turns j' turn') (hlt : j < j') : turn.Continues := by
  refine h'.2 turn ?_
  rw [List.mem_take_iff_getElem]
  obtain ⟨hj, hget⟩ := List.getElem?_eq_some_iff.mp h.1
  exact ⟨j, by omega, hget⟩

theorem Flushes.not_later {task' : SyncTask} {j' : Nat} {ms' : Int}
    (h : Flushes debounce_ms turns k j task ms) (h' : Flushes debounce_ms turns k j' task' ms') :
    ¬ j < j' := by
  intro hlt
  obtain ⟨turn, hreach, hmem⟩ := h.pushed
  obtain ⟨turn', hreach', hmem'⟩ := h'.pushed
  obtain ⟨u, hu, hread, -⟩ := h.recorded
  obtain ⟨u', hu', hread', -⟩ := h'.recorded
  obtain rfl : task = task' := by
    cases hu.symm.trans hu'
    cases hread.symm.trans hread'
    rfl
  have hgone := not_waits_of_flushed hreach (hreach.continues hreach' hlt) hmem
  have hk := h.before
  have hnot := not_waits_of_quiet hreach' (by omega) hgone
    fun l v t hl hlj => h'.latest l v t (by omega) (by omega)
  obtain ⟨e, he, -, heq⟩ := mem_flushed.mp hmem'
  exact hnot ⟨e, he, congrArg SyncTask.rel_path heq⟩

/-- Debouncing waits for quiet, keeps the latest task, and pushes it once. -/
theorem debounce_quiet_latest_once (debounce_ms : Int) (turns : List Turn) :
    Debounced debounce_ms turns where
  goesOn j turn hgo := by
    obtain ⟨table', immediate, hturn, himm, -⟩ :=
      schedulerTurn_flushed hgo debounce_ms (tableBefore debounce_ms turns j)
    exact ⟨table', immediate, hturn, himm⟩
  breaks j turn rest hbreak := schedulerThreadMain_flushed hbreak debounce_ms _
  distinct j := separate_tableBefore debounce_ms turns j
  distinctHandled j turn := (separate_tableBefore debounce_ms turns j).handled turn
  latest j turn task h hmem := flushed_latest h hmem
  once j turn _ := by
    have hsep := (separate_tableBefore debounce_ms turns j).handled turn
    rw [flushed_eq, List.map_map]
    exact List.Nodup.sublist (List.filter_sublist.map _) hsep
  never_again k j j' task task' ms ms' h h' := by
    have hle := h.not_later h'
    have hge := h'.not_later h
    omega

/-! ## What a removal cancels -/

/-- What is pushed for a path after a DELETE or RENAME that names it was read after. -/
theorem pushed_after_removal {r : SyncTask} {u : Turn} (hget : turns[i]? = some u)
    (hread : u.wakeup = .event r) (hcancels : Cancels r path) (hij : i ≤ j)
    (hreach : Reaches turns j turn)
    (hmem : task ∈ flushed debounce_ms (tableBefore debounce_ms turns j) turn)
    (hpath : task.rel_path = path) :
    ∃ k ms, i < k ∧ Flushes debounce_ms turns k j task ms := by
  obtain ⟨k, ms, hflushes, -⟩ := flushed_latest hreach hmem
  refine ⟨k, ms, ?_, hflushes⟩
  by_contra hle
  rcases (Nat.not_lt.mp hle).lt_or_eq with hlt | heq
  · have hnot := hflushes.latest i u r hlt (by omega) hget hread
    exact hnot (Or.inr (hpath ▸ hcancels))
  · -- the turn that reads the removal records nothing
    obtain ⟨v, hv, hread', -, hdeb, -⟩ := hflushes.recorded
    rw [heq, hget] at hv
    cases hv
    cases hread.symm.trans hread'
    exact shouldDebounce_not_immediate hdeb hcancels.1

/-- A new directory below `d`. -/
def createBelowD : SyncTask :=
  { initSyncTask with event_type := .create, rel_path := ⟨ascii "d/x", by decide, by decide⟩,
                      is_dir := true }

def createD : SyncTask :=
  { createBelowD with rel_path := ⟨ascii "d", by decide, by decide⟩ }

def deleteD : SyncTask := { createD with event_type := .delete }

/-- `d/x` is pushed 1900 ms after `d` was deleted. -/
theorem removal_keeps_below :
    schedulerThreadMain defaultDebounceMs .empty
      [⟨.event createBelowD, 0, 0⟩, ⟨.event deleteD, 0, 100⟩, ⟨.timeout, 0, 2000⟩] =
    [deleteD, createBelowD] := by
  decide +kernel

/-- `d` is deleted and made again: the second CREATE is pushed. -/
def remadeTurns : List Turn :=
  [⟨.event createD, 0, 0⟩, ⟨.event deleteD, 0, 100⟩, ⟨.event createD, 200, 200⟩,
    ⟨.timeout, 0, 2000⟩]

theorem pushed_after_removal_remade :
    createD ∈ flushed defaultDebounceMs (tableBefore defaultDebounceMs remadeTurns 3)
        ⟨.timeout, 0, 2000⟩ ∧
      ∃ k ms, 1 < k ∧ Flushes defaultDebounceMs remadeTurns k 3 createD ms := by
  have hmem : createD ∈ flushed defaultDebounceMs (tableBefore defaultDebounceMs remadeTurns 3)
      ⟨.timeout, 0, 2000⟩ := by decide +kernel
  have hreach : Reaches remadeTurns 3 ⟨.timeout, 0, 2000⟩ := by
    refine ⟨rfl, ?_⟩
    simp [remadeTurns, Turn.Continues, createD, createBelowD, deleteD]
  exact ⟨hmem, pushed_after_removal (i := 1) (r := deleteD) rfl rfl
    ⟨Or.inl rfl, Or.inl rfl⟩ (by decide) hreach hmem rfl⟩

end MiniSync.Scheduler
