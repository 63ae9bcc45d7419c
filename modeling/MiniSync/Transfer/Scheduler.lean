import MiniSync.Transfer.Pending

/-!
# The scheduler loop

One turn of `scheduler_thread_main` waits in `select` for at most 100 ms, handles
what it finds, and flushes the stable entries.  A turn records how it woke up and
the clock readings it takes; the tasks it pushes to the queue are its output.
-/

namespace MiniSync

/-- How `select` and the read after it come back. -/
inductive Wakeup
  /-- `select` fails with `EINTR`. -/
  | interrupted
  /-- `select` fails with any other error. -/
  | selectFailed
  /-- No event within the timeout. -/
  | timeout
  /-- `read_full` reports a closed pipe or a partial record. -/
  | pipeClosed
  | event (task : SyncTask)

/-- One turn of the loop.  `recordMs` is the clock read by
`pending_update_or_insert`, `flushMs` the one read by `pending_flush_stable_tasks`. -/
structure Turn where
  wakeup : Wakeup
  recordMs : Int
  flushMs : Int

def shouldDebounce (task : SyncTask) : Bool :=
  task.event_type = .modify || task.event_type = .create || task.event_type = .fullscan

/-- The branch taken for a task that is not EXIT. -/
def schedulerHandle (table : PendingTable) (task : SyncTask) (recordMs : Int) :
    PendingTable × List SyncTask :=
  if task.event_type = .delete ∨ task.event_type = .rename then
    let table := pendingRemove table task.rel_path
    let table := if task.old_rel_path.bytes ≠ [] then pendingRemove table task.old_rel_path
      else table
    (table, [task])
  else if shouldDebounce task then
    (pendingUpdateOrInsert table task recordMs, [])
  else
    (table, [task])

/-- One turn: the new table and the tasks pushed, or `none` where the loop breaks. -/
def schedulerTurn (debounce_ms : Int) (table : PendingTable) (turn : Turn) :
    Option (PendingTable × List SyncTask) :=
  match turn.wakeup with
  | .interrupted => some (table, [])
  | .selectFailed => none
  | .pipeClosed => none
  | .timeout => some (pendingFlushStableTasks table turn.flushMs debounce_ms)
  | .event task =>
      if task.event_type = .exit then none
      else
        let handled := schedulerHandle table task turn.recordMs
        let flushed := pendingFlushStableTasks handled.1 turn.flushMs debounce_ms
        some (flushed.1, handled.2 ++ flushed.2)

/-- Everything `scheduler_thread_main` pushes until it returns. -/
def schedulerThreadMain (debounce_ms : Int) (table : PendingTable) : List Turn → List SyncTask
  | [] => []
  | turn :: rest =>
      match schedulerTurn debounce_ms table turn with
      | none => (pendingFlushAll table).2
      | some (table', pushed) => pushed ++ schedulerThreadMain debounce_ms table' rest

/-- The pending table when the loop reaches the turn after the given ones. -/
def tableAfter (debounce_ms : Int) (table : PendingTable) : List Turn → PendingTable
  | [] => table
  | turn :: rest =>
      match schedulerTurn debounce_ms table turn with
      | none => table
      | some (table', _) => tableAfter debounce_ms table' rest

/-- The loop goes on after this turn. -/
def Turn.Continues (turn : Turn) : Prop :=
  match turn.wakeup with
  | .interrupted => True
  | .timeout => True
  | .event task => task.event_type ≠ .exit
  | .selectFailed => False
  | .pipeClosed => False

/-- Turns that all go on, followed by one that reads EXIT. -/
inductive Exits : List Turn → Prop
  | exit {turn : Turn} {task : SyncTask} (read : turn.wakeup = .event task)
      (isExit : task.event_type = .exit) : Exits [turn]
  | turn {turn : Turn} {rest : List Turn} (goesOn : turn.Continues) (later : Exits rest) :
      Exits (turn :: rest)

/-- A run of the scheduler that ends by reading EXIT. -/
structure ExitedRun where
  turns : List Turn
  exits : Exits turns

/-! ## One turn -/

variable {debounce_ms : Int} {table table' : PendingTable} {turn : Turn} {task : SyncTask}
  {pushed : List SyncTask} {entry : PendingTask}

theorem Turn.Continues.schedulerTurn_eq (h : turn.Continues) (debounce_ms : Int)
    (table : PendingTable) :
    ∃ table' pushed, schedulerTurn debounce_ms table turn = some (table', pushed) := by
  unfold Turn.Continues at h
  unfold schedulerTurn
  cases hw : turn.wakeup with
  | interrupted => exact ⟨table, [], rfl⟩
  | timeout => exact ⟨_, _, rfl⟩
  | event task =>
      simp only [hw] at h
      simp only [if_neg h]
      exact ⟨_, _, rfl⟩
  | selectFailed => simp [hw] at h
  | pipeClosed => simp [hw] at h

/-- What a turn that goes on does: nothing, or a flush after the handling of at
most one task. -/
theorem schedulerTurn_cases (h : schedulerTurn debounce_ms table turn = some (table', pushed)) :
    (turn.wakeup = .interrupted ∧ table' = table ∧ pushed = []) ∨
    (turn.wakeup = .timeout ∧
      (table', pushed) = pendingFlushStableTasks table turn.flushMs debounce_ms) ∨
    ∃ task, turn.wakeup = .event task ∧ task.event_type ≠ .exit ∧
      ∃ handled immediate flushed,
        schedulerHandle table task turn.recordMs = (handled, immediate) ∧
        pendingFlushStableTasks handled turn.flushMs debounce_ms = (table', flushed) ∧
        pushed = immediate ++ flushed := by
  unfold schedulerTurn at h
  cases hw : turn.wakeup with
  | interrupted =>
      simp only [hw, Option.some.injEq, Prod.mk.injEq] at h
      exact Or.inl ⟨rfl, h.1.symm, h.2.symm⟩
  | timeout =>
      simp only [hw, Option.some.injEq] at h
      exact Or.inr (Or.inl ⟨rfl, h.symm⟩)
  | event task =>
      simp only [hw] at h
      split at h
      · cases h
      · rename_i hne
        simp only [Option.some.injEq, Prod.mk.injEq] at h
        exact Or.inr (Or.inr ⟨task, rfl, hne, _, _, _, rfl,
          Prod.ext h.1 rfl, h.2.symm⟩)
  | selectFailed => simp [hw] at h
  | pipeClosed => simp [hw] at h

theorem shouldDebounce_not_immediate (h : shouldDebounce task = true) :
    ¬ (task.event_type = .delete ∨ task.event_type = .rename) := by
  unfold shouldDebounce at h
  rintro (hdel | hren)
  · simp [hdel] at h
  · simp [hren] at h

theorem shouldDebounce_not_exit (h : shouldDebounce task = true) : task.event_type ≠ .exit := by
  intro hexit
  simp [shouldDebounce, hexit] at h

theorem schedulerHandle_immediate (table : PendingTable)
    (h : task.event_type = .delete ∨ task.event_type = .rename) (ms : Int) :
    (schedulerHandle table task ms).2 = [task] := by
  simp [schedulerHandle, h]

theorem schedulerHandle_debounced (h : shouldDebounce task = true) (ms : Int) :
    schedulerHandle table task ms = (pendingUpdateOrInsert table task ms, []) := by
  unfold schedulerHandle
  rw [if_neg (shouldDebounce_not_immediate h), if_pos h]

/-- A flush either pushes an entry or leaves it waiting. -/
theorem flush_pushes_or_keeps (h : entry ∈ table.entries) (now debounce_ms : Int) :
    entry.task ∈ (pendingFlushStableTasks table now debounce_ms).2 ∨
      entry ∈ (pendingFlushStableTasks table now debounce_ms).1.entries := by
  by_cases hstable : entry.stable now debounce_ms = true
  · left
    exact List.mem_map_of_mem (List.mem_filter.mpr ⟨h, hstable⟩)
  · right
    rw [entries_flushStable]
    exact List.mem_filter.mpr ⟨h, by simpa using hstable⟩

/-- An entry outlives the handling of a task, unless the task is debounced for
the same path or removes that path. -/
theorem mem_handle_of_unrelated (h : entry ∈ table.entries) (task : SyncTask) (ms : Int)
    (hdeb : ¬ (shouldDebounce task = true ∧ task.rel_path = entry.task.rel_path))
    (hrem : ¬ task.removes entry.task.rel_path) :
    entry ∈ (schedulerHandle table task ms).1.entries := by
  unfold schedulerHandle
  split
  · rename_i himm
    have hrel : entry.task.rel_path ≠ task.rel_path := fun heq =>
      hrem ⟨himm, Or.inl heq.symm⟩
    have hold : entry.task.rel_path ≠ task.old_rel_path := fun heq =>
      hrem ⟨himm, Or.inr heq.symm⟩
    have hkept := mem_remove_of_ne h hrel
    dsimp only
    split
    · exact mem_remove_of_ne hkept hold
    · exact hkept
  · split
    · rename_i hd
      exact mem_update_of_ne h (fun heq => hdeb ⟨hd, heq.symm⟩)
    · exact h

/-- An entry that is new after handling a task is that task, recorded in a slot. -/
theorem mem_of_mem_handle {ms : Int} (h : entry ∈ (schedulerHandle table task ms).1.entries) :
    (shouldDebounce task = true ∧ entry = ⟨task, ms⟩ ∧ pendingSlot table task.rel_path ≠ none) ∨
      entry ∈ table.entries := by
  unfold schedulerHandle at h
  split at h
  · right
    dsimp only at h
    split at h
    · exact mem_entries_of_mem_remove (mem_entries_of_mem_remove h)
    · exact mem_entries_of_mem_remove h
  · split at h
    · rename_i hd
      rcases mem_entries_of_mem_update h with ⟨heq, hslot⟩ | hmem
      · exact Or.inl ⟨hd, heq, hslot⟩
      · exact Or.inr hmem
    · exact Or.inr h

/-! ## A turn with nothing waiting -/

theorem schedulerTurn_immediate_empty (h : task.event_type = .delete ∨ task.event_type = .rename)
    (recordMs flushMs debounce_ms : Int) :
    schedulerTurn debounce_ms .empty ⟨.event task, recordMs, flushMs⟩ =
      some (PendingTable.empty, [task]) := by
  have hexit : task.event_type ≠ .exit := by
    rintro heq
    rcases h with h | h <;> rw [heq] at h <;> cases h
  have hhandle : schedulerHandle .empty task recordMs = (PendingTable.empty, [task]) := by
    unfold schedulerHandle
    rw [if_pos h]
    simp only [pendingRemove_of_not_waits (not_waits_empty _), ite_self]
  unfold schedulerTurn
  simp only [if_neg hexit, hhandle, flushStable_empty, List.append_nil]

/-- A debounced task that is stable at once. -/
theorem schedulerTurn_debounced_empty (h : shouldDebounce task = true)
    {recordMs flushMs : Int} (hstable : flushMs - recordMs ≥ debounce_ms) :
    schedulerTurn debounce_ms .empty ⟨.event task, recordMs, flushMs⟩ =
      some (PendingTable.empty, [task]) := by
  obtain ⟨m, hm⟩ : ∃ m, maxPendingTasks = m + 1 := ⟨4095, rfl⟩
  have hslot : pendingSlot .empty task.rel_path = some 0 := by
    unfold pendingSlot
    rw [pendingFind_eq_none.mpr (not_waits_empty _)]
    simp [PendingTable.empty, Slots.free?, hm, List.replicate_succ, List.findIdx?_cons]
  have hslots : (pendingUpdateOrInsert .empty task recordMs).slots =
      some ⟨task, recordMs⟩ :: List.replicate m none := by
    unfold pendingUpdateOrInsert
    rw [hslot]
    simp [PendingTable.set, PendingTable.empty, hm, List.replicate_succ]
  have hentry : PendingTask.stable flushMs debounce_ms ⟨task, recordMs⟩ = true := by
    simpa [PendingTask.stable] using hstable
  have hflush : pendingFlushStableTasks (pendingUpdateOrInsert .empty task recordMs) flushMs
      debounce_ms = (PendingTable.empty, [task]) := by
    unfold pendingFlushStableTasks PendingTable.entries
    simp only [hslots]
    refine Prod.ext ?_ ?_
    · simp [Slots.clear, hentry, PendingTable.empty, hm, List.replicate_succ]
    · simp [Slots.entries, hentry, List.reduceOption]
  unfold schedulerTurn
  simp only [if_neg (shouldDebounce_not_exit h), schedulerHandle_debounced h, hflush,
    List.nil_append]

end MiniSync
