import MiniSync.Lib.Slots
import MiniSync.Task

/-!
# The pending table

Debounced tasks wait in a fixed array of slots (`transfer.c`).  A slot with
`used == 0` is `none`; clearing a slot with `memset` makes it `none` again.
-/

namespace MiniSync

def maxPendingTasks : Nat := 4096

structure PendingTask where
  task : SyncTask
  last_update_ms : Int
  deriving DecidableEq

structure PendingTable where
  slots : List (Option PendingTask)
  length_eq : slots.length = maxPendingTasks

namespace PendingTable

/-- The zeroed table of a fresh `TransferContext`. -/
def empty : PendingTable := ⟨List.replicate maxPendingTasks none, List.length_replicate⟩

/-- The used entries. -/
abbrev entries (table : PendingTable) : List PendingTask := Slots.entries table.slots

/-- Write one slot. -/
def set (table : PendingTable) (idx : Nat) (slot : Option PendingTask) : PendingTable :=
  ⟨table.slots.set idx slot, by rw [List.length_set, table.length_eq]⟩

/-- Some used entry waits for `rel_path`. -/
def Waits (table : PendingTable) (rel_path : PathBuf) : Prop :=
  ∃ entry ∈ table.entries, entry.task.rel_path = rel_path

end PendingTable

def pendingFind (table : PendingTable) (rel_path : PathBuf) : Option Nat :=
  Slots.find? (fun entry => entry.task.rel_path = rel_path) table.slots

def pendingRemove (table : PendingTable) (rel_path : PathBuf) : PendingTable :=
  match pendingFind table rel_path with
  | some idx => table.set idx none
  | none => table

/-- The slot that `pending_update_or_insert` settles on: the one already waiting
for the path, else the first unused one. -/
def pendingSlot (table : PendingTable) (rel_path : PathBuf) : Option Nat :=
  match pendingFind table rel_path with
  | some idx => some idx
  | none => Slots.free? table.slots

def pendingUpdateOrInsert (table : PendingTable) (task : SyncTask) (currentTimeMs : Int) :
    PendingTable :=
  match pendingSlot table task.rel_path with
  | some idx => table.set idx (some ⟨task, currentTimeMs⟩)
  | none => table

/-- The entry has rested for the debounce time. -/
def PendingTask.stable (now debounce_ms : Int) (entry : PendingTask) : Bool :=
  decide (now - entry.last_update_ms ≥ debounce_ms)

/-- Push and clear the stable entries; the pushed tasks come in slot order. -/
def pendingFlushStableTasks (table : PendingTable) (now debounce_ms : Int) :
    PendingTable × List SyncTask :=
  (⟨Slots.clear (PendingTask.stable now debounce_ms) table.slots, by
      rw [Slots.length_clear, table.length_eq]⟩,
    (table.entries.filter (PendingTask.stable now debounce_ms)).map PendingTask.task)

def pendingFlushAll (table : PendingTable) : PendingTable × List SyncTask :=
  (PendingTable.empty, table.entries.map PendingTask.task)

/-! ## What each operation does to the used entries -/

variable {table : PendingTable} {entry : PendingTask} {path : PathBuf}

@[simp] theorem entries_empty : PendingTable.empty.entries = [] := by
  simp [PendingTable.empty, PendingTable.entries, Slots.entries, List.reduceOption]

theorem entries_flushStable (now debounce_ms : Int) :
    (pendingFlushStableTasks table now debounce_ms).1.entries =
      table.entries.filter (fun e => !PendingTask.stable now debounce_ms e) :=
  Slots.entries_clear _ _

theorem pendingFind_eq_none :
    pendingFind table path = none ↔ ¬ table.Waits path := by
  unfold pendingFind PendingTable.Waits
  rw [Slots.find?_eq_none]
  simp

theorem not_waits_empty (path : PathBuf) : ¬ PendingTable.empty.Waits path := by
  rintro ⟨e, he, -⟩
  rw [entries_empty] at he
  cases he

theorem pendingRemove_of_not_waits (h : ¬ table.Waits path) : pendingRemove table path = table := by
  unfold pendingRemove
  rw [pendingFind_eq_none.mpr h]

/-- Clearing leaves every slot of a fresh table as it is. -/
theorem flushStable_empty (now debounce_ms : Int) :
    pendingFlushStableTasks PendingTable.empty now debounce_ms = (PendingTable.empty, []) := by
  have hclear : Slots.clear (PendingTask.stable now debounce_ms) PendingTable.empty.slots =
      PendingTable.empty.slots := by
    unfold Slots.clear PendingTable.empty
    rw [List.map_replicate]
    rfl
  unfold pendingFlushStableTasks
  rw [entries_empty]
  simp only [hclear]
  rfl

theorem pendingFind_eq_some {idx : Nat} (h : pendingFind table path = some idx) :
    ∃ e, table.slots[idx]? = some (some e) ∧ e.task.rel_path = path := by
  obtain ⟨e, he, hp⟩ := Slots.find?_eq_some h
  exact ⟨e, he, by simpa using hp⟩

theorem mem_entries_of_mem_remove (h : entry ∈ (pendingRemove table path).entries) :
    entry ∈ table.entries := by
  unfold pendingRemove at h
  split at h
  · rcases Slots.mem_entries_of_mem_set h with hnone | hmem
    · cases hnone
    · exact hmem
  · exact h

theorem mem_remove_of_ne (h : entry ∈ table.entries) (hne : entry.task.rel_path ≠ path) :
    entry ∈ (pendingRemove table path).entries := by
  unfold pendingRemove
  split
  · rename_i idx hfind
    obtain ⟨e, he, hpath⟩ := pendingFind_eq_some hfind
    refine Slots.mem_entries_set_of_ne h ?_
    rw [he]
    rintro heq
    cases heq
    exact hne hpath
  · exact h

theorem mem_update_of_ne {task : SyncTask} {now : Int} (h : entry ∈ table.entries)
    (hne : entry.task.rel_path ≠ task.rel_path) :
    entry ∈ (pendingUpdateOrInsert table task now).entries := by
  unfold pendingUpdateOrInsert
  split
  · rename_i idx hslot
    refine Slots.mem_entries_set_of_ne h ?_
    unfold pendingSlot at hslot
    split at hslot
    · rename_i i hfind
      cases hslot
      obtain ⟨e, he, hpath⟩ := pendingFind_eq_some hfind
      rw [he]
      rintro heq
      cases heq
      exact hne hpath
    · rw [Slots.free?_eq_some hslot]
      simp
  · exact h

theorem mem_entries_of_mem_update {task : SyncTask} {now : Int}
    (h : entry ∈ (pendingUpdateOrInsert table task now).entries) :
    entry = ⟨task, now⟩ ∧ pendingSlot table task.rel_path ≠ none ∨ entry ∈ table.entries := by
  unfold pendingUpdateOrInsert at h
  split at h
  · rename_i idx hslot
    rcases Slots.mem_entries_of_mem_set h with heq | hmem
    · cases heq
      exact Or.inl ⟨rfl, by simp [hslot]⟩
    · exact Or.inr hmem
  · exact Or.inr h

/-- A task that finds a slot is in the table afterwards. -/
theorem mem_update_self {task : SyncTask} {now : Int}
    (h : pendingSlot table task.rel_path ≠ none) :
    (⟨task, now⟩ : PendingTask) ∈ (pendingUpdateOrInsert table task now).entries := by
  unfold pendingUpdateOrInsert
  split
  · rename_i idx hslot
    refine Slots.mem_entries_set_self ?_
    unfold pendingSlot at hslot
    split at hslot
    · rename_i i hfind
      cases hslot
      exact Slots.lt_length_of_find? hfind
    · exact Slots.lt_length_of_free? hslot
  · contradiction

/-- The table-full branch: the path is not waiting and no slot is free. -/
theorem pendingSlot_eq_none :
    pendingSlot table path = none ↔
      ¬ table.Waits path ∧ Slots.free? table.slots = none := by
  unfold pendingSlot
  rw [← pendingFind_eq_none]
  split
  · rename_i idx hfind
    simp [hfind]
  · rename_i hfind
    simp [hfind]

end MiniSync
