import Mathlib.Data.List.Perm.Subperm
import MiniSync.Monitor.SourcePaths

/-!
# The polling scan computes the difference

The snapshots as a finite map from relative paths, what one task and one pass of
the polling scan do to that map, and what they emit.
-/

namespace MiniSync.Monitor

namespace SnapshotTable

/-- The entry recorded for a path. -/
abbrev get (table : SnapshotTable) (rel_path : PathBuf) : Option FileSnapshot :=
  Slots.get? FileSnapshot.rel_path table.slots rel_path

/-- No two used entries record the same path. -/
def Distinct (table : SnapshotTable) : Prop :=
  Slots.Distinct FileSnapshot.rel_path table.slots

/-- Some used entry records the path. -/
def Records (table : SnapshotTable) (rel_path : PathBuf) : Prop :=
  ∃ entry ∈ table.entries, entry.rel_path = rel_path

theorem records_iff {table : SnapshotTable} {rel_path : PathBuf} :
    table.Records rel_path ↔ table.get rel_path ≠ none := by
  unfold Records
  rw [Ne, Slots.get?_eq_none]
  simp

end SnapshotTable

/-- The entry that a task leaves where `old` was recorded. -/
def polled (old : Option FileSnapshot) (task : BuiltTask) : FileSnapshot :=
  match old with
  | none => task.snapshot
  | some entry => if entry.differs task.toSyncTask then task.snapshot else { entry with seen := true }

/-- What the polling scan emits for a task where `old` was recorded. -/
def pollEmits (old : Option FileSnapshot) (task : BuiltTask) : Option SyncTask :=
  match old with
  | none => some { task.toSyncTask with event_type := .create }
  | some entry =>
      if entry.differs task.toSyncTask then
        some { task.toSyncTask with event_type := .modify }
      else none

variable {table : SnapshotTable} {task : BuiltTask} {out : List SyncTask} {rel : PathBuf}

theorem polled_seen (old : Option FileSnapshot) (task : BuiltTask) :
    (polled old task).seen = true := by
  unfold polled
  cases old with
  | none => rfl
  | some entry =>
      simp only
      split_ifs <;> rfl

theorem markSeen_eq {idx : Nat} {entry : FileSnapshot}
    (h : table.slots[idx]? = some (some entry)) :
    markSeen table idx = table.set idx (some { entry with seen := true }) := by
  unfold markSeen SnapshotTable.set
  obtain ⟨hlt, hslot⟩ := List.getElem?_eq_some_iff.mp h
  simp only [SnapshotTable.mk.injEq]
  rw [List.modify_eq_set_get _ hlt]
  simp [hslot]

/-- A table that may hold the path of the task: it is recorded, or a slot is free. -/
theorem pollStep_spec (out : List SyncTask) (hd : table.Distinct) (hslot : snapshotSlot table task.rel_path ≠ none) :
    ∃ table', pollStep (table, out) task =
        (table', out ++ (pollEmits (table.get task.rel_path) task).toList) ∧
      table'.Distinct ∧
      ∀ rel, table'.get rel =
        if rel = task.rel_path then some (polled (table.get task.rel_path) task)
        else table.get rel := by
  -- Writing `entry` where the path is, or may be, recorded.
  have hset : ∀ idx (entry : FileSnapshot), entry.rel_path = task.rel_path →
      Slots.Holds FileSnapshot.rel_path table.slots idx task.rel_path →
      (table.set idx (some entry)).Distinct ∧ ∀ rel, (table.set idx (some entry)).get rel =
        if rel = task.rel_path then some entry else table.get rel := by
    intro idx entry hrel hholds
    rw [← hrel] at hholds ⊢
    exact ⟨hd.set_of_holds hholds, fun rel => hd.get?_set hholds⟩
  unfold snapshotSlot at hslot
  unfold pollStep
  cases hfind : snapshotFind table task.rel_path with
  | none =>
      have hget : table.get task.rel_path = none := Slots.find?_eq_none_iff_get?.mp hfind
      rw [hfind] at hslot
      cases halloc : snapshotAlloc table with
      | none => exact absurd halloc hslot
      | some idx =>
          have hfree := Slots.free?_eq_some halloc
          simp only [hget]
          exact ⟨_, rfl, hset idx task.snapshot rfl (Or.inr ⟨hfree, hget⟩)⟩
  | some idx =>
      obtain ⟨entry, hentry, hget⟩ := hd.get?_of_find? hfind
      have hrel : entry.rel_path = task.rel_path := (Slots.mem_of_get? hget).2
      have hholds : Slots.Holds FileSnapshot.rel_path table.slots idx task.rel_path :=
        Or.inl ⟨entry, hentry, hrel⟩
      have hlt : idx < table.slots.length := (List.getElem?_eq_some_iff.mp hentry).1
      have hdiffers : ((table.set idx (some { entry with seen := true })).slots[idx]?.join).any
          (·.differs task.toSyncTask) = entry.differs task.toSyncTask := by
        simp only [SnapshotTable.set, List.getElem?_set_self hlt]
        rfl
      simp only [markSeen_eq hentry, hdiffers]
      have hgetfull : table.get task.rel_path = some entry := hget
      rw [hgetfull]
      unfold polled pollEmits
      simp only
      split_ifs with hdiff
      · refine ⟨_, rfl, ?_⟩
        have hover : snapshotUpdateFromTask (table.set idx (some { entry with seen := true }))
            idx task = table.set idx (some task.snapshot) := by
          simp only [snapshotUpdateFromTask, SnapshotTable.set, List.set_set]
        rw [hover]
        exact hset idx task.snapshot rfl hholds
      · refine ⟨table.set idx (some { entry with seen := true }), by simp, ?_⟩
        exact hset idx { entry with seen := true } hrel hholds

/-! ## Room for all paths -/

/-- All paths that are recorded are among `all`, and so many fit. -/
structure Room (all : List PathBuf) (table : SnapshotTable) : Prop where
  length_le : all.length ≤ maxSnapshots
  covers : ∀ rel, table.get rel ≠ none → rel ∈ all

theorem Room.slot {all : List PathBuf} (h : Room all table) (hd : table.Distinct)
    (hmem : rel ∈ all) : snapshotSlot table rel ≠ none := by
  unfold snapshotSlot
  cases hfind : snapshotFind table rel with
  | some idx => simp
  | none =>
      simp only
      intro hfull
      have hlen : table.entries.length = maxSnapshots := by
        rw [← table.length_eq]
        exact Slots.free?_eq_none hfull
      have hnodup : (rel :: table.entries.map FileSnapshot.rel_path).Nodup := by
        refine List.nodup_cons.mpr ⟨fun hrel => ?_, hd⟩
        obtain ⟨entry, hentry, hpath⟩ := List.mem_map.mp hrel
        have hnone : table.get rel = none := Slots.find?_eq_none_iff_get?.mp hfind
        exact Slots.get?_eq_none.mp hnone entry hentry hpath
      have hsub : rel :: table.entries.map FileSnapshot.rel_path ⊆ all := by
        refine List.cons_subset.mpr ⟨hmem, fun p hp => ?_⟩
        obtain ⟨entry, hentry, rfl⟩ := List.mem_map.mp hp
        exact h.covers _ (SnapshotTable.records_iff.mp ⟨entry, hentry, rfl⟩)
      have hle := (hnodup.subperm hsub).length_le
      rw [List.length_cons, List.length_map] at hle
      have := h.length_le
      omega

/-! ## A whole pass -/

/-- The table after the tasks: each path they name is as `polled` says, every
other path as before; what is emitted depends on the first table alone. -/
theorem foldl_pollStep {all : List PathBuf} {tasks : List BuiltTask} (out : List SyncTask)
    (hd : table.Distinct)
    (hroom : Room all table) (hall : ∀ task ∈ tasks, task.rel_path ∈ all)
    (hnodup : (tasks.map fun task => task.rel_path).Nodup) :
    ∃ table', tasks.foldl pollStep (table, out) =
        (table', out ++ tasks.filterMap fun task => pollEmits (table.get task.rel_path) task) ∧
      table'.Distinct ∧
      (∀ task ∈ tasks, table'.get task.rel_path =
        some (polled (table.get task.rel_path) task)) ∧
      ∀ rel, (∀ task ∈ tasks, task.rel_path ≠ rel) → table'.get rel = table.get rel := by
  induction tasks generalizing table out with
  | nil => exact ⟨table, by simp, hd, by simp, fun rel _ => rfl⟩
  | cons task tasks ih =>
      rw [List.map_cons, List.nodup_cons] at hnodup
      have hmem := hall task List.mem_cons_self
      obtain ⟨table₁, hstep, hd₁, hget₁⟩ := pollStep_spec out hd (hroom.slot hd hmem)
      have hroom₁ : Room all table₁ := by
        refine ⟨hroom.length_le, fun rel hrel => ?_⟩
        rw [hget₁] at hrel
        by_cases heq : rel = task.rel_path
        · exact heq ▸ hmem
        · rw [if_neg heq] at hrel
          exact hroom.covers rel hrel
      obtain ⟨table', hfold, hd', htasks, hother⟩ := ih (out ++ (pollEmits
        (table.get task.rel_path) task).toList) hd₁ hroom₁
        (fun t ht => hall t (List.mem_cons_of_mem _ ht)) hnodup.2
      -- The other tasks name other paths, which this one has not touched.
      have hkeep : ∀ t ∈ tasks, table₁.get t.rel_path = table.get t.rel_path := by
        intro t ht
        have hne : t.rel_path ≠ task.rel_path := by
          intro heq
          exact hnodup.1 (heq ▸ List.mem_map_of_mem ht)
        rw [hget₁, if_neg hne]
      refine ⟨table', ?_, hd', ?_, ?_⟩
      · rw [List.foldl_cons, hstep, hfold, List.append_assoc]
        have hmap : tasks.filterMap (fun t => pollEmits (table₁.get t.rel_path) t) =
            tasks.filterMap fun t => pollEmits (table.get t.rel_path) t :=
          List.filterMap_congr fun t ht => by rw [hkeep t ht]
        rw [hmap]
        cases hemit : pollEmits (table.get task.rel_path) task with
        | none => simp [hemit]
        | some emitted => simp [hemit]
      · intro t ht
        rcases List.mem_cons.mp ht with rfl | ht
        · have hfirst : ∀ t' ∈ tasks, t'.rel_path ≠ t.rel_path := by
            intro t' ht' heq
            exact hnodup.1 (List.mem_map.mpr ⟨t', ht', heq⟩)
          rw [hother _ hfirst, hget₁, if_pos rfl]
        · rw [htasks t ht, hkeep t ht]
      · intro rel hrel
        rw [hother rel (fun t ht => hrel t (List.mem_cons_of_mem _ ht)), hget₁,
          if_neg (hrel task List.mem_cons_self).symm]

theorem get_markAllUnseen :
    (snapshotMarkAllUnseen table).get rel =
      (table.get rel).map fun entry => { entry with seen := false } := by
  unfold SnapshotTable.get Slots.get? snapshotMarkAllUnseen Slots.entries
  have hmap : ∀ slots : List (Option FileSnapshot),
      (slots.map (Option.map fun entry => { entry with seen := false })).reduceOption =
        slots.reduceOption.map fun entry : FileSnapshot => { entry with seen := false } := by
    intro slots
    rw [List.reduceOption_map]
  rw [hmap, List.find?_map]
  rfl

theorem entries_markAllUnseen :
    (snapshotMarkAllUnseen table).entries =
      table.entries.map fun entry => { entry with seen := false } := by
  unfold SnapshotTable.entries Slots.entries snapshotMarkAllUnseen
  rw [List.reduceOption_map]

theorem distinct_markAllUnseen (hd : table.Distinct) : (snapshotMarkAllUnseen table).Distinct := by
  have hentries : Slots.entries (snapshotMarkAllUnseen table).slots =
      (Slots.entries table.slots).map fun entry => { entry with seen := false } :=
    entries_markAllUnseen
  unfold SnapshotTable.Distinct Slots.Distinct at hd ⊢
  rw [hentries, List.map_map]
  exact hd

theorem distinct_sweep (hd : table.Distinct) : (sweep (table, out)).1.Distinct :=
  hd.clear _

theorem get_sweep (hd : table.Distinct) {entry : FileSnapshot} :
    (sweep (table, out)).1.get rel = some entry ↔
      table.get rel = some entry ∧ entry.seen = true := by
  rw [(distinct_sweep hd).get?_eq_some, hd.get?_eq_some]
  unfold sweep
  rw [Slots.entries_clear, List.mem_filter]
  simp only [Bool.not_not]
  exact ⟨fun ⟨⟨ha, hs⟩, hk⟩ => ⟨⟨ha, hk⟩, hs⟩, fun ⟨⟨ha, hk⟩, hs⟩ => ⟨⟨ha, hs⟩, hk⟩⟩

end MiniSync.Monitor
