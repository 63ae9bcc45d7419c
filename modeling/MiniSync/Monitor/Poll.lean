import MiniSync.Monitor.Still

/-!
# The polling scan as a fold

On a source that does not change, the polling scan compares the snapshots with
one task for each path it visits, in order, and then sweeps out what it has not
seen.
-/

namespace MiniSync.Monitor

open Prog

/-- What `poll_scan_path` does with one task: the new table and what is emitted. -/
def pollStep (s : SnapshotTable × List SyncTask) (task : BuiltTask) :
    SnapshotTable × List SyncTask :=
  match snapshotFind s.1 task.rel_path with
  | none =>
      match snapshotAlloc s.1 with
      | none => s
      | some idx =>
          (snapshotUpdateFromTask s.1 idx task,
            s.2 ++ [{ task.toSyncTask with event_type := .create }])
  | some idx =>
      let table := markSeen s.1 idx
      if (table.slots[idx]?.join).any (·.differs task.toSyncTask) then
        (snapshotUpdateFromTask table idx task,
          s.2 ++ [{ task.toSyncTask with event_type := .modify }])
      else (table, s.2)

/-- The tasks that the polling scan builds below `dir`, in order. -/
def StillSource.pollTasks (src : StillSource) (root : Bytes) (depth : Nat) (dir : Bytes) :
    List BuiltTask :=
  (src.visited (src.pollEnters root) depth dir).filterMap (src.task .modify root)

/-- The entries not seen are emitted as deletions and their slots cleared. -/
def sweep (s : SnapshotTable × List SyncTask) : SnapshotTable × List SyncTask :=
  (⟨Slots.clear (fun entry => !entry.seen) s.1.slots, by
      rw [Slots.length_clear, s.1.length_eq]⟩,
    s.2 ++ (s.1.entries.filter fun entry => !entry.seen).map FileSnapshot.deleteTask)

variable {src : StillSource} {root dir : Bytes} {names : List Bytes} {task : BuiltTask}
  {table : SnapshotTable} {out : List SyncTask}

theorem returns_pollEntry :
    (pollEntry task table).Returns (still src)
      (fun table' out' => (table', out') = pollStep (table, out) task) out := by
  unfold pollEntry pollStep
  cases hfind : snapshotFind table task.rel_path with
  | none =>
      simp only
      cases halloc : snapshotAlloc table with
      | none => exact .ret rfl
      | some idx => exact returns_emitTask.mpr (.ret rfl)
  | some idx =>
      simp only
      split_ifs
      · exact returns_emitTask.mpr (.ret rfl)
      · exact .ret rfl

/-- Unfolding the list of visited paths once, where the depth is enough. -/
theorem StillSource.visited_eq {enters : Bytes → Bool} {depth : Nat}
    (hdepth : maxPathLen ≤ depth + dir.length) (hopen : src.opendir dir = some names) :
    src.visited enters depth dir = (entryPaths dir names).flatMap fun path =>
      path :: if enters path then src.visited enters (depth - 1) path else [] := by
  cases depth with
  | zero =>
      have hnone : entryPaths dir names = [] := by
        rw [List.eq_nil_iff_forall_not_mem]
        intro path hmem
        have := src.lt_of_mem hopen hmem
        omega
      rw [hnone, visited, List.flatMap_nil]
  | succ depth =>
      rw [visited, hopen]
      rfl

theorem StillSource.visited_of_none {enters : Bytes → Bool} {depth : Nat}
    (hopen : src.opendir dir = none) : src.visited enters depth dir = [] := by
  cases depth with
  | zero => rfl
  | succ depth => rw [visited, hopen]

/-- What `poll_scan_path` does with one entry. -/
def pollVisit (root : Bytes) (fuel : Nat) (path : Bytes) (table : SnapshotTable) :
    MonitorProg (List Bytes) SnapshotTable := do
  match ← buildTaskFromPath .modify root path with
  | none => return table
  | some task =>
      let table ← pollEntry task table
      if task.is_dir then pollScanPath root fuel path table
      else return table

/-- `poll_scan_path` folds `pollStep` over the tasks of the paths it visits. -/
theorem returns_pollScanPath {depth : Nat} (hdepth : maxPathLen ≤ depth + dir.length) :
    ∃ k, ∀ fuel, k ≤ fuel → ∀ table out,
      (pollScanPath root fuel dir table).Returns (still src)
        (fun table' out' =>
          (table', out') = (src.pollTasks root depth dir).foldl pollStep (table, out)) out := by
  induction depth using Nat.strongRecOn generalizing dir with
  | _ depth ih =>
  cases hopen : src.opendir dir with
  | none =>
      refine ⟨1, fun fuel hfuel table out => ?_⟩
      obtain ⟨fuel, rfl⟩ : ∃ k, fuel = k + 1 := ⟨fuel - 1, by omega⟩
      rw [pollScanPath]
      refine returns_opendir.mpr ?_
      rw [hopen, StillSource.pollTasks, src.visited_of_none hopen]
      exact .ret rfl
  | some names =>
      let below : Bytes → List BuiltTask := fun path =>
        (path :: if src.pollEnters root path then
          src.visited (src.pollEnters root) (depth - 1) path else []).filterMap
            (src.task .modify root)
      have hbody : ∀ path ∈ entryPaths dir names, ∃ k, ∀ fuel, k ≤ fuel → ∀ table out,
          (pollVisit root fuel path table).Returns (still src) (fun table' out' =>
            Prod.mk table' out' = (below path).foldl pollStep (table, out)) out := by
        intro path hmem
        obtain ⟨hlt, hmax⟩ := src.lt_of_mem hopen hmem
        obtain ⟨k, hk⟩ := @ih (depth - 1) (by omega) path (by omega)
        refine ⟨k, fun fuel hfuel table out => ?_⟩
        refine returns_buildTaskFromPath.bind ?_
        rintro built out' ⟨rfl, rfl⟩
        simp only [below, List.filterMap_cons]
        cases htask : src.task .modify root path with
        | none =>
            have henters : src.pollEnters root path = false := by
              rw [StillSource.pollEnters, htask]
              rfl
            rw [henters]
            exact .ret rfl
        | some task =>
            have henters : src.pollEnters root path = task.is_dir := by
              rw [StillSource.pollEnters, htask]
              rfl
            refine returns_pollEntry.bind ?_
            intro table' out'' hstep
            rw [henters, List.foldl_cons, ← hstep]
            split_ifs
            · exact hk fuel hfuel table' out''
            · exact .ret rfl
      obtain ⟨k, hk⟩ := returns_entries hbody
      refine ⟨k + 1, fun fuel hfuel table out => ?_⟩
      obtain ⟨fuel, rfl⟩ : ∃ k, fuel = k + 1 := ⟨fuel - 1, by omega⟩
      rw [pollScanPath]
      refine returns_opendir.mpr ?_
      rw [hopen, StillSource.pollTasks, src.visited_eq hdepth hopen, List.filterMap_flatMap]
      exact hk fuel (by omega) table out

/-! ## The sweep -/

/-- The sweep from slot `idx` on clears what is left of the table. -/
theorem returns_sweepUnseen {left idx : Nat} (hleft : idx + left = table.slots.length) :
    (sweepUnseen left idx table).Returns (still src) (fun table' out' =>
      table'.slots = table.slots.take idx ++
        Slots.clear (fun entry => !entry.seen) (table.slots.drop idx) ∧
      out' = out ++ ((Slots.entries (table.slots.drop idx)).filter fun entry =>
        !entry.seen).map FileSnapshot.deleteTask) out := by
  induction left generalizing idx table out with
  | zero =>
      refine .ret ?_
      rw [List.drop_of_length_le (by omega), List.take_of_length_le (by omega)]
      simp [Slots.clear, Slots.entries]
  | succ left ih =>
      have hlt : idx < table.slots.length := by omega
      rw [sweepUnseen, List.drop_eq_getElem_cons hlt, List.getElem?_eq_getElem hlt]
      cases hslot : table.slots[idx] with
      | none =>
          refine (ih (by omega)).post ?_
          rintro table' out' ⟨hslots, rfl⟩
          refine ⟨?_, by simp⟩
          rw [hslots, List.take_succ_eq_append_getElem hlt, hslot]
          simp [Slots.clear]
      | some entry =>
          simp only [Option.join_some]
          split_ifs with hseen
          · refine (ih (by omega)).post ?_
            rintro table' out' ⟨hslots, rfl⟩
            refine ⟨?_, by simp [hseen]⟩
            rw [hslots, List.take_succ_eq_append_getElem hlt, hslot]
            simp [Slots.clear, hseen]
          · refine returns_emitTask.mpr ?_
            have hlen : (table.set idx none).slots.length = table.slots.length :=
              List.length_set
            refine (ih (by omega)).post ?_
            rintro table' out' ⟨hslots, rfl⟩
            have hdrop : (table.set idx none).slots.drop (idx + 1) =
                table.slots.drop (idx + 1) := List.drop_set_of_lt (by omega)
            have htake : (table.set idx none).slots.take (idx + 1) =
                table.slots.take idx ++ [none] := by
              rw [List.take_succ_eq_append_getElem (by omega)]
              simp [SnapshotTable.set, List.take_set_of_le]
            rw [hdrop] at hslots ⊢
            refine ⟨?_, by simp [hseen]⟩
            rw [hslots, htake]
            simp [Slots.clear, hseen]

/-- The whole pass. -/
theorem returns_pollScanAndEmitChanges (src : StillSource) (root : Bytes) :
    ∃ k, ∀ fuel, k ≤ fuel → ∀ table out,
      (pollScanAndEmitChanges fuel root table).Returns (still src) (fun table' out' =>
        (table', out') = sweep ((src.pollTasks root maxPathLen root).foldl pollStep
          (snapshotMarkAllUnseen table, out))) out := by
  have hscan : ∃ k, ∀ fuel, k ≤ fuel → ∀ table out,
      (pollScanPath root fuel root table).Returns (still src) (fun table' out' =>
        (table', out') = (src.pollTasks root maxPathLen root).foldl pollStep (table, out)) out :=
    returns_pollScanPath (by omega)
  obtain ⟨k, hk⟩ := hscan
  refine ⟨k, fun fuel hfuel table out => ?_⟩
  unfold pollScanAndEmitChanges
  refine (hk fuel hfuel _ out).bind ?_
  intro table' out' hfold
  refine (returns_sweepUnseen (by rw [Nat.zero_add, table'.length_eq])).post ?_
  rintro table'' out'' ⟨hslots, rfl⟩
  rw [← hfold]
  obtain ⟨slots, hlength⟩ := table''
  simp only [List.take_zero, List.drop_zero, List.nil_append] at hslots
  subst hslots
  rfl

end MiniSync.Monitor
