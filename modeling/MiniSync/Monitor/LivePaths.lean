import MiniSync.Monitor.PollExact

/-!
# When the polling scan reports a live path as deleted

Any table, and a source whose directories need not open: an entry is deleted
exactly if the scan does not reach its path, or an earlier slot records it too.
-/

namespace MiniSync.Monitor

open Prog

namespace StillSource

variable (src : StillSource)

/-- The path exists, by whatever way the kernel finds it. -/
def Has (root : Bytes) (rel : PathBuf) : Prop :=
  (src.lstat (joinBase root ++ slash :: rel.bytes)).isSome

/-- The polling scan comes by this path: all directories on the way open and list
it, and no path on the way is too long or refused. -/
def Reaches (root : Bytes) (rel : PathBuf) : Prop :=
  src.Visits (src.pollEnters root) root (joinBase root ++ slash :: rel.bytes) ∧
    (getRelativePath root (joinBase root ++ slash :: rel.bytes)).isSome

end StillSource

variable {src : StillSource} {root : Bytes} {table table₀ : SnapshotTable} {task : BuiltTask}
  {out : List SyncTask} {rel : PathBuf}

theorem reaches_iff :
    src.Reaches root rel ↔ ∃ task ∈ passTasks src root, task.rel_path = rel := by
  constructor
  · rintro ⟨hvisits, haccepted⟩
    have hfits : (joinBase root ++ slash :: rel.bytes).length < maxPathLen := by
      cases hvisits with
      | top hopen hmem => exact (src.lt_of_mem hopen hmem).2
      | under _ _ hopen hmem => exact (src.lt_of_mem hopen hmem).2
    obtain ⟨task, htask⟩ := Option.isSome_iff_exists.mp
      (StillSource.task_isSome hfits haccepted : (src.task .modify root _).isSome)
    obtain ⟨name, hbelow⟩ := hvisits.lies_below
    refine ⟨task, List.mem_filterMap.mpr ⟨_, (src.mem_visited (by omega)).mpr hvisits, htask⟩, ?_⟩
    have hpath := (src.task_eq_some hbelow htask).1
    rw [List.append_cancel_left_eq, List.cons.injEq] at hpath
    exact PathBuf.eq_of_bytes_eq hpath.2.symm
  · rintro ⟨task, hmem, rfl⟩
    obtain ⟨path, hpath, htask⟩ := List.mem_filterMap.mp hmem
    have hvisits := (src.mem_visited (by omega)).mp hpath
    obtain ⟨name, hbelow⟩ := hvisits.lies_below
    have haccepted : (getRelativePath root path).isSome := by
      by_contra hnone
      rw [Option.not_isSome_iff_eq_none] at hnone
      unfold StillSource.task at htask
      rw [hnone] at htask
      cases hbuf : PathBuf.ofBytes? path <;> simp [hbuf] at htask
    obtain ⟨rfl, -, -⟩ := src.task_eq_some hbelow htask
    exact ⟨hvisits, haccepted⟩

/-! ## One task -/

/-- A task leaves the table alone where it finds no slot; otherwise it writes one
slot, the one that is found or a free one.  It emits no deletion. -/
theorem pollStep_cases (table : SnapshotTable) (out : List SyncTask) (task : BuiltTask) :
    ∃ table' emitted, pollStep (table, out) task = (table', out ++ emitted) ∧
      (∀ t ∈ emitted, t.event_type ≠ .delete) ∧
      (table' = table ∧ snapshotFind table task.rel_path = none ∨
        ∃ idx entry, table' = table.set idx (some entry) ∧ entry.rel_path = task.rel_path ∧
          entry.seen = true ∧
          (table.slots[idx]? = some none ∧ snapshotFind table task.rel_path = none ∨
            snapshotFind table task.rel_path = some idx)) := by
  unfold pollStep
  cases hfind : snapshotFind table task.rel_path with
  | none =>
      cases halloc : snapshotAlloc table with
      | none => exact ⟨table, [], by simp, by simp, Or.inl ⟨rfl, rfl⟩⟩
      | some idx =>
          refine ⟨_, _, rfl, ?_, Or.inr ⟨idx, task.snapshot, rfl, rfl, rfl, Or.inl ⟨?_, rfl⟩⟩⟩
          · simp
          · exact Slots.free?_eq_some halloc
  | some idx =>
      obtain ⟨entry, hentry, hrel⟩ := Slots.find?_eq_some hfind
      have hrel : entry.rel_path = task.rel_path := by simpa using hrel
      simp only [markSeen_eq hentry]
      split_ifs
      · refine ⟨_, _, rfl, by simp, Or.inr ⟨idx, task.snapshot, ?_, rfl, rfl, Or.inr rfl⟩⟩
        simp only [snapshotUpdateFromTask, SnapshotTable.set, List.set_set]
      · exact ⟨_, [], by simp, by simp, Or.inr ⟨idx, { entry with seen := true }, rfl, hrel, rfl,
          Or.inr rfl⟩⟩

/-! ## What the slots hold during a pass -/

/-- After the tasks `done`, starting from `table₀` with nothing seen. -/
structure Marked (table₀ table : SnapshotTable) (done : List BuiltTask) : Prop where
  find : ∀ rel idx, snapshotFind table₀ rel = some idx → snapshotFind table rel = some idx
  old : ∀ (idx : Nat) entry₀, table₀.slots[idx]? = some (some entry₀) →
    ∃ entry, table.slots[idx]? = some (some entry) ∧ entry.rel_path = entry₀.rel_path ∧
      (entry.seen = true ↔ snapshotFind table₀ entry₀.rel_path = some idx ∧
        ∃ task ∈ done, task.rel_path = entry₀.rel_path)
  new : ∀ (idx : Nat) entry, table.slots[idx]? = some (some entry) →
    table₀.slots[idx]? = some none → entry.seen = true

theorem exists_find {idx : Nat} {entry : FileSnapshot}
    (h : table.slots[idx]? = some (some entry)) :
    ∃ i, snapshotFind table entry.rel_path = some i := by
  rw [← Option.ne_none_iff_exists']
  intro hnone
  have hfalse := Slots.find?_eq_none.mp hnone entry (Slots.mem_entries_iff_getElem?.mpr ⟨idx, h⟩)
  simp at hfalse

/-- One more task. -/
theorem Marked.step (out : List SyncTask) (task : BuiltTask) {done : List BuiltTask}
    (h : Marked table₀ table done) :
    Marked table₀ (pollStep (table, out) task).1 (done ++ [task]) := by
  obtain ⟨table', emitted, hstep, -, hcase⟩ := pollStep_cases table out task
  rw [hstep]
  -- A recorded path that the search finds in no slot cannot be the task's.
  have hnotfound : ∀ (idx : Nat) entry₀, table₀.slots[idx]? = some (some entry₀) →
      snapshotFind table task.rel_path = none → task.rel_path ≠ entry₀.rel_path := by
    intro idx entry₀ hentry₀ hnone heq
    obtain ⟨i, hi⟩ := exists_find hentry₀
    have hfound := h.find _ _ hi
    rw [← heq, hnone] at hfound
    cases hfound
  rcases hcase with ⟨rfl, hnone⟩ | ⟨idx, entry, rfl, hrel, hseen, hslot⟩
  · refine ⟨h.find, fun i entry₀ hentry₀ => ?_, h.new⟩
    obtain ⟨entry, hentry, hpath, hiff⟩ := h.old i entry₀ hentry₀
    refine ⟨entry, hentry, hpath, hiff.trans (and_congr_right fun _ => ?_)⟩
    simp [hnotfound i entry₀ hentry₀ hnone]
  -- The slot that is written answers every search for another path as before.
  have hold : ∃ slot, table.slots[idx]? = some slot ∧ ∀ rel, rel ≠ task.rel_path ∨
      snapshotFind table task.rel_path = some idx →
      (some entry).any (fun e : FileSnapshot => decide (e.rel_path = rel)) =
        slot.any fun e => decide (e.rel_path = rel) := by
    rcases hslot with ⟨hfree, hnone⟩ | hfound
    · refine ⟨none, hfree, fun rel hne => ?_⟩
      rcases hne with hne | hsome
      · simp [hrel, Ne.symm hne]
      · rw [hnone] at hsome
        cases hsome
    · obtain ⟨e, he, hpath⟩ := Slots.find?_eq_some hfound
      have hpath : e.rel_path = task.rel_path := by simpa using hpath
      exact ⟨some e, he, fun rel _ => by simp [hrel, hpath]⟩
  obtain ⟨slot, hslotidx, hsame⟩ := hold
  have hlt : idx < table.slots.length := (List.getElem?_eq_some_iff.mp hslotidx).1
  refine ⟨fun rel i hi => ?_, fun i entry₀ hentry₀ => ?_, fun i e he hnone => ?_⟩
  · have hfound := h.find rel i hi
    have hanswer : rel ≠ task.rel_path ∨ snapshotFind table task.rel_path = some idx := by
      rcases hslot with ⟨-, hnone⟩ | hsome
      · left
        rintro rfl
        rw [hnone] at hfound
        cases hfound
      · exact Or.inr hsome
    rw [← hfound]
    exact Slots.find?_set_of_any_eq hslotidx (hsame rel hanswer)
  · obtain ⟨e, he, hpath, hiff⟩ := h.old i entry₀ hentry₀
    by_cases hi : i = idx
    · subst hi
      have hfound : snapshotFind table task.rel_path = some i := by
        rcases hslot with ⟨hfree, -⟩ | hsome
        · rw [he] at hfree
          cases hfree
        · exact hsome
      obtain ⟨e', he', hpath'⟩ := Slots.find?_eq_some hfound
      rw [he, Option.some.injEq, Option.some.injEq] at he'
      subst he'
      have hpath' : e.rel_path = task.rel_path := by simpa using hpath'
      have htask : entry₀.rel_path = task.rel_path := hpath.symm.trans hpath'
      have hfirst : snapshotFind table₀ entry₀.rel_path = some i := by
        obtain ⟨j, hj⟩ := exists_find hentry₀
        have hj' := h.find _ _ hj
        rw [htask, hfound] at hj'
        rw [hj, hj']
      refine ⟨entry, List.getElem?_set_self hlt, hrel.trans htask.symm, ?_⟩
      simp only [hseen, true_iff]
      exact ⟨hfirst, task, by simp, htask.symm⟩
    · refine ⟨e, ?_, hpath, hiff.trans (and_congr_right fun hfirst => ?_)⟩
      · rw [← he]
        exact List.getElem?_set_ne (Ne.symm hi)
      · -- The task's path is found in another slot, or in none.
        have hne : task.rel_path ≠ entry₀.rel_path := by
          intro heq
          have hfound := h.find _ _ hfirst
          rw [← heq] at hfound
          rcases hslot with ⟨-, hnone⟩ | hsome
          · rw [hnone] at hfound
            cases hfound
          · rw [hsome, Option.some.injEq] at hfound
            exact hi hfound.symm
        simp [hne]
  · by_cases hi : i = idx
    · subst hi
      have hself : (table.set i (some entry)).slots[i]? = some (some entry) :=
        List.getElem?_set_self hlt
      rw [hself, Option.some.injEq, Option.some.injEq] at he
      exact he ▸ hseen
    · refine h.new i e ?_ hnone
      rw [← he]
      exact (List.getElem?_set_ne (Ne.symm hi)).symm

/-- All tasks of a pass. -/
theorem Marked.foldl (out : List SyncTask) (tasks : List BuiltTask) {done : List BuiltTask}
    (h : Marked table₀ table done) :
    Marked table₀ (tasks.foldl pollStep (table, out)).1 (done ++ tasks) := by
  induction tasks generalizing table out done with
  | nil => simpa using h
  | cons task tasks ih =>
      have hnext := ih (pollStep (table, out) task).2 (h.step out task)
      rw [List.append_assoc] at hnext
      exact hnext

theorem foldl_emits_no_delete {tasks : List BuiltTask}
    (hout : ∀ t ∈ out, t.event_type ≠ .delete) :
    ∀ t ∈ (tasks.foldl pollStep (table, out)).2, t.event_type ≠ .delete := by
  induction tasks generalizing table out with
  | nil => exact hout
  | cons task tasks ih =>
      obtain ⟨table', emitted, hstep, hemitted, -⟩ := pollStep_cases table out task
      rw [List.foldl_cons, hstep]
      refine ih fun t ht => ?_
      rcases List.mem_append.mp ht with ht | ht
      · exact hout t ht
      · exact hemitted t ht

/-- The slots after marking everything unseen. -/
theorem slots_markAllUnseen (idx : Nat) :
    (snapshotMarkAllUnseen table).slots[idx]? =
      table.slots[idx]?.map (Option.map fun entry => { entry with seen := false }) := by
  simp [snapshotMarkAllUnseen]

theorem snapshotFind_markAllUnseen :
    snapshotFind (snapshotMarkAllUnseen table) rel = snapshotFind table rel := by
  unfold snapshotFind Slots.find? snapshotMarkAllUnseen
  rw [List.findIdx?_map]
  congr 1
  funext slot
  cases slot <;> rfl

/-- The paths a pass reports as deleted: those in a slot that the scan does not
reach, or does not find because an earlier slot has the same path. -/
theorem mem_deleted_iff :
    (∃ task ∈ (pass src root table).2, task.event_type = .delete ∧ task.rel_path = rel) ↔
      ∃ (idx : Nat) (entry : FileSnapshot), table.slots[idx]? = some (some entry) ∧
        entry.rel_path = rel ∧
        ¬ (snapshotFind table rel = some idx ∧ src.Reaches root rel) := by
  have hstart : Marked (snapshotMarkAllUnseen table) (snapshotMarkAllUnseen table) [] := by
    refine ⟨fun _ _ h => h, fun idx entry₀ h => ⟨entry₀, h, rfl, ?_⟩, fun idx entry h hnone => ?_⟩
    · rw [slots_markAllUnseen] at h
      obtain ⟨slot, -, hslot⟩ := Option.map_eq_some_iff.mp h
      obtain ⟨entry, -, rfl⟩ := Option.map_eq_some_iff.mp hslot
      simp
    · rw [hnone] at h
      cases h
  have hmarked := hstart.foldl [] (passTasks src root)
  have hnodelete : ∀ t ∈ ((passTasks src root).foldl pollStep
      (snapshotMarkAllUnseen table, [])).2, t.event_type ≠ .delete :=
    foldl_emits_no_delete fun t ht => by simp at ht
  unfold pass
  generalize (passTasks src root).foldl pollStep (snapshotMarkAllUnseen table, []) = s
    at hmarked hnodelete
  rw [List.nil_append] at hmarked
  constructor
  · rintro ⟨t, ht, htype, rfl⟩
    rcases List.mem_append.mp ht with ht | ht
    · exact absurd htype (hnodelete t ht)
    · obtain ⟨entry, hentry, rfl⟩ := List.mem_map.mp ht
      rw [List.mem_filter] at hentry
      obtain ⟨idx, hidx⟩ := Slots.mem_entries_iff_getElem?.mp hentry.1
      have hunseen : entry.seen = false := by simpa using hentry.2
      -- A slot that was free has been filled, and seen, during this pass.
      cases hslot : table.slots[idx]? with
      | none =>
          have hlt := (List.getElem?_eq_some_iff.mp hidx).1
          rw [List.getElem?_eq_none_iff, table.length_eq, ← s.1.length_eq] at hslot
          omega
      | some slot =>
          cases slot with
          | none =>
              have hnew := hmarked.new idx entry hidx (by rw [slots_markAllUnseen, hslot]; rfl)
              rw [hunseen] at hnew
              cases hnew
          | some old =>
              obtain ⟨entry', hentry', hpath, hiff⟩ := hmarked.old idx { old with seen := false }
                (by rw [slots_markAllUnseen, hslot]; rfl)
              rw [hidx, Option.some.injEq, Option.some.injEq] at hentry'
              subst hentry'
              refine ⟨idx, old, hslot, hpath.symm, fun hboth => ?_⟩
              have hseen := hiff.mpr ⟨by
                rw [snapshotFind_markAllUnseen, ← hpath]
                exact hboth.1, by
                rw [← hpath]
                exact reaches_iff.mp hboth.2⟩
              rw [hunseen] at hseen
              cases hseen
  · rintro ⟨idx, old, hslot, rfl, hnot⟩
    obtain ⟨entry, hentry, hpath, hiff⟩ := hmarked.old idx { old with seen := false }
      (by rw [slots_markAllUnseen, hslot]; rfl)
    have hunseen : entry.seen = false := by
      rw [← Bool.not_eq_true, hiff]
      rintro ⟨hfind, hreached⟩
      rw [snapshotFind_markAllUnseen] at hfind
      exact hnot ⟨hfind, reaches_iff.mpr hreached⟩
    have hmem : entry ∈ s.1.entries := Slots.mem_entries_iff_getElem?.mpr ⟨idx, hentry⟩
    refine ⟨entry.deleteTask, ?_, rfl, hpath⟩
    refine List.mem_append.mpr (Or.inr (List.mem_map.mpr ⟨entry, ?_, rfl⟩))
    rw [List.mem_filter]
    exact ⟨hmem, by simp [hunseen]⟩

/-- The polling scan reports no live path as deleted if and only if every live
path that is recorded is reached by the scan and recorded in no earlier slot. -/
theorem poll_deletes_only_dead_iff (src : StillSource) (root : Bytes) :
    ∃ k, ∀ fuel, k ≤ fuel → ∀ table : SnapshotTable, ∃ table' emitted,
      (pollScanAndEmitChanges fuel root table).run (still src) [] = some (table', emitted) ∧
      ((∀ task ∈ emitted, task.event_type = .delete → ¬ src.Has root task.rel_path) ↔
        ∀ (idx : Nat) (entry : FileSnapshot), table.slots[idx]? = some (some entry) →
          src.Has root entry.rel_path →
          snapshotFind table entry.rel_path = some idx ∧ src.Reaches root entry.rel_path) := by
  obtain ⟨k, hk⟩ := exists_run_pass src root
  refine ⟨k, fun fuel hfuel table => ⟨_, _, hk fuel hfuel table, ?_⟩⟩
  constructor
  · intro honly idx entry hslot hlive
    by_contra hnot
    obtain ⟨task, hmem, htype, hrel⟩ := mem_deleted_iff.mpr ⟨idx, entry, hslot, rfl, hnot⟩
    exact honly task hmem htype (hrel ▸ hlive)
  · intro hall task hmem htype hlive
    obtain ⟨idx, entry, hslot, hrel, hnot⟩ := mem_deleted_iff.mp ⟨task, hmem, htype, rfl⟩
    exact hnot (hrel ▸ hall idx entry hslot (hrel ▸ hlive))

/-! ## A root that cannot be opened -/

theorem oneFileStat_not_dir : ∀ e ∈ [(ascii "/s/f", oneFileStat)], sIsDir e.2.st_mode = true →
    [(ascii "/s/f", oneFileStat)].lookup e.1 = some e.2 := by decide

/-- The file `/s/f` below a directory whose `opendir` fails. -/
def closedSource : StillSource :=
  tabulated [] [(ascii "/s/f", oneFileStat)] [(ascii "/s/f", oneFileStat)] (by decide)
    oneFileStat_not_dir

/-- `f` as an earlier scan recorded it. -/
def oneFileTable : SnapshotTable :=
  SnapshotTable.empty.set 0 (some ⟨true, oneFilePath, ⟨ascii "/s/f", by decide, by decide⟩, 1, 0,
    0o100644, false, by decide⟩)

theorem poll_deletes_live_path :
    ¬ ∀ (src : StillSource) (root : Bytes) (table : SnapshotTable) fuel table' emitted,
      (pollScanAndEmitChanges fuel root table).run (still src) [] = some (table', emitted) →
        ∀ task ∈ emitted, task.event_type = .delete → ¬ src.Has root task.rel_path := by
  intro h
  obtain ⟨k, hk⟩ := exists_run_pass closedSource (ascii "/s")
  have hslot : oneFileTable.slots[0]? = some (some ⟨true, oneFilePath,
      ⟨ascii "/s/f", by decide, by decide⟩, 1, 0, 0o100644, false, by decide⟩) :=
    List.getElem?_set_self (by rw [SnapshotTable.empty.length_eq]; decide)
  have hclosed : ∀ path, closedSource.opendir path = none := fun path => rfl
  have hnot : ¬ closedSource.Reaches (ascii "/s") oneFilePath := by
    rintro ⟨hvisits, -⟩
    cases hvisits with
    | top hopen _ => rw [hclosed] at hopen; cases hopen
    | under _ _ hopen _ => rw [hclosed] at hopen; cases hopen
  obtain ⟨task, hmem, htype, hrel⟩ := mem_deleted_iff.mpr
    ⟨0, _, hslot, rfl, fun hboth => hnot hboth.2⟩
  refine h closedSource (ascii "/s") oneFileTable k _ _ (hk k le_rfl oneFileTable) task hmem htype ?_
  rw [hrel]
  change (closedSource.lstat _).isSome = true
  decide

theorem poll_deletes_only_dead_iff_oneFile :
    ∃ k, ∀ fuel, k ≤ fuel → ∃ table' emitted,
      (pollScanAndEmitChanges fuel (ascii "/s") oneFileTable).run (still oneFileSource) [] =
        some (table', emitted) ∧
      ((∀ task ∈ emitted, task.event_type = .delete →
          ¬ oneFileSource.Has (ascii "/s") task.rel_path) ↔
        ∀ (idx : Nat) (entry : FileSnapshot), oneFileTable.slots[idx]? = some (some entry) →
          oneFileSource.Has (ascii "/s") entry.rel_path →
          snapshotFind oneFileTable entry.rel_path = some idx ∧
            oneFileSource.Reaches (ascii "/s") entry.rel_path) := by
  obtain ⟨k, hk⟩ := poll_deletes_only_dead_iff oneFileSource (ascii "/s")
  exact ⟨k, fun fuel hfuel => hk fuel hfuel oneFileTable⟩

end MiniSync.Monitor
