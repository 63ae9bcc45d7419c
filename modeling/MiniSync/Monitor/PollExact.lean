import MiniSync.Monitor.SourceTree

/-!
# One polling pass is exact

On a source whose directories open and whose paths are accepted, a pass emits the
difference between the snapshots and the tree, and leaves snapshots of the tree.
-/

namespace MiniSync.Monitor

open Prog

/-- A task of this type for this path is among the emitted ones. -/
def Emitted (emitted : List SyncTask) (event_type : EventType) (rel : PathBuf) : Prop :=
  ∃ task ∈ emitted, task.event_type = event_type ∧ task.rel_path = rel

/-- The emitted tasks are the difference between the table and the source. -/
structure Changes (src : StillSource) (root : Bytes) (table : SnapshotTable)
    (emitted : List SyncTask) : Prop where
  once : (emitted.map fun task => (task.event_type, task.rel_path)).Nodup
  create : ∀ rel, Emitted emitted .create rel ↔
    (∃ st, src.Present root rel st) ∧ ¬ table.Records rel
  modify : ∀ rel, Emitted emitted .modify rel ↔
    ∃ st, src.Present root rel st ∧ ∃ entry ∈ table.entries, entry.rel_path = rel ∧
      (entry.size ≠ st.st_size ∨ entry.mtime ≠ st.st_mtime ∨ entry.mode ≠ st.st_mode)
  delete : ∀ rel, Emitted emitted .delete rel ↔
    table.Records rel ∧ ¬ ∃ st, src.Present root rel st
  nothing_else : ∀ task ∈ emitted,
    task.event_type = .create ∨ task.event_type = .modify ∨ task.event_type = .delete

/-- The used entries are the paths of the source, with what `lstat` tells of them. -/
structure Mirrors (src : StillSource) (root : Bytes) (table : SnapshotTable) : Prop where
  distinct : table.Distinct
  current : ∀ entry ∈ table.entries, ∃ st, src.Present root entry.rel_path st ∧
    entry.size = st.st_size ∧ entry.mtime = st.st_mtime ∧ entry.mode = st.st_mode ∧
      entry.is_dir = sIsDir st.st_mode
  recorded : ∀ rel st, src.Present root rel st → table.Records rel

variable {src : StillSource} {root : Bytes} {table : SnapshotTable} {emitted : List SyncTask}
  {task : BuiltTask} {rel : PathBuf} {st : StatBuf}

theorem StillSource.Present.unique {st' : StatBuf} (h : src.Present root rel st)
    (h' : src.Present root rel st') : st = st' :=
  Option.some.inj (h.2.symm.trans h'.2)

theorem pollEmits_unseen (old : Option FileSnapshot) :
    pollEmits (old.map fun entry => { entry with seen := false }) task = pollEmits old task := by
  cases old <;> rfl

/-- Where the table mirrors the source there is no difference. -/
theorem Mirrors.nothing_emitted (h : Mirrors src root table)
    (hchanges : Changes src root table emitted) : emitted = [] := by
  rw [List.eq_nil_iff_forall_not_mem]
  intro task hmem
  rcases hchanges.nothing_else task hmem with htype | htype | htype
  · obtain ⟨⟨st, hpresent⟩, hnot⟩ := (hchanges.create _).mp ⟨task, hmem, htype, rfl⟩
    exact hnot (h.recorded _ st hpresent)
  · obtain ⟨st, hpresent, entry, hentry, hrel, hdiff⟩ :=
      (hchanges.modify _).mp ⟨task, hmem, htype, rfl⟩
    obtain ⟨st', hpresent', hsize, hmtime, hmode, -⟩ := h.current entry hentry
    rw [hrel] at hpresent'
    cases hpresent.unique hpresent'
    rcases hdiff with hne | hne | hne
    · exact hne hsize
    · exact hne hmtime
    · exact hne hmode
  · obtain ⟨⟨entry, hentry, hrel⟩, hnot⟩ := (hchanges.delete _).mp ⟨task, hmem, htype, rfl⟩
    obtain ⟨st, hpresent, -⟩ := h.current entry hentry
    exact hnot ⟨st, hrel ▸ hpresent⟩

/-! ## One pass -/

section Pass

variable (src root table)

/-- The tasks that a pass compares with the snapshots. -/
abbrev passTasks : List BuiltTask := src.pollTasks root maxPathLen root

/-- What a pass emits before the sweep. -/
def passEmits : List SyncTask :=
  (passTasks src root).filterMap fun task => pollEmits (table.get task.rel_path) task

/-- The result of a pass. -/
def pass : SnapshotTable × List SyncTask :=
  sweep ((passTasks src root).foldl pollStep (snapshotMarkAllUnseen table, []))

end Pass

theorem mem_passEmits {t : SyncTask} :
    t ∈ passEmits src root table ↔
      ∃ task ∈ passTasks src root, pollEmits (table.get task.rel_path) task = some t :=
  List.mem_filterMap

/-- A task emitted before the sweep is about the path it is compared with. -/
theorem pollEmits_eq_some {old : Option FileSnapshot} {t : SyncTask}
    (h : pollEmits old task = some t) :
    t.rel_path = task.rel_path ∧
      (old = none ∧ t.event_type = .create ∨
        ∃ entry, old = some entry ∧ entry.differs task.toSyncTask = true ∧
          t.event_type = .modify) := by
  unfold pollEmits at h
  cases old with
  | none =>
      cases h
      exact ⟨rfl, Or.inl ⟨rfl, rfl⟩⟩
  | some entry =>
      simp only at h
      split_ifs at h with hdiff
      cases h
      exact ⟨rfl, Or.inr ⟨entry, rfl, hdiff, rfl⟩⟩

theorem differs_iff {entry : FileSnapshot} (hsize : task.file_size = st.st_size)
    (hmtime : task.mtime = st.st_mtime) (hmode : task.mode = st.st_mode) :
    entry.differs task.toSyncTask = true ↔
      entry.size ≠ st.st_size ∨ entry.mtime ≠ st.st_mtime ∨ entry.mode ≠ st.st_mode := by
  unfold FileSnapshot.differs
  rw [hsize, hmtime, hmode]
  simp [or_assoc]

/-- What a pass leaves and emits: the sweep drops the paths that no task names. -/
theorem pass_spec {all : List PathBuf} (hd : table.Distinct) (hroom : Room all table)
    (hall : ∀ task ∈ passTasks src root, task.rel_path ∈ all) :
    (pass src root table).1.Distinct ∧
      (∀ rel entry, (pass src root table).1.get rel = some entry ↔
        ∃ task ∈ passTasks src root, task.rel_path = rel ∧
          polled ((table.get rel).map fun e => { e with seen := false }) task = entry) ∧
      ∃ unseen : List FileSnapshot,
        (pass src root table).2 = passEmits src root table ++ unseen.map FileSnapshot.deleteTask ∧
        (unseen.map FileSnapshot.rel_path).Nodup ∧
        ∀ rel, rel ∈ unseen.map FileSnapshot.rel_path ↔
          table.Records rel ∧ ∀ task ∈ passTasks src root, task.rel_path ≠ rel := by
  have hroom₀ : Room all (snapshotMarkAllUnseen table) := by
    refine ⟨hroom.length_le, fun rel hrel => hroom.covers rel fun hnone => hrel ?_⟩
    rw [get_markAllUnseen, hnone]
    rfl
  obtain ⟨table₁, hfold, hd₁, htasks, hother⟩ :=
    foldl_pollStep [] (distinct_markAllUnseen hd) hroom₀ hall src.nodup_tasks
  have hemits : ((passTasks src root).filterMap fun task =>
      pollEmits ((snapshotMarkAllUnseen table).get task.rel_path) task) =
      passEmits src root table := by
    refine List.filterMap_congr fun task _ => ?_
    rw [get_markAllUnseen, pollEmits_unseen]
  rw [hemits, List.nil_append] at hfold
  have hpass : pass src root table = sweep (table₁, passEmits src root table) := by
    rw [pass, ← hfold]
  -- A path is unseen after the tasks exactly if it was recorded and none names it.
  have hseen : ∀ rel entry, table₁.get rel = some entry →
      (entry.seen = false ↔ ∀ task ∈ passTasks src root, task.rel_path ≠ rel) := by
    intro rel entry hget
    by_cases hnamed : ∃ task ∈ passTasks src root, task.rel_path = rel
    · obtain ⟨task, hmem, rfl⟩ := hnamed
      rw [htasks task hmem, Option.some.injEq] at hget
      rw [← hget, polled_seen]
      simp only [reduceCtorEq, false_iff, not_forall]
      exact ⟨task, hmem, fun hne => hne rfl⟩
    · have hnone : ∀ task ∈ passTasks src root, task.rel_path ≠ rel :=
        fun task hmem heq => hnamed ⟨task, hmem, heq⟩
      rw [hother rel hnone, get_markAllUnseen] at hget
      obtain ⟨old, -, rfl⟩ := Option.map_eq_some_iff.mp hget
      exact ⟨fun _ => hnone, fun _ => rfl⟩
  rw [hpass]
  refine ⟨distinct_sweep hd₁, fun rel entry => ?_, ?_⟩
  · rw [get_sweep hd₁]
    constructor
    · rintro ⟨hget, hentry⟩
      have hnamed : ¬ ∀ task ∈ passTasks src root, task.rel_path ≠ rel := by
        intro hnone
        rw [(hseen rel entry hget).mpr hnone] at hentry
        cases hentry
      push Not at hnamed
      obtain ⟨task, hmem, rfl⟩ := hnamed
      rw [htasks task hmem, Option.some.injEq, get_markAllUnseen] at hget
      exact ⟨task, hmem, rfl, hget⟩
    · rintro ⟨task, hmem, rfl, rfl⟩
      rw [htasks task hmem, get_markAllUnseen]
      exact ⟨rfl, polled_seen _ _⟩
  · refine ⟨table₁.entries.filter fun entry => !entry.seen, rfl, ?_, fun rel => ?_⟩
    · exact hd₁.sublist ((List.filter_sublist).map _)
    · constructor
      · intro hmem
        obtain ⟨entry, hentry, rfl⟩ := List.mem_map.mp hmem
        rw [List.mem_filter] at hentry
        have hget : table₁.get entry.rel_path = some entry :=
          hd₁.get?_eq_some.mpr ⟨hentry.1, rfl⟩
        have hnone := (hseen _ entry hget).mp (by simpa using hentry.2)
        refine ⟨SnapshotTable.records_iff.mpr fun hnot => ?_, hnone⟩
        rw [hother _ hnone, get_markAllUnseen, hnot] at hget
        cases hget
      · rintro ⟨hrec, hnone⟩
        obtain ⟨old, hold⟩ := Option.ne_none_iff_exists'.mp (SnapshotTable.records_iff.mp hrec)
        have hget : table₁.get rel = some { old with seen := false } := by
          rw [hother rel hnone, get_markAllUnseen, hold]
          rfl
        obtain ⟨hentry, hkey⟩ := Slots.mem_of_get? hget
        refine List.mem_map.mpr ⟨_, List.mem_filter.mpr ⟨hentry, rfl⟩, hkey⟩

/-- A pass over a readable source emits the difference and leaves a mirror of it. -/
theorem pass_exact {all : List PathBuf} (hd : table.Distinct)
    (hreadable : src.Readable src.lstatIsDir root) (hroom : Room all table)
    (hall : ∀ rel st, src.Present root rel st → rel ∈ all) :
    Changes src root table (pass src root table).2 ∧ Mirrors src root (pass src root table).1 := by
  have htask : ∀ task ∈ passTasks src root, ∃ st, src.Present root task.rel_path st ∧
      task.file_size = st.st_size ∧ task.mtime = st.st_mtime ∧ task.mode = st.st_mode :=
    fun task hmem => hreadable.of_mem_pollTasks hmem
  have hnamed : ∀ task ∈ passTasks src root, task.rel_path ∈ all := by
    intro task hmem
    obtain ⟨st, hpresent, -⟩ := htask task hmem
    exact hall _ st hpresent
  obtain ⟨hd', hget', unseen, hout, hnodup, hunseen⟩ := pass_spec hd hroom hnamed
  -- Tasks before the sweep, and deletions.
  have hmem : ∀ t, t ∈ (pass src root table).2 ↔
      t ∈ passEmits src root table ∨ ∃ entry ∈ unseen, entry.deleteTask = t := by
    intro t
    rw [hout, List.mem_append, List.mem_map]
  have habsent : ∀ rel, (∀ task ∈ passTasks src root, task.rel_path ≠ rel) ↔
      ¬ ∃ st, src.Present root rel st := by
    intro rel
    constructor
    · rintro hnone ⟨st, hpresent⟩
      obtain ⟨task, htmem, hrel⟩ := hreadable.mem_pollTasks hpresent
      exact hnone task htmem hrel
    · rintro hnot task htmem rfl
      obtain ⟨st, hpresent, -⟩ := htask task htmem
      exact hnot ⟨st, hpresent⟩
  refine ⟨⟨?_, fun rel => ?_, fun rel => ?_, fun rel => ?_, ?_⟩, hd', ?_, ?_⟩
  · rw [hout, List.map_append, List.nodup_append]
    refine ⟨?_, ?_, ?_⟩
    · rw [List.nodup_iff_pairwise_ne, List.pairwise_map, passEmits, List.pairwise_filterMap]
      have htasks : ((passTasks src root).map fun task => task.rel_path).Nodup :=
        src.nodup_tasks
      refine (List.pairwise_map.mp (List.nodup_iff_pairwise_ne.mp htasks)).imp ?_
      intro a b hne t ht t' ht' heq
      rw [Prod.mk.injEq, (pollEmits_eq_some ht).1, (pollEmits_eq_some ht').1] at heq
      exact hne heq.2
    · rw [List.map_map]
      have hpairs : (unseen.map fun entry => (EventType.delete, entry.rel_path)).Nodup := by
        have hinj : Function.Injective fun rel : PathBuf => (EventType.delete, rel) :=
          fun a b h => (Prod.mk.inj h).2
        have := hnodup.map hinj
        rwa [List.map_map] at this
      exact hpairs
    · intro a ha b hb heq
      subst heq
      obtain ⟨t, ht, rfl⟩ := List.mem_map.mp ha
      obtain ⟨t', ht', heq⟩ := List.mem_map.mp hb
      obtain ⟨entry, -, rfl⟩ := List.mem_map.mp ht'
      obtain ⟨task, -, hemit⟩ := mem_passEmits.mp ht
      have htype : EventType.delete = t.event_type := congrArg Prod.fst heq
      rcases (pollEmits_eq_some hemit).2 with ⟨-, h⟩ | ⟨-, -, -, h⟩
      · rw [h] at htype
        cases htype
      · rw [h] at htype
        cases htype
  · constructor
    · rintro ⟨t, ht, htype, rfl⟩
      rcases (hmem t).mp ht with hemit | ⟨entry, -, rfl⟩
      · obtain ⟨task, htmem, hemit⟩ := mem_passEmits.mp hemit
        obtain ⟨hrel, ⟨hnone, -⟩ | ⟨-, -, -, hmodify⟩⟩ := pollEmits_eq_some hemit
        · obtain ⟨st, hpresent, -⟩ := htask task htmem
          rw [hrel]
          exact ⟨⟨st, hpresent⟩, fun hrec => SnapshotTable.records_iff.mp hrec hnone⟩
        · rw [hmodify] at htype
          cases htype
      · cases htype
    · rintro ⟨⟨st, hpresent⟩, hnot⟩
      obtain ⟨task, htmem, rfl⟩ := hreadable.mem_pollTasks hpresent
      have hnone : table.get task.rel_path = none := by
        by_contra hsome
        exact hnot (SnapshotTable.records_iff.mpr hsome)
      refine ⟨{ task.toSyncTask with event_type := .create },
        (hmem _).mpr (Or.inl (mem_passEmits.mpr ⟨task, htmem, ?_⟩)), rfl, rfl⟩
      rw [hnone]
      rfl
  · constructor
    · rintro ⟨t, ht, htype, rfl⟩
      rcases (hmem t).mp ht with hemit | ⟨entry, -, rfl⟩
      · obtain ⟨task, htmem, hemit⟩ := mem_passEmits.mp hemit
        obtain ⟨hrel, ⟨-, hcreate⟩ | ⟨entry, hentry, hdiff, -⟩⟩ := pollEmits_eq_some hemit
        · rw [hcreate] at htype
          cases htype
        · obtain ⟨st, hpresent, hsize, hmtime, hmode⟩ := htask task htmem
          obtain ⟨hin, hkey⟩ := Slots.mem_of_get? hentry
          rw [hrel]
          exact ⟨st, hpresent, entry, hin, hkey, (differs_iff hsize hmtime hmode).mp hdiff⟩
      · cases htype
    · rintro ⟨st, hpresent, entry, hin, hkey, hdiff⟩
      obtain ⟨task, htmem, rfl⟩ := hreadable.mem_pollTasks hpresent
      obtain ⟨st', hpresent', hsize, hmtime, hmode⟩ := htask task htmem
      cases hpresent.unique hpresent'
      have hget : table.get task.rel_path = some entry := hd.get?_eq_some.mpr ⟨hin, hkey⟩
      refine ⟨{ task.toSyncTask with event_type := .modify },
        (hmem _).mpr (Or.inl (mem_passEmits.mpr ⟨task, htmem, ?_⟩)), rfl, rfl⟩
      rw [hget, pollEmits]
      exact if_pos ((differs_iff hsize hmtime hmode).mpr hdiff)
  · rw [← habsent rel, ← hunseen rel]
    constructor
    · rintro ⟨t, ht, htype, rfl⟩
      rcases (hmem t).mp ht with hemit | ⟨entry, hentry, rfl⟩
      · obtain ⟨task, -, hemit⟩ := mem_passEmits.mp hemit
        rcases (pollEmits_eq_some hemit).2 with ⟨-, h⟩ | ⟨-, -, -, h⟩
        · rw [h] at htype
          cases htype
        · rw [h] at htype
          cases htype
      · exact List.mem_map_of_mem hentry
    · intro hrel
      obtain ⟨entry, hentry, rfl⟩ := List.mem_map.mp hrel
      exact ⟨entry.deleteTask, (hmem _).mpr (Or.inr ⟨entry, hentry, rfl⟩), rfl, rfl⟩
  · intro t ht
    rcases (hmem t).mp ht with hemit | ⟨entry, -, rfl⟩
    · obtain ⟨task, -, hemit⟩ := mem_passEmits.mp hemit
      rcases (pollEmits_eq_some hemit).2 with ⟨-, h⟩ | ⟨-, -, -, h⟩
      · exact Or.inl h
      · exact Or.inr (Or.inl h)
    · exact Or.inr (Or.inr rfl)
  · intro entry hentry
    obtain ⟨task, htmem, hrel, hpolled⟩ :=
      (hget' entry.rel_path entry).mp (hd'.get?_eq_some.mpr ⟨hentry, rfl⟩)
    obtain ⟨st, hpresent, hsize, hmtime, hmode⟩ := htask task htmem
    refine ⟨st, hrel ▸ hpresent, ?_⟩
    -- The entry is the task's own, or one that does not differ from it.
    suffices hfields : entry.size = st.st_size ∧ entry.mtime = st.st_mtime ∧
        entry.mode = st.st_mode by
      obtain ⟨h₁, h₂, h₃⟩ := hfields
      exact ⟨h₁, h₂, h₃, by rw [entry.is_dir_eq, h₃]⟩
    unfold polled at hpolled
    cases hold : table.get entry.rel_path with
    | none =>
        rw [hold] at hpolled
        rw [← hpolled]
        exact ⟨hsize, hmtime, hmode⟩
    | some old =>
        rw [hold] at hpolled
        simp only [Option.map_some] at hpolled
        split_ifs at hpolled with hdiff
        · rw [← hpolled]
          exact ⟨hsize, hmtime, hmode⟩
        · rw [differs_iff hsize hmtime hmode] at hdiff
          push Not at hdiff
          rw [← hpolled]
          exact hdiff
  · intro rel st hpresent
    obtain ⟨task, htmem, rfl⟩ := hreadable.mem_pollTasks hpresent
    rw [SnapshotTable.records_iff, Option.ne_none_iff_exists']
    exact ⟨_, (hget' _ _).mpr ⟨task, htmem, rfl, rfl⟩⟩

/-- Enough fuel, whatever the table: the pass returns. -/
theorem exists_run_pass (src : StillSource) (root : Bytes) :
    ∃ k, ∀ fuel, k ≤ fuel → ∀ table,
      (pollScanAndEmitChanges fuel root table).run (still src) [] = some (pass src root table) := by
  obtain ⟨k, hk⟩ := returns_pollScanAndEmitChanges src root
  refine ⟨k, fun fuel hfuel table => ?_⟩
  obtain ⟨table', out', hrun, heq⟩ := hk fuel hfuel table []
  rw [hrun, heq]
  rfl

/-- The polling scan emits exactly the difference between its snapshots and a
source that stays as it is; afterwards the snapshots mirror the source, and a
second scan emits nothing. -/
theorem poll_scan_exact (src : StillSource) (root : Bytes) (table : SnapshotTable)
    (hd : table.Distinct) (hreadable : src.Readable src.lstatIsDir root)
    (hroom : ∃ all : List PathBuf, all.length ≤ maxSnapshots ∧
      ∀ rel, table.Records rel ∨ (∃ st, src.Present root rel st) → rel ∈ all) :
    ∃ k, ∀ fuel, k ≤ fuel → ∃ table' emitted,
      (pollScanAndEmitChanges fuel root table).run (still src) [] = some (table', emitted) ∧
      Changes src root table emitted ∧ Mirrors src root table' ∧
      ∃ table'', (pollScanAndEmitChanges fuel root table').run (still src) [] =
        some (table'', []) := by
  obtain ⟨all, hlen, hmem⟩ := hroom
  have hall : ∀ rel st, src.Present root rel st → rel ∈ all :=
    fun rel st h => hmem rel (Or.inr ⟨st, h⟩)
  have hroom : Room all table :=
    ⟨hlen, fun rel h => hmem rel (Or.inl (SnapshotTable.records_iff.mpr h))⟩
  obtain ⟨hchanges, hmirrors⟩ := pass_exact hd hreadable hroom hall
  obtain ⟨k, hk⟩ := exists_run_pass src root
  refine ⟨k, fun fuel hfuel => ⟨_, _, hk fuel hfuel table, hchanges, hmirrors, ?_⟩⟩
  -- What the first pass leaves is recorded only if it is present.
  have hroom' : Room all (pass src root table).1 := by
    refine ⟨hlen, fun rel h => ?_⟩
    obtain ⟨entry, hentry, rfl⟩ := SnapshotTable.records_iff.mpr h
    obtain ⟨st, hpresent, -⟩ := hmirrors.current entry hentry
    exact hall _ st hpresent
  obtain ⟨hchanges', -⟩ := pass_exact hmirrors.distinct hreadable hroom' hall
  have hnone := hmirrors.nothing_emitted hchanges'
  refine ⟨(pass src root (pass src root table).1).1, ?_⟩
  rw [hk fuel hfuel]
  exact congrArg some (Prod.ext rfl hnone)

/-! ## A source without directories -/

section Flat

variable {enters : Bytes → Bool} {names : List Bytes} {path : Bytes}

theorem StillSource.InTree.of_flat (h : src.InTree enters root path)
    (hopen : src.opendir root = some names)
    (hflat : ∀ name ∈ names, enters (joinBase root ++ slash :: name) = false) :
    ∃ name ∈ names, path = joinBase root ++ slash :: name := by
  induction h with
  | @top names' name hopen' hname _ _ =>
      cases hopen'.symm.trans hopen
      exact ⟨name, hname, rfl⟩
  | under _ hdir _ _ _ _ ih =>
      obtain ⟨name, hname, rfl⟩ := ih
      rw [hflat name hname] at hdir
      cases hdir

theorem readable_of_flat (hopen : src.opendir root = some names)
    (hflat : ∀ name ∈ names, enters (joinBase root ++ slash :: name) = false)
    (hfits : ∀ name ∈ names, (joinBase root ++ slash :: name).length < maxPathLen)
    (haccepted : ∀ name ∈ names, (getRelativePath root (joinBase root ++ slash :: name)).isSome) :
    src.Readable enters root where
  opens_root := by
    rw [hopen]
    rfl
  opens dir hdir hd := by
    obtain ⟨name, hname, rfl⟩ := hdir.of_flat hopen hflat
    rw [hflat name hname] at hd
    cases hd
  fits path hpath := by
    obtain ⟨name, hname, rfl⟩ := hpath.of_flat hopen hflat
    exact hfits name hname
  accepted path hpath := by
    obtain ⟨name, hname, rfl⟩ := hpath.of_flat hopen hflat
    exact haccepted name hname

theorem mem_of_flat {rel : PathBuf} (hopen : src.opendir root = some names)
    (hflat : ∀ name ∈ names, enters (joinBase root ++ slash :: name) = false)
    (h : src.InTree enters root (joinBase root ++ slash :: rel.bytes)) : rel.bytes ∈ names := by
  obtain ⟨name, hname, heq⟩ := h.of_flat hopen hflat
  rw [List.append_cancel_left_eq, List.cons.injEq] at heq
  exact heq.2 ▸ hname

end Flat

def oneFileStat : StatBuf := ⟨1, 0o100644, 0⟩

/-- The regular file `/s/f`. -/
def oneFileSource : StillSource :=
  tabulated [(ascii "/s", [ascii "f"])] [(ascii "/s/f", oneFileStat)]
    [(ascii "/s/f", oneFileStat)] (by decide) (by decide)

def oneFilePath : PathBuf := ⟨ascii "f", by decide, by decide⟩

theorem oneFile_flat {enters : Bytes → Bool} (henters : enters (ascii "/s/f") = false) :
    ∀ name ∈ [ascii "f"], enters (joinBase (ascii "/s") ++ slash :: name) = false := by
  intro name hname
  rw [List.mem_singleton.mp hname,
    show joinBase (ascii "/s") ++ slash :: ascii "f" = ascii "/s/f" by decide]
  exact henters

theorem oneFile_readable {enters : Bytes → Bool} (henters : enters (ascii "/s/f") = false) :
    oneFileSource.Readable enters (ascii "/s") :=
  readable_of_flat (by decide) (oneFile_flat henters) (by decide) (by decide)

theorem oneFile_rel {enters : Bytes → Bool} (henters : enters (ascii "/s/f") = false)
    {rel : PathBuf} (h : oneFileSource.InTree enters (ascii "/s")
      (joinBase (ascii "/s") ++ slash :: rel.bytes)) : rel = oneFilePath :=
  PathBuf.eq_of_bytes_eq
    (List.mem_singleton.mp (mem_of_flat (by decide) (oneFile_flat henters) h))

theorem get_empty (rel : PathBuf) : SnapshotTable.empty.get rel = none := by
  rw [Slots.get?_eq_none]
  simp [SnapshotTable.empty, Slots.entries, List.reduceOption]

theorem distinct_empty : SnapshotTable.empty.Distinct := by
  simp [SnapshotTable.Distinct, Slots.Distinct, SnapshotTable.empty, Slots.entries,
    List.reduceOption]

/-! ## A source that has been edited -/

/-- The regular files `/s/f` and `/s/n`. -/
def editedSource : StillSource :=
  tabulated [(ascii "/s", [ascii "f", ascii "n"])]
    [(ascii "/s/f", oneFileStat), (ascii "/s/n", oneFileStat)]
    [(ascii "/s/f", oneFileStat), (ascii "/s/n", oneFileStat)] (by decide) (by decide)

def newPath : PathBuf := ⟨ascii "n", by decide, by decide⟩

def gonePath : PathBuf := ⟨ascii "g", by decide, by decide⟩

/-- A file of two bytes, as an earlier scan recorded it. -/
def recordedFile (rel_path : PathBuf) : FileSnapshot :=
  ⟨true, rel_path, rel_path, 2, 0, 0o100644, false, rfl⟩

/-- `f` and `g` have been recorded, and `f` had two bytes. -/
def editedTable : SnapshotTable :=
  (SnapshotTable.empty.set 0 (some (recordedFile oneFilePath))).set 1
    (some (recordedFile gonePath))

theorem entries_editedTable :
    editedTable.entries = [recordedFile oneFilePath, recordedFile gonePath] := by
  have htwo : ∀ n (a b : FileSnapshot),
      Slots.entries (((List.replicate (n + 2) none).set 0 (some a)).set 1 (some b)) = [a, b] := by
    intro n a b
    simp [List.replicate_succ, Slots.entries, List.reduceOption]
  have hlen : maxSnapshots = 8190 + 2 := rfl
  change Slots.entries (((List.replicate maxSnapshots none).set 0 _).set 1 _) = _
  rw [hlen]
  exact htwo 8190 _ _

theorem records_editedTable {rel : PathBuf} :
    editedTable.Records rel ↔ rel = oneFilePath ∨ rel = gonePath := by
  unfold SnapshotTable.Records
  rw [entries_editedTable]
  simp [recordedFile, eq_comm]

theorem poll_scan_exact_edited :
    ∃ k, ∀ fuel, k ≤ fuel → ∃ table' emitted,
      (pollScanAndEmitChanges fuel (ascii "/s") editedTable).run (still editedSource) [] =
        some (table', emitted) ∧
      Emitted emitted .create newPath ∧ Emitted emitted .modify oneFilePath ∧
      Emitted emitted .delete gonePath ∧ Mirrors editedSource (ascii "/s") table' ∧
      ∃ table'', (pollScanAndEmitChanges fuel (ascii "/s") table').run (still editedSource) [] =
        some (table'', []) := by
  have hopen : editedSource.opendir (ascii "/s") = some [ascii "f", ascii "n"] := by decide
  have hflat : ∀ name ∈ [ascii "f", ascii "n"],
      editedSource.lstatIsDir (joinBase (ascii "/s") ++ slash :: name) = false := by decide
  have hnames : ∀ rel st, editedSource.Present (ascii "/s") rel st →
      rel = oneFilePath ∨ rel = newPath := by
    intro rel st h
    have hmem := mem_of_flat hopen hflat h.1
    rw [List.mem_pair] at hmem
    exact hmem.imp PathBuf.eq_of_bytes_eq PathBuf.eq_of_bytes_eq
  have hpresent : ∀ rel ∈ [oneFilePath, newPath],
      editedSource.Present (ascii "/s") rel oneFileStat := by
    intro rel hrel
    refine ⟨.top hopen ?_ ?_ ?_, ?_⟩ <;> revert rel <;> decide
  have hdistinct : editedTable.Distinct := by
    unfold SnapshotTable.Distinct Slots.Distinct
    rw [show Slots.entries editedTable.slots = _ from entries_editedTable]
    decide
  have hroom : ∀ rel, editedTable.Records rel ∨ (∃ st, editedSource.Present (ascii "/s") rel st) →
      rel ∈ [oneFilePath, newPath, gonePath] := by
    rintro rel (hrec | ⟨st, h⟩)
    · rcases records_editedTable.mp hrec with rfl | rfl <;> decide
    · rcases hnames rel st h with rfl | rfl <;> decide
  obtain ⟨k, hk⟩ := poll_scan_exact editedSource (ascii "/s") editedTable hdistinct
    (readable_of_flat hopen hflat (by decide) (by decide)) ⟨_, by decide, hroom⟩
  refine ⟨k, fun fuel hfuel => ?_⟩
  obtain ⟨table', emitted, hrun, hchanges, hmirrors, hagain⟩ := hk fuel hfuel
  refine ⟨table', emitted, hrun, ?_, ?_, ?_, hmirrors, hagain⟩
  · rw [hchanges.create, records_editedTable]
    exact ⟨⟨_, hpresent _ (by simp)⟩, by decide⟩
  · rw [hchanges.modify]
    refine ⟨_, hpresent _ (by simp), recordedFile oneFilePath, ?_, rfl, Or.inl (by decide)⟩
    rw [entries_editedTable]
    exact List.mem_cons_self
  · rw [hchanges.delete, records_editedTable]
    refine ⟨Or.inr rfl, ?_⟩
    rintro ⟨st, h⟩
    exact absurd (hnames _ _ h) (by decide)

end MiniSync.Monitor
