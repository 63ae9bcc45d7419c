import MiniSync.Monitor.PollExact

/-!
# The full scan and the polling scan

The full scan goes down wherever `stat` finds a directory, the polling scan where
`lstat` does.  What the full scan records behind a symbolic link, the next polling
scan reports as deleted.
-/

namespace MiniSync.Monitor

open Prog

/-- What the full scan does with one task: the new table and what is emitted. -/
def scanStep (s : SnapshotTable × List SyncTask) (task : BuiltTask) :
    SnapshotTable × List SyncTask :=
  (recordSnapshot s.1 task, s.2 ++ [task.toSyncTask])

namespace StillSource

variable (src : StillSource)

/-- The tasks that the full scan emits below `dir`, in order. -/
def scanTasks (root : Bytes) (depth : Nat) (dir : Bytes) : List BuiltTask :=
  (src.visited src.statIsDir depth dir).filterMap (src.task .fullscan root)

/-- No symbolic link leads to a directory that has entries. -/
def NoLinkedEntries (root : Bytes) : Prop :=
  ∀ path, src.InTree src.lstatIsDir root path → src.lstatIsDir path = false →
    src.statIsDir path = true → ∀ names, src.opendir path = some names →
      ∀ name ∈ names, name = [dot] ∨ name = [dot, dot]

end StillSource

variable {src : StillSource} {root dir path : Bytes} {names : List Bytes} {task : BuiltTask}
  {table : SnapshotTable} {rel : PathBuf}

/-! ## The full scan as a fold -/

/-- What `add_watch_recursive` does with one entry. -/
def watchVisit (fuel : Nat) (child : Bytes) (table : WatchTable) :
    MonitorProg (List Bytes) WatchTable := do
  if ← isDirectory child then
    let (_, table) ← addWatchRecursive fuel child table
    return table
  else return table

/-- Watching emits nothing. -/
theorem returns_addWatchRecursive {depth : Nat} (hdepth : maxPathLen ≤ depth + dir.length) :
    ∃ k, ∀ fuel, k ≤ fuel → ∀ watch_items out,
      (addWatchRecursive fuel dir watch_items).Returns (still src)
        (fun _ out' => out' = out) out := by
  induction depth using Nat.strongRecOn generalizing dir with
  | _ depth ih =>
  cases hopen : src.opendir dir with
  | none =>
      refine ⟨1, fun fuel hfuel watch_items out => ?_⟩
      obtain ⟨fuel, rfl⟩ : ∃ k, fuel = k + 1 := ⟨fuel - 1, by omega⟩
      rw [addWatchRecursive]
      refine returns_opendir.mpr ?_
      rw [hopen]
      exact .ret rfl
  | some names =>
      have hbody : ∀ child ∈ entryPaths dir names, ∃ k, ∀ fuel, k ≤ fuel → ∀ items out,
          (watchVisit fuel child items).Returns (still src) (fun _ out' =>
            out' = ([] : List Unit).foldl (fun s _ => s) out) out := by
        intro child hmem
        obtain ⟨hlt, hmax⟩ := src.lt_of_mem hopen hmem
        obtain ⟨k, hk⟩ := @ih (depth - 1) (by omega) child (by omega)
        refine ⟨k, fun fuel hfuel items out => ?_⟩
        refine returns_isDirectory.bind ?_
        rintro b out' ⟨rfl, rfl⟩
        split_ifs
        · exact (hk fuel hfuel items out').bind fun r out'' hout => .ret hout
        · exact .ret rfl
      have hloop : ∃ k, ∀ fuel, k ≤ fuel → ∀ items out,
          (forEachEntry dir names (watchVisit fuel) fuel [] items).Returns (still src) (fun _ out' =>
            out' = ((entryPaths dir names).flatMap fun _ => ([] : List Unit)).foldl
              (fun s _ => s) out) out := returns_entries hbody
      obtain ⟨k, hk⟩ := hloop
      refine ⟨k + 1, fun fuel hfuel watch_items out => ?_⟩
      obtain ⟨fuel, rfl⟩ : ∃ k, fuel = k + 1 := ⟨fuel - 1, by omega⟩
      rw [addWatchRecursive]
      refine returns_opendir.mpr ?_
      rw [hopen]
      refine returns_inotifyAddWatch.mpr ?_
      cases src.inotifyAddWatch dir with
      | none => exact .ret rfl
      | some wd =>
          refine (hk fuel (by omega) _ out).bind ?_
          intro items out' hout
          refine .ret (hout.trans ?_)
          simp

/-- What `scan_directory_and_emit_tasks` emits for one entry. -/
def scanEmit (root path : Bytes) (vars : MonitorVars) :
    MonitorProg (List Bytes) MonitorVars := do
  match ← buildTaskFromPath .fullscan root path with
  | none => return vars
  | some task =>
      let _ ← mcall (.emitTask task.toSyncTask)
      return { vars with snapshots := recordSnapshot vars.snapshots task }

/-- How it watches a directory. -/
def scanWatch (fuel : Nat) (path : Bytes) (vars : MonitorVars) :
    MonitorProg (List Bytes) MonitorVars := do
  if vars.inotifyOpen then
    let (_, watch_items) ← addWatchRecursive fuel path vars.watch_items
    return { vars with watch_items }
  else return vars

/-- What it does with one entry. -/
def scanVisit (root : Bytes) (fuel : Nat) (path : Bytes) (vars : MonitorVars) :
    MonitorProg (List Bytes) MonitorVars := do
  let vars ← scanEmit root path vars
  if ← isDirectory path then
    let vars ← scanWatch fuel path vars
    let (_, vars) ← scanDirectoryAndEmitTasks root fuel path vars
    return vars
  else return vars

/-- `scan_directory_and_emit_tasks` folds `scanStep` over the tasks of its paths. -/
theorem returns_scanDirectory {depth : Nat} (hdepth : maxPathLen ≤ depth + dir.length) :
    ∃ k, ∀ fuel, k ≤ fuel → ∀ vars out,
      (scanDirectoryAndEmitTasks root fuel dir vars).Returns (still src) (fun r out' =>
        (r.2.snapshots, out') =
          (src.scanTasks root depth dir).foldl scanStep (vars.snapshots, out)) out := by
  induction depth using Nat.strongRecOn generalizing dir with
  | _ depth ih =>
  cases hopen : src.opendir dir with
  | none =>
      refine ⟨1, fun fuel hfuel vars out => ?_⟩
      obtain ⟨fuel, rfl⟩ : ∃ k, fuel = k + 1 := ⟨fuel - 1, by omega⟩
      rw [scanDirectoryAndEmitTasks]
      refine returns_opendir.mpr ?_
      rw [hopen, StillSource.scanTasks, src.visited_of_none hopen]
      exact .ret rfl
  | some names =>
      let below : Bytes → List BuiltTask := fun path =>
        (path :: if src.statIsDir path then
          src.visited src.statIsDir (depth - 1) path else []).filterMap
            (src.task .fullscan root)
      have hbody : ∀ path ∈ entryPaths dir names, ∃ k, ∀ fuel, k ≤ fuel → ∀ vars out,
          (scanVisit root fuel path vars).Returns (still src) (fun vars' out' =>
            Prod.mk vars'.snapshots out' =
              (below path).foldl scanStep (vars.snapshots, out)) out := by
        intro path hmem
        obtain ⟨hlt, hmax⟩ := src.lt_of_mem hopen hmem
        obtain ⟨k, hk⟩ := @ih (depth - 1) (by omega) path (by omega)
        obtain ⟨k', hk'⟩ : ∃ k, ∀ fuel, k ≤ fuel → ∀ watch_items out,
            (addWatchRecursive fuel path watch_items).Returns (still src)
              (fun _ out' => out' = out) out :=
          returns_addWatchRecursive (by omega : maxPathLen ≤ maxPathLen + path.length)
        refine ⟨max k k', fun fuel hfuel vars out => ?_⟩
        -- The path itself, then what is below it.
        have hself : (scanEmit root path vars).Returns (still src) (fun vars' out' =>
              Prod.mk vars'.snapshots out' =
                (src.task .fullscan root path).toList.foldl scanStep (vars.snapshots, out))
              out := by
          refine returns_buildTaskFromPath.bind ?_
          rintro built out' ⟨rfl, rfl⟩
          cases src.task .fullscan root path with
          | none => exact .ret rfl
          | some task => exact returns_emitTask.mpr (.ret rfl)
        have hbelow : below path = (src.task .fullscan root path).toList ++
            (if src.statIsDir path then src.scanTasks root (depth - 1) path else []) := by
          simp only [below, List.filterMap_cons]
          cases src.task .fullscan root path with
          | none =>
              split_ifs
              · rfl
              · rfl
          | some task =>
              split_ifs
              · rfl
              · rfl
        refine hself.bind ?_
        intro vars₁ out₁ h₁
        refine returns_isDirectory.bind ?_
        rintro b out' ⟨rfl, rfl⟩
        rw [hbelow, List.foldl_append, ← h₁]
        by_cases hdir : src.statIsDir path = true
        · rw [if_pos hdir, if_pos hdir]
          have hwatch : (scanWatch fuel path vars₁).Returns (still src)
              (fun vars' out'' => vars'.snapshots = vars₁.snapshots ∧ out'' = out') out' := by
            unfold scanWatch
            split_ifs
            · exact (hk' fuel (by omega) _ out').bind fun r out'' hout => .ret ⟨rfl, hout⟩
            · exact .ret ⟨rfl, rfl⟩
          refine hwatch.bind ?_
          rintro vars₂ out'' ⟨hsnap, rfl⟩
          refine (hk fuel (by omega) vars₂ out'').bind ?_
          intro r out₃ h₃
          rw [hsnap] at h₃
          exact .ret h₃
        · rw [if_neg hdir, if_neg hdir]
          exact .ret rfl
      have hloop : ∃ k, ∀ fuel, k ≤ fuel → ∀ vars out,
          (forEachEntry dir names (scanVisit root fuel) fuel [] vars).Returns (still src)
            (fun vars' out' => Prod.mk vars'.snapshots out' =
              ((entryPaths dir names).flatMap below).foldl scanStep (vars.snapshots, out)) out :=
        returns_entries hbody
      obtain ⟨k, hk⟩ := hloop
      refine ⟨k + 1, fun fuel hfuel vars out => ?_⟩
      obtain ⟨fuel, rfl⟩ : ∃ k, fuel = k + 1 := ⟨fuel - 1, by omega⟩
      rw [scanDirectoryAndEmitTasks]
      refine returns_opendir.mpr ?_
      rw [hopen, StillSource.scanTasks, src.visited_eq hdepth hopen, List.filterMap_flatMap]
      exact (hk fuel (by omega) vars out).bind fun vars' out' h => .ret h

/-! ## What the full scan records -/

theorem recordSnapshot_spec (hd : table.Distinct)
    (hslot : snapshotSlot table task.rel_path ≠ none) :
    (recordSnapshot table task).Distinct ∧ ∀ rel, (recordSnapshot table task).get rel =
      if rel = task.rel_path then some task.snapshot else table.get rel := by
  unfold recordSnapshot
  cases hidx : snapshotSlot table task.rel_path with
  | none => exact absurd hidx hslot
  | some idx =>
      have hholds : Slots.Holds FileSnapshot.rel_path table.slots idx task.snapshot.rel_path := by
        unfold snapshotSlot at hidx
        cases hfind : snapshotFind table task.rel_path with
        | none =>
            rw [hfind] at hidx
            exact Or.inr ⟨Slots.free?_eq_some hidx, Slots.find?_eq_none_iff_get?.mp hfind⟩
        | some i =>
            rw [hfind] at hidx
            cases hidx
            obtain ⟨entry, hentry, hget⟩ := hd.get?_of_find? hfind
            exact Or.inl ⟨entry, hentry, (Slots.mem_of_get? hget).2⟩
      exact ⟨hd.set_of_holds hholds, fun rel => hd.get?_set hholds⟩

/-- The table after the tasks of a full scan. -/
theorem foldl_scanStep {all : List PathBuf} {tasks : List BuiltTask} (out : List SyncTask)
    (hd : table.Distinct) (hroom : Room all table) (hall : ∀ task ∈ tasks, task.rel_path ∈ all)
    (hnodup : (tasks.map fun task => task.rel_path).Nodup) :
    ∃ table', (tasks.foldl scanStep (table, out)).1 = table' ∧ table'.Distinct ∧
      Room all table' ∧ (∀ task ∈ tasks, table'.get task.rel_path = some task.snapshot) ∧
      ∀ rel, (∀ task ∈ tasks, task.rel_path ≠ rel) → table'.get rel = table.get rel := by
  induction tasks generalizing table out with
  | nil => exact ⟨table, rfl, hd, hroom, by simp, fun rel _ => rfl⟩
  | cons task tasks ih =>
      rw [List.map_cons, List.nodup_cons] at hnodup
      have hmem := hall task List.mem_cons_self
      obtain ⟨hd₁, hget₁⟩ := recordSnapshot_spec hd (hroom.slot hd hmem)
      have hroom₁ : Room all (recordSnapshot table task) := by
        refine ⟨hroom.length_le, fun rel hrel => ?_⟩
        rw [hget₁] at hrel
        by_cases heq : rel = task.rel_path
        · exact heq ▸ hmem
        · rw [if_neg heq] at hrel
          exact hroom.covers rel hrel
      obtain ⟨table', hfold, hd', hroom', htasks, hother⟩ := ih (out ++ [task.toSyncTask]) hd₁
        hroom₁ (fun t ht => hall t (List.mem_cons_of_mem _ ht)) hnodup.2
      refine ⟨table', hfold, hd', hroom', ?_, ?_⟩
      · intro t ht
        rcases List.mem_cons.mp ht with rfl | ht
        · have hfirst : ∀ t' ∈ tasks, t'.rel_path ≠ t.rel_path := by
            intro t' ht' heq
            exact hnodup.1 (List.mem_map.mpr ⟨t', ht', heq⟩)
          rw [hother _ hfirst, hget₁, if_pos rfl]
        · exact htasks t ht
      · intro rel hrel
        rw [hother rel (fun t ht => hrel t (List.mem_cons_of_mem _ ht)), hget₁,
          if_neg (hrel task List.mem_cons_self).symm]

/-! ## Where the two scans go -/

theorem StillSource.statIsDir_of_lstat (h : src.lstatIsDir path = true) :
    src.statIsDir path = true := by
  unfold StillSource.lstatIsDir at h
  cases hst : src.lstat path with
  | none =>
      rw [hst] at h
      cases h
  | some st =>
      rw [hst, Option.any_some] at h
      rw [StillSource.statIsDir, src.stat_dir hst h]
      exact h

theorem StillSource.InTree.mono {enters enters' : Bytes → Bool}
    (h : src.InTree enters root path) (hle : ∀ dir, enters dir = true → enters' dir = true) :
    src.InTree enters' root path := by
  induction h with
  | top hopen hname hdot hdotdot => exact .top hopen hname hdot hdotdot
  | under _ henters hopen hname hdot hdotdot ih =>
      exact .under ih (hle _ henters) hopen hname hdot hdotdot

theorem StillSource.Readable.of_stat (h : src.Readable src.statIsDir root) :
    src.Readable src.lstatIsDir root where
  opens_root := h.opens_root
  opens dir hdir henters := h.opens dir (hdir.mono fun _ => StillSource.statIsDir_of_lstat)
    (StillSource.statIsDir_of_lstat henters)
  fits path hpath := h.fits path (hpath.mono fun _ => StillSource.statIsDir_of_lstat)
  accepted path hpath := h.accepted path (hpath.mono fun _ => StillSource.statIsDir_of_lstat)

theorem StillSource.of_mem_scanTasks (h : task ∈ src.scanTasks root maxPathLen root) :
    src.InTree src.statIsDir root (joinBase root ++ slash :: task.rel_path.bytes) ∧
      ∀ st, src.lstat (joinBase root ++ slash :: task.rel_path.bytes) = some st →
        task.file_size = st.st_size ∧ task.mtime = st.st_mtime ∧ task.mode = st.st_mode := by
  obtain ⟨path, hpath, htask⟩ := List.mem_filterMap.mp h
  have hvisits := (src.mem_visited (by omega)).mp hpath
  obtain ⟨name, hbelow⟩ := hvisits.lies_below
  obtain ⟨rfl, -, hfields⟩ := src.task_eq_some hbelow htask
  exact ⟨hvisits.inTree, hfields⟩

theorem StillSource.Readable.mem_scanTasks (h : src.Readable src.statIsDir root)
    (hpath : src.InTree src.statIsDir root path) :
    ∃ task ∈ src.scanTasks root maxPathLen root,
      path = joinBase root ++ slash :: task.rel_path.bytes := by
  obtain ⟨task, htask⟩ := Option.isSome_iff_exists.mp
    (StillSource.task_isSome (h.fits _ hpath) (h.accepted _ hpath) :
      (src.task .fullscan root path).isSome)
  have hvisits := h.visits hpath
  obtain ⟨name, hbelow⟩ := hvisits.lies_below
  exact ⟨task, List.mem_filterMap.mpr ⟨path, (src.mem_visited (by omega)).mpr hvisits, htask⟩,
    (src.task_eq_some hbelow htask).1⟩

/-- The scans reach the same paths exactly if no link leads to a directory with
entries. -/
theorem StillSource.Readable.same_paths_iff (h : src.Readable src.statIsDir root) :
    (∀ path, src.InTree src.statIsDir root path → src.InTree src.lstatIsDir root path) ↔
      src.NoLinkedEntries root := by
  constructor
  · intro hsame link hlink hnot hdir names hopen name hname
    by_contra hdots
    rw [not_or] at hdots
    have hentry : src.InTree src.statIsDir root (joinBase link ++ slash :: name) :=
      .under (hlink.mono fun _ => StillSource.statIsDir_of_lstat) hdir hopen hname hdots.1 hdots.2
    obtain ⟨first, hfirst⟩ := (h.of_stat.visits hlink).lies_below
    have hslash := src.no_slash hopen name hname
    -- A path has one parent, and the parent of this one is the link.
    have hparent : ∀ dir other, slash ∉ other →
        joinBase link ++ slash :: name = joinBase dir ++ slash :: other →
        joinBase link = joinBase dir := by
      intro dir other hother heq
      have hrev := congrArg (fun l => (l.reverse.dropWhile (· ≠ slash)).tail.reverse) heq
      have hcut : ∀ u n : Bytes, slash ∉ n →
          ((u ++ slash :: n).reverse.dropWhile (· ≠ slash)).tail.reverse = u := by
        intro u n hn
        have hall : ∀ b ∈ n.reverse, decide (b ≠ slash) = true := by
          intro b hb
          have hbs : b ≠ slash := fun hbs => hn (hbs ▸ List.mem_reverse.mp hb)
          simpa using hbs
        rw [List.reverse_append, List.reverse_cons, List.append_assoc,
          List.dropWhile_append_of_pos hall]
        simp
      simpa only [hcut _ _ hslash, hcut _ _ hother] using hrev
    have hlong : (joinBase root).length < link.length := by
      have := hfirst.length_lt
      have hle := (joinBase_isPrefix root).length_le
      omega
    have hcases := hsame _ hentry
    generalize hpath : joinBase link ++ slash :: name = path at hcases
    cases hcases with
    | top hopen' hname' _ _ =>
        have heq := hparent root _ (src.no_slash hopen' _ hname') hpath
        rw [hfirst.joinBase_eq] at heq
        rw [← heq] at hlong
        exact Nat.lt_irrefl _ hlong
    | @under _ dir _ hreached henters hopen' hname' _ _ =>
        have heq := hparent dir _ (src.no_slash hopen' _ hname') hpath
        obtain ⟨_, hdirbelow⟩ := (h.of_stat.visits hreached).lies_below
        rw [hfirst.joinBase_eq, hdirbelow.joinBase_eq] at heq
        rw [← heq, hnot] at henters
        cases henters
  · intro hnone path hpath
    induction hpath with
    | top hopen hname hdot hdotdot => exact .top hopen hname hdot hdotdot
    | @under names dir name _ henters hopen hname hdot hdotdot ih =>
        cases hdir : src.lstatIsDir dir with
        | true => exact .under ih hdir hopen hname hdot hdotdot
        | false =>
            rcases hnone dir ih hdir henters names hopen name hname with heq | heq
            · exact absurd heq hdot
            · exact absurd heq hdotdot

/-- The table after a full scan: it records what has been scanned, and nothing else. -/
structure FullyScanned (src : StillSource) (root : Bytes) (all : List PathBuf)
    (table : SnapshotTable) : Prop where
  distinct : table.Distinct
  room : Room all table
  scanned : ∀ task ∈ src.scanTasks root maxPathLen root,
    table.get task.rel_path = some task.snapshot
  only : ∀ rel, table.Records rel →
    ∃ task ∈ src.scanTasks root maxPathLen root, task.rel_path = rel

/-- What a polling pass emits after a full scan: deletions of what only the full
scan reaches. -/
theorem FullyScanned.pass_quiet_iff {all : List PathBuf} (h : FullyScanned src root all table)
    (hreadable : src.Readable src.statIsDir root) :
    (pass src root table).2 = [] ↔ src.NoLinkedEntries root := by
  obtain ⟨hd, hroom, hscanned, honly⟩ := h
  have hpolled : ∀ task ∈ passTasks src root,
      ∃ scanned ∈ src.scanTasks root maxPathLen root, scanned.rel_path = task.rel_path ∧
        scanned.snapshot.differs task.toSyncTask = false := by
    intro task hmem
    obtain ⟨st, ⟨htree, hst⟩, hsize, hmtime, hmode⟩ := hreadable.of_stat.of_mem_pollTasks hmem
    obtain ⟨scanned, hscan, hpath⟩ := hreadable.mem_scanTasks
      (htree.mono fun _ => StillSource.statIsDir_of_lstat)
    rw [List.append_cancel_left_eq, List.cons.injEq] at hpath
    have hrel := PathBuf.eq_of_bytes_eq hpath.2
    obtain ⟨h₁, h₂, h₃⟩ := (src.of_mem_scanTasks hscan).2 st (by rw [← hrel]; exact hst)
    refine ⟨scanned, hscan, hrel.symm, ?_⟩
    rw [← Bool.not_eq_true, differs_iff hsize hmtime hmode]
    rintro (hne | hne | hne)
    · exact hne h₁
    · exact hne h₂
    · exact hne h₃
  have hnamed : ∀ task ∈ passTasks src root, task.rel_path ∈ all := by
    intro task hmem
    obtain ⟨scanned, hscan, hrel, -⟩ := hpolled task hmem
    refine hrel ▸ hroom.covers _ ?_
    rw [hscanned scanned hscan]
    simp
  obtain ⟨-, -, unseen, hout, -, hunseen⟩ := pass_spec hd hroom hnamed
  have hquiet : passEmits src root table = [] := by
    rw [List.eq_nil_iff_forall_not_mem]
    intro t ht
    obtain ⟨task, hmem, hemit⟩ := mem_passEmits.mp ht
    obtain ⟨scanned, hscan, hrel, hsame⟩ := hpolled task hmem
    rw [← hrel, hscanned scanned hscan, pollEmits, hsame] at hemit
    cases hemit
  rw [hout, hquiet, List.nil_append, List.map_eq_nil_iff, ← hreadable.same_paths_iff]
  constructor
  · rintro rfl path hpath
    obtain ⟨scanned, hscan, rfl⟩ := hreadable.mem_scanTasks hpath
    have hrec : table.Records scanned.rel_path := by
      rw [SnapshotTable.records_iff, hscanned scanned hscan]
      simp
    by_contra hnot
    refine absurd ((hunseen scanned.rel_path).mpr ⟨hrec, fun task hmem hrel => hnot ?_⟩) (by simp)
    obtain ⟨st, ⟨htree, -⟩, -⟩ := hreadable.of_stat.of_mem_pollTasks hmem
    rwa [hrel] at htree
  · intro hsame
    rw [List.eq_nil_iff_forall_not_mem]
    intro entry hentry
    obtain ⟨hrec, hnone⟩ := (hunseen entry.rel_path).mp (List.mem_map_of_mem hentry)
    obtain ⟨scanned, hscan, hrel⟩ := honly _ hrec
    have htree := hsame _ (src.of_mem_scanTasks hscan).1
    obtain ⟨st, hst⟩ := Option.isSome_iff_exists.mp (hreadable.of_stat.visits htree).lstat
    obtain ⟨task, hmem, htask⟩ := hreadable.of_stat.mem_pollTasks ⟨htree, hst⟩
    exact hnone task hmem (htask.trans hrel)

/-- A full scan into an empty table records what it has scanned, and nothing else. -/
theorem exists_run_full_scan (src : StillSource) (root : Bytes) (watch_items : WatchTable)
    (inotifyOpen : Bool)
    (hroom : ∃ all : List PathBuf, all.length ≤ maxSnapshots ∧ ∀ rel : PathBuf,
      src.InTree src.statIsDir root (joinBase root ++ slash :: rel.bytes) → rel ∈ all) :
    ∃ k, ∀ fuel, k ≤ fuel → ∃ rc vars emitted,
      (scanDirectoryAndEmitTasks root fuel root
        ⟨watch_items, SnapshotTable.empty, inotifyOpen⟩).run (still src) [] =
          some ((rc, vars), emitted) ∧ ∃ all, FullyScanned src root all vars.snapshots := by
  obtain ⟨all, hlen, hmem⟩ := hroom
  have hscan : ∃ k, ∀ fuel, k ≤ fuel → ∀ vars out,
      (scanDirectoryAndEmitTasks root fuel root vars).Returns (still src) (fun r out' =>
        (r.2.snapshots, out') =
          (src.scanTasks root maxPathLen root).foldl scanStep (vars.snapshots, out)) out :=
    returns_scanDirectory (by omega)
  obtain ⟨k, hk⟩ := hscan
  refine ⟨k, fun fuel hfuel => ?_⟩
  obtain ⟨⟨rc, vars⟩, emitted, hrun, hfold⟩ :=
    hk fuel hfuel ⟨watch_items, SnapshotTable.empty, inotifyOpen⟩ []
  have hempty : Room all SnapshotTable.empty := ⟨hlen, fun rel h => absurd (get_empty rel) h⟩
  have hall : ∀ task ∈ src.scanTasks root maxPathLen root, task.rel_path ∈ all :=
    fun task h => hmem _ (src.of_mem_scanTasks h).1
  obtain ⟨table', htable, hd, hroom', hscanned, hother⟩ :=
    foldl_scanStep [] distinct_empty hempty hall src.nodup_tasks
  have hsnap : vars.snapshots = table' := (congrArg Prod.fst hfold).trans htable
  rw [← hsnap] at hd hroom' hscanned hother
  refine ⟨rc, vars, emitted, hrun, all, hd, hroom', hscanned, fun rel hrec => ?_⟩
  by_contra hnone
  have hget := hother rel fun task h heq => hnone ⟨task, h, heq⟩
  rw [get_empty] at hget
  exact SnapshotTable.records_iff.mp hrec hget

/-- After a full scan into an empty table, the polling scan of the unchanged
source emits nothing if and only if no symbolic link leads to a directory that has
entries. -/
theorem poll_quiet_after_full_scan_iff (src : StillSource) (root : Bytes)
    (watch_items : WatchTable) (inotifyOpen : Bool)
    (hreadable : src.Readable src.statIsDir root)
    (hroom : ∃ all : List PathBuf, all.length ≤ maxSnapshots ∧ ∀ rel : PathBuf,
      src.InTree src.statIsDir root (joinBase root ++ slash :: rel.bytes) → rel ∈ all) :
    ∃ k, ∀ fuel, k ≤ fuel → ∃ rc vars emitted table polled,
      (scanDirectoryAndEmitTasks root fuel root
        ⟨watch_items, SnapshotTable.empty, inotifyOpen⟩).run (still src) [] =
          some ((rc, vars), emitted) ∧
      (pollScanAndEmitChanges fuel root vars.snapshots).run (still src) [] =
        some (table, polled) ∧
      (polled = [] ↔ src.NoLinkedEntries root) := by
  obtain ⟨k, hk⟩ := exists_run_full_scan src root watch_items inotifyOpen hroom
  obtain ⟨k', hk'⟩ := exists_run_pass src root
  refine ⟨max k k', fun fuel hfuel => ?_⟩
  obtain ⟨rc, vars, emitted, hrun, all, hscanned⟩ := hk fuel (by omega)
  exact ⟨rc, vars, emitted, _, _, hrun, hk' fuel (by omega) vars.snapshots,
    hscanned.pass_quiet_iff hreadable⟩

theorem poll_quiet_after_full_scan_oneFile :
    ∃ k, ∀ fuel, k ≤ fuel → ∃ rc vars emitted table polled,
      (scanDirectoryAndEmitTasks (ascii "/s") fuel (ascii "/s")
        ⟨WatchTable.empty, SnapshotTable.empty, true⟩).run (still oneFileSource) [] =
          some ((rc, vars), emitted) ∧
      (pollScanAndEmitChanges fuel (ascii "/s") vars.snapshots).run (still oneFileSource) [] =
        some (table, polled) ∧
      (polled = [] ↔ oneFileSource.NoLinkedEntries (ascii "/s")) := by
  have henters : oneFileSource.statIsDir (ascii "/s/f") = false := by decide
  refine poll_quiet_after_full_scan_iff oneFileSource (ascii "/s") WatchTable.empty true
    (oneFile_readable henters) ⟨[oneFilePath], by decide, fun rel h => ?_⟩
  rw [oneFile_rel henters h]
  exact List.mem_singleton_self _

/-! ## A link to a directory -/

def linkTarget : StatBuf := ⟨4096, 0o040755, 0⟩

/-- `/s/l` is a symbolic link to a directory that holds the regular file `x`. -/
def linkSource : StillSource :=
  tabulated [(ascii "/s", [ascii "l"]), (ascii "/s/l", [ascii "x"])]
    [(ascii "/s/l", ⟨4, 0o120777, 0⟩), (ascii "/s/l/x", oneFileStat)]
    [(ascii "/s/l", linkTarget), (ascii "/s/l/x", oneFileStat)] (by decide) (by decide)

theorem linkSource_inTree (h : linkSource.InTree linkSource.statIsDir (ascii "/s") path) :
    path = ascii "/s/l" ∨ path = ascii "/s/l/x" := by
  induction h with
  | @top names name hopen hname _ _ =>
      cases hopen.symm.trans (by decide : linkSource.opendir (ascii "/s") = some [ascii "l"])
      rw [List.mem_singleton.mp hname]
      exact Or.inl (by decide)
  | @under names dir name _ hdir hopen hname _ _ ih =>
      rcases ih with rfl | rfl
      · cases hopen.symm.trans (by decide : linkSource.opendir (ascii "/s/l") = some [ascii "x"])
        rw [List.mem_singleton.mp hname]
        exact Or.inr (by decide)
      · exact absurd hdir (by decide)

/-- The scans do not agree: the polling scan deletes `l/x` again. -/
theorem poll_deletes_behind_link :
    ¬ ∀ (src : StillSource) (root : Bytes), src.Readable src.statIsDir root →
      (∃ all : List PathBuf, all.length ≤ maxSnapshots ∧ ∀ rel : PathBuf,
        src.InTree src.statIsDir root (joinBase root ++ slash :: rel.bytes) → rel ∈ all) →
      ∀ fuel rc vars emitted table polled,
        (scanDirectoryAndEmitTasks root fuel root
          ⟨WatchTable.empty, SnapshotTable.empty, true⟩).run (still src) [] =
            some ((rc, vars), emitted) →
        (pollScanAndEmitChanges fuel root vars.snapshots).run (still src) [] =
          some (table, polled) →
        polled = [] := by
  intro h
  have hreadable : linkSource.Readable linkSource.statIsDir (ascii "/s") := by
    refine ⟨by decide, fun dir hdir _ => ?_, fun path hpath => ?_, fun path hpath => ?_⟩
    · rcases linkSource_inTree hdir with rfl | rfl
      · decide
      · rename_i hd
        exact absurd hd (by decide)
    · rcases linkSource_inTree hpath with rfl | rfl <;> decide
    · rcases linkSource_inTree hpath with rfl | rfl <;> decide
  have hroom : ∃ all : List PathBuf, all.length ≤ maxSnapshots ∧ ∀ rel : PathBuf,
      linkSource.InTree linkSource.statIsDir (ascii "/s")
        (joinBase (ascii "/s") ++ slash :: rel.bytes) → rel ∈ all := by
    refine ⟨[⟨ascii "l", by decide, by decide⟩, ⟨ascii "l/x", by decide, by decide⟩], by decide,
      fun rel hrel => ?_⟩
    have hbase : joinBase (ascii "/s") = ascii "/s" := by decide
    rw [hbase] at hrel
    rcases linkSource_inTree hrel with heq | heq
    · have hbytes : rel.bytes = ascii "l" := by
        have hl : ascii "/s/l" = ascii "/s" ++ slash :: ascii "l" := by decide
        rw [hl, List.append_cancel_left_eq, List.cons.injEq] at heq
        exact heq.2
      exact List.mem_cons.mpr (Or.inl (PathBuf.eq_of_bytes_eq hbytes))
    · have hbytes : rel.bytes = ascii "l/x" := by
        have hl : ascii "/s/l/x" = ascii "/s" ++ slash :: ascii "l/x" := by decide
        rw [hl, List.append_cancel_left_eq, List.cons.injEq] at heq
        exact heq.2
      exact List.mem_cons_of_mem _ (List.mem_singleton.mpr (PathBuf.eq_of_bytes_eq hbytes))
  obtain ⟨k, hk⟩ := exists_run_full_scan linkSource (ascii "/s") WatchTable.empty true hroom
  obtain ⟨k', hk'⟩ := exists_run_pass linkSource (ascii "/s")
  obtain ⟨rc, vars, emitted, hscan, all, hscanned⟩ := hk (max k k') (le_max_left k k')
  have hpoll := hk' (max k k') (le_max_right k k') vars.snapshots
  have hquiet := h linkSource _ hreadable hroom _ rc vars emitted _ _ hscan hpoll
  have hnone := (hscanned.pass_quiet_iff hreadable).mp hquiet
  have hlink : linkSource.InTree linkSource.lstatIsDir (ascii "/s") (ascii "/s/l") := by
    have hl : ascii "/s/l" = joinBase (ascii "/s") ++ slash :: ascii "l" := by decide
    rw [hl]
    exact .top (by decide : linkSource.opendir (ascii "/s") = some [ascii "l"]) (by decide)
      (by decide) (by decide)
  have := hnone _ hlink (by decide) (by decide) [ascii "x"] (by decide) (ascii "x") (by decide)
  revert this
  decide

end MiniSync.Monitor
