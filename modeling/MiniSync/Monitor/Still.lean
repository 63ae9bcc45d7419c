import MiniSync.Monitor.Scan

/-!
# Scans of a source that does not change

While nothing changes, the answers to the calls about the source are functions of
the path name.  A scan is then a fold over the list of paths it visits, which
depends on the source alone.
-/

namespace MiniSync.Monitor

open Prog

/-- A source directory that does not change: for each path name the entries that
`readdir` returns, where `opendir` succeeds, and the answers of `lstat` (about a
link itself) and `stat` (about what it leads to). -/
structure StillSource where
  opendir : Bytes → Option (List Bytes)
  lstat : Bytes → Option StatBuf
  stat : Bytes → Option StatBuf
  inotifyAddWatch : Bytes → Option Int
  nodup : ∀ {dir names}, opendir dir = some names → names.Nodup
  ne_nil : ∀ {dir names}, opendir dir = some names → ∀ name ∈ names, name ≠ []
  no_slash : ∀ {dir names}, opendir dir = some names → ∀ name ∈ names, slash ∉ name
  noNul : ∀ {dir names}, opendir dir = some names → ∀ name ∈ names, nul ∉ name
  exist : ∀ {dir names}, opendir dir = some names →
    ∀ name ∈ names, (lstat (joinBase dir ++ slash :: name)).isSome
  /-- Only a link leads elsewhere. -/
  stat_dir : ∀ {path st}, lstat path = some st → sIsDir st.st_mode = true → stat path = some st

/-- A source given by finite tables. -/
def tabulated (dirs : List (Bytes × List Bytes)) (lstats stats : List (Bytes × StatBuf))
    (hnames : ∀ e ∈ dirs, e.2.Nodup ∧ ∀ name ∈ e.2, name ≠ [] ∧ slash ∉ name ∧ nul ∉ name ∧
      (lstats.lookup (joinBase e.1 ++ slash :: name)).isSome)
    (hdirs : ∀ e ∈ lstats, sIsDir e.2.st_mode = true → stats.lookup e.1 = some e.2) :
    StillSource :=
  have hmem : ∀ {γ : Type} {l : List (Bytes × γ)} {a : Bytes} {b : γ},
      l.lookup a = some b → (a, b) ∈ l := by
    intro γ l a b h
    obtain ⟨l₁, l₂, rfl, -⟩ := List.lookup_eq_some_iff.mp h
    simp
  { opendir := fun path => dirs.lookup path
    lstat := fun path => lstats.lookup path
    stat := fun path => stats.lookup path
    inotifyAddWatch := fun _ => some 1
    nodup := fun h => (hnames _ (hmem h)).1
    ne_nil := fun h name hname => ((hnames _ (hmem h)).2 name hname).1
    no_slash := fun h name hname => ((hnames _ (hmem h)).2 name hname).2.1
    noNul := fun h name hname => ((hnames _ (hmem h)).2 name hname).2.2.1
    exist := fun h name hname => ((hnames _ (hmem h)).2 name hname).2.2.2
    stat_dir := fun h hdir => hdirs _ (hmem h) hdir }

/-- The answers to the calls; the state is what has been emitted. -/
def still (src : StillSource) :
    (c : MonitorCall (List Bytes)) → List SyncTask → MonitorResp c × List SyncTask
  | .opendir path, out => (src.opendir path, out)
  | .readdir dp returned, out => (dp[returned.length]?, out)
  | .lstat path, out => (src.lstat path, out)
  | .stat path, out => (src.stat path, out)
  | .inotifyAddWatch path, out => (src.inotifyAddWatch path, out)
  | .emitTask task, out => (.ok, out ++ [task])
  | .currentTimeMs, out => ((0 : Int), out)

/-- The paths of the entries of a directory that a scan looks at. -/
def entryPaths (dir : Bytes) (names : List Bytes) : List Bytes :=
  names.filterMap fun name => if name = [dot] ∨ name = [dot, dot] then none else joinPath dir name

namespace StillSource

variable (src : StillSource)

/-- The paths a scan visits that goes below the paths which `enters`, in order. -/
def visited (enters : Bytes → Bool) : Nat → Bytes → List Bytes
  | 0, _ => []
  | depth + 1, dir =>
      match src.opendir dir with
      | none => []
      | some names => (entryPaths dir names).flatMap fun path =>
          path :: if enters path then visited enters depth path else []

/-- The path is reached from the root by going below paths which `enters`. -/
inductive Visits (enters : Bytes → Bool) (root : Bytes) : Bytes → Prop
  | top {names : List Bytes} {path : Bytes} (opens : src.opendir root = some names)
      (mem : path ∈ entryPaths root names) : Visits enters root path
  | under {names : List Bytes} {dir path : Bytes} (reached : Visits enters root dir)
      (enters_dir : enters dir = true) (opens : src.opendir dir = some names)
      (mem : path ∈ entryPaths dir names) : Visits enters root path

/-- `is_directory` -/
def statIsDir (path : Bytes) : Bool := (src.stat path).any fun st => sIsDir st.st_mode

/-- `build_task_from_path` -/
def task (event_type : EventType) (root path : Bytes) : Option BuiltTask :=
  match PathBuf.ofBytes? path, (getRelativePath root path).bind PathBuf.ofBytes? with
  | some src_path, some rel_path =>
      let task := { initSyncTask with event_type, src_path, rel_path }
      match src.lstat path with
      | none => some { task with is_dir_eq := zero_sIsDir }
      | some st => some { task with
          file_size := st.st_size
          mode := st.st_mode
          mtime := st.st_mtime
          is_dir := sIsDir st.st_mode
          is_dir_eq := st.isDir_eq }
  | _, _ => none

/-- Where the polling scan goes on. -/
def pollEnters (root path : Bytes) : Bool :=
  (src.task .modify root path).any (·.is_dir)

end StillSource

/-! ## Paths of entries -/

variable {src : StillSource} {root dir path : Bytes} {names : List Bytes}
  {enters : Bytes → Bool}

theorem mem_entryPaths :
    path ∈ entryPaths dir names ↔
      ∃ name ∈ names, name ≠ [dot] ∧ name ≠ [dot, dot] ∧ joinPath dir name = some path := by
  unfold entryPaths
  rw [List.mem_filterMap]
  constructor
  · rintro ⟨name, hname, h⟩
    split_ifs at h with hdots
    rw [not_or] at hdots
    exact ⟨name, hname, hdots.1, hdots.2, h⟩
  · rintro ⟨name, hname, hdot, hdotdot, h⟩
    exact ⟨name, hname, by rw [if_neg (by simp [hdot, hdotdot])]; exact h⟩

theorem StillSource.head_ne (hopen : src.opendir dir = some names) {name : Bytes}
    (hname : name ∈ names) : name.head? ≠ some slash :=
  fun h => src.no_slash hopen name hname (List.mem_of_mem_head? h)

/-- A path is longer than the directory it is in. -/
theorem StillSource.lt_of_mem (hopen : src.opendir dir = some names)
    (h : path ∈ entryPaths dir names) : dir.length < path.length ∧ path.length < maxPathLen := by
  obtain ⟨name, hname, -, -, hjoin⟩ := mem_entryPaths.mp h
  obtain ⟨rfl, hlen⟩ := (joinPath_eq_some (src.head_ne hopen hname)).mp hjoin
  refine ⟨?_, hlen⟩
  have hpos : 0 < name.length := List.length_pos_iff.mpr (src.ne_nil hopen name hname)
  have hbase : dir.length ≤ (joinBase dir).length + 1 := by
    unfold joinBase
    split_ifs
    · rw [List.length_dropLast]
      omega
    · omega
  rw [List.length_append, List.length_cons]
  omega

theorem StillSource.mem_visited {depth : Nat} (hdepth : maxPathLen ≤ depth + root.length) :
    path ∈ src.visited enters depth root ↔ src.Visits enters root path := by
  constructor
  · intro h
    clear hdepth
    -- Every path in the list of a directory that is reached is itself reached.
    suffices hall : ∀ depth dir, (dir = root ∨ src.Visits enters root dir ∧ enters dir = true) →
        ∀ path ∈ src.visited enters depth dir, src.Visits enters root path from
      hall depth root (Or.inl rfl) path h
    intro depth
    induction depth with
    | zero => intro dir _ path hmem; simp [visited] at hmem
    | succ depth ih =>
        intro dir hdir path hmem
        rw [visited] at hmem
        split at hmem
        · simp at hmem
        · rename_i names hopen
          obtain ⟨entry, hentry, hmem⟩ := List.mem_flatMap.mp hmem
          have hreached : src.Visits enters root entry := by
            rcases hdir with rfl | ⟨hvisits, henters⟩
            · exact .top hopen hentry
            · exact .under hvisits henters hopen hentry
          rcases List.mem_cons.mp hmem with rfl | hmem
          · exact hreached
          · split_ifs at hmem with henters
            · exact ih entry (Or.inr ⟨hreached, henters⟩) path hmem
            · simp at hmem
  · intro h
    suffices hall : ∀ path, src.Visits enters root path →
        ∃ k, maxPathLen ≤ k + path.length ∧ path ∈ src.visited enters depth root ∧
          (enters path = true → ∀ below ∈ src.visited enters k path,
            below ∈ src.visited enters depth root) by
      obtain ⟨k, -, hmem, -⟩ := hall path h
      exact hmem
    -- What an entry of a listed directory adds to the list.
    have hstep : ∀ k dir names path, maxPathLen ≤ k + dir.length →
        src.opendir dir = some names → path ∈ entryPaths dir names →
        ∃ k', maxPathLen ≤ k' + path.length ∧ path ∈ src.visited enters k dir ∧
          (enters path = true → ∀ below ∈ src.visited enters k' path,
            below ∈ src.visited enters k dir) := by
      intro k dir names path hk hopen hmem
      obtain ⟨hlt, hmax⟩ := src.lt_of_mem hopen hmem
      obtain ⟨k', rfl⟩ : ∃ k', k = k' + 1 := ⟨k - 1, by omega⟩
      refine ⟨k', by omega, ?_, ?_⟩
      · rw [visited, hopen]
        exact List.mem_flatMap.mpr ⟨path, hmem, List.mem_cons_self⟩
      · intro henters below hbelow
        rw [visited, hopen]
        refine List.mem_flatMap.mpr ⟨path, hmem, List.mem_cons_of_mem _ ?_⟩
        rw [if_pos henters]
        exact hbelow
    intro path hvisits
    induction hvisits with
    | top hopen hmem => exact hstep depth root _ _ hdepth hopen hmem
    | @under names dir path hreached henters hopen hmem ih =>
        obtain ⟨k, hk, -, hbelow⟩ := ih
        obtain ⟨k', hk', hpath, hrest⟩ := hstep k dir _ _ hk hopen hmem
        exact ⟨k', hk', hbelow henters _ hpath,
          fun hpe b hb => hbelow henters _ (hrest hpe b hb)⟩

/-! ## Single calls -/

section Calls

variable {α : Type} {Q : α → List SyncTask → Prop} {out : List SyncTask}

theorem returns_opendir {f : Option (List Bytes) → MonitorProg (List Bytes) α} :
    (mcall (.opendir path) >>= f).Returns (still src) Q out ↔
      (f (src.opendir path)).Returns (still src) Q out := Iff.rfl

theorem returns_readdir {dp returned : List Bytes}
    {f : Option Bytes → MonitorProg (List Bytes) α} :
    (mcall (.readdir dp returned) >>= f).Returns (still src) Q out ↔
      (f dp[returned.length]?).Returns (still src) Q out := Iff.rfl

theorem returns_lstat {f : Option StatBuf → MonitorProg (List Bytes) α} :
    (mcall (.lstat path) >>= f).Returns (still src) Q out ↔
      (f (src.lstat path)).Returns (still src) Q out := Iff.rfl

theorem returns_stat {f : Option StatBuf → MonitorProg (List Bytes) α} :
    (mcall (.stat path) >>= f).Returns (still src) Q out ↔
      (f (src.stat path)).Returns (still src) Q out := Iff.rfl

theorem returns_inotifyAddWatch {f : Option Int → MonitorProg (List Bytes) α} :
    (mcall (.inotifyAddWatch path) >>= f).Returns (still src) Q out ↔
      (f (src.inotifyAddWatch path)).Returns (still src) Q out := Iff.rfl

theorem returns_emitTask {task : SyncTask} {f : Rc → MonitorProg (List Bytes) α} :
    (mcall (.emitTask task) >>= f).Returns (still src) Q out ↔
      (f .ok).Returns (still src) Q (out ++ [task]) := Iff.rfl

end Calls

/-! ## The shared loop -/

section Loop

variable {V : Type} {body : Bytes → V → MonitorProg (List Bytes) V}

/-- The loop rule: what the body keeps, told the paths done so far, holds at the
end of all the paths of the directory. -/
theorem returns_forEachEntry {Inv : List Bytes → V → List SyncTask → Prop}
    {rest returned done : List Bytes} {fuel : Nat} {v : V} {out : List SyncTask}
    (hbody : ∀ done path v out, path ∈ entryPaths dir rest → Inv done v out →
      (body path v).Returns (still src) (Inv (done ++ [path])) out)
    (hnames : names = returned ++ rest) (hfuel : rest.length < fuel) (h : Inv done v out) :
    (forEachEntry dir names body fuel returned v).Returns (still src)
      (Inv (done ++ entryPaths dir rest)) out := by
  induction rest generalizing fuel returned done v out with
  | nil =>
      obtain ⟨fuel, rfl⟩ : ∃ k, fuel = k + 1 := ⟨fuel - 1, by simp at hfuel; omega⟩
      have hend : names[returned.length]? = none := by simp [hnames]
      rw [forEachEntry]
      refine returns_readdir.mpr ?_
      rw [hend]
      refine .ret ?_
      simpa [entryPaths] using h
  | cons name rest ih =>
      obtain ⟨fuel, rfl⟩ : ∃ k, fuel = k + 1 := ⟨fuel - 1, by simp at hfuel; omega⟩
      have hnext : names[returned.length]? = some name := by simp [hnames]
      have hnames' : names = (returned ++ [name]) ++ rest := by simp [hnames]
      have hfuel' : rest.length < fuel := by
        rw [List.length_cons] at hfuel
        omega
      rw [forEachEntry]
      refine returns_readdir.mpr ?_
      rw [hnext]
      simp only
      by_cases hdots : name = [dot] ∨ name = [dot, dot]
      · have hskip : entryPaths dir (name :: rest) = entryPaths dir rest := by
          unfold entryPaths
          rw [List.filterMap_cons_none (by rw [if_pos hdots])]
        rw [if_pos hdots, hskip]
        rw [hskip] at hbody
        exact ih hbody hnames' hfuel' h
      rw [if_neg hdots]
      cases hjoin : joinPath dir name with
      | none =>
          have hskip : entryPaths dir (name :: rest) = entryPaths dir rest := by
            unfold entryPaths
            rw [List.filterMap_cons_none (by rw [if_neg hdots, hjoin])]
          rw [hskip]
          rw [hskip] at hbody
          exact ih hbody hnames' hfuel' h
      | some path =>
          have hcons : entryPaths dir (name :: rest) = path :: entryPaths dir rest := by
            unfold entryPaths
            rw [List.filterMap_cons_some (by rw [if_neg hdots, hjoin])]
          rw [hcons]
          rw [hcons] at hbody
          refine (hbody done path v out List.mem_cons_self h).bind ?_
          intro v' out' h'
          have htail := ih (fun done path v out hmem => hbody done path v out
            (List.mem_cons_of_mem _ hmem)) hnames' hfuel' h'
          simpa using htail

end Loop

section Entries

variable {V S T : Type} {body : Nat → Bytes → V → MonitorProg (List Bytes) V}
  {abs : V → List SyncTask → S} {step : S → T → S} {below : Bytes → List T}

/-- Enough fuel for each of finitely many is enough for all. -/
theorem exists_fuel {α : Type} {P : α → Nat → Prop} :
    ∀ {l : List α}, (∀ a ∈ l, ∃ k, ∀ fuel, k ≤ fuel → P a fuel) →
      ∃ k, ∀ fuel, k ≤ fuel → ∀ a ∈ l, P a fuel := by
  intro l
  induction l with
  | nil => exact fun _ => ⟨0, fun _ _ a ha => by simp at ha⟩
  | cons a l ih =>
      intro h
      obtain ⟨k, hk⟩ := h a List.mem_cons_self
      obtain ⟨k', hk'⟩ := ih fun b hb => h b (List.mem_cons_of_mem a hb)
      refine ⟨max k k', fun fuel hfuel b hb => ?_⟩
      rcases List.mem_cons.mp hb with rfl | hb
      · exact hk fuel (by omega)
      · exact hk' fuel (by omega) b hb

/-- A body that folds `step` over what `below` gives for its path makes the loop
fold it over what `below` gives for the whole directory. -/
theorem returns_entries
    (hbody : ∀ path ∈ entryPaths dir names, ∃ k, ∀ fuel, k ≤ fuel → ∀ v out,
      (body fuel path v).Returns (still src)
        (fun v' out' => abs v' out' = (below path).foldl step (abs v out)) out) :
    ∃ k, ∀ fuel, k ≤ fuel → ∀ v out,
      (forEachEntry dir names (body fuel) fuel [] v).Returns (still src)
        (fun v' out' => abs v' out' =
          ((entryPaths dir names).flatMap below).foldl step (abs v out)) out := by
  obtain ⟨k, hk⟩ := exists_fuel hbody
  refine ⟨max k (names.length + 1), fun fuel hfuel v out => ?_⟩
  let Inv : List Bytes → V → List SyncTask → Prop := fun done v' out' =>
    abs v' out' = (done.flatMap below).foldl step (abs v out)
  have hstep : ∀ done path v' out', path ∈ entryPaths dir names → Inv done v' out' →
      (body fuel path v').Returns (still src) (Inv (done ++ [path])) out' := by
    intro done path v' out' hmem h
    refine (hk fuel (by omega) path hmem v' out').post ?_
    intro v'' out'' h'
    change abs v'' out'' = _
    rw [h', h, List.flatMap_append, List.foldl_append, List.flatMap_singleton]
  have hloop : (forEachEntry dir names (body fuel) fuel [] v).Returns (still src)
      (Inv ([] ++ entryPaths dir names)) out :=
    returns_forEachEntry hstep rfl (by omega) rfl
  exact hloop

end Entries

theorem returns_isDirectory {out : List SyncTask} :
    (isDirectory path).Returns (still src) (fun b out' => b = src.statIsDir path ∧ out' = out)
      out := by
  unfold isDirectory StillSource.statIsDir
  refine returns_stat.mpr ?_
  cases src.stat path with
  | none => exact .ret ⟨rfl, rfl⟩
  | some st => exact .ret ⟨rfl, rfl⟩

theorem returns_buildTaskFromPath {event_type : EventType} {out : List SyncTask} :
    (buildTaskFromPath event_type root path).Returns (still src)
      (fun r out' => r = src.task event_type root path ∧ out' = out) out := by
  unfold buildTaskFromPath StillSource.task
  cases PathBuf.ofBytes? path with
  | none => exact .ret ⟨rfl, rfl⟩
  | some src_path =>
      cases (getRelativePath root path).bind PathBuf.ofBytes? with
      | none => exact .ret ⟨rfl, rfl⟩
      | some rel_path =>
          refine returns_lstat.mpr ?_
          cases src.lstat path with
          | none => exact .ret ⟨rfl, rfl⟩
          | some st => exact .ret ⟨rfl, rfl⟩

end MiniSync.Monitor
