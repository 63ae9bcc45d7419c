import MiniSync.Monitor.Still

/-!
# Walks come to an end

Two of the three walks follow symbolic links, so a directory can be below itself.
What bounds them is the path buffer: a walk goes on only at a strictly longer
path.  Nothing is assumed of what `stat`, `lstat` and `opendir` answer about a
path, so links may lead anywhere and through any number of links.
-/

namespace MiniSync.Monitor

open Prog

variable {Dir V σ : Type}

/-- Directories are finite: a stream that `opendir` has returned gives at most
`bound` names, none of them empty or with a slash in it. -/
structure FiniteDirs (K : (c : MonitorCall Dir) → σ → MonitorResp c → σ → Prop)
    (IsOpen : Dir → Prop) (bound : Nat) : Prop where
  opens : ∀ {path s dp s'}, K (.opendir path) s (some dp) s' → IsOpen dp
  ends : ∀ {dp returned s r s'}, IsOpen dp → K (.readdir dp returned) s r s' →
    bound ≤ returned.length → r = none
  names : ∀ {dp returned s name s'}, IsOpen dp → K (.readdir dp returned) s (some name) s' →
    name ≠ [] ∧ slash ∉ name

/-- The path fits, and is longer than `dir`. -/
def Deeper (dir path : Bytes) : Prop := dir.length < path.length ∧ path.length < maxPathLen

/-- If the call opens a directory, its path fits and is longer than `dir`. -/
def OpensDeeper (dir : Bytes) : MonitorCall Dir → Prop
  | .opendir path => Deeper dir path
  | _ => True

/-- The walk opens `dir` first, and every directory that it opens after that, in
nested calls too, at a longer path that fits; and it comes to an end. -/
def WalksFrom (K : (c : MonitorCall Dir) → σ → MonitorResp c → σ → Prop) (dir : Bytes)
    (walk : MonitorProg Dir V) (s : σ) : Prop :=
  ∃ rest, walk = (mcall (.opendir dir) >>= rest) ∧
    ∀ r s', K (.opendir dir) s r s' → (rest r).Finishes K (OpensDeeper dir) s'

/-- What is put after a slash makes a path longer. -/
theorem deeper_of_joinPath {dir name path : Bytes} (hne : name ≠ []) (hslash : slash ∉ name)
    (h : joinPath dir name = some path) : Deeper dir path := by
  have hhead : name.head? ≠ some slash := fun hc => hslash (List.mem_of_mem_head? hc)
  obtain ⟨rfl, hlen⟩ := (joinPath_eq_some hhead).mp h
  have hpos : 0 < name.length := List.length_pos_iff.mpr hne
  have hbase : dir.length ≤ (joinBase dir).length + 1 := by
    unfold joinBase
    split_ifs
    · rw [List.length_dropLast]
      omega
    · omega
  refine ⟨?_, hlen⟩
  rw [List.length_append, List.length_cons]
  omega

section Walks

variable {K : (c : MonitorCall Dir) → σ → MonitorResp c → σ → Prop} {IsOpen : Dir → Prop}
  {bound : Nat} {root dir : Bytes}

/-- A nested walk is one of the things that the outer walk may do. -/
theorem WalksFrom.finishes {path : Bytes} {walk : MonitorProg Dir V} {s : σ}
    (h : WalksFrom K path walk s) (hpath : Deeper dir path) :
    walk.Finishes K (OpensDeeper dir) s := by
  obtain ⟨rest, rfl, hrest⟩ := h
  refine Finishes.op_bind hpath fun r s' hK => ?_
  apply (hrest r s' hK).mono
  intro c hc
  cases c with
  | opendir below => exact ⟨hpath.1.trans hc.1, hc.2⟩
  | _ => trivial

/-- The loop ends where its body does for every longer path. -/
theorem finishes_forEachEntry (hK : FiniteDirs K IsOpen bound) {dp : Dir} (hopen : IsOpen dp)
    {body : Bytes → V → MonitorProg Dir V}
    (hbody : ∀ path v s, Deeper dir path → (body path v).Finishes K (OpensDeeper dir) s)
    {fuel : Nat} {returned : List Bytes} (hreturned : returned.length ≤ bound)
    (hfuel : bound < fuel + returned.length) (v : V) (s : σ) :
    (forEachEntry dir dp body fuel returned v).Finishes K (OpensDeeper dir) s := by
  induction fuel generalizing returned v s with
  | zero => omega
  | succ fuel ih =>
      rw [forEachEntry]
      refine Finishes.op_bind trivial fun r s' hstep => ?_
      cases r with
      | none => trivial
      | some name =>
          obtain ⟨hne, hslash⟩ := hK.names hopen hstep
          have hroom : returned.length < bound := by
            by_contra hfull
            cases hK.ends hopen hstep (Nat.le_of_not_lt hfull)
          have hmore : ∀ v s, (forEachEntry dir dp body fuel (returned ++ [name]) v).Finishes K
              (OpensDeeper dir) s := by
            apply ih
            · rw [List.length_append, List.length_singleton]
              omega
            · rw [List.length_append, List.length_singleton]
              omega
          simp only
          split_ifs
          · exact hmore v s'
          cases hjoin : joinPath dir name with
          | none => exact hmore v s'
          | some path =>
              exact (hbody path v s' (deeper_of_joinPath hne hslash hjoin)).bind hmore

/-- Fuel for every level below `dir`, and for the entries of one directory. -/
theorem addWatchRecursive_walks (hK : FiniteDirs K IsOpen bound) {fuel : Nat}
    (hdir : dir.length < maxPathLen) (hfuel : bound + maxPathLen < fuel + dir.length)
    (table : WatchTable) (s : σ) :
    WalksFrom K dir (addWatchRecursive fuel dir table) s := by
  induction fuel generalizing dir table s with
  | zero => omega
  | succ fuel ih =>
      refine ⟨_, rfl, fun r s' hstep => ?_⟩
      cases r with
      | none => trivial
      | some dp =>
          refine Finishes.op_bind trivial fun wd s'' _ => ?_
          cases wd with
          | none => trivial
          | some wd =>
              refine (finishes_forEachEntry hK (hK.opens hstep) ?_ (Nat.zero_le _)
                (by rw [List.length_nil]; omega) _ _).bind fun _ _ => trivial
              intro child table s hchild
              refine Finishes.bind (Finishes.op_bind trivial fun st s' _ => ?_) ?_
              · cases st <;> trivial
              · intro isDir s'
                split_ifs
                · refine ((ih hchild.2 ?_ table s').finishes hchild).bind fun _ _ => trivial
                  have hlt := hchild.1
                  omega
                · trivial

theorem finishes_isDirectory {path : Bytes} {s : σ} :
    (isDirectory path : MonitorProg Dir Bool).Finishes K (OpensDeeper dir) s := by
  refine Finishes.op_bind trivial fun st s' _ => ?_
  cases st <;> trivial

theorem finishes_buildTaskFromPath {event_type : EventType} {path : Bytes} {s : σ} :
    (buildTaskFromPath event_type root path : MonitorProg Dir (Option BuiltTask)).Finishes K
      (OpensDeeper dir) s := by
  unfold buildTaskFromPath
  split
  · trivial
  split
  · trivial
  refine Finishes.op_bind trivial fun st s' _ => ?_
  cases st <;> trivial

theorem finishes_pollEntry {task : BuiltTask} {table : SnapshotTable} {s : σ} :
    (pollEntry task table : MonitorProg Dir SnapshotTable).Finishes K (OpensDeeper dir) s := by
  unfold pollEntry
  split
  · split
    · trivial
    · exact Finishes.op_bind trivial fun _ _ _ => trivial
  · simp only
    split_ifs
    · exact Finishes.op_bind trivial fun _ _ _ => trivial
    · trivial

theorem pollScanPath_walks (hK : FiniteDirs K IsOpen bound) {fuel : Nat}
    (hdir : dir.length < maxPathLen) (hfuel : bound + maxPathLen < fuel + dir.length)
    (table : SnapshotTable) (s : σ) :
    WalksFrom K dir (pollScanPath root fuel dir table) s := by
  induction fuel generalizing dir table s with
  | zero => omega
  | succ fuel ih =>
      refine ⟨_, rfl, fun r s' hstep => ?_⟩
      cases r with
      | none => trivial
      | some dp =>
          refine finishes_forEachEntry hK (hK.opens hstep) ?_ (Nat.zero_le _)
            (by rw [List.length_nil]; omega) _ _
          intro path table s hpath
          refine finishes_buildTaskFromPath.bind fun built s' => ?_
          cases built with
          | none => trivial
          | some task =>
              refine finishes_pollEntry.bind fun table s' => ?_
              split_ifs
              · refine (ih hpath.2 ?_ table s').finishes hpath
                have hlt := hpath.1
                omega
              · trivial

/-- The full scan opens each directory twice: once to watch it with everything
below it, and once to go on itself. -/
theorem scanDirectoryAndEmitTasks_walks (hK : FiniteDirs K IsOpen bound) {fuel : Nat}
    (hdir : dir.length < maxPathLen) (hfuel : bound + maxPathLen < fuel + dir.length)
    (vars : MonitorVars) (s : σ) :
    WalksFrom K dir (scanDirectoryAndEmitTasks root fuel dir vars) s := by
  induction fuel generalizing dir vars s with
  | zero => omega
  | succ fuel ih =>
      refine ⟨_, rfl, fun r s' hstep => ?_⟩
      cases r with
      | none => trivial
      | some dp =>
          refine (finishes_forEachEntry hK (hK.opens hstep) ?_ (Nat.zero_le _)
            (by rw [List.length_nil]; omega) _ _).bind fun _ _ => trivial
          intro path vars s hpath
          have hfuel' : bound + maxPathLen < fuel + path.length := by
            have hlt := hpath.1
            omega
          refine Finishes.bind (finishes_buildTaskFromPath.bind fun built s' => ?_)
            fun vars s' => ?_
          · cases built with
            | none => trivial
            | some task => exact Finishes.op_bind trivial fun _ _ _ => trivial
          refine finishes_isDirectory.bind fun isDir s' => ?_
          have hbelow : ∀ vars s, (scanDirectoryAndEmitTasks root fuel path vars).Finishes K
              (OpensDeeper dir) s := fun vars s => (ih hpath.2 hfuel' vars s).finishes hpath
          split_ifs
          · refine Finishes.bind ?_ fun vars s' => (hbelow vars s').bind fun _ _ => trivial
            exact ((addWatchRecursive_walks hK hpath.2 hfuel' _ s').finishes hpath).bind
              fun _ _ => trivial
          · exact (hbelow vars s').bind fun _ _ => trivial
          · trivial

/-- The three walks, from any directory that fits the buffer. -/
theorem walks_end (hK : FiniteDirs K IsOpen bound) (hdir : dir.length < maxPathLen) {fuel : Nat}
    (hfuel : bound + maxPathLen < fuel + dir.length) (watch_items : WatchTable)
    (vars : MonitorVars) (snapshots : SnapshotTable) (s : σ) :
    WalksFrom K dir (addWatchRecursive fuel dir watch_items) s ∧
      WalksFrom K dir (scanDirectoryAndEmitTasks root fuel dir vars) s ∧
      WalksFrom K dir (pollScanPath root fuel dir snapshots) s :=
  ⟨addWatchRecursive_walks hK hdir hfuel watch_items s,
    scanDirectoryAndEmitTasks_walks hK hdir hfuel vars s,
    pollScanPath_walks hK hdir hfuel snapshots s⟩

end Walks

/-! ## Sources that do not change -/

/-- A source whose directories have at most `bound` entries. -/
theorem StillSource.finiteDirs {src : StillSource} {bound : Nat}
    (hbound : ∀ path names, src.opendir path = some names → names.length ≤ bound) :
    FiniteDirs (Prog.Graph (still src)) (fun dp => ∃ path, src.opendir path = some dp) bound where
  opens := by
    rintro path s dp s' hstep
    exact ⟨path, congrArg Prod.fst hstep⟩
  ends := by
    rintro dp returned s r s' ⟨path, hopen⟩ hstep hfull
    obtain rfl : dp[returned.length]? = r := congrArg Prod.fst hstep
    exact List.getElem?_eq_none ((hbound path dp hopen).trans hfull)
  names := by
    rintro dp returned s name s' ⟨path, hopen⟩ hstep
    have hname : dp[returned.length]? = some name := congrArg Prod.fst hstep
    have hmem := List.mem_of_getElem? hname
    exact ⟨src.ne_nil hopen name hmem, src.no_slash hopen name hmem⟩

/-- Every directory holds one link `l`, which leads back to the directory. -/
def loopSource : StillSource where
  opendir _ := some [ascii "l"]
  lstat _ := some ⟨1, 0o120777, 0⟩
  stat _ := some ⟨4096, 0o040755, 0⟩
  inotifyAddWatch _ := some 1
  nodup h := by
    cases h
    decide +kernel
  ne_nil h name hname := by
    cases h
    rw [List.mem_singleton] at hname
    rw [hname]
    decide +kernel
  no_slash h name hname := by
    cases h
    rw [List.mem_singleton] at hname
    rw [hname]
    decide +kernel
  noNul h name hname := by
    cases h
    rw [List.mem_singleton] at hname
    rw [hname]
    decide +kernel
  exist _ _ _ := rfl
  stat_dir h hdir := by
    cases h
    exact absurd hdir (by decide +kernel)

theorem walks_end_loopSource :
    WalksFrom (Prog.Graph (still loopSource)) (ascii "r")
        (addWatchRecursive 513 (ascii "r") .empty) [] ∧
      WalksFrom (Prog.Graph (still loopSource)) (ascii "r")
        (scanDirectoryAndEmitTasks (ascii "r") 513 (ascii "r") ⟨.empty, .empty, true⟩) [] ∧
      WalksFrom (Prog.Graph (still loopSource)) (ascii "r")
        (pollScanPath (ascii "r") 513 (ascii "r") .empty) [] := by
  refine walks_end (@StillSource.finiteDirs loopSource 1 ?_) (by decide +kernel)
    (by decide +kernel) _ _ _ _
  intro path names h
  cases h
  exact le_rfl

end MiniSync.Monitor
