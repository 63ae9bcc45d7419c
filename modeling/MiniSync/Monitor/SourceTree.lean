import MiniSync.Monitor.Difference

/-!
# The source as a tree

Which paths exist below the root, independently of what a scan can spell or open,
and when the tasks that a scan builds are exactly those of the tree.
-/

namespace MiniSync.Monitor

namespace StillSource

variable (src : StillSource)

/-- `lstat` reports a directory. -/
def lstatIsDir (path : Bytes) : Bool := (src.lstat path).any fun st => sIsDir st.st_mode

/-- The path of an entry below the root, going down through the paths which `enters`. -/
inductive InTree (enters : Bytes → Bool) (root : Bytes) : Bytes → Prop
  | top {names : List Bytes} {name : Bytes} (opens : src.opendir root = some names)
      (mem : name ∈ names) (ne_dot : name ≠ [dot]) (ne_dotdot : name ≠ [dot, dot]) :
      InTree enters root (joinBase root ++ slash :: name)
  | under {names : List Bytes} {dir name : Bytes} (reached : InTree enters root dir)
      (enters_dir : enters dir = true) (opens : src.opendir dir = some names)
      (mem : name ∈ names) (ne_dot : name ≠ [dot]) (ne_dotdot : name ≠ [dot, dot]) :
      InTree enters root (joinBase dir ++ slash :: name)

/-- All directories open, and all paths fit and pass the check. -/
structure Readable (enters : Bytes → Bool) (root : Bytes) : Prop where
  opens_root : (src.opendir root).isSome
  opens : ∀ dir, src.InTree enters root dir → enters dir = true → (src.opendir dir).isSome
  fits : ∀ path, src.InTree enters root path → path.length < maxPathLen
  accepted : ∀ path, src.InTree enters root path → (getRelativePath root path).isSome

/-- The path exists in the source tree, and this is what `lstat` tells of it. -/
def Present (root : Bytes) (rel : PathBuf) (st : StatBuf) : Prop :=
  src.InTree src.lstatIsDir root (joinBase root ++ slash :: rel.bytes) ∧
    src.lstat (joinBase root ++ slash :: rel.bytes) = some st

end StillSource

variable {src : StillSource} {root path : Bytes} {enters enters' : Bytes → Bool}
  {event_type : EventType} {task : BuiltTask} {rel : PathBuf} {st : StatBuf}

namespace StillSource

theorem Visits.inTree (h : src.Visits enters root path) : src.InTree enters root path := by
  induction h with
  | top hopen hmem =>
      obtain ⟨name, hname, hdot, hdotdot, hjoin⟩ := mem_entryPaths.mp hmem
      obtain ⟨rfl, -⟩ := (joinPath_eq_some (src.head_ne hopen hname)).mp hjoin
      exact .top hopen hname hdot hdotdot
  | under _ henters hopen hmem ih =>
      obtain ⟨name, hname, hdot, hdotdot, hjoin⟩ := mem_entryPaths.mp hmem
      obtain ⟨rfl, -⟩ := (joinPath_eq_some (src.head_ne hopen hname)).mp hjoin
      exact .under ih henters hopen hname hdot hdotdot

/-- Where every path fits, a scan leaves none out. -/
theorem Readable.visits (h : src.Readable enters root) (hpath : src.InTree enters root path) :
    src.Visits enters root path := by
  induction hpath with
  | @top names name hopen hname hdot hdotdot =>
      have hfits := h.fits _ (.top hopen hname hdot hdotdot)
      refine .top hopen (mem_entryPaths.mpr ⟨name, hname, hdot, hdotdot, ?_⟩)
      exact (joinPath_eq_some (src.head_ne hopen hname)).mpr ⟨rfl, hfits⟩
  | @under names dir name hreached henters hopen hname hdot hdotdot ih =>
      have hfits := h.fits _ (.under hreached henters hopen hname hdot hdotdot)
      refine .under ih henters hopen (mem_entryPaths.mpr ⟨name, hname, hdot, hdotdot, ?_⟩)
      exact (joinPath_eq_some (src.head_ne hopen hname)).mpr ⟨rfl, hfits⟩

theorem Visits.congr (h : src.Visits enters root path)
    (hsame : ∀ dir, src.Visits enters root dir → enters dir = true → enters' dir = true) :
    src.Visits enters' root path := by
  induction h with
  | top hopen hmem => exact .top hopen hmem
  | under hreached henters hopen hmem ih =>
      exact .under ih (hsame _ hreached henters) hopen hmem

theorem Visits.lies_below (h : src.Visits enters root path) : ∃ name, Below root path name := by
  induction h with
  | top hopen hmem =>
      obtain ⟨name, -, -, hbelow⟩ := src.below_of_mem hopen hmem
      exact ⟨name, hbelow⟩
  | under _ _ hopen hmem ih =>
      obtain ⟨name, hfirst⟩ := ih
      obtain ⟨name', -, -, hbelow⟩ := src.below_of_mem hopen hmem
      exact ⟨name, hfirst.trans hbelow⟩

theorem Visits.lstat (h : src.Visits enters root path) : (src.lstat path).isSome := by
  have hentry : ∀ {dir names}, src.opendir dir = some names → path ∈ entryPaths dir names →
      (src.lstat path).isSome := by
    intro dir names hopen hmem
    obtain ⟨name, hname, rfl, -⟩ := src.below_of_mem hopen hmem
    exact src.exist hopen name hname
  cases h with
  | top hopen hmem => exact hentry hopen hmem
  | under _ _ hopen hmem => exact hentry hopen hmem

/-! ## The task of a path -/

/-- The task that `build_task_from_path` makes says which path it is about and
what `lstat` told of it. -/
theorem task_eq_some {name : Bytes} (hbelow : Below root path name)
    (h : src.task event_type root path = some task) :
    path = joinBase root ++ slash :: task.rel_path.bytes ∧
      sanitizeRelPath task.rel_path.bytes = .ok ∧
      ∀ st, src.lstat path = some st →
        task.file_size = st.st_size ∧ task.mtime = st.st_mtime ∧ task.mode = st.st_mode := by
  obtain ⟨rest, hpath, -, -, hnul⟩ := hbelow.spelled
  have hne : name ++ rest ≠ [] := by simp [hbelow.name_ne_nil]
  have hhead : (name ++ rest).head? ≠ some slash := by
    cases name with
    | nil => exact absurd rfl hbelow.name_ne_nil
    | cons c cs =>
        intro hc
        have hcs : c = slash := by simpa using hc
        exact hbelow.no_slash (hcs ▸ List.mem_cons_self)
  unfold StillSource.task at h
  split at h
  · rename_i src_path rel_path _ hrel
    obtain ⟨rel, hget, hbuf⟩ := Option.bind_eq_some_iff.mp hrel
    rw [hpath] at hget
    obtain ⟨rfl, hok, -⟩ := getRelativePath_below hne hhead hget
    have hbytes : rel_path.bytes = name ++ rest := by
      unfold PathBuf.ofBytes? at hbuf
      split_ifs at hbuf
      cases hbuf
      exact cString_of_nul_notMem hnul
    cases hlstat : src.lstat path with
    | none =>
        rw [hlstat] at h
        cases h
        exact ⟨hbytes ▸ hpath, hbytes ▸ hok, fun st hst => by cases hst⟩
    | some st =>
        rw [hlstat] at h
        cases h
        refine ⟨hbytes ▸ hpath, hbytes ▸ hok, fun st' hst => ?_⟩
        cases hst
        exact ⟨rfl, rfl, rfl⟩
  · cases h

theorem task_isSome (hfits : path.length < maxPathLen)
    (haccepted : (getRelativePath root path).isSome) :
    (src.task event_type root path).isSome := by
  obtain ⟨rel, hrel⟩ := Option.isSome_iff_exists.mp haccepted
  have hbuf : ∀ bytes : Bytes, bytes.length < maxPathLen → (PathBuf.ofBytes? bytes).isSome := by
    intro bytes hlen
    unfold PathBuf.ofBytes?
    have hle : (cString bytes).length ≤ bytes.length := (List.takeWhile_sublist _).length_le
    rw [dif_pos (lt_of_le_of_lt hle hlen)]
    rfl
  have hlen : rel.length < maxPathLen := by
    unfold getRelativePath at hrel
    simp only at hrel
    split_ifs at hrel <;> cases hrel <;> omega
  obtain ⟨src_path, hsrc⟩ := Option.isSome_iff_exists.mp (hbuf path hfits)
  obtain ⟨rel_path, hpath⟩ := Option.isSome_iff_exists.mp (hbuf rel hlen)
  unfold StillSource.task
  rw [hsrc, hrel, Option.bind_some, hpath]
  simp only
  cases src.lstat path <;> rfl

theorem task_is_dir (hlstat : (src.lstat path).isSome)
    (hmode : ∀ st, src.lstat path = some st → task.mode = st.st_mode) :
    task.is_dir = src.lstatIsDir path := by
  obtain ⟨st, hst⟩ := Option.isSome_iff_exists.mp hlstat
  rw [task.is_dir_eq, hmode st hst, lstatIsDir, hst]
  rfl

/-- Two visited paths with one relative path are one path. -/
theorem nodup_tasks {depth : Nat} :
    (((src.visited enters depth root).filterMap (src.task event_type root)).map
      fun task => task.rel_path).Nodup := by
  rw [List.nodup_iff_pairwise_ne, List.pairwise_map, List.pairwise_filterMap]
  refine src.nodup_visited.imp_of_mem ?_
  intro path path' hmem hmem' hne t ht t' ht' hrel
  obtain ⟨name, hbelow⟩ := src.below_of_visited hmem
  obtain ⟨name', hbelow'⟩ := src.below_of_visited hmem'
  rw [(src.task_eq_some hbelow ht).1, (src.task_eq_some hbelow' ht').1, hrel] at hne
  exact hne rfl

/-! ## The tasks of the tree -/

/-- Where all directories open and all paths are accepted, the polling scan goes
down exactly the directories of the tree. -/
theorem Readable.visits_pollEnters (h : src.Readable src.lstatIsDir root) :
    src.Visits (src.pollEnters root) root path ↔ src.InTree src.lstatIsDir root path := by
  -- A visited path is built, and its task is a directory if the path is.
  have hsame : ∀ dir, src.InTree src.lstatIsDir root dir → src.Visits src.lstatIsDir root dir →
      src.pollEnters root dir = src.lstatIsDir dir := by
    intro dir htree hvisits
    obtain ⟨task, htask⟩ := Option.isSome_iff_exists.mp
      (task_isSome (h.fits dir htree) (h.accepted dir htree) :
        (src.task .modify root dir).isSome)
    obtain ⟨name, hbelow⟩ := hvisits.lies_below
    have hfields := (src.task_eq_some hbelow htask).2.2
    rw [pollEnters, htask, Option.any_some]
    exact src.task_is_dir hvisits.lstat fun st hst => (hfields st hst).2.2
  constructor
  · intro hvisits
    suffices hboth : src.Visits src.lstatIsDir root path from hboth.inTree
    induction hvisits with
    | top hopen hmem => exact .top hopen hmem
    | under hreached henters hopen hmem ih =>
        rw [hsame _ ih.inTree ih] at henters
        exact .under ih henters hopen hmem
  · intro htree
    refine (h.visits htree).congr fun dir hvisits henters => ?_
    rw [hsame dir hvisits.inTree hvisits]
    exact henters

theorem Readable.of_mem_pollTasks (h : src.Readable src.lstatIsDir root)
    (hmem : task ∈ src.pollTasks root maxPathLen root) :
    ∃ st, src.Present root task.rel_path st ∧ task.file_size = st.st_size ∧
      task.mtime = st.st_mtime ∧ task.mode = st.st_mode := by
  obtain ⟨path, hpath, htask⟩ := List.mem_filterMap.mp hmem
  have hvisits := (src.mem_visited (by omega)).mp hpath
  obtain ⟨name, hbelow⟩ := hvisits.lies_below
  obtain ⟨st, hst⟩ := Option.isSome_iff_exists.mp hvisits.lstat
  obtain ⟨rfl, -, hfields⟩ := src.task_eq_some hbelow htask
  exact ⟨st, ⟨h.visits_pollEnters.mp hvisits, hst⟩, hfields st hst⟩

theorem Readable.mem_pollTasks (h : src.Readable src.lstatIsDir root)
    (hpresent : src.Present root rel st) :
    ∃ task ∈ src.pollTasks root maxPathLen root, task.rel_path = rel := by
  obtain ⟨htree, -⟩ := hpresent
  obtain ⟨task, htask⟩ := Option.isSome_iff_exists.mp
    (task_isSome (h.fits _ htree) (h.accepted _ htree) :
      (src.task .modify root _).isSome)
  have hvisits := h.visits_pollEnters.mpr htree
  obtain ⟨name, hbelow⟩ := hvisits.lies_below
  refine ⟨task, List.mem_filterMap.mpr ⟨_, (src.mem_visited (by omega)).mpr hvisits, htask⟩, ?_⟩
  have hpath := (src.task_eq_some hbelow htask).1
  rw [List.append_cancel_left_eq, List.cons.injEq] at hpath
  exact PathBuf.eq_of_bytes_eq hpath.2.symm

end StillSource

end MiniSync.Monitor
