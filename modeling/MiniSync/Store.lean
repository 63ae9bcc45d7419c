import MiniSync.FileUtils

/-!
# Where the paths of the store lead

The paths the program builds from a root and a relative path, as nodes of the
tree: the root's node, the name of an area, and the names of the relative path.
-/

namespace MiniSync

/-- The names in a relative path. -/
def relNames (rel : Bytes) : TreePath := PosixPath.names slash dot rel

/-- The node below which a root keeps its files. -/
def storeRoot (cwd : TreePath) (root : Bytes) : TreePath :=
  resolve cwd (joinBase root ++ [slash])

variable {cwd : TreePath} {root rel dst tmp : Bytes}

/-- Without `..` a path goes down from wherever its first part leads. -/
theorem resolve_append {u rest : Bytes} (h : dotdot ∉ rest.splitOn slash) :
    resolve cwd (u ++ slash :: rest) = resolve cwd (u ++ [slash]) ++ relNames rest := by
  have hhead : (u ++ slash :: rest).head? = (u ++ [slash]).head? := by
    cases u <;> rfl
  unfold resolve relNames
  rw [hhead, PosixPath.walk_append_sep, PosixPath.walk_append_sep_end,
    PosixPath.walk_eq_append_names h]

theorem resolve_append_slash {u : Bytes} (hu : u ≠ []) :
    resolve cwd (u ++ [slash]) = resolve cwd u := by
  obtain ⟨c, cs, rfl⟩ := List.exists_cons_of_ne_nil hu
  unfold resolve
  rw [PosixPath.walk_append_sep_end]
  rfl

/-- The same from a directory that has a name. -/
theorem resolve_below {b rest : Bytes} (hb : b ≠ []) (h : dotdot ∉ rest.splitOn slash) :
    resolve cwd (b ++ slash :: rest) = resolve cwd b ++ relNames rest := by
  rw [resolve_append h, resolve_append_slash hb]

theorem relNames_append {u rest : Bytes} :
    relNames (u ++ slash :: rest) = relNames u ++ relNames rest :=
  PosixPath.names_append_sep

theorem relNames_component {name : Bytes} (h : Component name) (hdot : name ≠ [dot]) :
    relNames name = [name] := by
  unfold relNames PosixPath.names
  rw [List.splitOn_eq_singleton h.no_slash, List.filter_cons_of_pos, List.filter_nil]
  exact decide_eq_true ⟨h.ne_nil, hdot⟩

theorem dotdot_splitOn_append {u rest : Bytes} (hu : dotdot ∉ u.splitOn slash)
    (hrest : dotdot ∉ rest.splitOn slash) : dotdot ∉ (u ++ slash :: rest).splitOn slash := by
  rw [List.splitOn_append_cons_self, List.mem_append, not_or]
  exact ⟨hu, hrest⟩

theorem Component.splitOn_notMem {name : Bytes} (h : Component name) :
    dotdot ∉ name.splitOn slash := by
  rw [List.splitOn_eq_singleton h.no_slash, List.mem_singleton]
  exact fun heq => h.ne_dotdot heq.symm

/-! ## Stamps -/

theorem component_timestampDirname (tm : Tm) : Component (timestampDirname tm) := by
  have hdecimal : ∀ width n, slash ∉ decimal width n := by
    intro width n hmem
    unfold decimal at hmem
    rw [List.mem_append, List.mem_replicate, List.mem_map] at hmem
    rcases hmem with ⟨-, h⟩ | ⟨c, hc, h⟩
    · exact absurd h (by decide)
    · have hdigit := Nat.isDigit_of_mem_toDigits (by omega) (by omega) hc
      have hnat := congrArg UInt8.toNat h
      simp only [Char.isDigit, Bool.and_eq_true, decide_eq_true_eq, ge_iff_le,
        UInt32.le_iff_toNat_le] at hdigit
      have h0 : '0'.val.toNat = 48 := rfl
      have h9 : '9'.val.toNat = 57 := rfl
      simp only [Char.toUInt8, UInt32.toNat_toUInt8, slash, UInt8.toNat_ofNat] at hnat
      omega
  have hdash : (45 : Byte) ∈ timestampDirname tm := by simp [timestampDirname]
  refine ⟨?_, ?_, ?_⟩
  · simp [timestampDirname, hdecimal]
    decide
  · intro h
    rw [h] at hdash
    cases hdash
  · intro h
    rw [h] at hdash
    exact absurd hdash (by decide)

/-! ## Uploads -/

theorem resolve_currentPath (h : currentPath root rel = some dst) :
    resolve cwd dst = storeRoot cwd root ++ currentName :: relNames rel := by
  obtain ⟨hrel, -, rfl, -⟩ := currentPath_eq_some h
  have hcur := component_currentName
  rw [List.append_assoc, List.cons_append,
    resolve_append (dotdot_splitOn_append hcur.splitOn_notMem hrel.no_dotdot), relNames_append,
    relNames_component hcur (by decide)]
  rfl

theorem resolve_syncingPath (h : currentPath root rel = some dst)
    (htmp : syncingPath dst = some tmp) :
    resolve cwd tmp = storeRoot cwd root ++ currentName :: relNames (rel ++ syncingSuffix) := by
  obtain ⟨hrel, -, rfl, -⟩ := currentPath_eq_some h
  have hcur := component_currentName
  have hnew := dotdot_notMem_append_syncing hrel.no_dotdot
  rw [(syncingPath_eq_some.mp htmp).1, List.append_assoc, List.append_assoc, List.cons_append,
    List.cons_append, resolve_append (dotdot_splitOn_append hcur.splitOn_notMem hnew),
    relNames_append, relNames_component hcur (by decide)]
  rfl

theorem relNames_syncing_ne (rel : Bytes) : relNames (rel ++ syncingSuffix) ≠ relNames rel :=
  PosixPath.names_append_suffix_ne (by decide) (by decide)

/-- The temporary file is never the file itself. -/
theorem resolve_syncingPath_ne (h : currentPath root rel = some dst)
    (htmp : syncingPath dst = some tmp) : resolve cwd tmp ≠ resolve cwd dst := by
  rw [resolve_syncingPath h htmp, resolve_currentPath h]
  intro heq
  have htail := List.append_cancel_left heq
  rw [List.cons.injEq] at htail
  exact relNames_syncing_ne rel htail.2

/-! ## Versions and trash -/

/-- `root/.versions` -/
def versionsBase (root : Bytes) : Bytes := joinBase root ++ slash :: versionsName

/-- The version of `rel` that is saved at the time `now`, below `.versions`. -/
def versionRel (now : Tm) (rel : Bytes) : Bytes := timestampDirname now ++ slash :: rel

/-- A name that the names of a path keep: a component that is not `.`. -/
structure Name (name : Bytes) : Prop extends Component name where
  ne_dot : name ≠ [dot]

theorem name_versionsName : Name versionsName := ⟨component_versionsName, by decide⟩

theorem name_trashName : Name trashName := ⟨component_trashName, by decide⟩

theorem name_timestampDirname (tm : Tm) : Name (timestampDirname tm) := by
  refine ⟨component_timestampDirname tm, fun h => ?_⟩
  have hdash : (45 : Byte) ∈ timestampDirname tm := by simp [timestampDirname]
  rw [h] at hdash
  exact absurd hdash (by decide)

/-- The base of `root/<area>/<stamp>` and what joining `rel` to it gives. -/
theorem stampedPath_eq_some {area stamp : Bytes} (harea : Component area)
    (hstamp : Component stamp) (hrel : Relative rel) :
    stampedPath area root stamp rel = some dst →
      ∃ areaRoot, joinPath root area = some areaRoot ∧ areaRoot = joinBase root ++ slash :: area ∧
        joinPath areaRoot stamp = some (areaRoot ++ slash :: stamp) ∧
        dst = areaRoot ++ slash :: stamp ++ slash :: rel := by
  intro h
  unfold stampedPath at h
  obtain ⟨areaRoot, hroot, h⟩ := Option.bind_eq_some_iff.mp h
  obtain ⟨base, hbase, h⟩ := Option.bind_eq_some_iff.mp h
  have hareaRoot := ((joinPath_eq_some harea.head_ne).mp hroot).1
  have hbaseEq := ((joinPath_eq_some hstamp.head_ne).mp hbase).1
  have hdst := ((joinPath_eq_some hrel.head_ne).mp h).1
  rw [hareaRoot, joinBase_join harea, ← hareaRoot] at hbaseEq
  rw [hbaseEq, joinBase_join hstamp] at hdst
  exact ⟨areaRoot, hroot, hareaRoot, hbaseEq ▸ hbase, hdst⟩

/-- Where a stamped path is, if it fits. -/
theorem stampedPath_iff {area stamp : Bytes} (harea : Component area) (hstamp : Component stamp)
    (hrel : Relative rel) : stampedPath area root stamp rel = some dst ↔
      dst = joinBase root ++ slash :: area ++ slash :: (stamp ++ slash :: rel) ∧
        dst.length < maxPathLen := by
  have hinner : ∀ areaRoot, joinPath root area = some areaRoot ↔
      areaRoot = joinBase root ++ slash :: area ∧ areaRoot.length < maxPathLen :=
    fun _ => joinPath_eq_some harea.head_ne
  have hstampDir : ∀ base, joinPath (joinBase root ++ slash :: area) stamp = some base ↔
      base = joinBase root ++ slash :: area ++ slash :: stamp ∧ base.length < maxPathLen := by
    intro base
    rw [joinPath_eq_some hstamp.head_ne, joinBase_join harea]
  have houter : joinPath (joinBase root ++ slash :: area ++ slash :: stamp) rel = some dst ↔
      dst = joinBase root ++ slash :: area ++ slash :: stamp ++ slash :: rel ∧
        dst.length < maxPathLen := by
    rw [joinPath_eq_some hrel.head_ne, joinBase_join hstamp]
  have hshape : joinBase root ++ slash :: area ++ slash :: (stamp ++ slash :: rel) =
      joinBase root ++ slash :: area ++ slash :: stamp ++ slash :: rel := by simp
  unfold stampedPath
  rw [hshape]
  constructor
  · intro h
    obtain ⟨areaRoot, hroot, h⟩ := Option.bind_eq_some_iff.mp h
    obtain ⟨rfl, -⟩ := (hinner _).mp hroot
    obtain ⟨base, hbase, h⟩ := Option.bind_eq_some_iff.mp h
    obtain ⟨rfl, -⟩ := (hstampDir _).mp hbase
    exact houter.mp h
  · rintro ⟨rfl, hfits⟩
    have hshort := hfits
    simp only [List.length_append, List.length_cons] at hshort
    refine Option.bind_eq_some_iff.mpr ⟨_, (hinner _).mpr ⟨rfl, ?_⟩, ?_⟩
    · simp only [List.length_append, List.length_cons]
      omega
    refine Option.bind_eq_some_iff.mpr ⟨_, (hstampDir _).mpr ⟨rfl, ?_⟩, ?_⟩
    · simp only [List.length_append, List.length_cons]
      omega
    exact houter.mpr ⟨rfl, hfits⟩

/-- A stamped path leads below the area and the stamp. -/
theorem resolve_stampedPath {area stamp : Bytes} (harea : Name area) (hstamp : Name stamp)
    (hrel : Relative rel) (h : stampedPath area root stamp rel = some dst) :
    resolve cwd dst = storeRoot cwd root ++ area :: stamp :: relNames rel := by
  obtain ⟨areaRoot, -, rfl, -, rfl⟩ :=
    stampedPath_eq_some harea.toComponent hstamp.toComponent hrel h
  have hrest := dotdot_splitOn_append hstamp.splitOn_notMem hrel.no_dotdot
  rw [List.append_assoc, List.append_assoc, List.cons_append, List.cons_append,
    resolve_append (dotdot_splitOn_append harea.splitOn_notMem hrest), relNames_append,
    relNames_append, relNames_component harea.toComponent harea.ne_dot,
    relNames_component hstamp.toComponent hstamp.ne_dot]
  rfl

/-- The temporary file next to a stamped copy. -/
theorem resolve_stampedPath_syncing {area stamp : Bytes} (harea : Name area) (hstamp : Name stamp)
    (hrel : Relative rel) (h : stampedPath area root stamp rel = some dst)
    (htmp : syncingPath dst = some tmp) :
    resolve cwd tmp =
      storeRoot cwd root ++ area :: stamp :: relNames (rel ++ syncingSuffix) := by
  obtain ⟨areaRoot, -, rfl, -, rfl⟩ :=
    stampedPath_eq_some harea.toComponent hstamp.toComponent hrel h
  have hrest := dotdot_splitOn_append hstamp.splitOn_notMem
    (dotdot_notMem_append_syncing hrel.no_dotdot)
  rw [(syncingPath_eq_some.mp htmp).1, List.append_assoc, List.append_assoc, List.append_assoc,
    List.cons_append, List.cons_append, List.cons_append,
    resolve_append (dotdot_splitOn_append harea.splitOn_notMem hrest), relNames_append,
    relNames_append, relNames_component harea.toComponent harea.ne_dot,
    relNames_component hstamp.toComponent hstamp.ne_dot]
  rfl

theorem resolve_stampedPath_syncing_ne {area stamp : Bytes} (harea : Name area)
    (hstamp : Name stamp) (hrel : Relative rel) (h : stampedPath area root stamp rel = some dst)
    (htmp : syncingPath dst = some tmp) : resolve cwd tmp ≠ resolve cwd dst := by
  rw [resolve_stampedPath harea hstamp hrel h, resolve_stampedPath_syncing harea hstamp hrel h htmp]
  intro heq
  have htail := List.append_cancel_left heq
  rw [List.cons.injEq, List.cons.injEq] at htail
  exact relNames_syncing_ne rel htail.2.2

end MiniSync
