import MiniSync.Common
import MiniSync.Lib.PosixPath

/-!
# Path strings

The purely textual part of `file_utils.c`: which relative paths are accepted,
how paths are joined, and how a path is made relative to a root again.  All
arguments are the contents of C strings.
-/

namespace MiniSync

/-- `strstr(s, sub) != NULL` -/
def strstr : Bytes → Bytes → Bool
  | [], sub => sub.isPrefixOf []
  | c :: cs, sub => sub.isPrefixOf (c :: cs) || strstr cs sub

def sanitizeRelPath (rel_path : Bytes) : Rc :=
  if rel_path = [] then .err
  else if rel_path.head? = some slash then .err
  else if rel_path = [dot] ∨ rel_path = [dot, dot] then .err
  else if strstr rel_path [dot, dot, slash] || strstr rel_path [slash, dot, dot] ||
      strstr rel_path [slash, slash] then .err
  else .ok

/-- `join_path` into a buffer of `MAX_PATH_LEN` bytes, the size at every call. -/
def joinPath (base rel : Bytes) : Option Bytes :=
  let rel := rel.dropWhile (· = slash)
  let out := if base.getLast? = some slash then base ++ rel else base ++ slash :: rel
  if 0 < out.length ∧ out.length < maxPathLen then some out else none

/-- Drop trailing slashes, keeping the first byte. -/
def stripTrailingSlashes : Bytes → Bytes
  | [] => []
  | c :: cs => c :: (cs.reverse.dropWhile (· = slash)).reverse

def getRelativePath (root path : Bytes) : Option Bytes :=
  let root := stripTrailingSlashes root
  if root.isPrefixOf path then
    let rel := path.drop root.length
    let rel := if rel.head? = some slash then rel.tail else rel
    let rel := if rel = [] then [dot] else rel
    if rel.length ≥ maxPathLen then none
    else if sanitizeRelPath rel = .err then none
    else some rel
  else none

/-- The part of a path before its last slash, as `ensure_parent_dir_exists`
computes it: `none` without a slash, `/` where the only slash is the first byte. -/
def parentPart (path : Bytes) : Option Bytes :=
  match (path.reverse.dropWhile (· ≠ slash)) with
  | [] => none
  | _ :: before => if before = [] then some [slash] else some before.reverse

/-- The prefixes of `path` that end before a slash, the first byte aside. -/
def slashPrefixes (path : Bytes) : List Bytes :=
  ((List.range path.length).filter fun i => 0 < i ∧ path[i]? = some slash).map path.take

/-- The directories that `ensure_dir_exists` makes, outermost first. -/
def dirsToMake (dir : Bytes) : List Bytes :=
  let tmp := stripTrailingSlashes dir
  slashPrefixes tmp ++ [tmp]

/-- The directories that `ensure_parent_dir_exists` makes, outermost first. -/
def parentDirs (file_path : Bytes) : List Bytes :=
  match parentPart file_path with
  | none => []
  | some parent => dirsToMake parent

/-- `"%s.syncing"` -/
def syncingSuffix : Bytes := ascii ".syncing"

/-- `snprintf(tmp, MAX_PATH_LEN, "%s.syncing", dst)` -/
def syncingPath (dst : Bytes) : Option Bytes :=
  let tmp := dst ++ syncingSuffix
  if tmp.length < maxPathLen then some tmp else none

def currentName : Bytes := ascii "current"

def versionsName : Bytes := ascii ".versions"

def trashName : Bytes := ascii ".trash"

/-- `local_target_path` and the server's `current_path`: `root/current/rel`. -/
def currentPath (root rel_path : Bytes) : Option Bytes :=
  if sanitizeRelPath rel_path = .err then none
  else
    match joinPath root currentName with
    | none => none
    | some current => joinPath current rel_path

/-! ## Accepted relative paths -/

def dotdot : Bytes := [dot, dot]

theorem strstr_iff {s sub : Bytes} : strstr s sub = true ↔ sub <:+: s := by
  induction s with
  | nil => simp [strstr, List.prefix_nil]
  | cons c cs ih =>
      rw [strstr, Bool.or_eq_true, List.isPrefixOf_iff_prefix, ih, List.infix_cons_iff]

/-- What a relative path that passes the check looks like. -/
structure Relative (rel : Bytes) : Prop where
  ne_nil : rel ≠ []
  head_ne : rel.head? ≠ some slash
  no_dotdot : dotdot ∉ rel.splitOn slash

theorem relative_of_sanitizeRelPath {rel : Bytes} (h : sanitizeRelPath rel = .ok) :
    Relative rel := by
  unfold sanitizeRelPath at h
  split_ifs at h with hnil hhead hdots hsub
  rw [Bool.or_eq_true, Bool.or_eq_true, strstr_iff, strstr_iff, strstr_iff, not_or, not_or] at hsub
  refine ⟨hnil, hhead, fun hmem => ?_⟩
  obtain ⟨pre, post, hrel, hpre, hpost⟩ := PosixPath.exists_of_mem_splitOn hmem
  rcases hpre with rfl | ⟨u, rfl⟩
  · rcases hpost with rfl | ⟨v, rfl⟩
    · exact hdots (Or.inr (by rw [hrel]; rfl))
    · exact hsub.1.1 ⟨[], v, by simp [hrel, dotdot]⟩
  · exact hsub.1.2 ⟨u, post, by simp [hrel, dotdot]⟩

/-! ## Joining -/

/-- The base of a join without its trailing slash, if it has one. -/
def joinBase (base : Bytes) : Bytes := if base.getLast? = some slash then base.dropLast else base

theorem joinBase_isPrefix (base : Bytes) : joinBase base <+: base := by
  unfold joinBase
  split_ifs
  · exact List.dropLast_prefix base
  · exact List.prefix_rfl

theorem joinBase_of_getLast_ne {base : Bytes} (h : base.getLast? ≠ some slash) :
    joinBase base = base := by
  unfold joinBase
  rw [if_neg h]

/-- A join puts exactly one slash between its parts. -/
theorem joinPath_eq_some {base rel out : Bytes} (hrel : rel.head? ≠ some slash) :
    joinPath base rel = some out ↔
      out = joinBase base ++ slash :: rel ∧ out.length < maxPathLen := by
  have hdrop : rel.dropWhile (· = slash) = rel := by
    cases rel with
    | nil => rfl
    | cons c cs => simpa using hrel
  have hout : (if base.getLast? = some slash then base ++ rel else base ++ slash :: rel) =
      joinBase base ++ slash :: rel := by
    unfold joinBase
    by_cases h : base.getLast? = some slash
    · obtain ⟨u, rfl⟩ := List.getLast?_eq_some_iff.mp h
      simp
    · rw [if_neg h, if_neg h]
  unfold joinPath
  simp only [hdrop, hout]
  have hpos : 0 < (joinBase base ++ slash :: rel).length := by
    rw [List.length_append, List.length_cons]
    omega
  by_cases hlen : (joinBase base ++ slash :: rel).length < maxPathLen
  · rw [if_pos ⟨hpos, hlen⟩, Option.some.injEq]
    constructor
    · rintro rfl
      exact ⟨rfl, hlen⟩
    · rintro ⟨rfl, -⟩
      rfl
  · rw [if_neg (fun h => hlen h.2)]
    constructor
    · intro h
      cases h
    · rintro ⟨rfl, h⟩
      exact absurd h hlen

/-- A component: no slash, and neither empty nor `..`. -/
structure Component (name : Bytes) : Prop where
  no_slash : slash ∉ name
  ne_nil : name ≠ []
  ne_dotdot : name ≠ dotdot

theorem Component.head_ne {name : Bytes} (h : Component name) : name.head? ≠ some slash := by
  intro hhead
  exact h.no_slash (List.mem_of_mem_head? hhead)

/-- Joining a component to a root, and a relative path to the result. -/
theorem joinBase_join {p name : Bytes} (h : Component name) :
    joinBase (p ++ slash :: name) = p ++ slash :: name := by
  apply joinBase_of_getLast_ne
  intro hlast
  have hname : name.getLast? = some slash := by
    cases name with
    | nil => exact absurd rfl h.ne_nil
    | cons c cs => simpa using hlast
  exact h.no_slash (List.mem_of_getLast? hname)

theorem component_currentName : Component currentName := ⟨by decide, by decide, by decide⟩

theorem component_versionsName : Component versionsName := ⟨by decide, by decide, by decide⟩

theorem component_trashName : Component trashName := ⟨by decide, by decide, by decide⟩

/-- Both arguments of `current_path`, taken apart. -/
theorem currentPath_eq_some {root rel dst : Bytes} (h : currentPath root rel = some dst) :
    Relative rel ∧ joinPath root currentName = some (joinBase root ++ slash :: currentName) ∧
      dst = joinBase root ++ slash :: currentName ++ slash :: rel ∧ dst.length < maxPathLen := by
  unfold currentPath at h
  split_ifs at h with hrel
  have hrelative := relative_of_sanitizeRelPath (Rc.ok_of_ne_err hrel)
  split at h
  · cases h
  · rename_i current hcurrent
    have hjoin := (joinPath_eq_some component_currentName.head_ne).mp hcurrent
    rw [joinPath_eq_some hrelative.head_ne, hjoin.1, joinBase_join component_currentName] at h
    exact ⟨hrelative, hjoin.1 ▸ hcurrent, h.1, h.2⟩

theorem syncingPath_eq_some {dst tmp : Bytes} :
    syncingPath dst = some tmp ↔ tmp = dst ++ syncingSuffix ∧ tmp.length < maxPathLen := by
  unfold syncingPath
  by_cases hlen : (dst ++ syncingSuffix).length < maxPathLen
  · simp only [if_pos hlen, Option.some.injEq]
    constructor
    · rintro rfl
      exact ⟨rfl, hlen⟩
    · rintro ⟨rfl, -⟩
      rfl
  · simp only [if_neg hlen, reduceCtorEq, false_iff]
    rintro ⟨rfl, h⟩
    exact hlen h

theorem dotdot_notMem_append_syncing {rel : Bytes} (h : dotdot ∉ rel.splitOn slash) :
    dotdot ∉ (rel ++ syncingSuffix).splitOn slash := by
  have hsuffix : slash ∉ syncingSuffix := by decide
  obtain ⟨init, last, -, hrel, hnew⟩ :=
    PosixPath.splitOn_append_of_notMem (s := rel) hsuffix
  rw [hrel, List.mem_append, not_or] at h
  rw [hnew, List.mem_append, List.mem_singleton, not_or]
  refine ⟨h.1, fun heq => ?_⟩
  have hlen := congrArg List.length heq
  rw [List.length_append] at hlen
  have h8 : syncingSuffix.length = 8 := by decide
  have h2 : dotdot.length = 2 := rfl
  omega

/-! ## Parents -/

/-- `dir` is `path` or leads to it. -/
def Leads (dir path : Bytes) : Prop :=
  ∃ rest, path = dir ++ rest ∧ (rest = [] ∨ ∃ v, rest = slash :: v)

theorem Leads.trans {a b c : Bytes} (hab : Leads a b) (hbc : Leads b c) : Leads a c := by
  obtain ⟨r, rfl, hr⟩ := hab
  obtain ⟨r', rfl, hr'⟩ := hbc
  refine ⟨r ++ r', by simp, ?_⟩
  rcases hr with rfl | ⟨v, rfl⟩
  · exact hr'
  · exact Or.inr ⟨v ++ r', rfl⟩

/-- What leads to the end of a join is the end or leads to the base. -/
theorem leads_join {dir p name : Bytes} (hname : slash ∉ name)
    (h : Leads dir (p ++ slash :: name)) : dir = p ++ slash :: name ∨ Leads dir p := by
  obtain ⟨rest, heq, hrest⟩ := h
  rcases List.append_eq_append_iff.mp heq with ⟨as, rfl, htail⟩ | ⟨bs, rfl, htail⟩
  · cases as with
    | nil => exact Or.inr ⟨[], by simp, Or.inl rfl⟩
    | cons c cs =>
        rw [List.cons_append, List.cons.injEq] at htail
        left
        rcases hrest with rfl | ⟨v, rfl⟩
        · rw [htail.2, htail.1, List.append_nil]
        · exact absurd (htail.2 ▸ by simp) hname
  · refine Or.inr ⟨bs, rfl, ?_⟩
    rcases hrest with rfl | ⟨v, rfl⟩
    · cases bs <;> cases htail
    · cases bs with
      | nil => exact Or.inl rfl
      | cons c cs =>
          rw [List.cons_append, List.cons.injEq] at htail
          exact Or.inr ⟨cs, by rw [htail.1]⟩

theorem exists_stripped (path : Bytes) :
    ∃ k, path = stripTrailingSlashes path ++ List.replicate k slash := by
  cases path with
  | nil => exact ⟨0, rfl⟩
  | cons c cs =>
      have hsplit := List.takeWhile_append_dropWhile (p := (· = slash)) (l := cs.reverse)
      refine ⟨(cs.reverse.takeWhile (· = slash)).length, ?_⟩
      have hslashes : cs.reverse.takeWhile (· = slash) =
          List.replicate (cs.reverse.takeWhile (· = slash)).length slash := by
        rw [List.eq_replicate_iff]
        refine ⟨rfl, fun b hb => ?_⟩
        simpa using List.mem_takeWhile_imp hb
      rw [stripTrailingSlashes, List.cons_append, ← List.reverse_replicate, ← hslashes,
        ← List.reverse_append, hsplit, List.reverse_reverse]

theorem stripTrailingSlashes_cons (c : Byte) (cs : Bytes) :
    ∃ rest, stripTrailingSlashes (c :: cs) = c :: rest ∧ rest.getLast? ≠ some slash := by
  refine ⟨(cs.reverse.dropWhile (· = slash)).reverse, rfl, ?_⟩
  rw [List.getLast?_reverse]
  intro hhead
  have hnot := List.head?_dropWhile_not (fun b => decide (b = slash)) cs.reverse
  rw [hhead] at hnot
  simp at hnot

theorem stripTrailingSlashes_ne_nil {path : Bytes} (h : path ≠ []) :
    stripTrailingSlashes path ≠ [] := by
  obtain ⟨c, cs, rfl⟩ := List.exists_cons_of_ne_nil h
  nofun

theorem stripTrailingSlashes_append {t : Bytes} (ht : t ≠ []) (k : Nat) :
    stripTrailingSlashes (t ++ List.replicate k slash) = stripTrailingSlashes t := by
  obtain ⟨c, cs, rfl⟩ := List.exists_cons_of_ne_nil ht
  rw [List.cons_append, stripTrailingSlashes, stripTrailingSlashes, List.reverse_append,
    List.reverse_replicate, List.dropWhile_append_of_pos]
  intro b hb
  simpa using List.eq_of_mem_replicate hb

theorem stripTrailingSlashes_leads (path : Bytes) : Leads (stripTrailingSlashes path) path := by
  obtain ⟨k, hk⟩ := exists_stripped path
  refine ⟨List.replicate k slash, hk, ?_⟩
  cases k with
  | zero => exact Or.inl rfl
  | succ k => exact Or.inr ⟨List.replicate k slash, List.replicate_succ⟩

theorem mem_slashPrefixes {dir path : Bytes} :
    dir ∈ slashPrefixes path ↔ dir ≠ [] ∧ ∃ v, path = dir ++ slash :: v := by
  unfold slashPrefixes
  rw [List.mem_map]
  constructor
  · rintro ⟨i, hi, rfl⟩
    rw [List.mem_filter, List.mem_range] at hi
    obtain ⟨hlt, hi⟩ := hi
    obtain ⟨hpos, hget⟩ : 0 < i ∧ path[i]? = some slash := by simpa using hi
    refine ⟨?_, path.drop (i + 1), ?_⟩
    · rw [Ne, List.take_eq_nil_iff, not_or]
      refine ⟨by omega, ?_⟩
      rintro rfl
      simp at hlt
    · rw [List.getElem?_eq_getElem hlt, Option.some.injEq] at hget
      rw [← hget, ← List.drop_eq_getElem_cons hlt, List.take_append_drop]
  · rintro ⟨hne, v, rfl⟩
    refine ⟨dir.length, ?_, List.take_left⟩
    have hpos := List.length_pos_of_ne_nil hne
    rw [List.mem_filter, List.mem_range, List.length_append, List.length_cons]
    refine ⟨by omega, ?_⟩
    simpa using hpos

theorem leads_of_mem_slashPrefixes {dir path : Bytes} (h : dir ∈ slashPrefixes path) :
    Leads dir path := by
  obtain ⟨-, v, hv⟩ := mem_slashPrefixes.mp h
  exact ⟨slash :: v, hv, Or.inr ⟨v, rfl⟩⟩

theorem leads_of_mem_dirsToMake {dir path : Bytes} (h : dir ∈ dirsToMake path) :
    Leads dir path := by
  unfold dirsToMake at h
  rw [List.mem_append, List.mem_singleton] at h
  rcases h with h | rfl
  · exact (leads_of_mem_slashPrefixes h).trans (stripTrailingSlashes_leads path)
  · exact stripTrailingSlashes_leads path

/-- The parent is what stands before the last slash. -/
theorem parentPart_append {u name : Bytes} (hname : slash ∉ name) :
    parentPart (u ++ slash :: name) = some (if u = [] then [slash] else u) := by
  have hdrop : (u ++ slash :: name).reverse.dropWhile (· ≠ slash) = slash :: u.reverse := by
    rw [List.reverse_append, List.reverse_cons, List.append_assoc, List.singleton_append,
      List.dropWhile_append_of_pos]
    · simp
    · intro b hb
      have hne : b ≠ slash := fun h => hname (h ▸ List.mem_reverse.mp hb)
      simpa using hne
  unfold parentPart
  rw [hdrop]
  by_cases hu : u = [] <;> simp [hu]

/-- The parent depends on what stands before the last slash. -/
theorem parentPart_append_of_notMem {path suffix : Bytes} (hsuffix : slash ∉ suffix) :
    parentPart (path ++ suffix) = parentPart path := by
  have hdrop : (path ++ suffix).reverse.dropWhile (· ≠ slash) =
      path.reverse.dropWhile (· ≠ slash) := by
    rw [List.reverse_append, List.dropWhile_append_of_pos]
    intro b hb
    have hne : b ≠ slash := fun h => hsuffix (h ▸ List.mem_reverse.mp hb)
    simpa using hne
  unfold parentPart
  rw [hdrop]

theorem parentPart_ne_nil {path parent : Bytes} (h : parentPart path = some parent) :
    parent ≠ [] := by
  unfold parentPart at h
  split at h
  · cases h
  · split_ifs at h with hbefore
    · rw [← Option.some.inj h]
      nofun
    · rw [← Option.some.inj h]
      simpa using hbefore

/-- The parent leads to the file, unless the file stands directly under `/`. -/
theorem leads_of_parentPart {path parent u v : Bytes} (hpath : path = u ++ slash :: v)
    (hu : u ≠ []) (h : parentPart path = some parent) : Leads parent path := by
  obtain ⟨name, hname, hcase⟩ := PosixPath.exists_last_piece slash path
  rcases hcase with rfl | ⟨w, hw⟩
  · exact absurd (hpath ▸ by simp) hname
  · rw [hw, parentPart_append hname, Option.some.injEq] at h
    have hw0 : w ≠ [] := by
      rintro rfl
      cases u with
      | nil => exact hu rfl
      | cons c cs =>
          rw [hpath, List.nil_append, List.cons_append, List.cons.injEq] at hw
          exact hname (hw.2 ▸ by simp)
    rw [if_neg hw0] at h
    exact ⟨slash :: name, by rw [← h, hw], Or.inr ⟨name, rfl⟩⟩

theorem parentDirs_of_notMem {name : Bytes} (hname : slash ∉ name) : parentDirs name = [] := by
  have hnone : parentPart ([] ++ name) = parentPart [] := parentPart_append_of_notMem hname
  rw [List.nil_append] at hnone
  unfold parentDirs
  rw [hnone]
  rfl

theorem parentDirs_append {u name : Bytes} (hu : u ≠ []) (hname : slash ∉ name) :
    parentDirs (u ++ slash :: name) =
      slashPrefixes (stripTrailingSlashes u) ++ [stripTrailingSlashes u] := by
  unfold parentDirs
  rw [parentPart_append hname, if_neg hu]
  rfl

theorem parentPart_length_le {path parent : Bytes} (h : parentPart path = some parent) :
    parent.length ≤ path.length := by
  obtain ⟨name, hname, rfl | ⟨u, rfl⟩⟩ := PosixPath.exists_last_piece slash path
  · have hnone : parentPart ([] ++ path) = parentPart [] := parentPart_append_of_notMem hname
    rw [List.nil_append, h] at hnone
    cases hnone
  · rw [parentPart_append hname, Option.some.injEq] at h
    rw [← h, List.length_append, List.length_cons]
    split_ifs
    · rw [List.length_singleton]
      omega
    · omega

/-! ## Directories on the way -/

theorem slashPrefixes_append {u name : Bytes} (hu : u ≠ []) (hname : slash ∉ name) :
    slashPrefixes (u ++ slash :: name) = slashPrefixes u ++ [u] := by
  have hlen : (u ++ slash :: name).length = u.length + (1 + name.length) := by
    rw [List.length_append, List.length_cons, Nat.add_comm 1]
  have hbefore : ∀ i ∈ List.range u.length, (u ++ slash :: name)[i]? = u[i]? := by
    intro i hi
    exact List.getElem?_append_left (List.mem_range.mp hi)
  have hafter : ∀ i ∈ List.range name.length,
      (u ++ slash :: name)[u.length + (1 + i)]? ≠ some slash := by
    intro i _ h
    rw [List.getElem?_append_right (by omega), Nat.add_sub_cancel_left, Nat.add_comm 1,
      List.getElem?_cons_succ] at h
    exact hname (List.mem_of_getElem? h)
  have hpos : 0 < u.length := List.length_pos_of_ne_nil hu
  unfold slashPrefixes
  rw [hlen, List.range_add, List.range_add, List.map_append, List.filter_append,
    List.filter_append, List.map_append, List.map_append, List.map_map]
  congr 1
  · rw [List.filter_congr fun i hi => by rw [hbefore i hi]]
    apply List.map_congr_left
    intro i hi
    rw [List.mem_filter, List.mem_range] at hi
    exact List.take_append_of_le_length hi.1.le
  · have hone : List.range 1 = [0] := rfl
    have hnone : (List.range name.length).filter
        ((fun i => decide (0 < i ∧ (u ++ slash :: name)[i]? = some slash)) ∘
          ((fun x => u.length + x) ∘ fun x => 1 + x)) = [] := by
      rw [List.filter_eq_nil_iff]
      intro i hi h
      exact hafter i hi (of_decide_eq_true h).2
    rw [List.filter_map, List.filter_map, hnone, hone]
    simp [hpos]

theorem stripTrailingSlashes_eq_self {path : Bytes} (h : path.getLast? ≠ some slash) :
    stripTrailingSlashes path = path := by
  cases path with
  | nil => rfl
  | cons c cs =>
      rw [stripTrailingSlashes]
      congr 1
      rcases List.eq_nil_or_concat cs with rfl | ⟨ds, d, rfl⟩
      · rfl
      · have hd : d ≠ slash := by
          rintro rfl
          apply h
          rw [List.concat_eq_append, ← List.cons_append, List.getLast?_concat]
        rw [List.concat_eq_append, List.reverse_append, List.reverse_singleton,
          List.singleton_append, List.dropWhile_cons_of_neg (by simpa using hd)]
        simp

/-- Whether a path asks for a directory depends on its last piece. -/
theorem mustBeDir_eq_false {rel name : Bytes} (hname : slash ∉ name)
    (h : rel = name ∨ ∃ u, rel = u ++ slash :: name) :
    PosixPath.mustBeDir slash dot rel = false ↔ name ≠ [] ∧ name ≠ [dot] ∧ name ≠ dotdot := by
  have hlast : (rel.splitOn slash).getLastD [] = name := by
    rcases h with rfl | ⟨u, rfl⟩
    · rw [List.splitOn_eq_singleton hname]
      rfl
    · rw [List.splitOn_append_cons_self, List.splitOn_eq_singleton hname]
      simp
  unfold PosixPath.mustBeDir
  rw [hlast, decide_eq_false_iff_not]
  simp only [List.mem_cons, List.not_mem_nil, or_false, not_or]
  rfl

/-- A relative path that can name a regular file. -/
structure FilePath (rel : Bytes) : Prop where
  sane : sanitizeRelPath rel = .ok
  names_file : PosixPath.mustBeDir slash dot rel = false

theorem FilePath.relative {rel : Bytes} (h : FilePath rel) : Relative rel :=
  relative_of_sanitizeRelPath h.sane

/-- The path is a name, or a directory part without `..` and a name. -/
def EndsInName (rel : Bytes) : Prop :=
  ∃ name, Component name ∧ name ≠ [dot] ∧
    (rel = name ∨ ∃ u, rel = u ++ slash :: name ∧ u ≠ [] ∧ u.getLast? ≠ some slash ∧
      dotdot ∉ u.splitOn slash)

theorem FilePath.split {rel : Bytes} (h : FilePath rel) : EndsInName rel := by
  have hrel := h.relative
  obtain ⟨name, hname, hcase⟩ := PosixPath.exists_last_piece slash rel
  obtain ⟨hne, hdot, hdotdot⟩ := (mustBeDir_eq_false hname hcase).mp h.names_file
  refine ⟨name, ⟨hname, hne, hdotdot⟩, hdot, ?_⟩
  rcases hcase with rfl | ⟨u, rfl⟩
  · exact Or.inl rfl
  · refine Or.inr ⟨u, rfl, ?_, ?_, ?_⟩
    · rintro rfl
      exact hrel.head_ne rfl
    · intro hslash
      obtain ⟨v, rfl⟩ := List.getLast?_eq_some_iff.mp hslash
      have hsane := h.sane
      unfold sanitizeRelPath at hsane
      split_ifs at hsane with _ _ _ hsub
      apply hsub
      rw [Bool.or_eq_true, strstr_iff]
      exact Or.inr ⟨v, name, by simp⟩
    · have hno := hrel.no_dotdot
      rw [List.splitOn_append_cons_self, List.mem_append, not_or] at hno
      exact hno.1

/-- A slash in `rel ++ suffix` lies in `rel`. -/
theorem append_slash_of_append {x q rel suffix : Bytes} (hsuffix : slash ∉ suffix)
    (h : x ++ slash :: q = rel ++ suffix) : ∃ as, rel = x ++ slash :: as ∧ q = as ++ suffix := by
  rcases List.append_eq_append_iff.mp h with ⟨as, hrel, hq⟩ | ⟨bs, hx, hsuf⟩
  · cases as with
    | nil =>
        rw [List.nil_append] at hq
        exact absurd (hq ▸ List.mem_cons_self) hsuffix
    | cons a as =>
        rw [List.cons_append, List.cons.injEq] at hq
        exact ⟨as, by rw [hrel, ← hq.1], hq.2⟩
  · exact absurd (hsuf ▸ by simp) hsuffix

theorem Component.syncing {name : Bytes} (h : Component name) :
    Component (name ++ syncingSuffix) ∧ name ++ syncingSuffix ≠ [dot] := by
  have hlen : 8 ≤ (name ++ syncingSuffix).length := by
    have h8 : syncingSuffix.length = 8 := by decide
    rw [List.length_append]
    omega
  refine ⟨⟨?_, ?_, ?_⟩, ?_⟩
  · rw [List.mem_append, not_or]
    exact ⟨h.no_slash, by decide⟩
  · intro heq
    simp [heq] at hlen
  · intro heq
    simp [heq, dotdot] at hlen
  · intro heq
    simp [heq] at hlen

/-- The temporary file next to a file is one, too. -/
theorem FilePath.syncing {rel : Bytes} (h : FilePath rel) : FilePath (rel ++ syncingSuffix) := by
  have hsuffix : slash ∉ syncingSuffix := by decide
  obtain ⟨name, hname, hdot, hcase⟩ := h.split
  constructor
  · have hsane := h.sane
    unfold sanitizeRelPath at hsane ⊢
    split_ifs at hsane with hnil hhead hdots hsub
    rw [Bool.or_eq_true, Bool.or_eq_true, strstr_iff, strstr_iff, strstr_iff, not_or, not_or]
      at hsub
    have hlen : 8 < (rel ++ syncingSuffix).length := by
      have h8 : syncingSuffix.length = 8 := by decide
      have hpos := List.length_pos_of_ne_nil hnil
      rw [List.length_append]
      omega
    rw [if_neg, if_neg, if_neg, if_neg]
    · rw [Bool.or_eq_true, Bool.or_eq_true, strstr_iff, strstr_iff, strstr_iff, not_or, not_or]
      refine ⟨⟨?_, ?_⟩, ?_⟩
      · rintro ⟨p, q, heq⟩
        obtain ⟨as, hrel, -⟩ := append_slash_of_append (x := p ++ [dot, dot]) (q := q) hsuffix
          (by rw [← heq]; simp)
        exact hsub.1.1 ⟨p, as, by rw [hrel]; simp⟩
      · rintro ⟨p, q, heq⟩
        obtain ⟨as, hrel, hq⟩ := append_slash_of_append (x := p) (q := dot :: dot :: q) hsuffix
          (by rw [← heq]; simp)
        rcases as with _ | ⟨a, _ | ⟨b, as⟩⟩
        · have hsecond : some dot = syncingSuffix[1]? := congrArg (fun l => l[1]?) hq
          exact absurd hsecond (by decide)
        · rw [List.cons_append, List.cons.injEq] at hq
          have hfile := h.names_file
          rw [hrel, ← hq.1] at hfile
          unfold PosixPath.mustBeDir at hfile
          rw [List.splitOn_append_cons_self,
            List.splitOn_eq_singleton (show slash ∉ [dot] by decide)] at hfile
          simp at hfile
        · simp only [List.cons_append, List.cons.injEq] at hq
          refine hsub.1.2 ⟨p, as, ?_⟩
          rw [hrel, ← hq.1, ← hq.2.1]
          simp
      · rintro ⟨p, q, heq⟩
        obtain ⟨as, hrel, -⟩ := append_slash_of_append (x := p ++ [slash]) (q := q) hsuffix
          (by rw [← heq]; simp)
        exact hsub.2 ⟨p, as, by rw [hrel]; simp⟩
    · rintro (heq | heq) <;> simp [heq] at hlen
    · intro heq
      obtain ⟨c, cs, rfl⟩ := List.exists_cons_of_ne_nil hnil
      exact hhead heq
    · simp [hnil]
  · have hnew := hname.syncing
    rw [mustBeDir_eq_false hnew.1.no_slash]
    · exact ⟨hnew.1.ne_nil, hnew.2, hnew.1.ne_dotdot⟩
    rcases hcase with rfl | ⟨u, rfl, -⟩
    · exact Or.inl rfl
    · exact Or.inr ⟨u, by simp⟩

end MiniSync
