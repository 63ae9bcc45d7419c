import MiniSync.FaultFree.Ways

/-!
# Renames along a new way

When `rename` is refused where the directory of the new path has just been made.
-/

namespace MiniSync

open Prog

/-- Why `rename` is refused where the directory of `new_path` has just been made. -/
inductive RenameRefused (cwd : TreePath) (tree : Tree) (old_path new_path : Bytes) : Prop
  /-- A path ends in `.` -/
  | dots (ends : endsInDot old_path = true ∨ endsInDot new_path = true)
  /-- There is nothing to rename.  A directory that is to become itself is made. -/
  | missing (source : tree.lookup (resolve cwd old_path) = none)
      (apart : resolve cwd old_path ≠ resolve cwd new_path ∨ asksForDir new_path = false)
  /-- It would move into itself. -/
  | inside (below : resolve cwd old_path <+: resolve cwd new_path)
      (apart : resolve cwd old_path ≠ resolve cwd new_path ∨ asksForDir new_path = false)
  /-- A file is to be a directory. -/
  | notDir (file : ∃ c, tree.lookup (resolve cwd old_path) = some (.file c))
      (asks : asksForDir old_path = true ∨ asksForDir new_path = true)

section Renames

variable {cwd : TreePath} {tree tree' : Tree} {rel b old_path new_path : Bytes}
  {names q base : TreePath}

/-! ## When `rename` is refused -/

/-- What is at the end of a new way, or one step further. -/
structure NewWay (tree tree' : Tree) (base names : TreePath) : Prop where
  grounded : tree.Grounded
  grounded' : tree'.Grounded
  free : ∀ q c, OnWay base names q → tree.lookup q ≠ some (.file c)
  missing : ∃ q, OnWay base names q ∧ tree.lookup q = none
  dirs : ∀ q, OnWay base names q → tree'.IsDir q
  rest : ∀ q, ¬ OnWay base names q → tree'.lookup q = tree.lookup q

theorem OnWay.prefix_end (h : OnWay base names q) : q <+: base ++ names := by
  obtain ⟨r, hr, rfl⟩ := h
  exact (List.prefix_append_right_inj _).mpr hr

namespace NewWay

variable {src dst : TreePath} {srcAsks dstAsks : Bool} {name : Bytes}

/-- Below the end of the way there was nothing. -/
theorem lookup_below (h : NewWay tree tree' base names) (hq : base ++ names <+: q) :
    tree.lookup q = none := by
  obtain ⟨m, hm, hnone⟩ := h.missing
  have hbelow : m <+: q := hm.prefix_end.trans hq
  by_cases hne : q = m
  · rw [hne, hnone]
  · exact h.grounded.lookup_of_under (by rw [hnone]; nofun) hbelow hne

theorem lookup_end (h : NewWay tree tree' base names) :
    tree'.lookup (base ++ names) = some .dir := h.dirs _ (onWay_end base names)

/-- Below the end of the way there is nothing now. -/
theorem lookup_past (h : NewWay tree tree' base names) (hq : base ++ names <+: q)
    (hne : q ≠ base ++ names) : tree'.lookup q = none := by
  have hnot : ¬ OnWay base names q := fun hway =>
    hne (List.IsPrefix.eq_of_length_le hway.prefix_end hq.length_le)
  rw [h.rest q hnot]
  exact h.lookup_below hq

/-- A new node has room at the end of the way, if it is a directory, and past it. -/
theorem renameOnto_ok (h : NewWay tree tree' base names) {isDir : Bool}
    (hdst : (dst = base ++ names ∧ isDir = true) ∨ dst = base ++ names ++ [name]) :
    ∃ tree'', tree'.renameOnto isDir src dst = .ok tree'' := by
  refine ⟨_, FileTree.renameOnto_of_room ?_ ?_⟩
  · unfold FileTree.Room
    rcases hdst with ⟨rfl, rfl⟩ | rfl
    · rw [h.lookup_end]
      refine ⟨rfl, Bool.eq_false_iff.mpr fun hocc => ?_⟩
      obtain ⟨q, hq, hne, hsome⟩ := FileTree.occupied_iff.mp hocc
      exact hsome (h.lookup_past hq hne)
    · rw [h.lookup_past (List.prefix_append _ _) (by simp)]
      trivial
  · unfold FileTree.parentIsDir
    rcases hdst with ⟨rfl, -⟩ | rfl
    · by_cases hroot : base ++ names = []
      · rw [hroot]
        rfl
      · exact h.grounded' _ hroot (by rw [h.lookup_end]; nofun)
    · rw [List.dropLast_concat]
      exact h.lookup_end

/-- `dst` is the end of the way, spelled as a directory, or one step further. -/
def Ends (base names dst : TreePath) (dstAsks : Bool) (name : Bytes) : Prop :=
  (dst = base ++ names ∧ dstAsks = true) ∨ (dst = base ++ names ++ [name] ∧ dstAsks = false)

theorem past_of_ends (hdst : Ends base names dst dstAsks name) : base ++ names <+: dst := by
  rcases hdst with ⟨rfl, -⟩ | ⟨rfl, -⟩
  · exact List.prefix_rfl
  · exact List.prefix_append _ _

/-- What stands below `dst` is not there. -/
theorem not_below_of_lookup (h : NewWay tree tree' base names)
    (hdst : Ends base names dst dstAsks name) {node : Node Bytes}
    (hsrc : tree'.lookup src = some node) (hsd : ¬ src <+: dst) : ¬ dst <+: src := by
  intro hds
  have hpast := past_of_ends hdst
  rw [h.lookup_past (hpast.trans hds) fun heq => hsd (heq ▸ hpast)] at hsrc
  cases hsrc

/-- What is no directory now is what it was. -/
theorem lookup_of_not_dir (h : NewWay tree tree' base names) (hnot : tree'.lookup src ≠ some .dir) :
    ¬ OnWay base names src ∧ tree.lookup src = tree'.lookup src := by
  have hway : ¬ OnWay base names src := fun hq => hnot (h.dirs src hq)
  exact ⟨hway, (h.rest src hway).symm⟩

/-- A missing source. -/
theorem apart_of_none (h : NewWay tree tree' base names) (hdst : Ends base names dst dstAsks name)
    (hsrc : tree'.lookup src = none) :
    tree.lookup src = none ∧ (src ≠ dst ∨ dstAsks = false) := by
  have hnot : tree'.lookup src ≠ some .dir := by rw [hsrc]; nofun
  obtain ⟨hway, hsame⟩ := h.lookup_of_not_dir hnot
  refine ⟨hsame.trans hsrc, ?_⟩
  rcases hdst with ⟨rfl, -⟩ | ⟨-, hasks⟩
  · exact Or.inl fun heq => hway (heq ▸ onWay_end base names)
  · exact Or.inr hasks

/-- The source is a file: it must not be asked for as a directory, nor stand above `dst`. -/
theorem rename_file_error_iff (h : NewWay tree tree' base names)
    (hdst : Ends base names dst dstAsks name) {c : Bytes}
    (hsrc : tree'.lookup src = some (.file c)) :
    (∃ e, tree'.rename src dst (srcAsks || dstAsks) = .error e) ↔
      src <+: dst ∨ srcAsks = true ∨ dstAsks = true := by
  have hnot : tree'.lookup src ≠ some .dir := by rw [hsrc]; nofun
  obtain ⟨-, hfile⟩ := h.lookup_of_not_dir hnot
  have hne : src ≠ dst := by
    rintro rfl
    rw [h.lookup_below (past_of_ends hdst), hsrc] at hfile
    cases hfile
  unfold FileTree.rename
  rw [hsrc]
  dsimp only
  by_cases hasks : srcAsks = true ∨ dstAsks = true
  · rw [if_pos ⟨by simpa using hasks, rfl⟩]
    exact ⟨fun _ => Or.inr hasks, fun _ => ⟨_, rfl⟩⟩
  rw [if_neg (fun hboth => hasks (by simpa using hboth.1)), if_neg hne]
  by_cases hsd : src <+: dst
  · rw [if_pos hsd]
    exact ⟨fun _ => Or.inl hsd, fun _ => ⟨_, rfl⟩⟩
  have hplain : dst = base ++ names ++ [name] := by
    rcases hdst with ⟨-, hd⟩ | ⟨heq, -⟩
    · exact absurd (Or.inr hd) hasks
    · exact heq
  obtain ⟨tree'', hok⟩ := h.renameOnto_ok (Or.inr hplain)
  rw [if_neg hsd, if_neg (h.not_below_of_lookup hdst hsrc hsd),
    show (Node.file c).isDir = false from rfl, hok]
  constructor
  · rintro ⟨e, he⟩
    cases he
  · rintro (hsd' | hasks')
    · exact absurd hsd' hsd
    · exact absurd hasks' hasks

/-- The source is a directory: it must not stand above `dst`, unless it is `dst` itself,
which the way has made. -/
theorem rename_dir_error_iff (h : NewWay tree tree' base names)
    (hdst : Ends base names dst dstAsks name) (hsrc : tree'.lookup src = some .dir) :
    (∃ e, tree'.rename src dst (srcAsks || dstAsks) = .error e) ↔
      src <+: dst ∧ (src ≠ dst ∨ dstAsks = false) := by
  unfold FileTree.rename
  rw [hsrc]
  dsimp only
  rw [if_neg (fun hboth => by cases hboth.2)]
  by_cases heq : src = dst
  · have hasks : dstAsks = true := by
      rcases hdst with ⟨-, hd⟩ | ⟨hd, -⟩
      · exact hd
      · rw [heq, hd, h.lookup_past (List.prefix_append _ _) (by simp)] at hsrc
        cases hsrc
    rw [if_pos heq]
    constructor
    · rintro ⟨e, he⟩
      cases he
    · rintro ⟨-, hne | hd⟩
      · exact absurd heq hne
      · rw [hasks] at hd
        cases hd
  rw [if_neg heq]
  by_cases hsd : src <+: dst
  · rw [if_pos hsd]
    exact ⟨fun _ => ⟨hsd, Or.inl heq⟩, fun _ => ⟨_, rfl⟩⟩
  have hroom : (dst = base ++ names ∧ true = true) ∨ dst = base ++ names ++ [name] := by
    rcases hdst with ⟨hd, -⟩ | ⟨hd, -⟩
    · exact Or.inl ⟨hd, rfl⟩
    · exact Or.inr hd
  obtain ⟨tree'', hok⟩ := h.renameOnto_ok hroom
  rw [if_neg hsd, if_neg (h.not_below_of_lookup hdst hsrc hsd),
    show (Node.dir : Node Bytes).isDir = true from rfl, hok]
  constructor
  · rintro ⟨e, he⟩
    cases he
  · exact fun hsd' => absurd hsd'.1 hsd

/-- `rename` of `src` to `dst` after the way to `dst` was made. -/
theorem rename_error_iff (h : NewWay tree tree' base names)
    (hdst : Ends base names dst dstAsks name) :
    (∃ e, tree'.rename src dst (srcAsks || dstAsks) = .error e) ↔
      (tree.lookup src = none ∧ (src ≠ dst ∨ dstAsks = false)) ∨
        (src <+: dst ∧ (src ≠ dst ∨ dstAsks = false)) ∨
        ((∃ c, tree.lookup src = some (.file c)) ∧ (srcAsks = true ∨ dstAsks = true)) := by
  have hdstNone := h.lookup_below (past_of_ends hdst)
  cases hsrc : tree'.lookup src with
  | none =>
      refine ⟨fun _ => Or.inl (h.apart_of_none hdst hsrc), fun _ => ?_⟩
      unfold FileTree.rename
      rw [hsrc]
      exact ⟨_, rfl⟩
  | some node =>
      cases node with
      | file c =>
          have hnot : tree'.lookup src ≠ some .dir := by rw [hsrc]; nofun
          obtain ⟨-, hsame⟩ := h.lookup_of_not_dir hnot
          have hfile := hsame.trans hsrc
          have hne : src ≠ dst := by
            rintro rfl
            rw [hdstNone] at hfile
            cases hfile
          rw [h.rename_file_error_iff hdst hsrc]
          constructor
          · rintro (hsd | hasks)
            · exact Or.inr (Or.inl ⟨hsd, Or.inl hne⟩)
            · exact Or.inr (Or.inr ⟨⟨c, hfile⟩, hasks⟩)
          · rintro (⟨hnone, -⟩ | ⟨hsd, -⟩ | ⟨-, hasks⟩)
            · rw [hfile] at hnone
              cases hnone
            · exact Or.inl hsd
            · exact Or.inr hasks
      | dir =>
          rw [h.rename_dir_error_iff hdst hsrc]
          refine ⟨fun hsd => Or.inr (Or.inl hsd), ?_⟩
          by_cases hway : OnWay base names src
          · -- a directory of the way stands above `dst`, and was no file
            rintro (⟨-, hapart⟩ | hsd | ⟨⟨c, hc⟩, -⟩)
            · exact ⟨hway.prefix_end.trans (past_of_ends hdst), hapart⟩
            · exact hsd
            · exact absurd hc (h.free src c hway)
          · rw [← h.rest src hway, hsrc]
            rintro (⟨hnone, -⟩ | hsd | ⟨⟨c, hc⟩, -⟩)
            · cases hnone
            · exact hsd
            · cases hc

end NewWay

theorem posixRename_error_iff (hold : old_path ≠ []) (hnew : new_path ≠ []) :
    (∃ e, (posixRename cwd tree old_path new_path).1 = .error e) ↔
      (endsInDot old_path = true ∨ endsInDot new_path = true) ∨
        (¬ (endsInDot old_path = true ∨ endsInDot new_path = true) ∧
          ∃ e, tree.rename (resolve cwd old_path) (resolve cwd new_path)
            (asksForDir old_path || asksForDir new_path) = .error e) := by
  have hnil : ¬ (old_path = [] ∨ new_path = []) := by
    rintro (h | h)
    · exact hold h
    · exact hnew h
  unfold posixRename
  rw [if_neg hnil]
  by_cases hdots : endsInDot old_path = true ∨ endsInDot new_path = true
  · rw [if_pos hdots]
    exact ⟨fun _ => Or.inl hdots, fun _ => ⟨_, rfl⟩⟩
  · rw [if_neg hdots]
    split
    · rename_i tree' hok
      simp [hdots, hok]
    · rename_i e he
      simp [hdots, he]

/-- The last piece of a path below `b`, and the names before it. -/
theorem Relative.exists_last (h : Relative rel) (b : Bytes) :
    ∃ x name, slash ∉ name ∧ name ≠ dotdot ∧ b ++ slash :: rel = x ++ slash :: name ∧
      relNames rel = parentNames rel ++ relNames name := by
  obtain ⟨name, hname, rfl | ⟨u, rfl⟩⟩ := PosixPath.exists_last_piece slash rel
  · refine ⟨b, rel, hname, ?_, rfl, ?_⟩
    · rintro rfl
      exact h.no_dotdot (by decide)
    · rw [parentNames_of_notMem hname, List.nil_append]
  · have hu : u ≠ [] := by
      rintro rfl
      exact h.head_ne rfl
    refine ⟨b ++ slash :: u, name, hname, ?_, by simp, ?_⟩
    · rintro rfl
      apply h.no_dotdot
      rw [List.splitOn_append_cons_self, List.splitOn_eq_singleton hname]
      exact List.mem_append_right _ (List.mem_singleton.mpr rfl)
    · rw [parentNames_append hname hu, relNames_append]

/-- `rename` is refused, where the directory of the new path was just made. -/
theorem renameRefused_iff {old_rel new_rel : Bytes} (hb : b ≠ []) (hnew : Relative new_rel)
    (hway : NewWay tree tree' (resolve cwd b) (parentNames new_rel)) :
    (∃ e, (posixRename cwd tree' (b ++ slash :: old_rel) (b ++ slash :: new_rel)).1 = .error e) ↔
      RenameRefused cwd tree (b ++ slash :: old_rel) (b ++ slash :: new_rel) := by
  rw [posixRename_error_iff (by simp) (by simp)]
  have hnode := @resolve_below cwd b new_rel hb hnew.no_dotdot
  obtain ⟨x, name, hname, hdots, hshape, hnames⟩ := hnew.exists_last b
  rw [hnames] at hnode
  by_cases hends : endsInDot (b ++ slash :: old_rel) = true ∨
      endsInDot (b ++ slash :: new_rel) = true
  · exact ⟨fun _ => .dots hends, fun _ => Or.inl hends⟩
  have hasks : asksForDir (b ++ slash :: new_rel) = false ↔
      name ≠ [] ∧ name ≠ [dot] ∧ name ≠ dotdot := mustBeDir_eq_false hname (Or.inr ⟨x, hshape⟩)
  have hname_ne : name ≠ [dot] := by
    rintro rfl
    apply hends
    right
    rw [hshape]
    unfold endsInDot PosixPath.lastIsDot PosixPath.lastName
    rw [List.splitOn_append_cons_self, List.splitOn_eq_singleton hname, List.filter_append,
      List.filter_cons_of_pos (by decide), List.filter_nil, List.getLastD_concat]
    decide
  have hdst : (resolve cwd (b ++ slash :: new_rel) = resolve cwd b ++ parentNames new_rel ∧
      asksForDir (b ++ slash :: new_rel) = true) ∨
      (resolve cwd (b ++ slash :: new_rel) = resolve cwd b ++ parentNames new_rel ++ [name] ∧
        asksForDir (b ++ slash :: new_rel) = false) := by
    by_cases hnil : name = []
    · left
      rw [hnil] at hnode
      rw [relNames_nil, List.append_nil] at hnode
      exact ⟨hnode, eq_true_of_ne_false fun hfalse => (hasks.mp hfalse).1 hnil⟩
    · right
      rw [relNames_component ⟨hname, hnil, hdots⟩ hname_ne, ← List.append_assoc] at hnode
      exact ⟨hnode, hasks.mpr ⟨hnil, hname_ne, hdots⟩⟩
  have hiff := @NewWay.rename_error_iff _ _ _ _ (resolve cwd (b ++ slash :: old_rel)) _
    (asksForDir (b ++ slash :: old_rel)) _ name hway hdst
  constructor
  · rintro (hdots' | ⟨-, herr⟩)
    · exact absurd hdots' hends
    rcases hiff.mp herr with ⟨hnone, hapart⟩ | ⟨hbelow, hapart⟩ | ⟨hfile, hask⟩
    · exact .missing hnone hapart
    · exact .inside hbelow hapart
    · exact .notDir hfile hask
  · intro hrefused
    cases hrefused with
    | dots hdots' => exact absurd hdots' hends
    | missing hnone hapart => exact Or.inr ⟨hends, hiff.mpr (Or.inl ⟨hnone, hapart⟩)⟩
    | inside hbelow hapart => exact Or.inr ⟨hends, hiff.mpr (Or.inr (Or.inl ⟨hbelow, hapart⟩))⟩
    | notDir hfile hask => exact Or.inr ⟨hends, hiff.mpr (Or.inr (Or.inr ⟨hfile, hask⟩))⟩

end Renames

end MiniSync
