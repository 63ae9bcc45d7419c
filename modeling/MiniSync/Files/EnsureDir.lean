import MiniSync.FaultFree.Directories

/-!
# What `ensure_dir_exists` establishes

A path is resolved here component by component, as POSIX has it: every directory
before the last component has to be one.  The function takes `EEXIST` for success
whatever stands at the name, so anything but a directory at the end of the path passes, too.
All that is not a directory is the same to `mkdir`, and `Node.file` stands for it here.
-/

namespace MiniSync

open Prog

/-! ## `mkdir` component by component -/

/-- `mkdir` after the directories before the last component have been checked. -/
def posixMkdirAt (cwd : TreePath) (tree : Tree) (path : Bytes) : Except Errno Unit × Tree :=
  let path := stripTrailingSlashes path
  match (slashPrefixes path).find? fun p => tree.lookup (resolve cwd p) ≠ some .dir with
  | some p => (.error (if tree.lookup (resolve cwd p) = none then .noent else .notdir), tree)
  | none => posixMkdir cwd tree path

/-- POSIX, with that `mkdir`. -/
def posixWalking (env : Env) : (c : Call TreePath) → World → Resp c × World
  | .mkdir path, w =>
      let r := posixMkdirAt env.cwd w.tree path
      (r.1, { w with tree := r.2 })
  | c, w => posix env c w

/-- One call: at some time of day it is answered, or it goes wrong. -/
def Walking (cwd : TreePath) (mayFail : Call TreePath → Errno → Prop) (c : Call TreePath)
    (w : World) (r : Resp c) (w' : World) : Prop :=
  (∃ now, posixWalking ⟨cwd, now⟩ c w = (r, w')) ∨ Faulty mayFail c w r w'

/-- What `ensure_dir_exists` is for: after success the path and all that lead to it
name directories, and whatever it returns, all that there was is as it was. -/
structure Establishes (cwd : TreePath) (path : Bytes) (w : World) (rc : Rc) (w' : World) :
    Prop where
  dirs : rc = .ok → ∀ p, p ≠ [] → Leads p path → w'.tree.IsDir (resolve cwd p)
  kept : ∀ q, w.tree.lookup q ≠ none → w'.tree.lookup q = w.tree.lookup q

/-- Every directory before the last component is one. -/
def Walkable (cwd : TreePath) (tree : Tree) (path : Bytes) : Prop :=
  ∀ p ∈ slashPrefixes (stripTrailingSlashes path), tree.IsDir (resolve cwd p)

section EnsureDir

variable {cwd : TreePath} {mayFail : Call TreePath → Errno → Prop} {tree tree' : Tree}
  {w w' : World} {path p u : Bytes}

theorem resolve_append_slashes {t : Bytes} (ht : t ≠ []) (k : Nat) :
    resolve cwd (t ++ List.replicate k slash) = resolve cwd t := by
  induction k with
  | zero => rw [List.replicate_zero, List.append_nil]
  | succ k ih =>
      rw [List.replicate_succ', ← List.append_assoc, resolve_append_slash (by simp [ht]), ih]

theorem resolve_stripTrailingSlashes (h : path ≠ []) :
    resolve cwd (stripTrailingSlashes path) = resolve cwd path := by
  obtain ⟨k, hk⟩ := exists_stripped path
  have hsame := @resolve_append_slashes cwd _ (stripTrailingSlashes_ne_nil h) k
  rw [← hk] at hsame
  exact hsame.symm

theorem endsInDot_append_slashes {t : Bytes} (k : Nat) :
    endsInDot (t ++ List.replicate k slash) = endsInDot t := by
  induction k with
  | zero => rw [List.replicate_zero, List.append_nil]
  | succ k ih =>
      rw [← ih, List.replicate_succ', ← List.append_assoc]
      unfold endsInDot PosixPath.lastIsDot PosixPath.lastName
      rw [List.splitOn_append_cons_self]
      simp

/-- Slashes at the end make no difference to `mkdir`. -/
theorem posixMkdir_stripTrailingSlashes :
    posixMkdir cwd tree (stripTrailingSlashes path) = posixMkdir cwd tree path := by
  by_cases hpath : path = []
  · subst hpath
    rfl
  obtain ⟨k, hk⟩ := exists_stripped path
  have hdot := @endsInDot_append_slashes (stripTrailingSlashes path) k
  rw [← hk] at hdot
  unfold posixMkdir
  rw [if_neg hpath, if_neg (stripTrailingSlashes_ne_nil hpath), ← hdot,
    resolve_stripTrailingSlashes hpath]

/-- What leads to a path is the path but for slashes at the end, or stands before a
slash inside. -/
theorem leads_cases (hp : p ≠ []) (h : Leads p path) :
    stripTrailingSlashes p = stripTrailingSlashes path ∨
      p ∈ slashPrefixes (stripTrailingSlashes path) := by
  obtain ⟨rest, rfl, rfl | ⟨v, rfl⟩⟩ := h
  · rw [List.append_nil]
    exact Or.inl rfl
  obtain ⟨k, hk⟩ := exists_stripped (p ++ slash :: v)
  have hne : stripTrailingSlashes (p ++ slash :: v) ≠ [] := stripTrailingSlashes_ne_nil (by simp)
  have hstrip : ∀ j, p = stripTrailingSlashes (p ++ slash :: v) ++ List.replicate j slash →
      stripTrailingSlashes p = stripTrailingSlashes (p ++ slash :: v) := by
    intro j hj
    rw [hj, stripTrailingSlashes_append hne, ← stripTrailingSlashes_append hne k, ← hk, ← hj]
  rcases List.append_eq_append_iff.mp hk with ⟨as, ht, hv⟩ | ⟨bs, ht, hv⟩
  · cases as with
    | nil => exact Or.inl (hstrip 0 (by rw [ht]; simp))
    | cons c as =>
        rw [List.cons_append, List.cons.injEq] at hv
        right
        rw [mem_slashPrefixes, ht, ← hv.1]
        exact ⟨hp, as, rfl⟩
  · refine Or.inl (hstrip bs.length ?_)
    have hbs : bs = List.replicate bs.length slash := by
      rw [List.eq_replicate_iff]
      refine ⟨rfl, fun b hb => ?_⟩
      have hmem : b ∈ List.replicate k slash := by
        rw [hv]
        exact List.mem_append_left _ hb
      exact List.eq_of_mem_replicate hmem
    rw [← hbs]
    exact ht

/-! ## One `mkdir` -/

theorem posixMkdir_exist {e : Errno} (h : (posixMkdir cwd tree path).1 = .error e)
    (he : e = .exist) : tree.lookup (resolve cwd path) ≠ none := by
  subst he
  unfold posixMkdir at h
  split_ifs at h
  · simp at h
  · split at h
    · simp at h
    · rename_i node hnode
      rw [hnode]
      rintro ⟨⟩
  · intro hnone
    have hparent := FileTree.parentErrno_ne_exist tree (resolve cwd path)
    unfold FileTree.mkdir at h
    simp only [hnone] at h
    by_cases hdir : tree.parentIsDir (resolve cwd path)
    · simp [hdir] at h
    · simp [hdir, hparent] at h

theorem posixMkdirAt_cases (hpath : path ≠ []) :
    (∃ e, posixMkdirAt cwd tree path = (.error e, tree) ∧
      (e = .exist → Walkable cwd tree path ∧ tree.lookup (resolve cwd path) ≠ none)) ∨
    ∃ tree', posixMkdirAt cwd tree path = (.ok (), tree') ∧ Walkable cwd tree path ∧
      tree.mkdir (resolve cwd path) = .ok tree' := by
  unfold posixMkdirAt
  simp only
  split
  · left
    refine ⟨_, rfl, fun h => ?_⟩
    split_ifs at h
  · rename_i hfind
    have hwalk : Walkable cwd tree path := by
      rw [List.find?_eq_none] at hfind
      intro p hp
      simpa [FileTree.IsDir] using hfind p hp
    have hcases := posixMkdir_cases cwd tree (stripTrailingSlashes path)
    rw [resolve_stripTrailingSlashes hpath] at hcases
    rcases hcases with ⟨e, he⟩ | ⟨tree', hok, hmk⟩
    · refine Or.inl ⟨e, he, fun hexist => ⟨hwalk, ?_⟩⟩
      rw [← resolve_stripTrailingSlashes hpath]
      exact posixMkdir_exist (congrArg Prod.fst he) hexist
    · exact Or.inr ⟨tree', hok, hwalk, hmk⟩

theorem Walking.mkdirCases {r : Resp (.mkdir path)} (hpath : path ≠ [])
    (hexist : ¬ mayFail (.mkdir path) .exist) (h : Walking cwd mayFail (.mkdir path) w r w') :
    ((∃ e, r = .error e ∧
        (e = .exist → Walkable cwd w.tree path ∧ w.tree.lookup (resolve cwd path) ≠ none)) ∧
      w' = w) ∨
      (r = .ok () ∧ Walkable cwd w.tree path ∧
        w.tree.mkdir (resolve cwd path) = .ok w'.tree) := by
  rcases h with ⟨now, h⟩ | ⟨e, hmay, rfl, rfl⟩
  · cases h
    rcases @posixMkdirAt_cases cwd w.tree path hpath with ⟨e, he, hwalk⟩ | ⟨tree', hok, hwalk, hmk⟩
    · simp only [he]
      exact Or.inl ⟨⟨e, rfl, hwalk⟩, trivial⟩
    · simp only [hok]
      exact Or.inr ⟨rfl, hwalk, hmk⟩
  · exact Or.inl ⟨⟨e, rfl, fun h => absurd (h ▸ hmay) hexist⟩, rfl⟩

theorem lookup_mkdir_ne_none {q : TreePath} (h : tree.mkdir q = .ok tree') :
    tree'.lookup q ≠ none := by
  unfold FileTree.mkdir at h
  split at h
  · cases h
  · rename_i hnone
    split_ifs at h
    have hq : q ≠ [] := by
      rintro rfl
      cases hnone
    rw [← Except.ok.inj h, FileTree.lookup_put hq, if_pos rfl]
    rintro ⟨⟩

/-- A success says that all before the last component are directories, and that
something is at the end. -/
theorem safe_mkdirEach_singleton (hpath : path ≠ []) (hexist : ¬ mayFail (.mkdir path) .exist) :
    (mkdirEach [path]).Safe (Walking cwd mayFail) (fun _ => True)
      (fun rc w' => w.tree.Touches (fun _ => False) w'.tree ∧
        (rc = .ok → Walkable cwd w.tree path ∧ w'.tree.lookup (resolve cwd path) ≠ none)) w := by
  apply Safe.op_bind
  intro r w' hK
  refine ⟨trivial, ?_⟩
  rcases Walking.mkdirCases hpath hexist hK with ⟨⟨e, rfl, hwalk⟩, rfl⟩ | ⟨rfl, hwalk, hmk⟩
  · split
    · rename_i heq
      cases heq
    · rename_i heq
      exact ⟨.refl _ w'.tree, fun _ => hwalk (Except.error.inj heq)⟩
    · exact ⟨.refl _ w'.tree, by rintro ⟨⟩⟩
  · exact ⟨.mkdir hmk, fun _ => ⟨hwalk, lookup_mkdir_ne_none hmk⟩⟩

theorem touches_mkdirEach (dirs : List Bytes) :
    (mkdirEach dirs).Safe (Walking cwd mayFail) (fun _ => True)
      (fun _ w' => w.tree.Touches (fun _ => False) w'.tree) w := by
  have hcalls : (mkdirEach dirs : Sys TreePath Rc).All (fun c => ∃ d, c = .mkdir d) _ :=
    all_mkdirEach fun d _ => ⟨d, rfl⟩
  have hsafe : (mkdirEach dirs).Safe (Walking cwd mayFail)
      (fun w' => w.tree.Touches (fun _ => False) w'.tree)
      (fun _ w' => True ∧ w.tree.Touches (fun _ => False) w'.tree) w := by
    apply hcalls.safe _ (.refl _ w.tree)
    rintro c s r s' ⟨d, rfl⟩ hs hK
    rcases hK with ⟨now, h⟩ | ⟨e, -, rfl, rfl⟩
    · cases h
      refine hs.trans ?_
      by_cases hd : d = []
      · subst hd
        exact .refl _ s.tree
      rcases @posixMkdirAt_cases cwd s.tree d hd with ⟨e, he, -⟩ | ⟨tree', hok, -, hmk⟩
      · simp only [he]
        exact .refl _ s.tree
      · simp only [hok]
        exact .mkdir hmk
    · exact hs
  exact hsafe.mono (fun _ _ => trivial) fun _ _ h => h.2

theorem Faulty.mono {mayFail mayFail' : Call TreePath → Errno → Prop} {c : Call TreePath}
    {r : Resp c} (hle : ∀ c e, mayFail c e → mayFail' c e) (h : Faulty mayFail c w r w') :
    Faulty mayFail' c w r w' := by
  have herr : ∀ {P : Errno → Prop}, (∃ e, mayFail c e ∧ P e) → ∃ e, mayFail' c e ∧ P e :=
    fun ⟨e, he, hP⟩ => ⟨e, hle c e he, hP⟩
  have hbare : (∃ e, mayFail c e) → ∃ e, mayFail' c e := fun ⟨e, he⟩ => ⟨e, hle c e he⟩
  cases c with
  | openFile path how => exact herr h
  | read fd pos count => exact ⟨h.1, h.2.imp_left herr⟩
  | pwrite fd buf pos => exact h.imp_left herr
  | lseek fd pos => exact herr h
  | fsync fd => exact herr h
  | mkdir path => exact herr h
  | rename src dst => exact herr h
  | unlink path => exact herr h
  | stat path => exact herr h
  | access path => exact ⟨hbare h.1, h.2⟩
  | chmod path mode => exact ⟨hbare h.1, h.2⟩
  | utime path mtime => exact ⟨hbare h.1, h.2⟩
  | readLock fd => exact ⟨hbare h.1, h.2⟩
  | malloc size => exact ⟨hbare h.1, h.2⟩
  | connect => exact ⟨hbare h.1, h.2⟩
  | recv count => exact h.imp_left herr
  | send buf => exact h.imp_left herr
  | _ => exact h

/-- A missing directory is one more error of `mkdir`. -/
theorem Walking.kernel {c : Call TreePath} {r : Resp c} (h : Walking cwd mayFail c w r w') :
    Kernel cwd (fun _ _ => True) c w r w' := by
  rcases h with ⟨now, h⟩ | h
  · cases c with
    | mkdir path =>
        cases h
        unfold posixMkdirAt
        simp only
        split
        · exact Or.inr ⟨_, trivial, rfl, rfl⟩
        · left
          refine ⟨now, ?_⟩
          rw [posixMkdir_stripTrailingSlashes]
          rfl
    | _ => exact Or.inl ⟨now, h⟩
  · exact Or.inr (h.mono fun _ _ _ => trivial)

/-! ## Where nothing is in the way -/

theorem isDir_dropLast {q : TreePath} (hg : tree.Grounded) (h : tree.IsDir q) :
    tree.IsDir q.dropLast := by
  by_cases hq : q = []
  · rw [hq]
    rfl
  · exact hg q hq (by rw [show tree.lookup q = some .dir from h]; nofun)

/-- The node of a path is one step away from a directory. -/
theorem exists_last_step (hcwd : tree.IsDir cwd) (hwalk : Walkable cwd tree path) :
    ∃ base name, tree.IsDir base ∧ slash ∉ name ∧
      resolve cwd (stripTrailingSlashes path) = PosixPath.step dot base name ∧
      (stripTrailingSlashes path = name ∨ ∃ u, stripTrailingSlashes path = u ++ slash :: name) := by
  unfold Walkable at hwalk
  generalize stripTrailingSlashes path = t at hwalk
  obtain ⟨name, hname, hcase⟩ := PosixPath.exists_last_piece slash t
  have hstep : ∀ base, PosixPath.walk slash dot base name = PosixPath.step dot base name := by
    intro base
    unfold PosixPath.walk
    rw [List.splitOn_eq_singleton hname]
    rfl
  rcases hcase with rfl | ⟨u, rfl⟩
  · refine ⟨cwd, t, hcwd, hname, ?_, Or.inl rfl⟩
    have hhead : t.head? ≠ some slash := fun h => hname (List.mem_of_mem_head? h)
    rw [resolve, if_neg hhead, hstep]
  · cases u with
    | nil =>
        have hhead : (slash :: name).head? = some slash := rfl
        refine ⟨[], name, rfl, hname, ?_, Or.inr ⟨[], rfl⟩⟩
        rw [resolve, List.nil_append, if_pos hhead, PosixPath.walk_cons_sep, hstep]
    | cons c cs =>
        refine ⟨resolve cwd (c :: cs), name, ?_, hname, ?_, Or.inr ⟨c :: cs, rfl⟩⟩
        · exact hwalk _ (mem_slashPrefixes.mpr ⟨by simp, name, rfl⟩)
        · unfold resolve
          rw [PosixPath.walk_append_sep, hstep]
          rfl

theorem Walkable.find_eq_none (h : Walkable cwd tree path) :
    (slashPrefixes (stripTrailingSlashes path)).find?
      (fun p => tree.lookup (resolve cwd p) ≠ some .dir) = none := by
  rw [List.find?_eq_none]
  intro p hp
  simpa [FileTree.IsDir] using h p hp

/-- A missing last component can be made. -/
theorem posixMkdirAt_of_none (hg : tree.Grounded) (hcwd : tree.IsDir cwd) (hpath : path ≠ [])
    (hwalk : Walkable cwd tree path) (hnone : tree.lookup (resolve cwd path) = none) :
    posixMkdirAt cwd tree path = (.ok (), tree.put (resolve cwd path) .dir) ∧
      tree.mkdir (resolve cwd path) = .ok (tree.put (resolve cwd path) .dir) := by
  obtain ⟨base, name, hbase, hslash, hnode, hshape⟩ := exists_last_step hcwd hwalk
  have hsame := @resolve_stripTrailingSlashes cwd path hpath
  rw [hsame] at hnode
  unfold PosixPath.step at hnode
  split_ifs at hnode with hstay hup
  · rw [hnode, show tree.lookup base = some .dir from hbase] at hnone
    cases hnone
  · have hdir := isDir_dropLast hg hbase
    rw [hnode, show tree.lookup base.dropLast = some .dir from hdir] at hnone
    cases hnone
  rw [not_or] at hstay
  have hdot := endsInDot_eq_false ⟨hslash, hstay.1, hup⟩ hstay.2 hshape
  have hparent : tree.parentIsDir (resolve cwd path) := by
    unfold FileTree.parentIsDir
    rw [hnode, List.dropLast_concat]
    exact hbase
  have hmk : tree.mkdir (resolve cwd path) = .ok (tree.put (resolve cwd path) .dir) := by
    unfold FileTree.mkdir
    rw [hnone]
    exact if_pos hparent
  refine ⟨?_, hmk⟩
  unfold posixMkdirAt
  simp only [hwalk.find_eq_none]
  unfold posixMkdir
  rw [if_neg (stripTrailingSlashes_ne_nil hpath), if_neg (by rw [hdot]; simp), hsame, hmk]

theorem posixMkdirAt_of_some (hpath : path ≠ []) (hwalk : Walkable cwd tree path) {node : Node _}
    (hsome : tree.lookup (resolve cwd path) = some node) :
    posixMkdirAt cwd tree path = (.error .exist, tree) := by
  have hsame := @resolve_stripTrailingSlashes cwd path hpath
  unfold posixMkdirAt
  simp only [hwalk.find_eq_none]
  unfold posixMkdir FileTree.mkdir
  rw [if_neg (stripTrailingSlashes_ne_nil hpath), hsame, hsome]
  split_ifs <;> rfl

/-- Where the directories before the last component are there, `mkdir` succeeds. -/
theorem returns_mkdirEach_walkable {env : Env} (hg : w.tree.Grounded) (hcwd : w.tree.IsDir env.cwd)
    (hpath : path ≠ []) (hwalk : Walkable env.cwd w.tree path) :
    (mkdirEach [path]).Returns (posixWalking env)
      (fun rc w' => rc = .ok ∧ w.tree.Touches (fun _ => False) w'.tree ∧ w'.tree.Grounded ∧
        w'.tree.lookup (resolve env.cwd path) ≠ none) w := by
  refine returns_op_bind.mpr ?_
  cases hlookup : w.tree.lookup (resolve env.cwd path) with
  | none =>
      obtain ⟨hok, hmk⟩ := posixMkdirAt_of_none hg hcwd hpath hwalk hlookup
      simp only [posixWalking, hok]
      exact .ret ⟨rfl, .mkdir hmk, hg.mkdir hmk, lookup_mkdir_ne_none hmk⟩
  | some node =>
      have hsome : w.tree.lookup (resolve env.cwd path) ≠ none := by
        rw [hlookup]
        rintro ⟨⟩
      simp only [posixWalking, posixMkdirAt_of_some hpath hwalk hlookup]
      exact .ret ⟨rfl, .refl _ w.tree, hg, hsome⟩

theorem mem_slashPrefixes_of_stripped (h : p ∈ slashPrefixes (stripTrailingSlashes path)) :
    p ∈ slashPrefixes path := by
  obtain ⟨k, hk⟩ := exists_stripped path
  rw [mem_slashPrefixes] at h ⊢
  obtain ⟨hp, v, hv⟩ := h
  refine ⟨hp, v ++ List.replicate k slash, ?_⟩
  rw [hv] at hk
  simpa using hk

theorem slashPrefixes_eq_nil {name : Bytes} (hname : slash ∉ name)
    (hu : u = name ∨ u = slash :: name) : slashPrefixes u = [] := by
  rw [List.eq_nil_iff_forall_not_mem]
  intro p hp
  obtain ⟨hne, v, hv⟩ := mem_slashPrefixes.mp hp
  rcases hu with rfl | rfl
  · exact hname (by rw [hv]; simp)
  · obtain ⟨c, cs, rfl⟩ := List.exists_cons_of_ne_nil hne
    rw [List.cons_append, List.cons.injEq] at hv
    exact hname (by rw [hv.2]; simp)

/-- Where no directory that is needed has the name of a file, all are there afterwards. -/
theorem returns_mkdirEach_free {env : Env} (hg : w.tree.Grounded) (hcwd : w.tree.IsDir env.cwd)
    (hu : u ≠ [])
    (hfree : ∀ p ∈ slashPrefixes u, ∀ c, w.tree.content (resolve env.cwd p) ≠ some c) :
    (mkdirEach (slashPrefixes u ++ [u])).Returns (posixWalking env)
      (fun rc w' => rc = .ok ∧ w.tree.Touches (fun _ => False) w'.tree ∧ w'.tree.Grounded ∧
        ∀ p ∈ slashPrefixes u ++ [u], w'.tree.lookup (resolve env.cwd p) ≠ none) w := by
  -- induction on the length of `u`, which loses its last piece
  induction hlen : u.length using Nat.strong_induction_on generalizing u with
  | _ n ih =>
  have hsingle : ∀ name, slash ∉ name → u = name ∨ u = slash :: name →
      (mkdirEach (slashPrefixes u ++ [u])).Returns (posixWalking env)
        (fun rc w' => rc = .ok ∧ w.tree.Touches (fun _ => False) w'.tree ∧ w'.tree.Grounded ∧
          ∀ p ∈ slashPrefixes u ++ [u], w'.tree.lookup (resolve env.cwd p) ≠ none) w := by
    intro name hname hshape
    have hnil := slashPrefixes_eq_nil hname hshape
    rw [hnil, List.nil_append]
    have hwalk : Walkable env.cwd w.tree u := by
      intro p hp
      have hmem := mem_slashPrefixes_of_stripped hp
      rw [hnil] at hmem
      cases hmem
    apply (returns_mkdirEach_walkable hg hcwd hu hwalk).post
    rintro rc w' ⟨hrc, htouch, hg', hsome⟩
    refine ⟨hrc, htouch, hg', fun p hp => ?_⟩
    rw [List.mem_singleton.mp hp]
    exact hsome
  obtain ⟨name, hname, rfl | ⟨v, rfl⟩⟩ := PosixPath.exists_last_piece slash u
  · exact hsingle u hname (Or.inl rfl)
  by_cases hv : v = []
  · subst hv
    exact hsingle name hname (Or.inr rfl)
  have hprefixes := slashPrefixes_append hv hname
  have hinit := ih v.length (by rw [← hlen, List.length_append, List.length_cons]; omega) hv
    (fun p hp => hfree p (by rw [hprefixes]; exact List.mem_append_left _ hp)) rfl
  rw [mkdirEach_append, hprefixes]
  apply hinit.bind
  rintro rc w₁ ⟨rfl, htouch₁, hg₁, hsome₁⟩
  -- what is there and is no file is a directory
  have hwalk : Walkable env.cwd w₁.tree (v ++ slash :: name) := by
    intro p hp
    have hmem := mem_slashPrefixes_of_stripped hp
    have hcontent := htouch₁.content (p := resolve env.cwd p) not_false
    have hnofile := hfree p hmem
    rw [hprefixes] at hmem
    have hsome := hsome₁ p hmem
    unfold FileTree.IsDir
    cases hnode : w₁.tree.lookup (resolve env.cwd p) with
    | none => exact absurd hnode hsome
    | some node =>
        cases node with
        | dir => rfl
        | file c =>
            rw [FileTree.content_eq_some.mpr hnode] at hcontent
            exact absurd hcontent.symm (hnofile c)
  have hcwd₁ : w₁.tree.IsDir env.cwd := by
    have hsame := htouch₁.lookup_of_ne_none (p := env.cwd) not_false
      (by rw [show w.tree.lookup env.cwd = some .dir from hcwd]; nofun)
    exact hsame.trans hcwd
  apply (returns_mkdirEach_walkable hg₁ hcwd₁ hu hwalk).post
  rintro rc w' ⟨hrc, htouch, hg', hsome⟩
  refine ⟨hrc, htouch₁.trans htouch, hg', fun p hp => ?_⟩
  rcases List.mem_append.mp hp with hp | hp
  · have hbefore := hsome₁ p hp
    rw [htouch.lookup_of_ne_none not_false hbefore]
    exact hbefore
  · rw [List.mem_singleton.mp hp]
    exact hsome

/-! ## The condition -/

theorem stripTrailingSlashes_idem (h : path ≠ []) :
    stripTrailingSlashes (stripTrailingSlashes path) = stripTrailingSlashes path := by
  obtain ⟨k, hk⟩ := exists_stripped path
  calc stripTrailingSlashes (stripTrailingSlashes path)
      = stripTrailingSlashes (stripTrailingSlashes path ++ List.replicate k slash) :=
        (stripTrailingSlashes_append (stripTrailingSlashes_ne_nil h) k).symm
    _ = stripTrailingSlashes path := by rw [← hk]

/-- A path is established where its own name is, and what stands before its slashes. -/
theorem establishes_of_walkable (hpath : path ≠ [])
    (htouch : w.tree.Touches (fun _ => False) w'.tree) (hwalk : Walkable cwd w'.tree path)
    (hdir : w'.tree.IsDir (resolve cwd path)) : Establishes cwd path w .ok w' := by
  refine ⟨fun _ p hp hleads => ?_, fun q hq => htouch.lookup_of_ne_none not_false hq⟩
  rcases leads_cases hp hleads with hsame | hmem
  · have hnode : resolve cwd p = resolve cwd path := by
      rw [← resolve_stripTrailingSlashes hp, hsame, resolve_stripTrailingSlashes hpath]
    rw [hnode]
    exact hdir
  · exact hwalk p hmem

/-- A success says that all before the last component are directories, and that
something is at the end. -/
theorem safe_ensureDirExists_walkable (hexist : ∀ d, ¬ mayFail (.mkdir d) .exist) :
    (ensureDirExists path).Safe (Walking cwd mayFail) (fun _ => True)
      (fun rc w' => w.tree.Touches (fun _ => False) w'.tree ∧
        (rc = .ok → Walkable cwd w'.tree path ∧ w'.tree.lookup (resolve cwd path) ≠ none)) w := by
  by_cases hpath : path = []
  · rw [ensureDirExists, if_pos hpath]
    exact ⟨.refl _ w.tree, nofun⟩
  by_cases hlen : path.length ≥ maxPathLen
  · rw [ensureDirExists, if_neg hpath, if_pos hlen]
    exact ⟨.refl _ w.tree, nofun⟩
  have hne := stripTrailingSlashes_ne_nil hpath
  rw [ensureDirExists_eq hpath (by omega), dirsToMake, mkdirEach_append]
  apply (touches_mkdirEach (slashPrefixes (stripTrailingSlashes path))).bind
  intro rc w₁ htouch₁
  cases rc with
  | err => exact ⟨htouch₁, nofun⟩
  | ok =>
      apply (safe_mkdirEach_singleton hne (hexist _)).post
      rintro rc w' ⟨htouch₂, hmade⟩
      refine ⟨htouch₁.trans htouch₂, fun hrc => ?_⟩
      obtain ⟨hwalk₁, hsome⟩ := hmade hrc
      rw [resolve_stripTrailingSlashes hpath] at hsome
      refine ⟨fun p hp => ?_, hsome⟩
      have hdir := hwalk₁ p (by rw [stripTrailingSlashes_idem hpath]; exact hp)
      have hsame := htouch₂.lookup_of_ne_none (p := resolve cwd p) not_false
        (by rw [show w₁.tree.lookup _ = some .dir from hdir]; nofun)
      exact hsame.trans hdir

/-- After a success, where no file stood at the name or one stands before it. -/
theorem safe_ensureDirExists (hexist : ∀ d, ¬ mayFail (.mkdir d) .exist)
    (h : (∃ c, w.tree.content (resolve cwd path) = some c) →
      ∃ p ∈ slashPrefixes (stripTrailingSlashes path), ∃ c,
        w.tree.content (resolve cwd p) = some c) :
    (ensureDirExists path).Safe (Walking cwd mayFail) (fun _ => True)
      (fun rc w' => Establishes cwd path w rc w') w := by
  by_cases hpath : path = []
  · rw [ensureDirExists, if_pos hpath]
    exact ⟨nofun, fun _ _ => rfl⟩
  apply (safe_ensureDirExists_walkable hexist).post
  rintro rc w' ⟨htouch, hmade⟩
  cases rc with
  | err => exact ⟨nofun, fun q hq => htouch.lookup_of_ne_none not_false hq⟩
  | ok =>
      obtain ⟨hwalk, hsome⟩ := hmade rfl
      apply establishes_of_walkable hpath htouch hwalk
      unfold FileTree.IsDir
      cases hnode : w'.tree.lookup (resolve cwd path) with
      | none => exact absurd hnode hsome
      | some node =>
          cases node with
          | dir => rfl
          | file c =>
              -- then a file stands at a directory that is there
              have hfile : w.tree.content (resolve cwd path) = some c := by
                rw [← htouch.content not_false]
                exact FileTree.content_eq_some.mpr hnode
              obtain ⟨p, hp, d, hd⟩ := h ⟨c, hfile⟩
              rw [← htouch.content not_false, FileTree.content_eq_some] at hd
              rw [show w'.tree.lookup _ = some .dir from hwalk p hp] at hd
              cases hd

/-- `ensure_dir_exists` establishes its name exactly where nothing but a directory has the
name, or something else than a directory stands before the last component, too. -/
theorem ensureDirExists_establishes_iff (hg : w.tree.Grounded) (hcwd : w.tree.IsDir cwd)
    (hlen : path.length < maxPathLen) (hexist : ∀ d, ¬ mayFail (.mkdir d) .exist) :
    (ensureDirExists path).Safe (Walking cwd mayFail) (fun _ => True)
        (fun rc w' => Establishes cwd path w rc w') w ↔
      ((∃ c, w.tree.content (resolve cwd path) = some c) →
        ∃ p ∈ slashPrefixes (stripTrailingSlashes path), ∃ c,
          w.tree.content (resolve cwd p) = some c) := by
  refine ⟨fun h => ?_, safe_ensureDirExists hexist⟩
  rintro ⟨c, hc⟩
  by_contra hnone
  have hpath : path ≠ [] := by
    rintro rfl
    rw [FileTree.content_eq_some, show w.tree.lookup (resolve cwd []) = some .dir from hcwd] at hc
    cases hc
  have hfree : ∀ p ∈ slashPrefixes (stripTrailingSlashes path), ∀ d,
      w.tree.content (resolve cwd p) ≠ some d := fun p hp d hd => hnone ⟨p, hp, d, hd⟩
  -- the answers of `mkdir` do not depend on the clock
  let now : Tm := ⟨70, 0, 1, 0, 0, 0⟩
  have hreturns := @returns_mkdirEach_free w _ ⟨cwd, now⟩ hg hcwd
    (stripTrailingSlashes_ne_nil hpath) hfree
  rw [show slashPrefixes (stripTrailingSlashes path) ++ [stripTrailingSlashes path] =
    dirsToMake path from rfl, ← ensureDirExists_eq hpath hlen] at hreturns
  obtain ⟨rc, w', hrun, rfl, htouch, -, -⟩ := hreturns
  have hcover : ∀ c w, Walking cwd mayFail c w (posixWalking ⟨cwd, now⟩ c w).1
      (posixWalking ⟨cwd, now⟩ c w).2 := fun c w => Or.inl ⟨now, rfl⟩
  have hest := h.of_run hcover hrun
  have hdir := hest.dirs rfl path hpath ⟨[], by simp, Or.inl rfl⟩
  rw [← htouch.content not_false, FileTree.content_eq_some] at hc
  rw [show w'.tree.lookup _ = some .dir from hdir] at hc
  cases hc

end EnsureDir

/-! ## A file at the name -/

/-- The file `f` and nothing else. -/
def onlyFileF : World := ⟨⟨[([ascii "f"], .file [7])]⟩, ⟨fun _ => [], 0, []⟩⟩

/-- `ensure_dir_exists("f")` reports success, and `f` is not a directory. -/
theorem ensureDirExists_accepts_file :
    ((ensureDirExists (ascii "f")).run (posixWalking ⟨[], ⟨126, 1, 2, 3, 4, 5⟩⟩) onlyFileF).map
        (fun r => (r.1, r.2.tree.lookup (resolve [] (ascii "f")))) =
      some (.ok, some (.file [7])) := by
  decide +kernel

theorem ensureDirExists_establishes_iff_beside_f :
    (ensureDirExists (ascii "d//e/")).Safe (Walking [] fun _ _ => False) (fun _ => True)
      (fun rc w' => Establishes [] (ascii "d//e/") onlyFileF rc w') onlyFileF := by
  have hgrounded : onlyFileF.tree.Grounded := FileTree.grounded_of_entries (by decide)
  have hcwd : onlyFileF.tree.IsDir [] := rfl
  refine (ensureDirExists_establishes_iff hgrounded hcwd (by decide) fun _ => not_false).mpr ?_
  rintro ⟨c, hc⟩
  have hnone : onlyFileF.tree.content (resolve [] (ascii "d//e/")) = none := by decide
  rw [hnone] at hc
  cases hc

end MiniSync
