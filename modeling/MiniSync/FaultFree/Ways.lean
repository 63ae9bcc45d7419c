import MiniSync.FaultFree.Directories

/-!
# Ways that are made, or blocked

What `ensure_dir_exists` and `ensure_parent_dir_exists` do below a directory that
exists: all directories of the way are there afterwards, or a file stands on the way
and nothing has been made.
-/

namespace MiniSync

open Prog

/-- A directory that exists, with what leads to it. -/
structure Serving (cwd : TreePath) (tree : Tree) (b : Bytes) : Prop where
  grounded : tree.Grounded
  leads : ∀ d, d ≠ [] → Leads d b → tree.IsDir (resolve cwd d)

/-- The names of the directory of `rel`. -/
def parentNames (rel : Bytes) : TreePath := relNames ((parentPart rel).getD [])

/-- A file stands on the way. -/
def Blocked (cwd : TreePath) (tree : Tree) (b : Bytes) (names : TreePath) : Prop :=
  ∃ q c, OnWay (resolve cwd b) names q ∧ tree.lookup q = some (.file c)

section Ways

variable {env : Env} {cwd : TreePath} {tree : Tree} {w w' w₁ : World} {rel b v u : Bytes}
  {names q : TreePath}

/-! ## Which directories are asked for -/

theorem relNames_nil : relNames [] = [] := by
  unfold relNames PosixPath.names
  simp

theorem relNames_append_slashes (u : Bytes) (k : Nat) :
    relNames (u ++ List.replicate k slash) = relNames u := by
  induction k with
  | zero => rw [List.replicate_zero, List.append_nil]
  | succ k ih =>
      rw [List.replicate_succ', ← List.append_assoc, relNames_append, relNames_nil,
        List.append_nil, ih]

/-- A name has no directory. -/
theorem parentNames_of_notMem (h : slash ∉ rel) : parentNames rel = [] := by
  have hnone : parentPart rel = none := by
    unfold parentPart
    rw [List.dropWhile_eq_nil_iff.mpr]
    intro c hc
    have hne : c ≠ slash := fun heq => h (heq ▸ List.mem_reverse.mp hc)
    simpa using hne
  unfold parentNames
  rw [hnone]
  exact relNames_nil

theorem parentNames_append {name : Bytes} (hname : slash ∉ name) (hu : u ≠ []) :
    parentNames (u ++ slash :: name) = relNames u := by
  unfold parentNames
  rw [parentPart_append hname, if_neg hu]
  rfl

theorem dotdot_splitOn_of_append {k : Nat}
    (h : dotdot ∉ (u ++ List.replicate k slash).splitOn slash) : dotdot ∉ u.splitOn slash := by
  cases k with
  | zero => simpa using h
  | succ k =>
      rw [List.replicate_succ, List.splitOn_append_cons_self, List.mem_append, not_or] at h
      exact h.1

/-- The directories that `ensure_dir_exists` asks for below `b`. -/
theorem dirsToMake_below (hu : u ≠ []) (hhead : u.head? ≠ some slash)
    (hdots : dotdot ∉ u.splitOn slash) :
    ∃ v, dirsToMake (b ++ slash :: u) = slashPrefixes (b ++ slash :: v) ++ [b ++ slash :: v] ∧
      relNames v = relNames u ∧ dotdot ∉ v.splitOn slash := by
  obtain ⟨c, cs, rfl⟩ := List.exists_cons_of_ne_nil hu
  obtain ⟨rest, hstrip, hlast⟩ := stripTrailingSlashes_cons c cs
  obtain ⟨k, hk⟩ := exists_stripped (c :: cs)
  rw [hstrip] at hk
  have hc : c ≠ slash := by
    rintro rfl
    exact hhead rfl
  have hend : (b ++ slash :: (c :: rest)).getLast? ≠ some slash := by
    rw [List.getLast?_append_of_ne_nil _ (by simp), List.getLast?_cons_of_ne_nil (by simp)]
    cases rest with
    | nil => simpa using hc
    | cons d ds =>
        rw [List.getLast?_cons_of_ne_nil (by simp)]
        exact hlast
  have hsame : stripTrailingSlashes (b ++ slash :: (c :: cs)) = b ++ slash :: (c :: rest) := by
    have hshape : b ++ slash :: (c :: cs) =
        (b ++ slash :: (c :: rest)) ++ List.replicate k slash := by
      rw [hk]
      simp
    rw [hshape, stripTrailingSlashes_append (by simp), stripTrailingSlashes_eq_self hend]
  refine ⟨c :: rest, ?_, ?_, ?_⟩
  · unfold dirsToMake
    rw [hsame]
  · rw [hk, relNames_append_slashes]
  · rw [hk] at hdots
    exact dotdot_splitOn_of_append hdots

/-- The directories that `ensure_parent_dir_exists` asks for below `b`. -/
theorem parentDirs_below (hb : b ≠ []) (hlast : b.getLast? ≠ some slash) (hrel : Relative rel) :
    (parentDirs (b ++ slash :: rel) = slashPrefixes b ++ [b] ∧ parentNames rel = []) ∨
      ∃ v, parentDirs (b ++ slash :: rel) =
          slashPrefixes (b ++ slash :: v) ++ [b ++ slash :: v] ∧
        relNames v = parentNames rel ∧ dotdot ∉ v.splitOn slash := by
  obtain ⟨name, hname, rfl | ⟨u, rfl⟩⟩ := PosixPath.exists_last_piece slash rel
  · left
    rw [parentDirs_append hb hname, stripTrailingSlashes_eq_self hlast]
    exact ⟨rfl, parentNames_of_notMem hname⟩
  · right
    have hu : u ≠ [] := by
      rintro rfl
      exact hrel.head_ne rfl
    have hhead : u.head? ≠ some slash := by
      intro h
      apply hrel.head_ne
      rw [List.head?_append_of_ne_nil u hu]
      exact h
    have hdots := hrel.no_dotdot
    rw [List.splitOn_append_cons_self, List.mem_append, not_or] at hdots
    obtain ⟨v, hv, hnames, hvdots⟩ := @dirsToMake_below b u hu hhead hdots.1
    have hshape : b ++ slash :: (u ++ slash :: name) = (b ++ slash :: u) ++ slash :: name := by
      simp
    refine ⟨v, ?_, ?_, hvdots⟩
    · rw [hshape, parentDirs_append (by simp) hname]
      exact hv
    · rw [hnames, parentNames_append hname hu]

/-! ## Made or blocked -/

/-- With a file on the way nothing can be made on it. -/
theorem Blocked.not_mkdir (hg : tree.Grounded) (h : Blocked cwd tree b names)
    (hq : OnWay (resolve cwd b) names q) : ¬ ∃ tree', tree.mkdir q = .ok tree' := by
  rintro ⟨tree', hmk⟩
  unfold FileTree.mkdir at hmk
  split at hmk
  · cases hmk
  rename_i hnone
  split_ifs at hmk with hparent
  obtain ⟨f, c, ⟨s, hs, rfl⟩, hfile⟩ := h
  obtain ⟨r, hr, rfl⟩ := hq
  have hne : resolve cwd b ++ r ≠ resolve cwd b ++ s := by
    intro heq
    rw [heq, hfile] at hnone
    cases hnone
  rcases List.prefix_or_prefix_of_prefix hr hs with hrs | hsr
  · -- the file would stand below a missing node
    have habove : resolve cwd b ++ r <+: resolve cwd b ++ s :=
      (List.prefix_append_right_inj _).mpr hrs
    rw [hg.lookup_of_under (by rw [hnone]; simp) habove hne.symm] at hfile
    cases hfile
  · -- the file stands at the parent or above it
    have habove : resolve cwd b ++ s <+: resolve cwd b ++ r :=
      (List.prefix_append_right_inj _).mpr hsr
    rcases List.eq_nil_or_concat (resolve cwd b ++ r) with hnil | ⟨init, last, hsplit⟩
    · rw [hnil] at hnone
      cases hnone
    · rw [List.concat_eq_append] at hsplit
      rw [hsplit] at habove hne hparent
      rw [FileTree.parentIsDir, List.dropLast_concat] at hparent
      rcases List.prefix_concat_iff.mp habove with heq | hinit
      · exact hne heq.symm
      · exact hg.not_file_above hparent hinit hfile

theorem returns_mkdirEach_stuck {ds : List Bytes}
    (h : ∀ d ∈ ds, ¬ ∃ tree', w.tree.mkdir (resolve env.cwd d) = .ok tree') :
    (mkdirEach ds).Returns (posix env) (fun _ w' => w' = w) w := by
  induction ds with
  | nil => exact .ret rfl
  | cons d ds ih =>
      have hrest := ih fun e he => h e (List.mem_cons_of_mem d he)
      refine returns_op_bind.mpr ?_
      rcases posixMkdir_cases env.cwd w.tree d with ⟨e, he⟩ | ⟨tree', -, hmk⟩
      · simp only [posix, he]
        split
        · exact hrest
        · exact hrest
        · exact .ret rfl
      · exact absurd ⟨tree', hmk⟩ (h d List.mem_cons_self)

/-- What is made on the way to `b/v` leads to `b`, or lies on the way. -/
theorem leads_or_onWay {d : Bytes} (hb : b ≠ []) (hdots : dotdot ∉ v.splitOn slash)
    (hd : d ∈ slashPrefixes (b ++ slash :: v) ++ [b ++ slash :: v]) :
    (d ≠ [] ∧ Leads d b) ∨ OnWay (resolve cwd b) (relNames v) (resolve cwd d) := by
  rcases List.mem_append.mp hd with hd | hd
  · obtain ⟨hne, rest, heq⟩ := mem_slashPrefixes.mp hd
    rcases List.append_eq_append_iff.mp heq with ⟨as, rfl, htail⟩ | ⟨bs, rfl, htail⟩
    · cases as with
      | nil => exact Or.inl ⟨hne, [], by simp, Or.inl rfl⟩
      | cons c cs =>
          rw [List.cons_append, List.cons.injEq] at htail
          obtain ⟨rfl, rfl⟩ := htail
          right
          rw [List.splitOn_append_cons_self, List.mem_append, not_or] at hdots
          rw [resolve_below hb hdots.1]
          exact ⟨relNames cs, by rw [relNames_append]; exact List.prefix_append _ _, rfl⟩
    · left
      refine ⟨hne, bs, rfl, ?_⟩
      cases bs with
      | nil => exact Or.inl rfl
      | cons c cs =>
          rw [List.cons_append, List.cons.injEq] at htail
          exact Or.inr ⟨cs, by rw [htail.1]⟩
  · right
    rw [List.mem_singleton.mp hd, resolve_below hb hdots]
    exact onWay_end _ _

theorem not_mkdir_of_isDir (h : tree.IsDir q) : ¬ ∃ tree', tree.mkdir q = .ok tree' := by
  rintro ⟨tree', hmk⟩
  unfold FileTree.mkdir at hmk
  rw [show tree.lookup q = some .dir from h] at hmk
  cases hmk

/-- The directories are made, all of them, or a file is in the way and nothing is. -/
theorem returns_mkdirEach_way (hb : b ≠ []) (hserving : Serving env.cwd w.tree b)
    (hdots : dotdot ∉ v.splitOn slash) :
    (mkdirEach (slashPrefixes (b ++ slash :: v) ++ [b ++ slash :: v])).Returns (posix env)
      (fun rc w' =>
        (¬ Blocked env.cwd w.tree b (relNames v) ∧ rc = .ok ∧
          Made (OnWay (resolve env.cwd b) (relNames v)) w w') ∨
        (Blocked env.cwd w.tree b (relNames v) ∧ w' = w)) w := by
  by_cases hblocked : Blocked env.cwd w.tree b (relNames v)
  · have hstuck : ∀ d ∈ slashPrefixes (b ++ slash :: v) ++
        [b ++ slash :: v],
        ¬ ∃ tree', w.tree.mkdir (resolve env.cwd d) = .ok tree' := by
      intro d hd
      rcases @leads_or_onWay env.cwd b v d hb hdots hd with ⟨hne, hleads⟩ | hway
      · exact not_mkdir_of_isDir (hserving.leads d hne hleads)
      · exact hblocked.not_mkdir hserving.grounded hway
    exact (returns_mkdirEach_stuck hstuck).post fun _ _ hsame => Or.inr ⟨hblocked, hsame⟩
  · have hpass : Passable env.cwd w.tree b (relNames v) :=
      ⟨hserving.leads, fun q c hq hfile => hblocked ⟨q, c, hq, hfile⟩⟩
    exact (returns_mkdirEach_below hb hdots hpass).post
      fun _ _ hmade => Or.inl ⟨hblocked, hmade⟩

theorem returns_ensureParentDirExists_way (hb : b ≠ []) (hlast : b.getLast? ≠ some slash)
    (hserving : Serving env.cwd w.tree b) (hrel : Relative rel)
    (hlen : (b ++ slash :: rel).length < maxPathLen) :
    (ensureParentDirExists (b ++ slash :: rel)).Returns (posix env)
      (fun rc w' =>
        (¬ Blocked env.cwd w.tree b (parentNames rel) ∧ rc = .ok ∧
          Made (OnWay (resolve env.cwd b) (parentNames rel)) w w') ∨
        (Blocked env.cwd w.tree b (parentNames rel) ∧ w' = w)) w := by
  have hbase : w.tree.IsDir (resolve env.cwd b) :=
    hserving.leads _ hb ⟨[], by simp, Or.inl rfl⟩
  rw [ensureParentDirExists_eq hlen]
  rcases parentDirs_below hb hlast hrel with ⟨heq, hnames⟩ | ⟨v, heq, hnames, hdots⟩
  · have hpass : Passable env.cwd w.tree b [] := by
      refine ⟨hserving.leads, ?_⟩
      rintro q c ⟨r, hr, rfl⟩ hfile
      rw [List.prefix_nil.mp hr, List.append_nil,
        show w.tree.lookup _ = some .dir from hbase] at hfile
      cases hfile
    rw [heq, hnames]
    apply (returns_mkdirEach_base hb hpass).post
    rintro rc w' ⟨hrc, rfl⟩
    exact Or.inl ⟨fun ⟨q, c, hq, hfile⟩ => hpass.free q c hq hfile, hrc, made_refl_of_dir hbase⟩
  · rw [heq, ← hnames]
    exact returns_mkdirEach_way hb hserving hdots

end Ways

end MiniSync
