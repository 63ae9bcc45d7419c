import MiniSync.FaultFree.Files
import MiniSync.Files.EnsureDir
import MiniSync.Files.MadeDirs

/-!
# Moving across file systems

Where `rename` gives `EXDEV`, `safe_rename_or_copy_unlink` copies the file and then
removes the source.  The copy opens `dst` with `O_TRUNC` before it has read anything,
and no error after that takes the target back, so a failure shows wherever `dst` can
be opened at all.
-/

namespace MiniSync

open Prog

/-! ## Two file systems -/

/-- The errors that may turn up: any, of a read, a write, an `fsync` or an `unlink`. -/
def breaks : Call TreePath → Errno → Prop
  | .read _ _ _, _ => True
  | .pwrite _ _ _, _ => True
  | .fsync _, _ => True
  | .unlink _, _ => True
  | .rename _ _, e => e = .xdev
  | _, _ => False

/-- One call where the two names of a `rename` are on different file systems. -/
structure CrossDevice (cwd : TreePath) (c : Call TreePath) (w : World) (r : Resp c)
    (w' : World) : Prop where
  walking : Walking cwd breaks c w r w'
  xdev : c.IsRename → Faulty breaks c w r w'

/-- What `rename` is in the eyes of its callers. -/
structure LikeRename (cwd : TreePath) (src dst : Bytes) (w : World) (rc : Rc) (w' : World) :
    Prop where
  /-- `dst` has what `src` had. -/
  moved : rc = .ok → ∀ r, w'.tree.lookup (resolve cwd dst ++ r) =
    w.tree.lookup (resolve cwd src ++ r)
  gone : rc = .ok → ∀ r, w'.tree.lookup (resolve cwd src ++ r) = none
  /-- Nothing has happened, but for directories on the way to `dst`. -/
  kept : rc = .err → ∀ q, Under (resolve cwd src) q ∨ Under (resolve cwd dst) q →
    w'.tree.lookup q = w.tree.lookup q ∨
      (w.tree.lookup q = none ∧ w'.tree.lookup q = some .dir ∧ NamedBy cwd (parentDirs dst) q)

/-- `dst` can be opened for writing once its parents have been made. -/
structure Opens (cwd : TreePath) (tree : Tree) (dst : Bytes) : Prop where
  ne_nil : dst ≠ []
  short : dst.length < maxPathLen
  names_file : asksForDir dst = false
  not_dir : ¬ tree.IsDir (resolve cwd dst)
  /-- What stands before a slash is neither a regular file nor `dst` itself. -/
  way : ∀ p ∈ slashPrefixes dst, resolve cwd p ≠ resolve cwd dst ∧
    ∀ c, tree.content (resolve cwd p) ≠ some c

/-- Nothing but directories on the way to `dst` has been made. -/
def OnlyParents (cwd : TreePath) (dst : Bytes) (w w' : World) : Prop :=
  w.tree.Touches (fun _ => False) w'.tree ∧ w.tree.MakesIn (NamedBy cwd (parentDirs dst)) w'.tree

instance (cwd : TreePath) (dst : Bytes) : IsPreorder World (OnlyParents cwd dst) where
  refl w := ⟨.refl _ w.tree, .refl _ w.tree⟩
  trans _ _ _ h h' := ⟨h.1.trans h'.1, h.2.trans h'.2⟩

section CrossDevice

variable {cwd : TreePath} {tree tree' : Tree} {w w' : World} {fuel : Nat} {src dst p : Bytes}

/-! ## The directories on the way -/

/-- A path has no slash but one in front, or its last one ends a directory. -/
theorem slashPrefixes_cases (dst : Bytes) :
    (∃ name, slash ∉ name ∧ (dst = name ∨ dst = slash :: name) ∧ slashPrefixes dst = []) ∨
      ∃ u name, u ≠ [] ∧ slash ∉ name ∧ dst = u ++ slash :: name ∧
        slashPrefixes dst = slashPrefixes u ++ [u] := by
  obtain ⟨name, hname, rfl | ⟨u, rfl⟩⟩ := PosixPath.exists_last_piece slash dst
  · exact Or.inl ⟨dst, hname, Or.inl rfl, slashPrefixes_eq_nil hname (Or.inl rfl)⟩
  · by_cases hu : u = []
    · subst hu
      exact Or.inl ⟨name, hname, Or.inr rfl, slashPrefixes_eq_nil hname (Or.inr rfl)⟩
    · exact Or.inr ⟨u, name, hu, hname, rfl, slashPrefixes_append hu hname⟩

/-- Every directory before a slash is one of those that are made. -/
theorem exists_parentDir (hp : p ∈ slashPrefixes dst) :
    ∃ d ∈ parentDirs dst, resolve cwd d = resolve cwd p := by
  rcases slashPrefixes_cases dst with ⟨name, -, -, hnil⟩ | ⟨u, name, hu, hname, rfl, heq⟩
  · rw [hnil] at hp
    cases hp
  rw [parentDirs_append hu hname]
  have hlast : stripTrailingSlashes u ∈
      slashPrefixes (stripTrailingSlashes u) ++ [stripTrailingSlashes u] := by simp
  rw [heq, List.mem_append, List.mem_singleton] at hp
  rcases hp with hp | rfl
  · have hne := (mem_slashPrefixes.mp hp).1
    rcases leads_cases hne (leads_of_mem_slashPrefixes hp) with hsame | hmem
    · refine ⟨_, hlast, ?_⟩
      rw [← hsame, resolve_stripTrailingSlashes hne]
    · exact ⟨p, List.mem_append_left _ hmem, rfl⟩
  · exact ⟨_, hlast, resolve_stripTrailingSlashes hu⟩

/-- Every directory that is made stands before a slash, or is the root. -/
theorem parentDir_cases {d : Bytes} (hd : d ∈ parentDirs dst) :
    resolve cwd d = [] ∨ ∃ p ∈ slashPrefixes dst, resolve cwd p = resolve cwd d := by
  rcases slashPrefixes_cases dst with ⟨name, hname, rfl | rfl, -⟩ | ⟨u, name, hu, hname, rfl, heq⟩
  · rw [parentDirs_of_notMem hname] at hd
    cases hd
  · left
    have hroot : parentPart (slash :: name) = some [slash] := parentPart_append (u := []) hname
    unfold parentDirs at hd
    rw [hroot] at hd
    have hhead : [slash].head? = some slash := rfl
    rw [show d = [slash] from List.mem_singleton.mp hd, resolve, if_pos hhead,
      PosixPath.walk_cons_sep, PosixPath.walk_nil]
  · right
    rw [parentDirs_append hu hname, List.mem_append, List.mem_singleton] at hd
    rcases hd with hd | rfl
    · refine ⟨d, ?_, rfl⟩
      rw [heq]
      exact List.mem_append_left _ (mem_slashPrefixes_of_stripped hd)
    · refine ⟨u, by rw [heq]; simp, ?_⟩
      rw [resolve_stripTrailingSlashes hu]

theorem getLast_ne_slash (hfile : asksForDir dst = false) : dst.getLast? ≠ some slash := by
  intro hlast
  obtain ⟨v, rfl⟩ := List.getLast?_eq_some_iff.mp hlast
  exact ((mustBeDir_eq_false List.not_mem_nil (Or.inr ⟨v, rfl⟩)).mp hfile).1 rfl

/-- The last name of a path that can name a file. -/
theorem resolve_append_file {u name : Bytes} (hu : u ≠ []) (hname : slash ∉ name)
    (hfile : asksForDir (u ++ slash :: name) = false) :
    resolve cwd (u ++ slash :: name) = resolve cwd u ++ [name] := by
  obtain ⟨hne, hdot, hdotdot⟩ := (mustBeDir_eq_false hname (Or.inr ⟨u, rfl⟩)).mp hfile
  have hhead : (u ++ slash :: name).head? = u.head? := by
    obtain ⟨c, cs, rfl⟩ := List.exists_cons_of_ne_nil hu
    rfl
  unfold resolve
  rw [hhead, PosixPath.walk_append_sep]
  unfold PosixPath.walk
  rw [List.splitOn_eq_singleton hname, List.foldl_cons, List.foldl_nil, PosixPath.step,
    if_neg (not_or.mpr ⟨hne, hdot⟩), if_neg (show name ≠ [dot, dot] from hdotdot)]

/-- A success says that what stands before the slashes are directories, but perhaps
for the last of them. -/
theorem safe_ensureParentDirExists_way {mayFail : Call TreePath → Errno → Prop}
    (hexist : ∀ d, ¬ mayFail (.mkdir d) .exist) (hfile : asksForDir dst = false) :
    (ensureParentDirExists dst).Safe (Walking cwd mayFail) (fun _ => True)
      (fun rc w' => rc = .ok → dst.length < maxPathLen ∧ ∀ p ∈ slashPrefixes dst,
        w'.tree.IsDir (resolve cwd p) ∨ resolve cwd p = (resolve cwd dst).dropLast) w := by
  unfold ensureParentDirExists
  split_ifs with hlen
  · exact nofun
  rcases slashPrefixes_cases dst with ⟨name, hname, -, hnil⟩ | ⟨u, name, hu, hname, rfl, heq⟩
  · rw [hnil]
    cases parentPart dst with
    | none => exact fun _ => ⟨by omega, nofun⟩
    | some parent =>
        apply (safe_ensureDirExists_walkable hexist).post
        exact fun _ _ _ _ => ⟨by omega, nofun⟩
  · rw [parentPart_append hname, if_neg hu, heq]
    apply (safe_ensureDirExists_walkable hexist).post
    rintro rc w' ⟨-, hmade⟩ hrc
    obtain ⟨hwalk, -⟩ := hmade hrc
    refine ⟨by omega, fun p hp => ?_⟩
    rw [resolve_append_file hu hname hfile, List.dropLast_concat]
    rw [List.mem_append, List.mem_singleton] at hp
    rcases hp with hp | rfl
    · have hne := (mem_slashPrefixes.mp hp).1
      rcases leads_cases hne (leads_of_mem_slashPrefixes hp) with hsame | hmem
      · right
        rw [← resolve_stripTrailingSlashes hne, hsame, resolve_stripTrailingSlashes hu]
      · exact Or.inl (hwalk p hmem)
    · exact Or.inr rfl

/-! ## Nothing happens where `dst` cannot be opened -/

theorem CrossDevice.kernel {c : Call TreePath} {r : Resp c} (h : CrossDevice cwd c w r w') :
    Kernel cwd (fun _ _ => True) c w r w' := h.walking.kernel

theorem OnlyParents.kept (h : OnlyParents cwd dst w w') : LikeRename cwd src dst w .err w' :=
  ⟨nofun, nofun, fun _ _ _ => h.2.lookup_cases h.1 not_false⟩

theorem OnlyParents.content (h : OnlyParents cwd dst w w') (q : TreePath) :
    w'.tree.content q = w.tree.content q := h.1.content not_false

theorem OnlyParents.isDir {q : TreePath} (h : OnlyParents cwd dst w w') (hq : w.tree.IsDir q) :
    w'.tree.IsDir q := by
  have hsame := h.1.lookup_of_ne_none (p := q) not_false
    (by rw [show w.tree.lookup q = some .dir from hq]; nofun)
  exact hsame.trans hq

theorem OnlyParents.posixOpenRead {fd : TreePath} (h : OnlyParents cwd dst w w')
    (hsrc : posixOpenRead cwd w.tree src = .ok fd) :
    posixOpenRead cwd w'.tree src = posixOpenRead cwd w.tree src := by
  have hthere : w.tree.lookup (resolve cwd src) ≠ none := by
    intro hnone
    unfold MiniSync.posixOpenRead at hsrc
    rw [hnone] at hsrc
    split_ifs at hsrc
  unfold MiniSync.posixOpenRead
  rw [h.1.lookup_of_ne_none not_false hthere]

/-- Directories on the way do not help. -/
theorem Opens.of_made (h : Opens cwd w'.tree dst) (hmade : OnlyParents cwd dst w w') :
    Opens cwd w.tree dst := by
  refine ⟨h.ne_nil, h.short, h.names_file, fun hdir => h.not_dir (hmade.isDir hdir), ?_⟩
  intro p hp
  refine ⟨(h.way p hp).1, fun c => ?_⟩
  rw [← hmade.content]
  exact (h.way p hp).2 c

theorem Opens.made (h : Opens cwd w.tree dst) (hmade : OnlyParents cwd dst w w') :
    Opens cwd w'.tree dst := by
  refine ⟨h.ne_nil, h.short, h.names_file, fun hdir => ?_, fun p hp => ?_⟩
  · rcases hmade.2 _ hdir with hbefore | ⟨d, hd, hsame⟩
    · exact h.not_dir hbefore
    · rcases @parentDir_cases cwd dst d hd with hroot | ⟨p, hp, hsame'⟩
      · rw [hroot] at hsame
        exact h.not_dir (by rw [hsame]; rfl)
      · exact (h.way p hp).1 (hsame'.trans hsame.symm)
  · refine ⟨(h.way p hp).1, fun c => ?_⟩
    rw [hmade.content]
    exact (h.way p hp).2 c

/-- Where all its parents are there, they are directories. -/
theorem Opens.parent_isDir (h : Opens cwd w.tree dst) (hcwd : w.tree.IsDir cwd)
    (hsome : ∀ d ∈ parentDirs dst, w.tree.lookup (resolve cwd d) ≠ none) :
    w.tree.IsDir (resolve cwd dst).dropLast := by
  have hwalk : Walkable cwd w.tree dst := by
    intro p hp
    have hmem := mem_slashPrefixes_of_stripped hp
    obtain ⟨d, hd, hsame⟩ := @exists_parentDir cwd dst p hmem
    have hthere := hsome d hd
    rw [hsame] at hthere
    unfold FileTree.IsDir
    cases hnode : w.tree.lookup (resolve cwd p) with
    | none => exact absurd hnode hthere
    | some node =>
        cases node with
        | dir => rfl
        | file c =>
            rw [← FileTree.content_eq_some] at hnode
            exact absurd hnode ((h.way p hmem).2 c)
  obtain ⟨base, name, hbase, hname, hnode, hshape⟩ := exists_last_step hcwd hwalk
  rw [stripTrailingSlashes_eq_self (getLast_ne_slash h.names_file)] at hnode hshape
  obtain ⟨hne, hdot, hdotdot⟩ := (mustBeDir_eq_false hname hshape).mp h.names_file
  rw [hnode, PosixPath.step, if_neg (not_or.mpr ⟨hne, hdot⟩),
    if_neg (show name ≠ [dot, dot] from hdotdot), List.dropLast_concat]
  exact hbase

theorem safe_parents (hg : w.tree.Grounded) :
    (ensureParentDirExists dst).Safe (CrossDevice cwd) (fun _ => True)
      (fun rc w' => OnlyParents cwd dst w w' ∧ w'.tree.Grounded ∧
        (rc = .ok → asksForDir dst = false → dst.length < maxPathLen ∧
          ∀ p ∈ slashPrefixes dst,
            w'.tree.IsDir (resolve cwd p) ∨ resolve cwd p = (resolve cwd dst).dropLast)) w := by
  have hmake : (ensureParentDirExists dst).Moves (Kernel cwd fun _ _ => True) _ _ w :=
    moves_ensureParentDirExists (fun _ => False) dst
  have hmakes : (ensureParentDirExists dst).Moves (Kernel cwd fun _ _ => True) _ _ w :=
    makes_ensureParentDirExists dst
  have hsettled : (ensureParentDirExists dst).Moves (Kernel cwd fun _ _ => True) Settled _ w :=
    moves_settled (all_ensureParentDirExists dst fun _ => not_false)
  have hway : (ensureParentDirExists dst).Safe (CrossDevice cwd) (fun _ => True)
      (fun rc w' => rc = .ok → asksForDir dst = false → dst.length < maxPathLen ∧
        ∀ p ∈ slashPrefixes dst,
          w'.tree.IsDir (resolve cwd p) ∨ resolve cwd p = (resolve cwd dst).dropLast) w := by
    by_cases hfile : asksForDir dst = false
    · have hwalk := @safe_ensureParentDirExists_way cwd w dst breaks (fun _ h => h) hfile
      apply (hwalk.narrow fun _ _ _ _ h => h.walking).post
      exact fun rc w' h hrc _ => h hrc
    · apply ((all_true _).safe (I := fun _ => True) (fun _ _ _ _ _ _ _ => trivial) trivial).post
      exact fun _ _ _ _ h => absurd h hfile
  have hkernel : (ensureParentDirExists dst).Safe (CrossDevice cwd) _ _ w :=
    ((hmake.and hmakes).and hsettled).moved.narrow fun _ _ _ _ h => h.kernel
  apply (hkernel.and hway).mono (fun _ _ => trivial)
  rintro rc w' ⟨⟨htidy, ⟨-, hmade, -⟩, hset, -⟩, hok⟩
  exact ⟨⟨htidy.1, hmade⟩, (hset hg).1, hok⟩

/-- What a successful `open` says of the path.  In a tree a file stands in a directory,
and `open` makes none elsewhere. -/
theorem posixOpenWrite_eq_ok {trunc : Bool} {fd : TreePath} (hg : tree.Grounded)
    (h : (posixOpenWrite cwd tree dst trunc).1 = .ok fd) :
    dst ≠ [] ∧ asksForDir dst = false ∧ ¬ tree.IsDir (resolve cwd dst) ∧
      tree.IsDir (resolve cwd dst).dropLast := by
  unfold posixOpenWrite at h
  by_cases hdst : dst = []
  · simp only [if_pos hdst] at h
    cases h
  simp only [if_neg hdst] at h
  by_cases hask : asksForDir dst = true
  · simp only [if_pos hask] at h
    split at h <;> cases h
  rw [Bool.not_eq_true] at hask
  cases hnode : tree.lookup (resolve cwd dst) with
  | none =>
      have hdir : ¬ tree.IsDir (resolve cwd dst) := by
        unfold FileTree.IsDir
        rw [hnode]
        rintro ⟨⟩
      by_cases hparent : tree.parentIsDir (resolve cwd dst)
      · exact ⟨hdst, hask, hdir, hparent⟩
      · simp [hnode, hask, hparent] at h
  | some node =>
      cases node with
      | dir => simp [hnode] at h
      | file c =>
          have hdir : ¬ tree.IsDir (resolve cwd dst) := by
            unfold FileTree.IsDir
            rw [hnode]
            rintro ⟨⟩
          have hroot : resolve cwd dst ≠ [] := by
            intro hnil
            rw [hnil] at hnode
            cases hnode
          exact ⟨hdst, hask, hdir, hg _ hroot (by rw [hnode]; simp)⟩

theorem CrossDevice.openTrunc {mode : UInt32} {r : Resp (.openFile dst (.writeCreateTrunc mode))}
    (h : CrossDevice cwd (.openFile dst (.writeCreateTrunc mode)) w r w') :
    r = (posixOpenWrite cwd w.tree dst true).1 := by
  rcases h.walking with ⟨now, h⟩ | ⟨e, hmay, -⟩
  · cases h
    rfl
  · exact hmay.elim

theorem CrossDevice.renameCases {r : Resp (.rename src dst)}
    (h : CrossDevice cwd (.rename src dst) w r w') : r = .error .xdev ∧ w' = w := by
  obtain ⟨e, rfl, hr, hw⟩ := h.xdev trivial
  exact ⟨hr, hw⟩

/-- Where there is nothing to read, the loop does nothing. -/
theorem safe_copyLoop_nothing {in_ out : TreePath} {pos : Nat}
    (hnothing : ∀ data, w.tree.content in_ = some data → data = []) :
    (copyLoop in_ out fuel pos).Safe (CrossDevice cwd) (fun _ => True)
      (fun rc w' => w' = w ∧ (rc = .ok → w.tree.content in_ = some [])) w := by
  induction fuel generalizing pos with
  | zero => trivial
  | succ fuel ih =>
      rw [copyLoop]
      apply Safe.op_bind
      intro r w' hK
      refine ⟨trivial, ?_⟩
      obtain ⟨rfl, ⟨e, rfl⟩ | ⟨data, n, hdata, -, rfl⟩⟩ := hK.kernel.readCases
      · split
        · exact ih
        · exact ⟨rfl, by rintro ⟨⟩⟩
        · rename_i heq
          cases heq
      · have hnil := hnothing data hdata
        subst hnil
        simp only [List.drop_nil, List.take_nil]
        exact ⟨rfl, fun _ => hdata⟩

theorem onlyParents_of_truncated (hempty : w.tree.content (resolve cwd dst) = some [])
    (htree : w'.tree = w.tree.put (resolve cwd dst) (.file [])) : OnlyParents cwd dst w w' := by
  have hroot : resolve cwd dst ≠ [] := by
    intro hnil
    rw [hnil] at hempty
    cases hempty
  have hsame : ∀ q, w'.tree.lookup q = w.tree.lookup q := by
    intro q
    rw [htree, FileTree.lookup_put hroot]
    split_ifs with hq
    · rw [hq, FileTree.content_eq_some.mp hempty]
    · rfl
  refine ⟨fun q _ => Or.inl (hsame q), fun q hq => Or.inl ?_⟩
  unfold FileTree.IsDir at hq ⊢
  rw [← hsame]
  exact hq

/-- Where `dst` is not opened, or opening it makes no difference and there is nothing
to copy, a copy changes nothing. -/
theorem safe_copyFilePlain_nothing (hg : w.tree.Grounded)
    (h : Opens cwd w.tree dst → w.tree.content (resolve cwd dst) = some [] ∧
      ∀ data, w.tree.content (resolve cwd src) = some data → data = []) :
    (copyFilePlain fuel src dst).Safe (CrossDevice cwd) (fun _ => True)
      (fun rc w' => OnlyParents cwd dst w w' ∧ w'.tree.Grounded ∧
        (rc = .ok → w'.tree.content (resolve cwd src) = some [] ∧
          w'.tree.content (resolve cwd dst) = some [])) w := by
  have hquiet : ∀ {c : Call TreePath} {f : Resp c → Sys TreePath Rc} {Q : Rc → World → Prop}
      {w : World}, c.Quiet → (∀ r, (f r).Safe (CrossDevice cwd) (fun _ => True) Q w) →
        (op c >>= f).Safe (CrossDevice cwd) (fun _ => True) Q w := by
    intro c f Q w hc hf
    apply Safe.op_bind
    intro r w' hK
    rw [hK.kernel.quiet hc]
    exact ⟨trivial, hf r⟩
  apply Safe.op_bind
  intro r w₁ hK
  obtain ⟨rfl, hfd⟩ := hK.kernel.openRead
  refine ⟨trivial, ?_⟩
  cases r with
  | error e => exact ⟨refl_of (OnlyParents cwd dst) w₁, hg, nofun⟩
  | ok in_ =>
      rw [hfd in_ rfl]
      apply (safe_parents hg).bind
      rintro rc w₂ ⟨hmade, hg₂, hway⟩
      cases rc with
      | err => exact hquiet trivial fun _ => ⟨hmade, hg₂, nofun⟩
      | ok =>
          apply Safe.op_bind
          intro r w₃ hK
          refine ⟨trivial, ?_⟩
          have hr := hK.openTrunc
          rcases hK.kernel.openTrunc with ⟨⟨e, rfl⟩, rfl⟩ | ⟨rfl, hroot, -, htree, -⟩
          · exact hquiet trivial fun _ => ⟨hmade, hg₂, nofun⟩
          -- `dst` has been opened
          obtain ⟨hne, hfile, hdir, hparent⟩ := posixOpenWrite_eq_ok hg₂ hr.symm
          obtain ⟨hlen, hdirs⟩ := hway rfl hfile
          have hopens₂ : Opens cwd w₂.tree dst := by
            refine ⟨hne, hlen, hfile, hdir, fun p hp => ?_⟩
            have hp' : w₂.tree.IsDir (resolve cwd p) := by
              rcases hdirs p hp with hp | hp
              · exact hp
              · rw [hp]
                exact hparent
            refine ⟨fun hsame => hdir (hsame ▸ hp'), fun c hc => ?_⟩
            rw [FileTree.content_eq_some, show w₂.tree.lookup _ = some .dir from hp'] at hc
            cases hc
          obtain ⟨hempty, hnothing⟩ := h (hopens₂.of_made hmade)
          rw [← hmade.content] at hempty
          have hmade₃ := trans_of (OnlyParents cwd dst) hmade
            (onlyParents_of_truncated hempty htree)
          have hnothing₃ : ∀ data, w₃.tree.content (resolve cwd src) = some data → data = [] := by
            intro data hdata
            rw [hmade₃.content] at hdata
            exact hnothing data hdata
          apply (safe_copyLoop_nothing hnothing₃).bind
          rintro copied w₄ ⟨rfl, hcopied⟩
          refine hquiet trivial fun synced => hquiet trivial fun _ => hquiet trivial fun _ => ?_
          refine ⟨hmade₃, hK.kernel.grounded hg₂, fun hrc => ?_⟩
          split_ifs at hrc
          refine ⟨hcopied hrc, ?_⟩
          rw [htree, FileTree.content_eq_some, FileTree.lookup_put hroot, if_pos rfl]

/-- A file is all there is at its place. -/
theorem lookup_file_append {c : Bytes} {q : TreePath} (hg : tree.Grounded)
    (h : tree.content q = some c) (r : TreePath) :
    tree.lookup (q ++ r) = if r = [] then some (.file c) else none := by
  have hnode := FileTree.content_eq_some.mp h
  split_ifs with hr
  · rw [hr, List.append_nil, hnode]
  · exact hg.lookup_of_under (by rw [hnode]; simp) (List.prefix_append q r) (by simpa using hr)

/-- Where both are empty, taking the source away is a move. -/
theorem likeRename_unlink {w₀ : World} (hg₀ : w₀.tree.Grounded) (hg : w.tree.Grounded)
    (hne : resolve cwd src ≠ resolve cwd dst)
    (hsrc₀ : w₀.tree.content (resolve cwd src) = some [])
    (hdst : w.tree.content (resolve cwd dst) = some [])
    (hunlink : w.tree.unlink (resolve cwd src) = .ok w'.tree) :
    LikeRename cwd src dst w₀ .ok w' := by
  have hgone := FileTree.lookup_unlink hunlink
  have hg' := hg.unlink hunlink
  have hdst' : w'.tree.content (resolve cwd dst) = some [] := by
    have htouch : w.tree.Touches (· = resolve cwd src) w'.tree := .unlink rfl hunlink
    rw [htouch.content (Ne.symm hne), hdst]
  refine ⟨fun _ r => ?_, fun _ r => ?_, nofun⟩
  · rw [lookup_file_append hg' hdst', lookup_file_append hg₀ hsrc₀]
  · by_cases hr : r = []
    · rw [hr, List.append_nil, hgone]
    · exact hg'.lookup_of_under (by rw [hgone]; nofun) (List.prefix_append _ r) (by simpa using hr)

/-- The condition is enough. -/
theorem safe_likeRename (hg : w.tree.Grounded) (hne : resolve cwd src ≠ resolve cwd dst)
    (h : Opens cwd w.tree dst → w.tree.content (resolve cwd dst) = some [] ∧
      ∀ data, w.tree.content (resolve cwd src) = some data → data = []) :
    (safeRenameOrCopyUnlink fuel src dst).Safe (CrossDevice cwd) (fun _ => True)
      (fun rc w' => LikeRename cwd src dst w rc w') w := by
  apply (safe_parents hg).bind
  rintro rc w₁ ⟨hmade, hg₁, -⟩
  cases rc with
  | err => exact hmade.kept
  | ok =>
      apply Safe.op_bind
      intro r w₂ hK
      refine ⟨trivial, ?_⟩
      obtain ⟨rfl, rfl⟩ := hK.renameCases
      have hcopy := @safe_copyFilePlain_nothing cwd w₂ fuel src dst hg₁ fun hopens => by
        simp only [hmade.content]
        exact h (hopens.of_made hmade)
      apply hcopy.bind
      rintro copied w₃ ⟨hmade₂, hg₃, hcopied⟩
      have hmade₃ := trans_of (OnlyParents cwd dst) hmade hmade₂
      cases copied with
      | err => exact hmade₃.kept
      | ok =>
          apply Safe.op_bind
          intro r w₄ hK
          refine ⟨trivial, ?_⟩
          rcases hK.kernel.unlinkCases with ⟨⟨e, rfl⟩, rfl⟩ | ⟨rfl, -, hunlink⟩
          · exact hmade₃.kept
          · obtain ⟨hsrc, hdst⟩ := hcopied rfl
            exact likeRename_unlink hg hg₃ hne (hmade₃.content _ ▸ hsrc) hdst hunlink

/-! ## Reads that fail -/

/-- Reads fail from offset `n` on, and `rename` finds two file systems. -/
def breaking (env : Env) (n : Nat) : (c : Call TreePath) → World → Resp c × World
  | .rename _ _, w => (.error .xdev, w)
  | .read fd pos count, w => (if pos < n then posixRead w.tree fd pos count else .error .io, w)
  | c, w => posixWalking env c w

theorem breaking_covered (env : Env) (n : Nat) (c : Call TreePath) (w : World) :
    CrossDevice env.cwd c w (breaking env n c w).1 (breaking env n c w).2 := by
  cases c with
  | rename src dst =>
      have hxdev : Faulty breaks (.rename src dst) w (.error .xdev) w := ⟨.xdev, rfl, rfl, rfl⟩
      exact ⟨Or.inr hxdev, fun _ => hxdev⟩
  | read fd pos count =>
      refine ⟨?_, nofun⟩
      by_cases hpos : pos < n
      · exact Or.inl ⟨env.now, Prod.ext (if_pos hpos).symm rfl⟩
      · exact Or.inr ⟨rfl, Or.inl ⟨.io, trivial, if_neg hpos⟩⟩
  | _ => exact ⟨Or.inl ⟨env.now, rfl⟩, nofun⟩

section Breaking

variable {env : Env} {n : Nat}

/-- `mkdir` does not notice. -/
theorem run_mkdirEach_breaking (dirs : List Bytes) :
    (mkdirEach dirs).run (breaking env n) w = (mkdirEach dirs).run (posixWalking env) w := by
  have hcalls : (mkdirEach dirs : Sys TreePath Rc).All (fun c => ∃ d, c = .mkdir d) _ :=
    all_mkdirEach fun d _ => ⟨d, rfl⟩
  apply hcalls.run_congr
  rintro c s ⟨d, rfl⟩
  rfl

/-- Where `dst` can be opened, its parents can be made. -/
theorem returns_mkdirs (hg : w.tree.Grounded) (hcwd : w.tree.IsDir env.cwd)
    (hopens : Opens env.cwd w.tree dst) :
    (ensureParentDirExists dst).Returns (breaking env n)
      (fun rc w' => rc = .ok ∧ ∀ d ∈ parentDirs dst,
        w'.tree.lookup (resolve env.cwd d) ≠ none) w := by
  rw [ensureParentDirExists_eq hopens.short]
  cases hparent : parentPart dst with
  | none =>
      have hnil : parentDirs dst = [] := by
        unfold parentDirs
        rw [hparent]
      rw [hnil]
      exact .ret ⟨rfl, nofun⟩
  | some parent =>
      have hne := parentPart_ne_nil hparent
      have hdirs : parentDirs dst =
          slashPrefixes (stripTrailingSlashes parent) ++ [stripTrailingSlashes parent] := by
        unfold parentDirs
        rw [hparent]
        rfl
      have hfree : ∀ p ∈ slashPrefixes (stripTrailingSlashes parent), ∀ c,
          w.tree.content (resolve env.cwd p) ≠ some c := by
        intro p hp c hc
        have hd : p ∈ parentDirs dst := by
          rw [hdirs]
          exact List.mem_append_left _ hp
        rcases @parentDir_cases env.cwd dst p hd with hroot | ⟨q, hq, hsame⟩
        · rw [hroot] at hc
          cases hc
        · rw [← hsame] at hc
          exact (hopens.way q hq).2 c hc
      obtain ⟨rc, w', hrun, hrc, -, -, hsome⟩ :=
        returns_mkdirEach_free hg hcwd (stripTrailingSlashes_ne_nil hne) hfree
      refine ⟨rc, w', ?_, hrc, ?_⟩
      · rw [hdirs, run_mkdirEach_breaking]
        exact hrun
      · rw [hdirs]
        exact hsome

theorem returns_parents (hg : w.tree.Grounded) (hcwd : w.tree.IsDir env.cwd)
    (hopens : Opens env.cwd w.tree dst) :
    (ensureParentDirExists dst).Returns (breaking env n)
      (fun rc w' => rc = .ok ∧ OnlyParents env.cwd dst w w' ∧ w'.tree.Grounded ∧
        w'.tree.IsDir (resolve env.cwd dst).dropLast) w := by
  have hmkdirs := @returns_mkdirs w dst env n hg hcwd hopens
  apply (hmkdirs.and_safe (breaking_covered env n) (safe_parents hg)).post
  rintro rc w' ⟨⟨hrc, hsome⟩, hmade, hg', -⟩
  exact ⟨hrc, hmade, hg', (hopens.made hmade).parent_isDir (hmade.isDir hcwd) hsome⟩

theorem breaking_openTrunc {mode : UInt32} (hopens : Opens env.cwd w.tree dst)
    (hparent : w.tree.IsDir (resolve env.cwd dst).dropLast) :
    breaking env n (.openFile dst (.writeCreateTrunc mode)) w = (.ok (resolve env.cwd dst),
      { w with tree := w.tree.put (resolve env.cwd dst) (.file []) }) := by
  have hopen : posixOpenWrite env.cwd w.tree dst true =
      (.ok (resolve env.cwd dst), w.tree.put (resolve env.cwd dst) (.file [])) := by
    unfold posixOpenWrite
    simp only [if_neg hopens.ne_nil, hopens.names_file]
    cases hnode : w.tree.lookup (resolve env.cwd dst) with
    | none => simp [FileTree.parentIsDir, show w.tree.lookup _ = some .dir from hparent]
    | some node =>
        cases node with
        | dir => exact absurd hnode hopens.not_dir
        | file c => simp
  simp only [breaking, posixWalking, posix, posixOpen, hopen]

/-- A copy whose loop fails: what the loop leaves of the truncated `dst` is left. -/
theorem returns_copyFilePlain_broken {c : Bytes} (hg : w.tree.Grounded)
    (hcwd : w.tree.IsDir env.cwd)
    (hsrc : posixOpenRead env.cwd w.tree src = .ok (resolve env.cwd src))
    (hne : resolve env.cwd src ≠ resolve env.cwd dst) (hopens : Opens env.cwd w.tree dst)
    (hloop : ∀ w', w'.tree.content (resolve env.cwd src) = w.tree.content (resolve env.cwd src) →
      w'.tree.content (resolve env.cwd dst) = some [] →
        (copyLoop (resolve env.cwd src) (resolve env.cwd dst) fuel 0).Returns (breaking env n)
          (fun rc w'' => rc = .err ∧ w''.tree.content (resolve env.cwd dst) = some c) w') :
    (copyFilePlain fuel src dst).Returns (breaking env n)
      (fun rc w' => rc = .err ∧ w'.tree.content (resolve env.cwd dst) = some c) w := by
  refine returns_op_bind.mpr ?_
  simp only [breaking, posixWalking, posix, posixOpen, hsrc]
  apply (returns_parents hg hcwd hopens).bind
  rintro _ w₁ ⟨rfl, hmade, -, hparent⟩
  refine returns_op_bind.mpr ?_
  rw [breaking_openTrunc (hopens.made hmade) hparent]
  have hroot : resolve env.cwd dst ≠ [] := by
    intro hnil
    exact hopens.not_dir (by rw [hnil]; rfl)
  apply (hloop _ _ _).bind
  · rintro _ w₂ ⟨rfl, hcontent⟩
    refine returns_op_bind.mpr (returns_op_bind.mpr (returns_op_bind.mpr (.ret ⟨?_, hcontent⟩)))
    split_ifs <;> rfl
  · rw [← hmade.content]
    apply FileTree.content_congr
    rw [FileTree.lookup_put hroot, if_neg hne]
  · rw [FileTree.content_eq_some, FileTree.lookup_put hroot, if_pos rfl]

theorem returns_broken {c : Bytes} (hg : w.tree.Grounded) (hcwd : w.tree.IsDir env.cwd)
    (hsrc : posixOpenRead env.cwd w.tree src = .ok (resolve env.cwd src))
    (hne : resolve env.cwd src ≠ resolve env.cwd dst) (hopens : Opens env.cwd w.tree dst)
    (hloop : ∀ w', w'.tree.content (resolve env.cwd src) = w.tree.content (resolve env.cwd src) →
      w'.tree.content (resolve env.cwd dst) = some [] →
        (copyLoop (resolve env.cwd src) (resolve env.cwd dst) fuel 0).Returns (breaking env n)
          (fun rc w'' => rc = .err ∧ w''.tree.content (resolve env.cwd dst) = some c) w') :
    (safeRenameOrCopyUnlink fuel src dst).Returns (breaking env n)
      (fun rc w' => rc = .err ∧ w'.tree.content (resolve env.cwd dst) = some c) w := by
  apply (returns_parents hg hcwd hopens).bind
  rintro _ w₁ ⟨rfl, hmade, hg₁, -⟩
  refine returns_op_bind.mpr ?_
  simp only [breaking]
  have hsrc₁ : posixOpenRead env.cwd w₁.tree src = .ok (resolve env.cwd src) := by
    rw [← hsrc]
    exact hmade.posixOpenRead hsrc
  apply (returns_copyFilePlain_broken hg₁ (hmade.isDir hcwd) hsrc₁ hne (hopens.made hmade) _).bind
  · rintro _ w₂ ⟨rfl, hcontent⟩
    exact .ret ⟨rfl, hcontent⟩
  · intro w' hsame
    rw [hmade.content] at hsame
    exact hloop w' hsame

/-! ## The condition -/

/-- If the first read fails, `dst` has been emptied. -/
theorem returns_copyLoop_first {in_ out : TreePath} (hout : w.tree.content out = some []) :
    (copyLoop in_ out 1 0).Returns (breaking env 0)
      (fun rc w' => rc = .err ∧ w'.tree.content out = some []) w := by
  refine returns_op_bind.mpr ?_
  simp only [breaking, Nat.not_lt_zero]
  exact .ret ⟨rfl, hout⟩

/-- If the second read fails, `dst` has what the first one gave. -/
theorem returns_copyLoop_second {in_ out : TreePath} {data : Bytes}
    (hin : w.tree.content in_ = some data) (hdata : data ≠ [])
    (hout : w.tree.content out = some []) :
    (copyLoop in_ out 3 0).Returns (breaking env 1)
      (fun rc w' => rc = .err ∧ w'.tree.content out = some (data.take ioBufSize)) w := by
  have hbuf : data.take ioBufSize ≠ [] := by
    intro hnil
    rcases List.take_eq_nil_iff.mp hnil with h | h
    · exact absurd h (by decide)
    · exact hdata h
  obtain ⟨_, w₁, hrun, rfl, hwrote⟩ :=
    @returns_writeLoop env w 2 out [] (data.take ioBufSize) le_rfl hout
  have hcalls : (writeLoop out 2 0 (data.take ioBufSize)).All
      (fun c => ∃ buf pos, c = .pwrite out buf pos) _ :=
    all_writeLoop (fun buf pos => ⟨buf, pos, rfl⟩) 2 0 _
  have hsame : (writeLoop out 2 0 (data.take ioBufSize)).run (breaking env 1) w =
      (writeLoop out 2 0 (data.take ioBufSize)).run (posix env) w := by
    apply hcalls.run_congr
    rintro c s ⟨buf, pos, rfl⟩
    rfl
  have hread : breaking env 1 (.read in_ 0 ioBufSize) w = (.ok (data.take ioBufSize), w) := by
    have hpart : posixRead w.tree in_ 0 ioBufSize = .ok (data.take ioBufSize) := by
      unfold posixRead
      rw [FileTree.content_eq_some.mp hin]
      rfl
    exact Prod.ext hpart rfl
  have hlen : ¬ 0 + (data.take ioBufSize).length < 1 := by
    have hpos := List.length_pos_of_ne_nil hbuf
    omega
  rw [copyLoop]
  refine returns_op_bind.mpr ?_
  rw [hread]
  simp only [if_neg hbuf]
  have hwritten : (writeLoop out 2 0 (data.take ioBufSize)).Returns (breaking env 1)
      (fun rc w' => rc = .ok ∧ w'.tree.content out = some (data.take ioBufSize)) w :=
    ⟨_, w₁, hsame.trans hrun, rfl, hwrote.content⟩
  apply hwritten.bind
  rintro _ w₂ ⟨rfl, hcontent⟩
  have hfail : breaking env 1 (.read in_ (0 + (data.take ioBufSize).length) ioBufSize) w₂ =
      (.error .io, w₂) := Prod.ext (if_neg hlen) rfl
  rw [copyLoop]
  refine returns_op_bind.mpr ?_
  rw [hfail]
  exact .ret ⟨rfl, hcontent⟩

end Breaking

/-- A run that fails and leaves a file at `dst` has found it there. -/
theorem content_of_broken {n : Nat} {c : Bytes}
    (h : (safeRenameOrCopyUnlink fuel src dst).Safe (CrossDevice cwd) (fun _ => True)
      (fun rc w' => LikeRename cwd src dst w rc w') w) (now : Tm)
    (hbroken : (safeRenameOrCopyUnlink fuel src dst).Returns (breaking ⟨cwd, now⟩ n)
      (fun rc w' => rc = .err ∧ w'.tree.content (resolve cwd dst) = some c) w) :
    w.tree.content (resolve cwd dst) = some c := by
  obtain ⟨_, w', hrun, rfl, hcontent⟩ := hbroken
  have hlike := h.of_run (breaking_covered ⟨cwd, now⟩ n) hrun
  rw [FileTree.content_eq_some] at hcontent
  rcases hlike.kept rfl _ (Or.inr List.prefix_rfl) with hsame | ⟨-, hdir, -⟩
  · rw [FileTree.content_eq_some, ← hsame, hcontent]
  · rw [hdir] at hcontent
    cases hcontent

/-- The fallback is all or nothing exactly where `dst` cannot be opened, or is an empty
file and there is nothing in the source to read. -/
theorem safeRenameOrCopyUnlink_likeRename_iff (hg : w.tree.Grounded) (hcwd : w.tree.IsDir cwd)
    (hsrc : posixOpenRead cwd w.tree src = .ok (resolve cwd src))
    (hne : resolve cwd src ≠ resolve cwd dst) :
    (∀ fuel, (safeRenameOrCopyUnlink fuel src dst).Safe (CrossDevice cwd) (fun _ => True)
        (fun rc w' => LikeRename cwd src dst w rc w') w) ↔
      (Opens cwd w.tree dst → w.tree.content (resolve cwd dst) = some [] ∧
        (w.tree.IsDir (resolve cwd src) ∨ w.tree.content (resolve cwd src) = some [])) := by
  constructor
  · intro h hopens
    let now : Tm := ⟨70, 0, 1, 0, 0, 0⟩
    have hempty : w.tree.content (resolve cwd dst) = some [] := by
      apply content_of_broken (h 1) now
      exact @returns_broken w 1 src dst ⟨cwd, now⟩ 0 [] hg hcwd hsrc hne hopens
        fun w' _ hout => returns_copyLoop_first hout
    refine ⟨hempty, ?_⟩
    cases hnode : w.tree.lookup (resolve cwd src) with
    | none =>
        unfold posixOpenRead at hsrc
        rw [hnode] at hsrc
        split_ifs at hsrc
    | some node =>
        cases node with
        | dir => exact Or.inl hnode
        | file data =>
            -- whatever is written is there when the second read fails
            have hdata := FileTree.content_eq_some.mpr hnode
            by_contra hsome
            have hfull : data ≠ [] := fun hnil => hsome (Or.inr (hnil ▸ hdata))
            have hpart : w.tree.content (resolve cwd dst) = some (data.take ioBufSize) := by
              apply content_of_broken (h 3) now
              apply @returns_broken w 3 src dst ⟨cwd, now⟩ 1 _ hg hcwd hsrc hne hopens
              intro w' hsame hout
              exact returns_copyLoop_second (hsame.trans hdata) hfull hout
            rw [hempty, Option.some.injEq, eq_comm, List.take_eq_nil_iff] at hpart
            rcases hpart with hzero | hnil
            · exact absurd hzero (by decide)
            · exact hfull hnil
  · intro h fuel
    apply safe_likeRename hg hne
    intro hopens
    obtain ⟨hempty, hsource⟩ := h hopens
    refine ⟨hempty, fun data hdata => ?_⟩
    rcases hsource with hdir | hnone
    · rw [FileTree.content_eq_some, show w.tree.lookup _ = some .dir from hdir] at hdata
      cases hdata
    · rw [hnone] at hdata
      exact (Option.some.inj hdata).symm

end CrossDevice

/-! ## A target that is lost -/

/-- A directory `s` and the files `f` and `d`. -/
def dirAndFiles : World :=
  ⟨⟨[([ascii "s"], .dir), ([ascii "f"], .file [7, 8]), ([ascii "d"], .file [9])]⟩,
    ⟨fun _ => [], 0, []⟩⟩

/-- Moving `f` to `d` loses `d` when the first read fails; moving `s` to `d` does so
whatever fails, as a directory cannot be read. -/
theorem safeRenameOrCopyUnlink_loses_target :
    ¬ (safeRenameOrCopyUnlink 4 (ascii "f") (ascii "d")).Safe (CrossDevice []) (fun _ => True)
        (fun rc w' => LikeRename [] (ascii "f") (ascii "d") dirAndFiles rc w') dirAndFiles ∧
      ¬ (safeRenameOrCopyUnlink 4 (ascii "s") (ascii "d")).Safe (CrossDevice []) (fun _ => True)
        (fun rc w' => LikeRename [] (ascii "s") (ascii "d") dirAndFiles rc w') dirAndFiles := by
  have hlost : ∀ src ∈ [ascii "f", ascii "s"], ∃ n ∈ [0, 1],
      ((safeRenameOrCopyUnlink 4 src (ascii "d")).run
        (breaking ⟨[], ⟨126, 1, 2, 3, 4, 5⟩⟩ n) dirAndFiles).map
          (fun r => (r.1, r.2.tree.content (resolve [] (ascii "d")))) = some (.err, some []) := by
    decide +kernel
  have hnot : ∀ src ∈ [ascii "f", ascii "s"],
      ¬ (safeRenameOrCopyUnlink 4 src (ascii "d")).Safe (CrossDevice []) (fun _ => True)
        (fun rc w' => LikeRename [] src (ascii "d") dirAndFiles rc w') dirAndFiles := by
    intro src hsrc h
    obtain ⟨n, -, hrun⟩ := hlost src hsrc
    obtain ⟨⟨rc, w'⟩, hrun, heq⟩ := Option.map_eq_some_iff.mp hrun
    obtain ⟨hrc, hcontent⟩ := Prod.ext_iff.mp heq
    have hbefore := content_of_broken h ⟨126, 1, 2, 3, 4, 5⟩ ⟨rc, w', hrun, hrc, hcontent⟩
    exact absurd hbefore (by decide)
  exact ⟨hnot _ (by simp), hnot _ (by simp)⟩

/-- Nothing is lost where `dst` is a directory. -/
theorem safeRenameOrCopyUnlink_likeRename_iff_onto_dir :
    (safeRenameOrCopyUnlink 4 (ascii "f") (ascii "s")).Safe (CrossDevice [])
      (fun _ => True) (fun rc w' => LikeRename [] (ascii "f") (ascii "s") dirAndFiles rc w')
      dirAndFiles := by
  have hgrounded : dirAndFiles.tree.Grounded := FileTree.grounded_of_entries (by decide)
  have hcwd : dirAndFiles.tree.IsDir [] := rfl
  refine (safeRenameOrCopyUnlink_likeRename_iff hgrounded hcwd (by decide) (by decide)).mpr ?_ 4
  intro hopens
  have hdir : dirAndFiles.tree.IsDir (resolve [] (ascii "s")) := by
    unfold FileTree.IsDir
    decide
  exact absurd hdir hopens.not_dir

end MiniSync
