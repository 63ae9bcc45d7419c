import MiniSync.UploadFrame

/-!
# What an upload keeps of the file it replaces

While one of the three ways to upload `p` runs, `current/p` holds its old content or
a version below `.versions` does.  The condition is on what the calls answer: that
`access` finds the old file, and, where the result of the backup is not looked at,
that no call of the backup fails.
-/

namespace MiniSync

open Prog

/-! ## Backups that succeed -/

/-- `root/.versions/<stamp>/rel` -/
def versionPath (root rel : Bytes) (tm : Tm) : Bytes :=
  versionsBase root ++ slash :: versionRel tm rel

/-- The node of a version. -/
def versionNode (cwd : TreePath) (root rel : Bytes) (tm : Tm) : TreePath :=
  storeRoot cwd root ++ versionsName :: timestampDirname tm :: relNames rel

/-- The directory leads to a version or to the temporary file next to it. -/
def LeadsToVersion (root rel dir : Bytes) : Prop :=
  ∃ tm, Leads dir (versionPath root rel tm) ∨ Leads dir (versionPath root rel tm ++ syncingSuffix)

/-- The old file at `dst` is seen. -/
def SeesOld (dst : Bytes) : (c : Call TreePath) → Resp c → Prop
  | .access path, found => path = dst → found = true
  | _, _ => True

/-- The backup of `dst` is not disturbed: the old file is seen, the stamped paths fit,
and no call that saves the version fails. -/
def SavesVersion (cwd : TreePath) (root rel dst : Bytes) : (c : Call TreePath) → Resp c → Prop
  | .access path, found => path = dst → found = true
  | .localtime, tm => (timestampDirname tm).length < 64 ∧
      (versionPath root rel tm ++ syncingSuffix).length < maxPathLen
  | .mkdir path, r => LeadsToVersion root rel path → r = .ok () ∨ r = .error .exist
  | .openFile path how, r =>
      (path = dst ∧ how = .readOnly) ∨ InArea cwd root versionsName (resolve cwd path) →
        ∃ fd, r = .ok fd
  | .read fd _ _, r => fd = resolve cwd dst → (∃ buf, r = .ok buf) ∨ r = .error .intr
  | .pwrite fd _ _, r => InArea cwd root versionsName fd → (∃ n, r = .ok n) ∨ r = .error .intr
  | .fsync fd, r => InArea cwd root versionsName fd → r = .ok ()
  | .rename _ new_path, r => InArea cwd root versionsName (resolve cwd new_path) → r = .ok ()
  | _, _ => True

/-- The kernel while `access` finds the old file. -/
def Seeing (cwd : TreePath) (mayFail : Call TreePath → Errno → Prop) (dst : Bytes)
    (c : Call TreePath) (w : World) (r : Resp c) (w' : World) : Prop :=
  Kernel cwd mayFail c w r w' ∧ SeesOld dst c r

/-- The kernel while nothing disturbs the backup. -/
def Saving (cwd : TreePath) (mayFail : Call TreePath → Errno → Prop) (root rel dst : Bytes)
    (c : Call TreePath) (w : World) (r : Resp c) (w' : World) : Prop :=
  Kernel cwd mayFail c w r w' ∧ SavesVersion cwd root rel dst c r

section Seeing

variable {cwd : TreePath} {mayFail : Call TreePath → Errno → Prop} {w : World} {fuel : Nat}
  {root rel dst c : Bytes}

/-- A regular file is no directory, also where `stat` fails. -/
theorem moves_isDirectory_file {path : Bytes} (hfile : w.tree.content (resolve cwd path) = some c) :
    (isDirectory path).Moves (Kernel cwd mayFail) (Tidy fun _ => False)
      (fun found w' => w' = w ∧ found = false) w := by
  apply Moves.op_bind
  intro r w' hK
  have hquiet := hK.quiet trivial
  subst hquiet
  refine ⟨refl_of (Tidy _) w', ?_⟩
  have hstat : r ≠ .ok .directory := by
    rintro rfl
    rcases hK with ⟨now, h⟩ | ⟨e, -, h, -⟩
    · have hposix := (Prod.mk.inj h).1
      unfold posixStat at hposix
      rw [FileTree.content_eq_some.mp hfile] at hposix
      dsimp only at hposix
      split_ifs at hposix
      cases hposix
    · cases h
  split
  · exact absurd rfl hstat
  · exact Moves.ret ⟨rfl, rfl⟩

/-- A backup that sees the old file and reports success has saved it. -/
theorem moves_backupOldVersion_saves (hdst : currentPath root rel = some dst)
    (hold : w.tree.content (resolve cwd dst) = some c) :
    (backupOldVersion fuel root rel).Moves (Seeing cwd mayFail dst)
      (Tidy (InArea cwd root versionsName))
      (fun rc w' => rc = .ok → ∃ tm, w'.tree.content (versionNode cwd root rel tm) = some c) w := by
  have hrel := (currentPath_eq_some hdst).1
  have hnarrow : ∀ (k : Call TreePath) (w₁ : World) (r : Resp k) (w₂ : World),
      Seeing cwd mayFail dst k w₁ r w₂ → Kernel cwd mayFail k w₁ r w₂ := fun _ _ _ _ h => h.1
  unfold backupOldVersion
  rw [hdst]
  apply Moves.op_bind
  rintro found w1 ⟨hK, hseen⟩
  obtain rfl := hK.quiet trivial
  rw [hseen rfl]
  refine ⟨refl_of (Tidy _) w1, ?_⟩
  apply Safe.narrow _ hnarrow
  apply (moves_makeTimestampDirname (InArea cwd root versionsName)).bind
  rintro stamp w2 - ⟨rfl, hstamp⟩
  split
  · exact Moves.ret (by rintro ⟨⟩)
  · rename_i version hversion
    obtain ⟨s, hs, hpath⟩ := Option.bind_eq_some_iff.mp hversion
    obtain ⟨tm, rfl⟩ := hstamp s hs
    apply ((moves_isDirectory_file hold).coarsen (Tidy (InArea cwd root versionsName))
      fun _ _ h => h.mono fun _ hf => hf.elim).bind
    rintro _ w3 - ⟨-, rfl, rfl⟩
    rw [if_neg (by simp)]
    cases htmp : syncingPath version with
    | none =>
        unfold copyFileAtomic
        rw [htmp]
        exact Moves.ret (by rintro ⟨⟩)
    | some tmp =>
        have hnode : resolve cwd version = versionNode cwd root rel tm :=
          resolve_stampedPath name_versionsName (name_timestampDirname tm) hrel hpath
        have harea : InArea cwd root versionsName (resolve cwd version) := by
          rw [hnode]
          exact inArea_cons
        have htmpArea : InArea cwd root versionsName (resolve cwd tmp) := by
          rw [resolve_stampedPath_syncing name_versionsName (name_timestampDirname tm) hrel
            hpath htmp]
          exact inArea_cons
        have hout : ¬ InArea cwd root versionsName (resolve cwd dst) :=
          not_inArea_current hdst (by decide)
        have hne : resolve cwd tmp ≠ resolve cwd version :=
          resolve_stampedPath_syncing_ne name_versionsName (name_timestampDirname tm) hrel
            hpath htmp
        apply (moves_copyFileAtomic htmp (fun h => hout (htmpArea.of_under h)) hne).mono
        · exact fun _ _ h => h.mono fun q hq => hq.elim htmpArea.of_under harea.of_under
        · intro rc w' _ hcopied hok
          obtain ⟨data, hdata, hsaved⟩ := hcopied hok
          rw [hold] at hdata
          cases hdata
          exact ⟨tm, hnode ▸ hsaved⟩

end Seeing

section Saving

variable {cwd : TreePath} {mayFail : Call TreePath → Errno → Prop} {w : World} {fuel : Nat}
  {root rel dst tmp src : Bytes}

theorem safe_mkdirEach_ok {dirs : List Bytes}
    (h : ∀ d ∈ dirs, LeadsToVersion root rel d) :
    (mkdirEach dirs).Safe (Saving cwd mayFail root rel dst) (fun _ => True)
      (fun rc _ => rc = .ok) w := by
  induction dirs generalizing w with
  | nil => rfl
  | cons d dirs ih =>
      obtain ⟨hd, hdirs⟩ := List.forall_mem_cons.mp h
      apply Safe.op_bind
      rintro r w' ⟨-, hr⟩
      refine ⟨trivial, ?_⟩
      rcases hr hd with rfl | rfl
      · exact ih hdirs
      · exact ih hdirs

theorem safe_ensureParentDirExists_ok {path : Bytes}
    (hpath : ∀ d, Leads d path → LeadsToVersion root rel d)
    (hbase : versionsBase root ++ [slash] <+: path) (hlen : path.length < maxPathLen) :
    (ensureParentDirExists path).Safe (Saving cwd mayFail root rel dst) (fun _ => True)
      (fun rc _ => rc = .ok) w := by
  obtain ⟨rest, hrest⟩ := hbase
  have hshape : path = versionsBase root ++ slash :: rest := by rw [← hrest]; simp
  have hbase : versionsBase root ≠ [] := by simp [versionsBase]
  unfold ensureParentDirExists
  rw [if_neg (by omega)]
  cases hparent : parentPart path with
  | none => rfl
  | some parent =>
      have hleads := leads_of_parentPart hshape hbase hparent
      obtain ⟨more, hmore, -⟩ := id hleads
      have hshort : parent.length < maxPathLen := by
        rw [hmore, List.length_append] at hlen
        omega
      unfold ensureDirExists
      simp only
      rw [if_neg (parentPart_ne_nil hparent), if_neg (by omega)]
      apply safe_mkdirEach_ok
      intro d hd
      exact hpath d ((leads_of_mem_dirsToMake hd).trans hleads)

theorem safe_writeLoop_ok {out : TreePath} {pos : Nat} {left : Bytes}
    (hout : InArea cwd root versionsName out) :
    (writeLoop out fuel pos left).Safe (Saving cwd mayFail root rel dst) (fun _ => True)
      (fun rc _ => rc = .ok) w := by
  induction fuel generalizing pos left w with
  | zero => trivial
  | succ fuel ih =>
      rw [writeLoop]
      split_ifs
      · rfl
      · apply Safe.op_bind
        rintro r w' ⟨-, hr⟩
        refine ⟨trivial, ?_⟩
        rcases hr hout with ⟨n, rfl⟩ | rfl
        · exact ih
        · exact ih

theorem safe_copyLoop_ok {out : TreePath} {pos : Nat} (hout : InArea cwd root versionsName out) :
    (copyLoop (resolve cwd dst) out fuel pos).Safe (Saving cwd mayFail root rel dst)
      (fun _ => True) (fun rc _ => rc = .ok) w := by
  induction fuel generalizing pos w with
  | zero => trivial
  | succ fuel ih =>
      rw [copyLoop]
      apply Safe.op_bind
      rintro r w' ⟨-, hr⟩
      refine ⟨trivial, ?_⟩
      rcases hr rfl with ⟨buf, rfl⟩ | rfl
      · simp only
        split_ifs
        · rfl
        · apply (safe_writeLoop_ok hout).bind
          rintro _ w'' rfl
          exact ih
      · exact ih

theorem versionsBase_slash_isPrefix (root rel : Bytes) (tm : Tm) :
    versionsBase root ++ [slash] <+: versionPath root rel tm :=
  ⟨versionRel tm rel, by simp [versionPath]⟩

/-- The stamped paths of a version that fits, with its temporary file. -/
structure VersionFits (cwd : TreePath) (root rel : Bytes) (tm : Tm) : Prop where
  stamped : stampedPath versionsName root (timestampDirname tm) rel =
    some (versionPath root rel tm)
  syncing : syncingPath (versionPath root rel tm) =
    some (versionPath root rel tm ++ syncingSuffix)
  short : (versionPath root rel tm ++ syncingSuffix).length < maxPathLen
  area : InArea cwd root versionsName (resolve cwd (versionPath root rel tm))
  area_syncing : InArea cwd root versionsName
    (resolve cwd (versionPath root rel tm ++ syncingSuffix))

theorem versionFits {tm : Tm} (hrel : Relative rel)
    (hfits : (versionPath root rel tm ++ syncingSuffix).length < maxPathLen) :
    VersionFits cwd root rel tm := by
  have hshort := hfits
  rw [List.length_append] at hshort
  have hstamped : stampedPath versionsName root (timestampDirname tm) rel =
      some (versionPath root rel tm) :=
    (stampedPath_iff component_versionsName (component_timestampDirname tm) hrel).mpr
      ⟨rfl, by omega⟩
  have hsyncing : syncingPath (versionPath root rel tm) = _ :=
    syncingPath_eq_some.mpr ⟨rfl, hfits⟩
  refine ⟨hstamped, hsyncing, hfits, ?_, ?_⟩
  · rw [resolve_stampedPath name_versionsName (name_timestampDirname tm) hrel hstamped]
    exact inArea_cons
  · rw [resolve_stampedPath_syncing name_versionsName (name_timestampDirname tm) hrel hstamped
      hsyncing]
    exact inArea_cons

theorem safe_copyFilePlain_ok {tm : Tm} (h : VersionFits cwd root rel tm) :
    (copyFilePlain fuel dst (versionPath root rel tm ++ syncingSuffix)).Safe
      (Saving cwd mayFail root rel dst) (fun _ => True) (fun rc _ => rc = .ok) w := by
  apply Safe.op_bind
  rintro r w1 ⟨hK, hr⟩
  obtain ⟨in_, rfl⟩ := hr (Or.inl ⟨rfl, rfl⟩)
  obtain rfl := hK.openRead.2 in_ rfl
  refine ⟨trivial, ?_⟩
  apply (safe_ensureParentDirExists_ok (fun d hd => ⟨tm, Or.inr hd⟩)
    ((versionsBase_slash_isPrefix root rel tm).trans (List.prefix_append _ _)) h.short).bind
  rintro _ w2 rfl
  apply Safe.op_bind
  rintro r w3 ⟨hK, hr⟩
  obtain ⟨out, rfl⟩ := hr (Or.inr h.area_syncing)
  refine ⟨trivial, ?_⟩
  rcases hK.openTrunc with ⟨⟨e, he⟩, -⟩ | ⟨hfd, -⟩
  · cases he
  · cases hfd
    apply (safe_copyLoop_ok h.area_syncing).bind
    rintro _ w4 rfl
    apply Safe.op_bind
    rintro synced w5 ⟨-, hr⟩
    rw [hr h.area_syncing]
    exact ⟨trivial, fun _ _ _ => ⟨trivial, fun _ _ _ => ⟨trivial, rfl⟩⟩⟩

theorem safe_copyFileAtomic_ok {tm : Tm} (h : VersionFits cwd root rel tm) :
    (copyFileAtomic fuel dst (versionPath root rel tm)).Safe (Saving cwd mayFail root rel dst)
      (fun _ => True) (fun rc _ => rc = .ok) w := by
  have hshort := h.short
  rw [List.length_append] at hshort
  unfold copyFileAtomic
  rw [h.syncing]
  apply (safe_copyFilePlain_ok h).bind
  rintro _ w1 rfl
  have hrename : (safeRenameOrCopyUnlink fuel (versionPath root rel tm ++ syncingSuffix)
      (versionPath root rel tm)).Safe (Saving cwd mayFail root rel dst) (fun _ => True)
      (fun rc _ => rc = .ok) w1 := by
    apply (safe_ensureParentDirExists_ok (fun d hd => ⟨tm, Or.inl hd⟩)
      (versionsBase_slash_isPrefix root rel tm) (by omega)).bind
    rintro _ w2 rfl
    apply Safe.op_bind
    rintro r w3 ⟨-, hr⟩
    rw [hr h.area]
    exact ⟨trivial, rfl⟩
  apply hrename.bind
  rintro _ w2 rfl
  rfl

/-- Nothing fails that a backup of a regular file needs. -/
theorem safe_backupOldVersion_ok {c : Bytes} (hdst : currentPath root rel = some dst)
    (hold : w.tree.content (resolve cwd dst) = some c) :
    (backupOldVersion fuel root rel).Safe (Saving cwd mayFail root rel dst) (fun _ => True)
      (fun rc _ => rc = .ok) w := by
  have hrel := (currentPath_eq_some hdst).1
  unfold backupOldVersion
  rw [hdst]
  apply Safe.op_bind
  rintro found w1 ⟨hK, hr⟩
  obtain rfl := hK.quiet trivial
  rw [hr rfl]
  refine ⟨trivial, ?_⟩
  apply Safe.op_bind
  rintro tm w2 ⟨hK, hshort, hfits⟩
  obtain rfl := hK.quiet trivial
  refine ⟨trivial, ?_⟩
  have hversion : VersionFits cwd root rel tm := versionFits hrel hfits
  simp only [if_pos hshort, Option.bind_some, hversion.stamped]
  apply ((moves_isDirectory_file hold).safe.narrow fun _ _ _ _ h => h.1).bind
  rintro _ w3 ⟨rfl, rfl⟩
  exact safe_copyFileAtomic_ok hversion

/-- What the backup of a file leaves behind when nothing disturbs it. -/
theorem safe_backupOldVersion_saves {c : Bytes} (hdst : currentPath root rel = some dst)
    (hold : w.tree.content (resolve cwd dst) = some c) :
    (backupOldVersion fuel root rel).Safe (Saving cwd mayFail root rel dst)
      (fun w' => w'.tree.content (resolve cwd dst) = some c)
      (fun _ w' => Tidy (InArea cwd root versionsName) w w' ∧
        ∃ tm, w'.tree.content (versionNode cwd root rel tm) = some c) w := by
  have hsees : ∀ (k : Call TreePath) (w₁ : World) (r : Resp k) (w₂ : World),
      Saving cwd mayFail root rel dst k w₁ r w₂ → Seeing cwd mayFail dst k w₁ r w₂ := by
    rintro k w₁ r w₂ ⟨hK, hr⟩
    refine ⟨hK, ?_⟩
    cases k with
    | access path => exact hr
    | _ => trivial
  have hmoves : (backupOldVersion fuel root rel).Moves (Seeing cwd mayFail dst) _ _ w :=
    moves_backupOldVersion_saves hdst hold
  apply ((Safe.narrow hmoves hsees).and (safe_backupOldVersion_ok hdst hold)).mono
  · rintro w' ⟨htidy, -⟩
    rw [htidy.content (not_inArea_current hdst (by decide)), hold]
  · rintro rc w' ⟨⟨htidy, hsaved⟩, hok⟩
    exact ⟨htidy, hsaved hok⟩

end Saving

/-! ## The uploads -/

/-- `current/rel` holds the old content, or a version does. -/
def Versioned (cwd : TreePath) (root rel dst c : Bytes) (w : World) : Prop :=
  w.tree.content (resolve cwd dst) = some c ∨
    ∃ tm, w.tree.content (versionNode cwd root rel tm) = some c

section Uploads

variable {cwd : TreePath} {mayFail : Call TreePath → Errno → Prop} {w : World} {fuel : Nat}
  {root rel dst tmp c : Bytes} {α : Type} {p : Sys TreePath α} {Q : α → World → Prop}
  {X : TreePath → Prop}
  {K : (k : Call TreePath) → World → Resp k → World → Prop}

/-- A file that a program spares keeps its content all the way. -/
theorem Prog.Moves.keeps {q : TreePath} (h : p.Moves (Kernel cwd mayFail) (Spares X) Q w)
    (hK : ∀ k w₁ r w₂, K k w₁ r w₂ → Kernel cwd mayFail k w₁ r w₂) (hg : w.tree.Grounded)
    (hq : ¬ X q) (hc : w.tree.content q = some c) :
    p.Safe K (fun w' => w'.tree.content q = some c)
      (fun a w' => (w'.tree.Grounded ∧ w'.tree.content q = some c) ∧ Q a w') w := by
  apply (Safe.narrow h hK).mono
  · exact fun w' hs => (hs hg).2 q c hq hc
  · rintro a w' ⟨hs, hQ⟩
    exact ⟨⟨(hs hg).1, (hs hg).2 q c hq hc⟩, hQ⟩

/-- While the old file stays in place nothing needs to be saved. -/
theorem Prog.Moves.keepsOld (h : p.Moves (Kernel cwd mayFail) (Spares X) Q w)
    (hK : ∀ k w₁ r w₂, K k w₁ r w₂ → Kernel cwd mayFail k w₁ r w₂) (hg : w.tree.Grounded)
    (hX : ¬ X (resolve cwd dst)) (hold : w.tree.content (resolve cwd dst) = some c) :
    p.Safe K (Versioned cwd root rel dst c)
      (fun a w' => (w'.tree.Grounded ∧ w'.tree.content (resolve cwd dst) = some c) ∧ Q a w') w :=
  (h.keeps hK hg hX hold).mono (fun _ => Or.inl) fun _ _ h => h

/-- What is done to `current/rel` and its temporary file leaves the versions alone. -/
theorem Prog.Moves.keepsVersion {tm : Tm}
    (h : p.Moves (Kernel cwd mayFail) (Spares X) Q w)
    (hK : ∀ k w₁ r w₂, K k w₁ r w₂ → Kernel cwd mayFail k w₁ r w₂) (hg : w.tree.Grounded)
    (hX : ∀ q, X q → InArea cwd root currentName q)
    (hsaved : w.tree.content (versionNode cwd root rel tm) = some c) :
    p.Safe K (Versioned cwd root rel dst c) (fun _ _ => True) w := by
  have hout : ¬ X (versionNode cwd root rel tm) := by
    intro hq
    exact not_inArea (by decide) (hX _ hq)
  exact (h.keeps hK hg hout hsaved).mono (fun _ hc => Or.inr ⟨tm, hc⟩) fun _ _ _ => trivial

theorem inArea_current_of_paths (hdst : currentPath root rel = some dst)
    (htmp : syncingPath dst = some tmp) {q : TreePath}
    (hq : q = resolve cwd tmp ∨ q = resolve cwd dst) : InArea cwd root currentName q := by
  rcases hq with rfl | rfl
  · rw [resolve_syncingPath hdst htmp]
    exact inArea_cons
  · rw [resolve_currentPath hdst]
    exact inArea_cons

theorem kernel_of_seeing {k : Call TreePath} {w₁ w₂ : World} {r : Resp k}
    (h : Seeing cwd mayFail dst k w₁ r w₂) : Kernel cwd mayFail k w₁ r w₂ := h.1

theorem kernel_of_saving {k : Call TreePath} {w₁ w₂ : World} {r : Resp k}
    (h : Saving cwd mayFail root rel dst k w₁ r w₂) : Kernel cwd mayFail k w₁ r w₂ := h.1

/-- The backup in an upload that looks at its result. -/
theorem safe_backup_seeing (hdst : currentPath root rel = some dst) (hg : w.tree.Grounded)
    (hold : w.tree.content (resolve cwd dst) = some c) :
    (backupOldVersion fuel root rel).Safe (Seeing cwd mayFail dst) (Versioned cwd root rel dst c)
      (fun rc w' => w'.tree.Grounded ∧
        (rc = .ok → ∃ tm, w'.tree.content (versionNode cwd root rel tm) = some c)) w := by
  have hmoves : (backupOldVersion fuel root rel).Moves (Seeing cwd mayFail dst) _ _ w :=
    moves_backupOldVersion_saves hdst hold
  have hgrounded : (backupOldVersion fuel root rel).Safe (Seeing cwd mayFail dst)
      (fun w' => w'.tree.Grounded) _ w :=
    (all_true _).safe (fun _ _ _ _ _ hs hK => hK.1.grounded hs) hg
  apply (Safe.and hmoves hgrounded).mono
  · rintro w' ⟨htidy, -⟩
    left
    rw [htidy.content (not_inArea_current hdst (by decide)), hold]
  · rintro rc w' ⟨⟨-, hsaved⟩, -, hg'⟩
    exact ⟨hg', hsaved⟩

theorem versioned_fileBeginCritical (header : SyncHeader)
    (hpaths : uploadPaths root rel = some (dst, tmp)) (hg : w.tree.Grounded)
    (hold : w.tree.content (resolve cwd dst) = some c) :
    (fileBeginCritical fuel header root rel dst tmp).Safe (Seeing cwd mayFail dst)
      (Versioned cwd root rel dst c) (fun _ _ => True) w := by
  obtain ⟨hdst, htmp⟩ := uploadPaths_eq_some hpaths
  rw [fileBeginCritical_eq]
  have hmake : (ensureParentDirExists dst).Moves (Kernel cwd mayFail) _ _ w :=
    spares_ensureParentDirExists (fun _ => False) dst
  apply (hmake.keepsOld (fun _ _ _ _ => kernel_of_seeing) hg not_false hold).bind
  rintro made w1 ⟨⟨hg1, hold1⟩, -⟩
  split_ifs
  · trivial
  apply (safe_backup_seeing hdst hg1 hold1).bind
  rintro saved w2 ⟨hg2, hsaved⟩
  split_ifs with herr
  · trivial
  obtain ⟨tm, hversion⟩ := hsaved (Rc.ok_of_ne_err herr)
  exact (spares_receiveFile header tmp dst).keepsVersion (fun _ _ _ _ => kernel_of_seeing) hg2
    (fun q => inArea_current_of_paths hdst htmp) hversion

theorem versioned_blockStreamCritical (first_block : SyncHeader)
    (hpaths : uploadPaths root rel = some (dst, tmp)) (hg : w.tree.Grounded)
    (hold : w.tree.content (resolve cwd dst) = some c) :
    (blockStreamCritical fuel first_block root rel dst tmp).Safe
      (Saving cwd mayFail root rel dst) (Versioned cwd root rel dst c) (fun _ _ => True) w := by
  obtain ⟨hdst, htmp⟩ := uploadPaths_eq_some hpaths
  have hne : resolve cwd dst ≠ resolve cwd tmp := (resolve_syncingPath_ne hdst htmp).symm
  have hnarrow : ∀ k w₁ r w₂, Saving cwd mayFail root rel dst k w₁ r w₂ →
      Kernel cwd mayFail k w₁ r w₂ := fun _ _ _ _ => kernel_of_saving
  unfold blockStreamCritical
  have hmake : (ensureParentDirExists dst).Moves (Kernel cwd mayFail) _ _ w :=
    spares_ensureParentDirExists (fun _ => False) dst
  apply (hmake.keepsOld hnarrow hg not_false hold).bind
  rintro made w1 ⟨⟨hg1, hold1⟩, -⟩
  split_ifs
  · trivial
  apply Safe.op_bind
  rintro opened w2 ⟨hK, -⟩
  have hg2 := hK.grounded hg1
  rcases hK.openCreate with ⟨⟨e, rfl⟩, rfl⟩ | ⟨rfl, hroot, -, htree, -⟩
  · exact ⟨Or.inl hold1, trivial⟩
  have hold2 : w2.tree.content (resolve cwd dst) = some c := by
    rw [← hold1]
    apply FileTree.content_congr
    rw [htree, FileTree.lookup_put hroot, if_neg hne]
  have hstart : w2.tree.content (resolve cwd tmp) =
      some ((w1.tree.content (resolve cwd tmp)).getD []) := by
    rw [htree, FileTree.content_eq_some, FileTree.lookup_put hroot, if_pos rfl]
  refine ⟨Or.inl hold2, ?_⟩
  apply Safe.op_bind
  rintro got w3 ⟨hK, -⟩
  obtain rfl := hK.quiet trivial
  refine ⟨Or.inl hold2, ?_⟩
  split_ifs
  · apply Safe.op_bind
    rintro closed w4 ⟨hK, -⟩
    obtain rfl := hK.quiet trivial
    exact ⟨Or.inl hold2, trivial⟩
  have hrecv : (recvBlockStream fuel (resolve cwd tmp) first_block).Moves
      (Kernel cwd mayFail) _ _ w3 := moves_recvBlockStream fuel first_block hstart
  apply ((hrecv.spares fun _ h => h.1).keepsOld hnarrow hg2 hne hold2).bind
  rintro ⟨received, end_header⟩ w4 ⟨⟨hg4, hold4⟩, hstream⟩
  apply ((spares_syncAndClose (fun _ => False) _ received).keepsOld hnarrow hg4 not_false
    hold4).bind
  rintro closed w5 ⟨-, rfl, hclosed⟩
  split_ifs with hok
  · trivial
  obtain ⟨first, -, -, blocks, rest, -, -, hcontent⟩ := hstream (hclosed (Rc.ok_of_ne_err hok))
  have hhash : (hashAgrees fuel tmp (expectedHash first_block end_header)).Moves
      (Kernel cwd mayFail) (Tidy fun _ => False) _ w5 := moves_hashAgrees _ fuel tmp _ hcontent
  apply ((hhash.spares fun _ h => h.1).keepsOld hnarrow hg4 not_false hold4).bind
  rintro agrees w6 ⟨-, rfl, -⟩
  split_ifs
  · trivial
  have hgrounded : (backupOldVersion fuel root rel).Safe (Saving cwd mayFail root rel dst)
      (fun w' => w'.tree.Grounded) _ w6 :=
    (all_true _).safe (fun _ _ _ _ _ hs hK => hK.1.grounded hs) hg4
  have hsave : (backupOldVersion fuel root rel).Safe (Saving cwd mayFail root rel dst)
      (Versioned cwd root rel dst c) _ w6 :=
    ((safe_backupOldVersion_saves hdst hold4).and hgrounded).mono (fun _ h => Or.inl h.1)
      fun _ _ h => h
  apply hsave.bind
  rintro saved w7 ⟨⟨htidy, tm, hversion⟩, -, hg7⟩
  have hcontent7 : w7.tree.content (resolve cwd tmp) = _ :=
    (htidy.prepared hpaths fun _ hq => hq).tmp_content.trans hcontent
  have hpublish : (publish fuel first_block tmp dst).Safe (Saving cwd mayFail root rel dst)
      (Versioned cwd root rel dst c) (fun _ _ => True) w7 :=
    (spares_publish first_block hcontent7).keepsVersion hnarrow hg7
      (fun q => inArea_current_of_paths hdst htmp) hversion
  apply hpublish.bind
  rintro rc w8 -
  split_ifs <;> trivial

/-- A call that changes nothing can be skipped. -/
theorem safe_quiet {β : Type} {A : World → Prop} {Qb : β → World → Prop} {k : Call TreePath}
    {f : Resp k → Sys TreePath β} (hK : ∀ k w₁ r w₂, K k w₁ r w₂ → Kernel cwd mayFail k w₁ r w₂)
    (hk : k.Quiet) (hA : A w) (h : ∀ r, (f r).Safe K A Qb w) : (op k >>= f).Safe K A Qb w := by
  apply Safe.op_bind
  intro r w' hstep
  obtain rfl := (hK _ _ _ _ hstep).quiet hk
  exact ⟨hA, h r⟩

/-- The checks of the source come before anything is written. -/
theorem safe_withSourceFile {A : World → Prop} {Q : Rc → World → Prop} {task : SyncTask}
    {next : Sys TreePath Rc} (hK : ∀ k w₁ r w₂, K k w₁ r w₂ → Kernel cwd mayFail k w₁ r w₂)
    (hA : A w) (hQ : ∀ rc, Q rc w) (h : next.Safe K A Q w) :
    (withSourceFile task next).Safe K A Q w := by
  have hregular : (isRegularFile task.src_path.bytes).Safe K A (fun _ w' => w' = w) w := by
    refine safe_quiet hK trivial hA fun stat => ?_
    split <;> rfl
  unfold withSourceFile
  apply hregular.bind
  rintro regular _ rfl
  split_ifs
  · exact hQ _
  refine safe_quiet hK rfl hA fun opened => ?_
  cases opened with
  | error e => exact hQ _
  | ok lock_fd =>
      refine safe_quiet hK trivial hA fun locked => ?_
      split_ifs
      · exact safe_quiet hK trivial hA fun _ => hQ _
      · exact safe_quiet hK trivial hA fun _ => safe_quiet hK trivial hA fun _ => h

theorem versioned_syncLocalFile (task : SyncTask)
    (hdst : currentPath root task.rel_path.bytes = some dst) (hg : w.tree.Grounded)
    (hold : w.tree.content (resolve cwd dst) = some c) :
    (syncLocalFile fuel root task).Safe (Seeing cwd mayFail dst)
      (Versioned cwd root task.rel_path.bytes dst c) (fun _ _ => True) w := by
  rw [syncLocalFile_eq]
  apply safe_withSourceFile (fun _ _ _ _ => kernel_of_seeing) (Or.inl hold) fun _ => trivial
  unfold localTargetPath
  rw [hdst]
  apply (safe_backup_seeing hdst hg hold).bind
  rintro saved w1 ⟨hg1, hsaved⟩
  split_ifs with herr
  · trivial
  obtain ⟨tm, hversion⟩ := hsaved (Rc.ok_of_ne_err herr)
  apply (spares_copySource task dst).keepsVersion (fun _ _ _ _ => kernel_of_seeing) hg1 ?_ hversion
  rintro q ⟨tmp, htmp, hq⟩
  exact inArea_current_of_paths hdst htmp hq

/-- Replies leave the tree alone. -/
theorem versioned_of_stays (hK : ∀ k w₁ r w₂, K k w₁ r w₂ → Kernel cwd mayFail k w₁ r w₂)
    (h : Stays (fun _ => False) (fun _ => False) p) (hw : Versioned cwd root rel dst c w) :
    p.Safe K (Versioned cwd root rel dst c) (fun _ => Versioned cwd root rel dst c) w := by
  apply (h.safe (fun k s r s' hk hs hstep => ?_) hw).post fun _ _ hq => hq.2
  have htree : s'.tree = s.tree := (hK _ _ _ _ hstep).keepsTree hk.keepsTree
  unfold Versioned
  rw [htree]
  exact hs

theorem versioned_unlockAndReply (hK : ∀ k w₁ r w₂, K k w₁ r w₂ → Kernel cwd mayFail k w₁ r w₂)
    (outcome : Except Bytes Unit) (ack : UInt64) (hw : Versioned cwd root rel dst c w) :
    (unlockAndReply fuel outcome ack).Safe K (Versioned cwd root rel dst c) (fun _ _ => True) w := by
  refine safe_quiet hK trivial hw fun _ => ?_
  cases outcome with
  | ok _ =>
      apply (versioned_of_stays hK (Confinement.stays_sendAck fuel ack) hw).bind
      intro _ _ _
      trivial
  | error message =>
      apply (versioned_of_stays hK (Confinement.stays_sendError fuel message) hw).bind
      intro _ _ _
      trivial

/-- A critical section between taking the lock and the reply. -/
theorem versioned_critical {ack : UInt64} (f : α → Except Bytes Unit)
    (hK : ∀ k w₁ r w₂, K k w₁ r w₂ → Kernel cwd mayFail k w₁ r w₂)
    (hw : Versioned cwd root rel dst c w)
    (h : p.Safe K (Versioned cwd root rel dst c) (fun _ _ => True) w) :
    (do
      sys .lockFiles
      let outcome ← p
      unlockAndReply fuel (f outcome) ack : Sys TreePath Rc).Safe K (Versioned cwd root rel dst c)
      (fun _ _ => True) w := by
  refine safe_quiet hK trivial hw fun _ => ?_
  apply (h.last hw).bind
  rintro outcome w1 ⟨hw1, -⟩
  exact versioned_unlockAndReply hK (f outcome) ack hw1

theorem versioned_invalid (hK : ∀ k w₁ r w₂, K k w₁ r w₂ → Kernel cwd mayFail k w₁ r w₂)
    (message : Bytes) (hw : Versioned cwd root rel dst c w) :
    (do let _ ← sendError fuel message; return .err : Sys TreePath Rc).Safe K
      (Versioned cwd root rel dst c) (fun _ _ => True) w := by
  apply (versioned_of_stays hK (Confinement.stays_sendError fuel message) hw).bind
  intro _ _ _
  trivial

theorem versioned_serverHandleFileBegin (header : SyncHeader) (hdst : currentPath root rel = some dst)
    (hg : w.tree.Grounded) (hold : w.tree.content (resolve cwd dst) = some c) :
    (serverHandleFileBegin fuel header root rel).Safe (Seeing cwd mayFail dst)
      (Versioned cwd root rel dst c) (fun _ _ => True) w := by
  have hnarrow : ∀ k w₁ r w₂, Seeing cwd mayFail dst k w₁ r w₂ →
      Kernel cwd mayFail k w₁ r w₂ := fun _ _ _ _ => kernel_of_seeing
  unfold serverHandleFileBegin
  split
  · exact versioned_invalid hnarrow _ (Or.inl hold)
  · rename_i dst' tmp hpaths
    obtain ⟨hdst', -⟩ := uploadPaths_eq_some hpaths
    cases Option.some.inj (hdst'.symm.trans hdst)
    split_ifs
    · have hmake : (ensureDirExists dst).Moves (Kernel cwd mayFail) (Tidy fun _ => False) _ w :=
        moves_ensureDirExists _ dst
      have hkept : (ensureDirExists dst).Safe (Seeing cwd mayFail dst)
          (Versioned cwd root rel dst c) _ w :=
        (hmake.spares fun _ h => h.1).keepsOld hnarrow hg not_false hold
      exact versioned_critical _ hnarrow (Or.inl hold) (hkept.post fun _ _ _ => trivial)
    · exact versioned_critical id hnarrow (Or.inl hold)
        (versioned_fileBeginCritical header hpaths hg hold)

theorem versioned_handleLargeBlockStream (first_block : SyncHeader)
    (hdst : currentPath root rel = some dst) (hg : w.tree.Grounded)
    (hold : w.tree.content (resolve cwd dst) = some c) :
    (handleLargeBlockStream fuel first_block root rel).Safe (Saving cwd mayFail root rel dst)
      (Versioned cwd root rel dst c) (fun _ _ => True) w := by
  have hnarrow : ∀ k w₁ r w₂, Saving cwd mayFail root rel dst k w₁ r w₂ →
      Kernel cwd mayFail k w₁ r w₂ := fun _ _ _ _ => kernel_of_saving
  unfold handleLargeBlockStream
  split
  · exact versioned_invalid hnarrow _ (Or.inl hold)
  · rename_i dst' tmp hpaths
    obtain ⟨hdst', -⟩ := uploadPaths_eq_some hpaths
    cases Option.some.inj (hdst'.symm.trans hdst)
    exact versioned_critical id hnarrow (Or.inl hold)
      (versioned_blockStreamCritical first_block hpaths hg hold)

end Uploads

/-- What the answers must be for an upload to keep the old version: the old file is seen,
and where the result of the backup is not looked at nothing disturbs the backup. -/
def Uploader.Favoured (cwd : TreePath) (root dst : Bytes) :
    Uploader → (k : Call TreePath) → Resp k → Prop
  | .handler rel_path (.blockStream _) => SavesVersion cwd root rel_path dst
  | .handler _ (.fileBegin _) => SeesOld dst
  | .syncLocalFile _ => SeesOld dst

/-- Whatever else fails in an upload, `current/p` holds its old content or a version does,
after every call. -/
theorem upload_keeps_version {cwd : TreePath} {mayFail : Call TreePath → Errno → Prop} {w : World}
    {fuel : Nat} {root dst c : Bytes} (u : Uploader) (hg : w.tree.Grounded)
    (hdst : currentPath root u.rel_path = some dst)
    (hold : w.tree.content (resolve cwd dst) = some c) :
    (u.prog fuel root).Safe
      (fun k w₁ r w₂ => Kernel cwd mayFail k w₁ r w₂ ∧ u.Favoured cwd root dst k r)
      (Versioned cwd root u.rel_path dst c) (fun _ _ => True) w := by
  cases u with
  | syncLocalFile task => exact versioned_syncLocalFile task hdst hg hold
  | handler rel_path u =>
      cases u with
      | fileBegin header => exact versioned_serverHandleFileBegin header hdst hg hold
      | blockStream first_block =>
          exact versioned_handleLargeBlockStream first_block hdst hg hold

/-! ## A full disk -/

/-- A block that makes up a whole file. -/
def onlyBlock : SyncHeader :=
  { initSyncHeader msgFileBlock with data_len := 1, block_hash := hashBufferFnv1a [9] }

/-- A store with the file `a`, and a client that sends the block and the end. -/
def replacing : World :=
  ⟨storeWith [(ascii "a", [7])], hearing ([9] ++ (initSyncHeader msgFileEnd).encode)⟩

/-- No new file can be made: `open` with `O_CREAT | O_TRUNC` reports an error. -/
def fullDisk (env : Env) : (k : Call TreePath) → World → Resp k × World
  | .openFile _ (.writeCreateTrunc _), w => (.error .io, w)
  | k, w => posix env k w

theorem fullDisk_covered (env : Env) (k : Call TreePath) (w : World) :
    Kernel env.cwd (fun _ e => e = .io) k w (fullDisk env k w).1 (fullDisk env k w).2 := by
  unfold fullDisk
  split
  · exact Or.inr ⟨.io, rfl, rfl, rfl⟩
  · exact Or.inl ⟨env.now, rfl⟩

/-- The upload replaces `a`, and its old content is in no version. -/
theorem upload_loses_version :
    ¬ ((Uploader.handler (ascii "a") (.blockStream onlyBlock)).prog 64 (ascii "s")).Safe
      (Kernel [] fun _ e => e = .io)
      (Versioned [] (ascii "s") (ascii "a") (ascii "s/current/a") [7]) (fun _ _ => True)
      replacing := by
  intro hsafe
  have hrun : (((Uploader.handler (ascii "a") (.blockStream onlyBlock)).prog 64 (ascii "s")).run
      (fullDisk ⟨[], ⟨126, 1, 2, 3, 4, 5⟩⟩) replacing).map (fun r =>
        (r.1, r.2.tree.entries.all fun e => decide (e.2 ≠ .file [7]))) = some (.ok, true) := by
    decide +kernel
  obtain ⟨⟨rc, w'⟩, hrun, heq⟩ := Option.map_eq_some_iff.mp hrun
  simp only [Prod.mk.injEq, List.all_eq_true, decide_eq_true_eq] at heq
  have hlast := (hsafe.last (Or.inl (by decide))).of_run
    (fullDisk_covered ⟨[], ⟨126, 1, 2, 3, 4, 5⟩⟩) hrun
  rcases hlast.1 with hcontent | ⟨tm, hcontent⟩
  · exact heq.2 _ (FileTree.mem_entries_of_content hcontent) rfl
  · exact heq.2 _ (FileTree.mem_entries_of_content hcontent) rfl

theorem upload_keeps_version_small :
    ((Uploader.handler (ascii "a") (.blockStream onlyBlock)).prog 64 (ascii "s")).Safe
      (fun k w₁ r w₂ => Kernel [] (fun _ e => e = .io) k w₁ r w₂ ∧
        (Uploader.handler (ascii "a") (.blockStream onlyBlock)).Favoured [] (ascii "s")
          (ascii "s/current/a") k r)
      (Versioned [] (ascii "s") (ascii "a") (ascii "s/current/a") [7]) (fun _ _ => True)
      replacing :=
  upload_keeps_version (.handler (ascii "a") (.blockStream onlyBlock))
    (FileTree.grounded_of_entries (by decide)) (by decide) (by decide)

end MiniSync
