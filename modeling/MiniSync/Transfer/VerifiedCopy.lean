import MiniSync.Transfer.EditedSource

/-!
# The file of the store is replaced before it is verified

`sync_local_file` hashes the source, replaces the file of the store by a copy of the
source, and then compares the hashes.  What it leaves behind is verified exactly where
both readings of the source have the same hash.
-/

namespace MiniSync

open Prog

section VerifiedCopy

variable {env : Env} {source : TreePath} {history : Nat → Bytes} {w w' : World} {s s' : Edited}
  {fuel k : Nat} {root rel src b data : Bytes} {task : SyncTask}

/-! ## A copy that nothing is in the way of -/

theorem Creatable.rewrite {cwd : TreePath} (h : Creatable cwd w.tree b rel)
    (hsourced : Sourced source w) (hne : resolve cwd (b ++ slash :: rel) ≠ source) :
    Creatable cwd (w.rewrite source data).tree b rel := by
  obtain ⟨old, hold⟩ := hsourced.file
  have hfile := FileTree.content_eq_some.mp hold
  apply h.of_lookup
  · intro d _ _ hdir
    have hd : resolve cwd d ≠ source := by
      rintro rfl
      rw [FileTree.IsDir, hfile] at hdir
      cases hdir
    exact (lookup_rewrite hsourced.ne_root hd).trans hdir
  · intro q c hq
    have hqs : q ≠ source := by
      rintro rfl
      exact h.passable.free q old hq hfile
    rw [lookup_rewrite hsourced.ne_root hqs]
    exact h.passable.free q c hq
  · rw [lookup_rewrite hsourced.ne_root hne]
    exact h.notDir

/-- The file is made, and but for the edits nothing else is. -/
theorem safe_copyFilePlain_creatable (hpath : SourcePath env.cwd source src)
    (hsourced : Sourced source w) (hdst : Creatable env.cwd w.tree b rel)
    (hne : resolve env.cwd (b ++ slash :: rel) ≠ source) :
    (copyFilePlain fuel src (b ++ slash :: rel)).Safe (Graph (edited env source history))
      (fun _ => True)
      (fun rc s' => rc = .ok ∧ Sourced source s'.world ∧ ∃ last data,
        ReadThrough history k 0 data s'.reads ∧
        Placed (WayTo env.cwd b rel) (resolve env.cwd (b ++ slash :: rel)) data
          (w.rewrite source last) s'.world) ⟨w, k⟩ := by
  apply Safe.op_bind
  intro r s' hstep
  obtain ⟨rfl, rfl⟩ := hpath.opens hsourced s' r hstep
  refine ⟨trivial, ?_⟩
  have hparent : (ensureParentDirExists (b ++ slash :: rel)).Safe
      (Graph (edited env source history)) (fun _ => True) _ ⟨w, k⟩ :=
    safe_unread (calls_ensureParentDirExists _) fun _ _ hrun =>
      ((returns_ensureParent hdst).grounded hsourced.grounded).unique hrun
  apply hparent.bind
  rintro made ⟨w1, k1⟩ ⟨hk1, ⟨rfl, hmade⟩, hg1⟩
  obtain rfl : k1 = k := hk1
  dsimp only at hmade hg1
  obtain ⟨old, hold⟩ := hsourced.file
  have hway : ¬ WayTo env.cwd b rel source := hdst.not_wayTo_of_content hold
  have hold1 : w1.tree.content source = some old := by
    rw [← hold]
    exact FileTree.content_congr (hmade.rest _ hway)
  have hdst1 := hdst.made hmade
  apply Safe.op_bind
  rintro r ⟨w2, k2⟩ hstep
  have hopen : NotSource source
      (.openFile (b ++ slash :: rel) (.writeCreateTrunc 0o644)) := trivial
  obtain ⟨hk2, hposix⟩ := step_unread hopen hstep
  obtain rfl : k2 = k1 := hk2
  have hgrounded := (noFaults_of_posix hposix).grounded hg1
  rw [posix_openTrunc hdst.file.plain hdst1.notDir (hmade.dirs _ hdst.wayTo_parent)] at hposix
  obtain ⟨rfl, rfl⟩ := Prod.mk.inj hposix
  refine ⟨trivial, ?_⟩
  have hempty : Wrote (resolve env.cwd (b ++ slash :: rel)) [] w1 _ := wrote_put hdst.ne_root
  have hsourced2 : Sourced source _ :=
    ⟨hgrounded, old, (FileTree.content_congr (hempty.rest _ hne.symm not_false)).trans hold1⟩
  have hloop : (copyLoop source (resolve env.cwd (b ++ slash :: rel)) fuel 0).Safe
      (Graph (edited env source history)) (fun _ => True) _ ⟨_, k2⟩ :=
    safe_copySourceLoop hsourced2 hne hempty.content
  apply hloop.bind
  rintro copied ⟨w3, k3⟩ ⟨rfl, hsourced3, hconn, hrest, data, hread, hdata⟩
  obtain ⟨last, hlast⟩ := hsourced3.file
  have hlookup := FileTree.content_eq_some.mp hlast
  have hsame : ∀ q, q ≠ resolve env.cwd (b ++ slash :: rel) → q ≠ source →
      w3.tree.lookup q = w1.tree.lookup q :=
    fun q hq hqs => (hrest q hqs hq).trans (hempty.rest q hq not_false)
  have hplaced : Placed (WayTo env.cwd b rel) (resolve env.cwd (b ++ slash :: rel)) data
      (w.rewrite source last) w3 := by
    refine ⟨hconn.trans (hempty.conn.trans hmade.conn), FileTree.content_eq_some.mp hdata, ?_, ?_⟩
    · intro q hq
      have hqp : q ≠ resolve env.cwd (b ++ slash :: rel) := by
        rintro rfl
        exact hdst.not_wayTo hq
      have hqs : q ≠ source := by
        rintro rfl
        exact hway hq
      exact (hsame q hqp hqs).trans (hmade.dirs q hq)
    · intro q hqp hq
      by_cases hqs : q = source
      · rw [hqs, hlookup, World.rewrite, FileTree.lookup_put hsourced.ne_root, if_pos rfl]
      · rw [hsame q hqp hqs, lookup_rewrite hsourced.ne_root hqs]
        exact hmade.rest q hq
  apply Safe.op_bind
  rintro synced s' hsync
  cases hsync
  refine ⟨trivial, ?_⟩
  apply Safe.op_bind
  rintro r s' hclose
  cases hclose
  refine ⟨trivial, ?_⟩
  apply Safe.op_bind
  rintro r s' hclose
  cases hclose
  exact ⟨trivial, rfl, hsourced3, last, data, hread, hplaced⟩

/-- Where nothing is in the way, the file of the store is replaced. -/
theorem safe_copyFileAtomic_replaceable (hpath : SourcePath env.cwd source src)
    (hsourced : Sourced source w) (hdst : Replaceable env.cwd w.tree b rel)
    (hne : resolve env.cwd (b ++ slash :: rel) ≠ source)
    (htmp : resolve env.cwd (b ++ slash :: (rel ++ syncingSuffix)) ≠ source) :
    (copyFileAtomic fuel src (b ++ slash :: rel)).Safe (Graph (edited env source history))
      (fun _ => True)
      (fun rc s' => rc = .ok ∧ ∃ data k', ReadThrough history k 0 data k' ∧
        s'.world.tree.content (resolve env.cwd (b ++ slash :: rel)) = some data) ⟨w, k⟩ := by
  obtain ⟨hapart, hapart'⟩ := hdst.file.syncing_apart env.cwd hdst.base_ne
  unfold copyFileAtomic
  rw [syncingPath_below hdst]
  apply (safe_copyFilePlain_creatable hpath hsourced hdst.tmp htmp).bind
  rintro copied ⟨w1, k1⟩ ⟨rfl, hsourced1, last, data, hread, hplaced⟩
  dsimp only at hsourced1 hplaced ⊢
  rw [hdst.file.wayTo_syncing] at hplaced
  have hdst1 : Creatable env.cwd w1.tree b rel := by
    refine (hdst.toCreatable.rewrite hsourced hne).of_placed hplaced ?_ ?_
    · intro h
      rw [h] at hapart
      exact hapart List.prefix_rfl
    · rw [lookup_rewrite hsourced.ne_root htmp]
      exact hdst.tmp_notDir
  have hcontent := FileTree.content_eq_some.mpr hplaced.file
  have hrename : (safeRenameOrCopyUnlink fuel (b ++ slash :: (rel ++ syncingSuffix))
      (b ++ slash :: rel)).Returns (posix env) _ w1 :=
    returns_safeRenameOrCopyUnlink hdst.tmp.file.plain hcontent hdst1 hapart hapart'
  apply (safe_unread calls_safeRenameOrCopyUnlink fun _ _ hrun => hrename.unique hrun).bind
  rintro renamed s' ⟨-, rfl, hmoved⟩
  exact ⟨rfl, data, k1, hread, FileTree.content_eq_some.mpr hmoved.file⟩

/-! ## The whole call -/

/-- Comparing the hashes changes no file. -/
theorem safe_compareHashes {dst : Bytes} (hne : resolve env.cwd dst ≠ source) (before : UInt64) :
    (do
      let after ← hashFileFnv1a fuel dst
      if before ≠ after then return .err
      setFileMetadata dst task.mode (.ofInt task.mtime)
      return .ok : Sys TreePath Rc).Safe (Graph (edited env source history)) (fun _ => True)
        (fun _ s' => s'.world.tree = w.tree) ⟨w, k⟩ := by
  have hhash : (hashFileFnv1a fuel dst).Moves (NoFaults env.cwd) (Tidy fun _ => False) _ w :=
    moves_hashFileFnv1a (fun _ => False) fuel dst
  have hsame : (hashFileFnv1a fuel dst).Safe (Graph (edited env source history)) (fun _ => True)
      (fun _ s' => s'.reads = k ∧ s'.world = w) ⟨w, k⟩ :=
    safe_unread (Q := fun _ w' => w' = w) (calls_hashFileFnv1a hne) fun _ _ hrun =>
      (hhash.safe.of_run (posix_covered env) hrun).1
  apply hsame.bind
  rintro after ⟨w1, k1⟩ ⟨rfl, rfl⟩
  split_ifs
  · rfl
  apply Safe.op_bind
  rintro r s' hchmod
  cases hchmod
  refine ⟨trivial, ?_⟩
  apply Safe.op_bind
  rintro r s' hutime
  cases hutime
  exact ⟨trivial, rfl⟩

/-- The second reading of the source, which begins with the `k`-th read. -/
def SecondReading (history : Nat → Bytes) (k : Nat) (new : Option Bytes) : Prop :=
  ∃ taken k₁ copied k₂, ReadThrough history k 0 taken k₁ ∧ ReadThrough history k₁ 0 copied k₂ ∧
    new = some copied

theorem safe_copySource (hpath : SourcePath env.cwd source task.src_path.bytes)
    (hsourced : Sourced source w) {dst : Bytes} (hdst : resolve env.cwd dst ≠ source)
    (htmp : ∀ tmp, syncingPath dst = some tmp → resolve env.cwd tmp ≠ source) :
    (copySource fuel task dst).Safe (Graph (edited env source history)) (fun _ => True)
      (fun _ s' => s'.world.tree.content (resolve env.cwd dst) =
          w.tree.content (resolve env.cwd dst) ∨
        SecondReading history k (s'.world.tree.content (resolve env.cwd dst))) ⟨w, k⟩ := by
  apply (safe_hashSource hpath hsourced).bind
  rintro before ⟨w1, k1⟩ ⟨honly, taken, htaken, -⟩
  have hkept : w1.tree.content (resolve env.cwd dst) = w.tree.content (resolve env.cwd dst) :=
    FileTree.content_congr (honly.rest _ hdst)
  apply (safe_copyFileAtomic_source hpath honly.sourced hdst htmp).bind
  rintro rc ⟨w2, k2⟩ ⟨-, hcopied⟩
  rw [hkept] at hcopied
  have hresult : w2.tree.content (resolve env.cwd dst) = w.tree.content (resolve env.cwd dst) ∨
      SecondReading history k (w2.tree.content (resolve env.cwd dst)) := by
    rcases hcopied with hold | ⟨copied, k', hread, hnew⟩
    · exact .inl hold
    · exact .inr ⟨taken, k1, copied, k', htaken, hread, hnew⟩
  split_ifs
  · exact hresult
  · apply (safe_compareHashes hdst before).post
    intro rc s' hsame
    rw [hsame]
    exact hresult

/-- The store can still take a file where nothing on the way to it has changed. -/
theorem Ready.of_same {cwd : TreePath} {tree tree' : Tree} (h : Ready cwd tree root rel)
    (hg : tree'.Grounded) (hstay : tree.DirsStay tree')
    (hway : ∀ q, UploadWay cwd root rel q → tree'.lookup q = tree.lookup q)
    (htarget : tree'.lookup (resolve cwd (targetPath root rel)) =
      tree.lookup (resolve cwd (targetPath root rel)))
    (hpart : tree'.lookup (resolve cwd (partialPath root rel)) =
      tree.lookup (resolve cwd (partialPath root rel))) : Ready cwd tree' root rel := by
  have hcreatable : Creatable cwd tree' (currentBase root) rel := by
    apply h.of_lookup fun d _ _ => hstay (resolve cwd d)
    · intro q c hq
      rw [hway q hq]
      exact h.passable.free q c hq
    · exact htarget ▸ h.notDir
  exact ⟨⟨hcreatable, h.tmp_fits, hpart ▸ h.tmp_notDir⟩, hg⟩

theorem Ready.of_onlySource (h : Ready env.cwd w.tree root rel) (hsourced : Sourced source w)
    (honly : OnlySource source w w') (hdst : resolve env.cwd (targetPath root rel) ≠ source)
    (htmp : resolve env.cwd (partialPath root rel) ≠ source) :
    Ready env.cwd w'.tree root rel := by
  obtain ⟨old, hold⟩ := hsourced.file
  have hfile := FileTree.content_eq_some.mp hold
  apply h.of_same honly.sourced.grounded
  · intro q hq
    have hqs : q ≠ source := by
      rintro rfl
      rw [FileTree.IsDir, hfile] at hq
      cases hq
    exact (honly.rest q hqs).trans hq
  · intro q hq
    apply honly.rest
    rintro rfl
    exact h.passable.free q old hq hfile
  · exact honly.rest _ hdst
  · exact honly.rest _ htmp

theorem safe_copySource_ready (hpath : SourcePath env.cwd source task.src_path.bytes)
    (hsourced : Sourced source w) (hready : Ready env.cwd w.tree root rel)
    (hdst : resolve env.cwd (targetPath root rel) ≠ source)
    (htmp : resolve env.cwd (partialPath root rel) ≠ source) :
    (copySource fuel task (targetPath root rel)).Safe (Graph (edited env source history))
      (fun _ => True)
      (fun _ s' => SecondReading history k (currentAt env.cwd root rel s'.world.tree)) ⟨w, k⟩ := by
  apply (safe_hashSource hpath hsourced).bind
  rintro before ⟨w1, k1⟩ ⟨honly, taken, htaken, -⟩
  have hready1 : Ready env.cwd w1.tree root rel := hready.of_onlySource hsourced honly hdst htmp
  have hcopy : (copyFileAtomic fuel task.src_path.bytes (targetPath root rel)).Safe
      (Graph (edited env source history)) (fun _ => True) _ ⟨w1, k1⟩ :=
    safe_copyFileAtomic_replaceable hpath honly.sourced hready1.toReplaceable hdst htmp
  apply hcopy.bind
  rintro rc ⟨w2, k2⟩ ⟨rfl, copied, k', hread, hnew⟩
  rw [if_neg (by decide)]
  apply (safe_compareHashes hdst before).post
  intro rc s' hsame
  rw [hsame]
  exact ⟨taken, k1, copied, k', htaken, hread, hnew⟩

/-- The source is not in the store. -/
def Outside (cwd : TreePath) (root : Bytes) (source : TreePath) : Prop :=
  ¬ storeRoot cwd root <+: source

theorem Outside.current_ne (h : Outside env.cwd root source) {dst : Bytes}
    (hdst : currentPath root rel = some dst) : resolve env.cwd dst ≠ source := by
  rintro rfl
  apply h
  rw [resolve_currentPath hdst]
  exact List.prefix_append _ _

theorem Outside.syncing_ne (h : Outside env.cwd root source) {dst tmp : Bytes}
    (hdst : currentPath root rel = some dst) (htmp : syncingPath dst = some tmp) :
    resolve env.cwd tmp ≠ source := by
  rintro rfl
  apply h
  rw [resolve_syncingPath hdst htmp]
  exact List.prefix_append _ _

theorem Outside.not_inArea (h : Outside env.cwd root source) (area : Bytes) :
    ¬ InArea env.cwd root area source :=
  fun harea => h ((List.prefix_append _ _).trans harea)

/-- The checks of the source do not change anything. -/
theorem safe_withSourceFile_edited {next : Sys TreePath Rc} {Q : Rc → Edited → Prop}
    (hpath : SourcePath env.cwd source task.src_path.bytes) (hsourced : Sourced source w)
    (h : next.Safe (Graph (edited env source history)) (fun _ => True) Q ⟨w, k⟩) :
    (withSourceFile task next).Safe (Graph (edited env source history)) (fun _ => True) Q
      ⟨w, k⟩ := by
  obtain ⟨data, hdata⟩ := hsourced.file
  have hreadable : Readable env.cwd w.tree task.src_path.bytes data :=
    ⟨hpath.ne_nil, hpath.names_file, hpath.resolves ▸ hdata⟩
  have hcalls : (isRegularFile task.src_path.bytes : Sys TreePath Bool).Calls
      (Graph (posix env)) (NotSource source) w := by
    refine Calls.op_bind trivial fun r _ _ => ?_
    split <;> trivial
  have hregular := returns_isRegularFile hreadable
  apply (safe_unread hcalls fun _ _ hrun => hregular.unique hrun).bind
  rintro regular ⟨w1, k1⟩ ⟨rfl, rfl, rfl⟩
  rw [if_neg (by decide)]
  apply Safe.op_bind
  intro r s' hstep
  obtain ⟨rfl, rfl⟩ := hpath.opens hsourced s' r hstep
  refine ⟨trivial, ?_⟩
  apply Safe.op_bind
  rintro r s' hlock
  cases hlock
  refine ⟨trivial, ?_⟩
  apply Safe.op_bind
  rintro r s' hunlock
  cases hunlock
  refine ⟨trivial, ?_⟩
  apply Safe.op_bind
  rintro r s' hclose
  cases hclose
  exact ⟨trivial, h⟩

/-- Nothing is copied for a path that has no place in the store. -/
theorem safe_syncLocalFile_unplaced (hpath : SourcePath env.cwd source task.src_path.bytes)
    (hsourced : Sourced source w) (hdst : currentPath root task.rel_path.bytes = none) :
    (syncLocalFile fuel root task).Safe (Graph (edited env source history)) (fun _ => True)
      (fun _ s' => s'.world.tree = w.tree) ⟨w, k⟩ := by
  rw [syncLocalFile_eq]
  apply safe_withSourceFile_edited hpath hsourced
  unfold localTargetPath
  rw [hdst]
  rfl

/-- `current/rel` is left alone, or holds what the second reading gives. -/
theorem safe_syncLocalFile_edited (hpath : SourcePath env.cwd source task.src_path.bytes)
    (hsourced : Sourced source w) (hout : Outside env.cwd root source) {dst : Bytes}
    (hdst : currentPath root task.rel_path.bytes = some dst) :
    (syncLocalFile fuel root task).Safe (Graph (edited env source history)) (fun _ => True)
      (fun _ s' => s'.world.tree.content (resolve env.cwd dst) =
          w.tree.content (resolve env.cwd dst) ∨
        SecondReading history k (s'.world.tree.content (resolve env.cwd dst))) ⟨w, k⟩ := by
  rw [syncLocalFile_eq]
  apply safe_withSourceFile_edited hpath hsourced
  unfold localTargetPath
  rw [hdst]
  have hbackup : (backupOldVersion fuel root task.rel_path.bytes).Moves (NoFaults env.cwd) _ _ w :=
    moves_backupOldVersion hdst
  apply (safe_unread_of_safe (calls_backupOldVersion hdst (hout.current_ne hdst))
    hsourced.grounded hbackup.moved).bind
  rintro saved ⟨w1, k1⟩ ⟨rfl, ⟨htidy, -⟩, hg1⟩
  have hkept : w1.tree.content (resolve env.cwd dst) = w.tree.content (resolve env.cwd dst) :=
    htidy.content (not_inArea_current hdst (by decide))
  split_ifs
  · exact .inl hkept
  have hsourced1 := hsourced.of_touches hg1 htidy.1 (hout.not_inArea _)
  apply (safe_copySource hpath hsourced1 (hout.current_ne hdst)
    fun tmp htmp => hout.syncing_ne hdst htmp).post
  intro rc s' hresult
  rw [hkept] at hresult
  exact hresult

/-- The store can take the file and save the version that it has. -/
structure Receptive (env : Env) (tree : Tree) (root rel : Bytes) : Prop where
  ready : Ready env.cwd tree root rel
  savable : (currentAt env.cwd root rel tree).isSome → Savable env tree root rel

/-- The backup succeeds, and the store can still take the file. -/
theorem returns_backupOldVersion_receptive (h : Receptive env w.tree root rel) :
    ∃ n, (backupOldVersion n root rel).Returns (posix env)
      (fun rc w' => rc = .ok ∧ Ready env.cwd w'.tree root rel) w := by
  have hdst := h.ready.currentPath_eq
  obtain ⟨-, htmp⟩ := uploadPaths_eq_some h.ready.uploadPaths_eq
  have hsave : ∀ old, currentAt env.cwd root rel w.tree = some old →
      Savable env w.tree root rel ∧
        old.length + 3 ≤ ((currentAt env.cwd root rel w.tree).getD []).length + 3 := by
    intro old hold
    refine ⟨h.savable (by rw [hold]; rfl), ?_⟩
    rw [hold, Option.getD_some]
  have hsettled : ∀ n, (backupOldVersion n root rel).Moves (NoFaults env.cwd) Settled _ w :=
    fun n => settled_backupOldVersion hdst
  refine ⟨_, ((returns_backupOldVersion_ok h.ready hsave).and_safe (posix_covered env)
    (hsettled _).moved).post ?_⟩
  rintro rc w' ⟨⟨rfl, hsame⟩, hset, -⟩
  obtain ⟨hg, hstay⟩ := hset h.ready.grounded
  refine ⟨rfl, h.ready.of_same hg hstay (fun q hq => hsame q fun harea => ?_) (hsame _ ?_)
    (hsame _ ?_)⟩
  · exact h.ready.not_uploadWay_version harea hq
  · exact not_inArea_current hdst (by decide)
  · rw [resolve_syncingPath hdst htmp]
    exact not_inArea (by decide)

/-- Where nothing in the store is in the way, it holds what the second reading gives. -/
theorem safe_syncLocalFile_receptive (hpath : SourcePath env.cwd source task.src_path.bytes)
    (hsourced : Sourced source w) (hout : Outside env.cwd root source)
    (hstore : Receptive env w.tree root task.rel_path.bytes) :
    (syncLocalFile fuel root task).Safe (Graph (edited env source history)) (fun _ => True)
      (fun _ s' => SecondReading history k
        (currentAt env.cwd root task.rel_path.bytes s'.world.tree)) ⟨w, k⟩ := by
  have hdst := hstore.ready.currentPath_eq
  obtain ⟨-, htmp⟩ := uploadPaths_eq_some hstore.ready.uploadPaths_eq
  rw [syncLocalFile_eq]
  apply safe_withSourceFile_edited hpath hsourced
  unfold localTargetPath
  rw [hdst]
  have hcalls := @calls_backupOldVersion env source w fuel root task.rel_path.bytes _ hdst
    (hout.current_ne hdst)
  have hbackup : (backupOldVersion fuel root task.rel_path.bytes).Moves (NoFaults env.cwd) _ _ w :=
    moves_backupOldVersion hdst
  have hsaved : (backupOldVersion fuel root task.rel_path.bytes).Safe
      (Graph (edited env source history)) (fun _ => True) _ ⟨w, k⟩ :=
    ((safe_unread_of_safe hcalls hsourced.grounded hbackup.moved).and
      (safe_unread_of_returns (fuelled_backupOldVersion root task.rel_path.bytes) hcalls
        (returns_backupOldVersion_receptive hstore))).mono (fun _ _ => trivial) fun _ _ h => h
  apply hsaved.bind
  rintro saved ⟨w1, k1⟩ ⟨⟨rfl, ⟨htidy, -⟩, hg1⟩, -, rfl, hready1⟩
  rw [if_neg (by decide)]
  have hsourced1 := hsourced.of_touches hg1 htidy.1 (hout.not_inArea _)
  exact safe_copySource_ready hpath hsourced1 hready1 (hout.current_ne hdst)
    (hout.syncing_ne hdst htmp)

/-! ## When the copy is verified -/

/-- The order that `sync_local_file` is meant to keep: where the hashes differ, `current/rel`
keeps its content, and new content has the hash that was taken of the source. -/
structure VerifiesFirst (history : Nat → Bytes) (old new : Option Bytes) (rc : Rc) : Prop where
  kept : ∀ taken k₁ copied k₂, ReadThrough history 0 0 taken k₁ →
    ReadThrough history k₁ 0 copied k₂ → hashBufferFnv1a copied ≠ hashBufferFnv1a taken →
    rc = .err → new = old
  verified : new ≠ old → ∃ taken k₁ data, ReadThrough history 0 0 taken k₁ ∧ new = some data ∧
    hashBufferFnv1a data = hashBufferFnv1a taken

/-- Both readings of the source have one hash, or the second gives what the store has. -/
def Steady (history : Nat → Bytes) (old : Option Bytes) : Prop :=
  ∀ taken k₁ copied k₂, ReadThrough history 0 0 taken k₁ → ReadThrough history k₁ 0 copied k₂ →
    hashBufferFnv1a copied = hashBufferFnv1a taken ∨ old = some copied

theorem verifiesFirst_of_steady {old new : Option Bytes} {rc : Rc} (hsteady : Steady history old)
    (h : new = old ∨ SecondReading history 0 new) : VerifiesFirst history old new rc := by
  rcases h with rfl | ⟨taken, k₁, copied, k₂, htaken, hcopied, rfl⟩
  · exact ⟨fun _ _ _ _ _ _ _ _ => rfl, fun h => absurd rfl h⟩
  rcases hsteady taken k₁ copied k₂ htaken hcopied with hsame | hold
  · refine ⟨fun taken' k₁' copied' k₂' htaken' hcopied' hdiffer _ => ?_,
      fun _ => ⟨taken, k₁, copied, htaken, rfl, hsame⟩⟩
    obtain ⟨rfl, rfl⟩ := htaken.unique htaken'
    obtain ⟨rfl, -⟩ := hcopied.unique hcopied'
    exact absurd hsame hdiffer
  · exact ⟨fun _ _ _ _ _ _ _ _ => hold.symm, fun h => absurd hold.symm h⟩

theorem steady_of_verifiesFirst {old new : Option Bytes} {rc : Rc}
    (h : VerifiesFirst history old new rc) (hnew : SecondReading history 0 new) :
    Steady history old := by
  obtain ⟨taken, k₁, copied, k₂, htaken, hcopied, rfl⟩ := hnew
  intro taken' k₁' copied' k₂' htaken' hcopied'
  obtain ⟨rfl, rfl⟩ := htaken.unique htaken'
  obtain ⟨rfl, -⟩ := hcopied.unique hcopied'
  by_cases hold : old = some copied
  · exact .inr hold
  · obtain ⟨first, k, data, hfirst, hdata, hsame⟩ := h.verified fun heq => hold heq.symm
    obtain ⟨rfl, -⟩ := htaken.unique hfirst
    cases hdata
    exact .inl hsame

/-- `sync_local_file` verifies before it replaces where the source is steady, and where
nothing in the store is in the way of the copy only there. -/
theorem syncLocalFile_verifiesFirst_iff {rc : Rc}
    (hpath : SourcePath env.cwd source task.src_path.bytes) (hsourced : Sourced source w)
    (hout : Outside env.cwd root source)
    (hrun : (syncLocalFile fuel root task).run (edited env source history) ⟨w, 0⟩ =
      some (rc, s')) :
    (Steady history (currentAt env.cwd root task.rel_path.bytes w.tree) →
      VerifiesFirst history (currentAt env.cwd root task.rel_path.bytes w.tree)
        (currentAt env.cwd root task.rel_path.bytes s'.world.tree) rc) ∧
    (Receptive env w.tree root task.rel_path.bytes →
      VerifiesFirst history (currentAt env.cwd root task.rel_path.bytes w.tree)
        (currentAt env.cwd root task.rel_path.bytes s'.world.tree) rc →
      Steady history (currentAt env.cwd root task.rel_path.bytes w.tree)) := by
  have hexec := exec_graph_iff.mpr hrun
  constructor
  · intro hsteady
    apply verifiesFirst_of_steady hsteady
    cases hdst : currentPath root task.rel_path.bytes with
    | none => exact .inl (congrArg _ ((safe_syncLocalFile_unplaced hpath hsourced hdst).exec hexec))
    | some dst =>
        obtain ⟨-, -, rfl, -⟩ := currentPath_eq_some hdst
        exact (safe_syncLocalFile_edited hpath hsourced hout hdst).exec hexec
  · intro hstore hverifies
    exact steady_of_verifiesFirst hverifies
      ((safe_syncLocalFile_receptive hpath hsourced hout hstore).exec hexec)

end VerifiedCopy

/-! ## A source that is rewritten once -/

/-- An empty store `s`, and the file `a` beside it. -/
def besideStore : World := ⟨(storeWith []).put [ascii "a"] (.file [1]), hearing []⟩

/-- `a` is to be copied. -/
def copyTask : SyncTask :=
  { initSyncTask with event_type := .modify, src_path := nameA, rel_path := nameA }

/-- The user writes `[2]` after the first two reads, which give `[1]` and its end. -/
def rewrittenOnce (k : Nat) : Bytes := if k < 2 then [1] else [2]

theorem sourced_besideStore : Sourced [ascii "a"] besideStore :=
  ⟨FileTree.grounded_of_entries (by decide), [1], by decide⟩

theorem receptive_besideStore : Receptive ⟨[], ⟨126, 1, 2, 3, 4, 5⟩⟩ besideStore.tree (ascii "s")
    copyTask.rel_path.bytes := by
  have hsame : ∀ q, q ≠ [ascii "a"] →
      besideStore.tree.lookup q = (storeWith []).lookup q :=
    fun q hq => by rw [besideStore, FileTree.lookup_put (by decide), if_neg hq]
  have hfile : (storeWith []).lookup [ascii "a"] = none := by decide
  refine ⟨(ready_storeWith []).of_same sourced_besideStore.grounded ?_ ?_ (by decide) (by decide),
    fun h => absurd h (by decide)⟩
  · intro q hq
    have hne : q ≠ [ascii "a"] := by
      rintro rfl
      rw [FileTree.IsDir, hfile] at hq
      cases hq
    exact (hsame q hne).trans hq
  · rintro q ⟨r, hr, rfl⟩
    have hnames : (relNames (ascii "a")).dropLast = [] := by decide
    rw [hnames] at hr
    rw [List.prefix_nil.mp hr]
    decide

theorem rewrittenOnce_run : ∃ s', (syncLocalFile 8 (ascii "s") copyTask).run
    (edited ⟨[], ⟨126, 1, 2, 3, 4, 5⟩⟩ [ascii "a"] rewrittenOnce) ⟨besideStore, 0⟩ =
      some (.err, s') ∧ currentAt [] (ascii "s") (ascii "a") s'.world.tree = some [2] := by
  have hrun : ((syncLocalFile 8 (ascii "s") copyTask).run
      (edited ⟨[], ⟨126, 1, 2, 3, 4, 5⟩⟩ [ascii "a"] rewrittenOnce) ⟨besideStore, 0⟩).map
        (fun r => (r.1, currentAt [] (ascii "s") (ascii "a") r.2.world.tree)) =
      some (.err, some [2]) := by
    decide +kernel
  obtain ⟨⟨rc, s'⟩, hrun, heq⟩ := Option.map_eq_some_iff.mp hrun
  simp only [Prod.mk.injEq] at heq
  exact ⟨s', by rw [hrun, heq.1], heq.2⟩

theorem rewrittenOnce_reads : ReadThrough rewrittenOnce 0 0 [1] 2 ∧
    ReadThrough rewrittenOnce 2 0 [2] 4 :=
  ⟨.more rfl (by decide) (.done (by decide)), .more rfl (by decide) (.done (by decide))⟩

/-- The call reports an error, and `current/a` holds what it has not verified. -/
theorem syncLocalFile_replaces_unverified : ∃ s', (syncLocalFile 8 (ascii "s") copyTask).run
    (edited ⟨[], ⟨126, 1, 2, 3, 4, 5⟩⟩ [ascii "a"] rewrittenOnce) ⟨besideStore, 0⟩ =
      some (.err, s') ∧ ¬ VerifiesFirst rewrittenOnce
        (currentAt [] (ascii "s") (ascii "a") besideStore.tree)
        (currentAt [] (ascii "s") (ascii "a") s'.world.tree) .err := by
  obtain ⟨s', hrun, hnew⟩ := rewrittenOnce_run
  refine ⟨s', hrun, fun h => ?_⟩
  have hkept := h.kept _ _ _ _ rewrittenOnce_reads.1 rewrittenOnce_reads.2 (by decide) rfl
  rw [hnew] at hkept
  exact absurd hkept (by decide)

theorem syncLocalFile_verifiesFirst_iff_rewrittenOnce :
    ∃ s', (syncLocalFile 8 (ascii "s") copyTask).run
      (edited ⟨[], ⟨126, 1, 2, 3, 4, 5⟩⟩ [ascii "a"] rewrittenOnce) ⟨besideStore, 0⟩ =
        some (.err, s') ∧
      (VerifiesFirst rewrittenOnce (currentAt [] (ascii "s") (ascii "a") besideStore.tree)
        (currentAt [] (ascii "s") (ascii "a") s'.world.tree) .err ↔
      Steady rewrittenOnce (currentAt [] (ascii "s") (ascii "a") besideStore.tree)) := by
  obtain ⟨s', hrun, -⟩ := rewrittenOnce_run
  have hout : Outside [] (ascii "s") [ascii "a"] := by
    unfold Outside
    decide
  have hpath : SourcePath [] [ascii "a"] copyTask.src_path.bytes :=
    ⟨by decide, by decide, by decide⟩
  have hiff := syncLocalFile_verifiesFirst_iff hpath sourced_besideStore hout hrun
  exact ⟨s', hrun, hiff.2 receptive_besideStore, hiff.1⟩

end MiniSync
