import MiniSync.Resume.Resumption
import MiniSync.Server.Integrity
import MiniSync.Spares
import MiniSync.Transfer.Local

/-!
# What an upload leaves alone

An upload of `p`, in the store's own process or by the server, writes to `current/p`,
to `current/p.syncing` and below `.versions`.  Every other file keeps its content,
whatever the calls answer.
-/

namespace MiniSync

open Prog

section Frame

variable {cwd : TreePath} {mayFail : Call TreePath → Errno → Prop} {w : World} {fuel : Nat}
  {root rel_path dst tmp data : Bytes}

/-- The files that an upload writes to: versions, and the file with its temporary file. -/
def UploadFiles (cwd : TreePath) (root rel_path : Bytes) (q : TreePath) : Prop :=
  InArea cwd root versionsName q ∨ ∃ dst tmp, uploadPaths root rel_path = some (dst, tmp) ∧
    (q = resolve cwd tmp ∨ q = resolve cwd dst)

theorem uploadFiles_of_paths (hpaths : uploadPaths root rel_path = some (dst, tmp)) {q : TreePath}
    (hq : q = resolve cwd tmp ∨ q = resolve cwd dst) : UploadFiles cwd root rel_path q :=
  Or.inr ⟨dst, tmp, hpaths, hq⟩

/-! ## Steps of an upload -/

theorem spares_ensureParentDirExists (X : TreePath → Prop) (path : Bytes) :
    (ensureParentDirExists path).Moves (Kernel cwd mayFail) (Spares X) (fun _ _ => True) w := by
  have hmake : (ensureParentDirExists path).Moves (Kernel cwd mayFail) (Tidy X) _ w :=
    moves_ensureParentDirExists X path
  exact hmake.spares fun _ h => h.1

theorem spares_backupOldVersion (hdst : currentPath root rel_path = some dst) :
    (backupOldVersion fuel root rel_path).Moves (Kernel cwd mayFail)
      (Spares (UploadFiles cwd root rel_path)) (fun _ _ => True) w := by
  have hsave : (backupOldVersion fuel root rel_path).Moves (Kernel cwd mayFail) _ _ w :=
    moves_backupOldVersion hdst
  exact hsave.spares fun _ h => h.1.mono fun q hq => Or.inl hq

theorem spares_hashFileFnv1a (X : TreePath → Prop) (fuel : Nat) (path : Bytes) :
    (hashFileFnv1a fuel path).Moves (Kernel cwd mayFail) (Spares X) (fun _ w' => w' = w) w := by
  have hhash : (hashFileFnv1a fuel path).Moves (Kernel cwd mayFail) (Tidy X) _ w :=
    moves_hashFileFnv1a X fuel path
  exact (hhash.spares fun _ h => h.1).post fun _ _ _ h => h.1

theorem spares_syncAndClose (X : TreePath → Prop) (fd : TreePath) (received : Rc) :
    (syncAndClose fd received).Moves (Kernel cwd mayFail) (Spares X)
      (fun rc w' => w' = w ∧ (rc = .ok → received = .ok)) w := by
  have hclose : (syncAndClose fd received).Moves (Kernel cwd mayFail) (Hears X) _ w :=
    moves_syncAndClose X fd received
  exact hclose.spares fun _ h => h.1

theorem spares_publish (header : SyncHeader)
    (hcontent : w.tree.content (resolve cwd tmp) = some data) :
    (publish fuel header tmp dst).Moves (Kernel cwd mayFail)
      (Spares fun q => q = resolve cwd tmp ∨ q = resolve cwd dst) (fun _ _ => True) w := by
  apply (spares_safeRenameOrCopyUnlink hcontent).bind
  rintro rc w1 - -
  cases rc with
  | err => exact Moves.ret trivial
  | ok =>
      have hmeta : (setFileMetadata dst header.mode header.mtime).Moves (Kernel cwd mayFail) _ _ w1 :=
        moves_setFileMetadata (fun _ => False) dst header.mode header.mtime
      apply (hmeta.spares fun _ h => h.1.mono fun _ hf => hf.elim).bind
      rintro _ w2 - -
      exact Moves.ret trivial

/-! ## The uploads -/

/-- What an upload that has paths spares, of what its last part spares. -/
theorem Prog.Moves.uploadFiles {α : Type} {p : Sys TreePath α} {Q : α → World → Prop}
    (hpaths : uploadPaths root rel_path = some (dst, tmp))
    (h : p.Moves (Kernel cwd mayFail) (Spares fun q => q = resolve cwd tmp ∨ q = resolve cwd dst)
      Q w) : p.Moves (Kernel cwd mayFail) (Spares (UploadFiles cwd root rel_path)) Q w :=
  h.mono (fun _ _ hs => hs.mono fun _ => uploadFiles_of_paths hpaths) fun _ _ _ hq => hq

/-- `server_handle_file_begin` from where the old version is saved. -/
def receiveFile {Fd : Type} (fuel : Nat) (header : SyncHeader) (tmp dst : Bytes) :
    Sys Fd (Except Bytes Unit) := do
  match ← sys (.openFile tmp (.writeCreateTrunc (openMode header.mode))) with
  | .error _ => return .error (ascii "open temp failed")
  | .ok fd =>
      let failed : Except Bytes Unit := .error (ascii "file receive failed")
      let (received, end_header) ← recvFileBlocksUntilEnd fd header.total_hash fuel
      if (← syncAndClose fd received) = .err then return failed
      let actual_hash ← hashFileFnv1a fuel tmp
      let expected_hash := expectedHash header end_header
      if expected_hash ≠ 0 ∧ actual_hash ≠ expected_hash then return failed
      if (← publish fuel header tmp dst) = .err then return failed
      return .ok ()

theorem fileBeginCritical_eq {Fd : Type} (fuel : Nat) (header : SyncHeader)
    (root rel_path dst tmp : Bytes) :
    (fileBeginCritical fuel header root rel_path dst tmp : Sys Fd (Except Bytes Unit)) = (do
      if (← ensureParentDirExists dst) = .err then
        return .error (ascii "prepare destination failed")
      if (← backupOldVersion fuel root rel_path) = .err then
        return .error (ascii "prepare destination failed")
      receiveFile fuel header tmp dst) := rfl

theorem spares_receiveFile (header : SyncHeader) (tmp dst : Bytes) :
    (receiveFile fuel header tmp dst).Moves (Kernel cwd mayFail)
      (Spares fun q => q = resolve cwd tmp ∨ q = resolve cwd dst) (fun _ _ => True) w := by
  apply Moves.op_bind
  intro opened w3 hK
  rcases hK.openTrunc with ⟨⟨e, rfl⟩, rfl⟩ | ⟨rfl, hroot, -, htree, -⟩
  · exact ⟨refl_of (Spares _) w3, Moves.ret trivial⟩
  have hempty : w3.tree.content (resolve cwd tmp) = some [] := by
    rw [htree, FileTree.content_eq_some, FileTree.lookup_put hroot, if_pos rfl]
  refine ⟨spares_of_touches (fun hg => hK.grounded hg) (htree ▸ .put hroot (Or.inl rfl)), ?_⟩
  have hrecv : (recvFileBlocksUntilEnd (resolve cwd tmp) header.total_hash fuel).Moves
      (Kernel cwd mayFail) _ _ w3 := moves_recvFileBlocksUntilEnd header.total_hash fuel hempty
  apply (hrecv.spares fun _ h => h.1.mono fun q hq => Or.inl hq).bind
  rintro ⟨received, end_header⟩ w4 - hstream
  apply (spares_syncAndClose _ _ received).bind
  rintro closed w5 - ⟨rfl, hclosed⟩
  simp only
  split_ifs with hok
  · exact Moves.ret trivial
  obtain ⟨blocks, -, hcontent⟩ := hstream (hclosed (Rc.ok_of_ne_err hok))
  apply (spares_hashFileFnv1a _ fuel tmp).bind
  rintro actual_hash w6 - rfl
  split_ifs
  · exact Moves.ret trivial
  apply (spares_publish header hcontent).bind
  rintro rc w7 - -
  split_ifs <;> exact Moves.ret trivial

theorem spares_fileBeginCritical (header : SyncHeader)
    (hpaths : uploadPaths root rel_path = some (dst, tmp)) :
    (fileBeginCritical fuel header root rel_path dst tmp).Moves (Kernel cwd mayFail)
      (Spares (UploadFiles cwd root rel_path)) (fun _ _ => True) w := by
  obtain ⟨hdst, -⟩ := uploadPaths_eq_some hpaths
  rw [fileBeginCritical_eq]
  apply (spares_ensureParentDirExists _ dst).bind
  rintro made w1 - -
  split_ifs
  · exact Moves.ret trivial
  apply (spares_backupOldVersion hdst).bind
  rintro saved w2 - -
  split_ifs
  · exact Moves.ret trivial
  exact (spares_receiveFile header tmp dst).uploadFiles hpaths

theorem spares_blockStreamCritical (first_block : SyncHeader)
    (hpaths : uploadPaths root rel_path = some (dst, tmp)) :
    (blockStreamCritical fuel first_block root rel_path dst tmp).Moves (Kernel cwd mayFail)
      (Spares (UploadFiles cwd root rel_path)) (fun _ _ => True) w := by
  obtain ⟨hdst, htmp⟩ := uploadPaths_eq_some hpaths
  unfold blockStreamCritical
  apply (spares_ensureParentDirExists _ dst).bind
  rintro made w1 - -
  split_ifs
  · exact Moves.ret trivial
  apply Moves.op_bind
  intro opened w2 hK
  rcases hK.openCreate with ⟨⟨e, rfl⟩, rfl⟩ | ⟨rfl, hroot, -, htree, -⟩
  · exact ⟨refl_of (Spares _) w2, Moves.ret trivial⟩
  have hstart : w2.tree.content (resolve cwd tmp) =
      some ((w1.tree.content (resolve cwd tmp)).getD []) := by
    rw [htree, FileTree.content_eq_some, FileTree.lookup_put hroot, if_pos rfl]
  refine ⟨spares_of_touches (fun hg => hK.grounded hg) (htree ▸ .put hroot (uploadFiles_of_paths hpaths (Or.inl rfl))),
    moves_quiet trivial fun got => ?_⟩
  split_ifs
  · exact moves_quiet trivial fun _ => Moves.ret trivial
  have hrecv : (recvBlockStream fuel (resolve cwd tmp) first_block).Moves
      (Kernel cwd mayFail) _ _ w2 := moves_recvBlockStream fuel first_block hstart
  apply (hrecv.spares fun _ h => h.1.mono fun q hq => uploadFiles_of_paths hpaths (Or.inl hq)).bind
  rintro ⟨received, end_header⟩ w3 - hstream
  apply (spares_syncAndClose _ _ received).bind
  rintro closed w4 - ⟨rfl, hclosed⟩
  split_ifs with hok
  · exact Moves.ret trivial
  obtain ⟨first, -, -, blocks, rest, -, -, hcontent⟩ := hstream (hclosed (Rc.ok_of_ne_err hok))
  have hhash : (hashAgrees fuel tmp (expectedHash first_block end_header)).Moves
      (Kernel cwd mayFail) (Tidy (UploadFiles cwd root rel_path)) _ w4 :=
    moves_hashAgrees _ fuel tmp _ hcontent
  apply (hhash.spares fun _ h => h.1).bind
  rintro agrees w5 - ⟨rfl, -⟩
  split_ifs
  · exact Moves.ret trivial
  have hsave : (backupOldVersion fuel root rel_path).Moves (Kernel cwd mayFail) _ _ w5 :=
    moves_backupOldVersion hdst
  have hspared : (backupOldVersion fuel root rel_path).Moves (Kernel cwd mayFail)
      (Spares (UploadFiles cwd root rel_path)) _ w5 := spares_backupOldVersion hdst
  apply (hspared.and hsave).bind
  rintro saved w6 - ⟨-, htidy, -⟩
  have hcontent6 : w6.tree.content (resolve cwd tmp) = _ :=
    (htidy.prepared hpaths fun _ hq => hq).tmp_content.trans hcontent
  apply ((spares_publish first_block hcontent6).uploadFiles hpaths).bind
  rintro rc w7 - -
  split_ifs <;> exact Moves.ret trivial

theorem moves_withSourceFile {S : World → World → Prop} [IsPreorder World S] {task : SyncTask}
    {next : Sys TreePath Rc} (h : next.Moves (Kernel cwd mayFail) S (fun _ _ => True) w) :
    (withSourceFile task next).Moves (Kernel cwd mayFail) S (fun _ _ => True) w := by
  have hregular : (isRegularFile task.src_path.bytes).Moves (Kernel cwd mayFail) S
      (fun _ w' => w' = w) w := by
    refine moves_quiet trivial fun stat => ?_
    split <;> exact Moves.ret rfl
  unfold withSourceFile
  apply hregular.bind
  rintro regular _ - rfl
  split_ifs
  · exact Moves.ret trivial
  refine moves_quiet rfl fun opened => ?_
  cases opened with
  | error e => exact Moves.ret trivial
  | ok lock_fd =>
      refine moves_quiet trivial fun locked => ?_
      split_ifs
      · exact moves_quiet trivial fun _ => Moves.ret trivial
      · exact moves_quiet trivial fun _ => moves_quiet trivial fun _ => h

/-- `sync_local_file` from where the old version is saved. -/
def copySource {Fd : Type} (fuel : Nat) (task : SyncTask) (dst : Bytes) : Sys Fd Rc := do
  let before ← hashFileFnv1a fuel task.src_path.bytes
  if (← copyFileAtomic fuel task.src_path.bytes dst) = .err then return .err
  let after ← hashFileFnv1a fuel dst
  if before ≠ after then return .err
  setFileMetadata dst task.mode (.ofInt task.mtime)
  return .ok

theorem syncLocalFile_eq {Fd : Type} (fuel : Nat) (root : Bytes) (task : SyncTask) :
    (syncLocalFile fuel root task : Sys Fd Rc) = withSourceFile task (do
      match localTargetPath root task.rel_path.bytes with
      | none => return .err
      | some dst =>
          if (← backupOldVersion fuel root task.rel_path.bytes) = .err then return .err
          copySource fuel task dst) := rfl

theorem spares_copySource (task : SyncTask) (dst : Bytes) :
    (copySource fuel task dst).Moves (Kernel cwd mayFail)
      (Spares fun q => ∃ tmp, syncingPath dst = some tmp ∧ (q = resolve cwd tmp ∨ q = resolve cwd dst))
      (fun _ _ => True) w := by
  apply (spares_hashFileFnv1a _ fuel _).bind
  rintro before w2 - -
  have hcopy : (copyFileAtomic fuel task.src_path.bytes dst).Moves (Kernel cwd mayFail)
      (Spares fun q => ∃ tmp, syncingPath dst = some tmp ∧ (q = resolve cwd tmp ∨ q = resolve cwd dst))
      (fun _ _ => True) w2 := by
    cases htmp : syncingPath dst with
    | none =>
        unfold copyFileAtomic
        rw [htmp]
        exact Moves.ret trivial
    | some tmp =>
        apply (spares_copyFileAtomic htmp).mono
        · exact fun _ _ h => h.mono fun q hq => ⟨tmp, rfl, hq⟩
        · exact fun _ _ _ h => h
  apply hcopy.bind
  rintro copied w3 - -
  split_ifs
  · exact Moves.ret trivial
  apply (spares_hashFileFnv1a _ fuel dst).bind
  rintro after w4 - -
  split_ifs
  · exact Moves.ret trivial
  have hmeta : (setFileMetadata dst task.mode (.ofInt task.mtime)).Moves (Kernel cwd mayFail)
      (Tidy fun _ => False) _ w4 :=
    moves_setFileMetadata _ dst task.mode (.ofInt task.mtime)
  apply (hmeta.spares fun _ h => h.1.mono fun _ hf => hf.elim).bind
  rintro _ w5 - -
  exact Moves.ret trivial

theorem spares_syncLocalFile (task : SyncTask) :
    (syncLocalFile fuel root task).Moves (Kernel cwd mayFail)
      (Spares (UploadFiles cwd root task.rel_path.bytes)) (fun _ _ => True) w := by
  rw [syncLocalFile_eq]
  apply moves_withSourceFile
  unfold localTargetPath
  cases hdst : currentPath root task.rel_path.bytes with
  | none => exact Moves.ret trivial
  | some dst =>
      apply (spares_backupOldVersion hdst).bind
      rintro saved w1 - -
      split_ifs
      · exact Moves.ret trivial
      apply (spares_copySource task dst).mono
      · refine fun _ _ h => h.mono ?_
        rintro q ⟨tmp, htmp, hq⟩
        have hpaths : uploadPaths root task.rel_path.bytes = some (dst, tmp) := by
          simp [uploadPaths, hdst, htmp]
        exact uploadFiles_of_paths hpaths hq
      · exact fun _ _ _ h => h

/-- Replies change no file. -/
theorem spares_of_stays {X : TreePath → Prop} {α : Type} {p : Sys TreePath α}
    (h : Stays (fun _ => False) (fun _ => False) p) :
    p.Moves (Kernel cwd mayFail) (Spares X) (fun _ _ => True) w :=
  h.moves fun c s r s' hc hK => by
    have htree : s'.tree = s.tree := hK.keepsTree hc.keepsTree
    exact spares_of_touches (fun hg => htree ▸ hg) (htree ▸ .refl X s.tree)

/-- A critical section between locking and the reply. -/
theorem spares_critical {X : TreePath → Prop} {α : Type} {p : Sys TreePath α} {ack : UInt64}
    (f : α → Except Bytes Unit)
    (h : p.Moves (Kernel cwd mayFail) (Spares X) (fun _ _ => True) w) :
    (do
      sys .lockFiles
      let outcome ← p
      unlockAndReply fuel (f outcome) ack : Sys TreePath Rc).Moves (Kernel cwd mayFail) (Spares X)
      (fun _ _ => True) w := by
  refine moves_quiet trivial fun _ => ?_
  apply h.bind
  rintro outcome w1 - -
  refine moves_quiet trivial fun _ => ?_
  cases f outcome with
  | ok _ =>
      apply (spares_of_stays (Confinement.stays_sendAck fuel ack)).bind
      rintro _ w2 - -
      exact Moves.ret trivial
  | error message =>
      apply (spares_of_stays (Confinement.stays_sendError fuel message)).bind
      rintro _ w2 - -
      exact Moves.ret trivial

theorem spares_handler (u : Upload) :
    (u.handler fuel root rel_path).Moves (Kernel cwd mayFail)
      (Spares (UploadFiles cwd root rel_path)) (fun _ _ => True) w := by
  have hinvalid (message : Bytes) :
      (do let _ ← sendError fuel message; return .err : Sys TreePath Rc).Moves
        (Kernel cwd mayFail) (Spares (UploadFiles cwd root rel_path)) (fun _ _ => True) w := by
    apply (spares_of_stays (Confinement.stays_sendError fuel message)).bind
    rintro _ w1 - -
    exact Moves.ret trivial
  cases u with
  | fileBegin header =>
      simp only [Upload.handler]
      unfold serverHandleFileBegin
      split
      · exact hinvalid _
      · rename_i dst tmp hpaths
        split_ifs
        · have hmake : (ensureDirExists dst).Moves (Kernel cwd mayFail) (Tidy _) _ w :=
            moves_ensureDirExists (UploadFiles cwd root rel_path) dst
          exact spares_critical _ (hmake.spares fun _ h => h.1)
        · exact spares_critical id (spares_fileBeginCritical header hpaths)
  | blockStream first_block =>
      simp only [Upload.handler]
      unfold handleLargeBlockStream
      split
      · exact hinvalid _
      · rename_i dst tmp hpaths
        exact spares_critical id (spares_blockStreamCritical first_block hpaths)

end Frame

/-! ## The frame -/

/-- The three ways to upload a file. -/
inductive Uploader
  | syncLocalFile (task : SyncTask)
  | handler (rel_path : Bytes) (u : Upload)

namespace Uploader

def rel_path : Uploader → Bytes
  | syncLocalFile task => task.rel_path.bytes
  | handler rel_path _ => rel_path

def prog (fuel : Nat) (root : Bytes) : Uploader → Sys TreePath Rc
  | syncLocalFile task => MiniSync.syncLocalFile fuel root task
  | handler rel_path u => u.handler fuel root rel_path

end Uploader

/-- After an upload of `p` every regular file of `current` other than `p` and
`p.syncing` has the content it had before. -/
theorem upload_spares_other_files {cwd : TreePath} {mayFail : Call TreePath → Errno → Prop}
    {w : World} {fuel : Nat} {root : Bytes} (u : Uploader) (hg : w.tree.Grounded) :
    (u.prog fuel root).Safe (Kernel cwd mayFail) (fun _ => True)
      (fun _ w' => ∀ q c, InArea cwd root currentName q →
        (∀ dst tmp, uploadPaths root u.rel_path = some (dst, tmp) →
          q ≠ resolve cwd dst ∧ q ≠ resolve cwd tmp) →
        w.tree.content q = some c → w'.tree.content q = some c) w := by
  have hspares : (u.prog fuel root).Moves (Kernel cwd mayFail)
      (Spares (UploadFiles cwd root u.rel_path)) (fun _ _ => True) w := by
    cases u with
    | syncLocalFile task => exact spares_syncLocalFile task
    | handler rel_path u => exact spares_handler u
  apply Safe.mono hspares
  · exact fun _ _ => trivial
  rintro rc w' ⟨hspared, -⟩ q c hcurrent hother hq
  refine (hspared hg).2 q c ?_ hq
  rintro (hversion | ⟨dst, tmp, hpaths, htmp | hdst⟩)
  · obtain ⟨more, rfl⟩ := hcurrent
    rw [List.append_assoc, List.singleton_append] at hversion
    exact not_inArea (by decide) hversion
  · exact (hother dst tmp hpaths).2 htmp
  · exact (hother dst tmp hpaths).1 hdst

/-! ### An upload of one file -/

/-- A local store with files, and the source `a`. -/
def sourceAndStore (files : List (Bytes × Bytes)) : World where
  tree := ⟨([ascii "a"], .file [7, 8]) :: (storeWith files).entries⟩
  conn := hearing []

/-- A file `a.syncing` of the backup is gone after `a` has been uploaded. -/
theorem upload_destroys_syncing_file :
    (sourceAndStore [(ascii "a.syncing", [9])]).tree.content
        [ascii "s", currentName, ascii "a.syncing"] = some [9] ∧
      ((syncLocalFile 8 (ascii "s") smallUpload.task).run (posix ⟨[], ⟨126, 1, 2, 3, 4, 5⟩⟩)
        (sourceAndStore [(ascii "a.syncing", [9])])).map (fun r => (r.1, r.2.tree.content
          [ascii "s", currentName, ascii "a.syncing"])) = some (.ok, none) := by
  decide +kernel

/-- A file `b` of the backup is not. -/
theorem upload_spares_other_files_local :
    ∃ w', (syncLocalFile 8 (ascii "s") smallUpload.task).run (posix ⟨[], ⟨126, 1, 2, 3, 4, 5⟩⟩)
        (sourceAndStore [(ascii "b", [9])]) = some (.ok, w') ∧
      w'.tree.content [ascii "s", currentName, ascii "b"] = some [9] := by
  have hgrounded : (sourceAndStore [(ascii "b", [9])]).tree.Grounded :=
    FileTree.grounded_of_entries (by decide)
  have hok : ((syncLocalFile 8 (ascii "s") smallUpload.task).run
      (posix ⟨[], ⟨126, 1, 2, 3, 4, 5⟩⟩) (sourceAndStore [(ascii "b", [9])])).map Prod.fst =
        some .ok := by decide +kernel
  obtain ⟨⟨_, w'⟩, hrun, rfl⟩ := Option.map_eq_some_iff.mp hok
  refine ⟨w', hrun, ?_⟩
  have hsafe := @upload_spares_other_files [] (fun _ _ => False) _ 8 (ascii "s")
    (.syncLocalFile smallUpload.task) hgrounded
  have hspared := hsafe.of_run (posix_covered ⟨[], ⟨126, 1, 2, 3, 4, 5⟩⟩) hrun
  apply hspared _ _ (by unfold InArea Under; decide) ?_ (by decide)
  intro dst tmp hpaths
  have hab : uploadPaths (ascii "s") (ascii "a") =
      some (ascii "s/current/a", ascii "s/current/a.syncing") := by decide
  have hsame := Option.some.inj (hab.symm.trans hpaths)
  cases hsame
  decide

end MiniSync
