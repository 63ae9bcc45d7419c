import MiniSync.FaultFree.Backup
import MiniSync.Resume.Receive
import MiniSync.Server.Upload
import MiniSync.Transfer.UploadStream

/-!
# The server's side of a resumable upload

The state of a store that can take a file, and what a block stream that is cut
anywhere makes of it, whatever the partial file held.
-/

namespace MiniSync

open Prog

/-- `root/current` -/
def currentBase (root : Bytes) : Bytes := joinBase root ++ slash :: currentName

/-- `current/rel` -/
def targetPath (root rel : Bytes) : Bytes := currentBase root ++ slash :: rel

/-- `current/rel.syncing` -/
def partialPath (root rel : Bytes) : Bytes := currentBase root ++ slash :: (rel ++ syncingSuffix)

/-- The content of `current/rel`. -/
def currentAt (cwd : TreePath) (root rel : Bytes) (tree : Tree) : Option Bytes :=
  tree.content (resolve cwd (targetPath root rel))

/-- The content of `current/rel.syncing`. -/
def partialAt (cwd : TreePath) (root rel : Bytes) (tree : Tree) : Option Bytes :=
  tree.content (resolve cwd (partialPath root rel))

/-- The directories on the way to `current/rel`. -/
abbrev UploadWay (cwd : TreePath) (root rel : Bytes) : TreePath → Prop :=
  WayTo cwd (currentBase root) rel

/-- The store can take `rel`: with calls that POSIX answers nothing on its side fails.  So
`rel` is accepted and ends in a name, no directory stands at it or at its temporary file,
only directories are on the way to them, and the paths fit into the buffers. -/
structure Ready (cwd : TreePath) (tree : Tree) (root rel : Bytes) : Prop
    extends Replaceable cwd tree (currentBase root) rel where
  grounded : tree.Grounded

section Site

variable {env : Env} {w w' : World} {fuel k : Nat} {root rel S T data : Bytes}

namespace Ready

variable {cwd : TreePath} {tree tree' : Tree}

theorem uploadPaths_eq (h : Ready cwd tree root rel) :
    uploadPaths root rel = some (targetPath root rel, partialPath root rel) := by
  have hfits := h.fits
  have hrel := h.file.relative
  have hbase : (currentBase root).length < maxPathLen := by
    rw [List.length_append] at hfits
    omega
  have hcur : joinPath root currentName = some (currentBase root) :=
    (joinPath_eq_some component_currentName.head_ne).mpr ⟨rfl, hbase⟩
  have hdst : currentPath root rel = some (targetPath root rel) := by
    unfold currentPath
    rw [h.file.sane, if_neg nofun, hcur]
    refine (joinPath_eq_some hrel.head_ne).mpr ⟨?_, hfits⟩
    rw [currentBase, joinBase_join component_currentName]
    rfl
  have htmp : syncingPath (targetPath root rel) = some (partialPath root rel) := by
    rw [syncingPath_eq_some]
    exact ⟨by simp [targetPath, partialPath], h.tmp_fits⟩
  unfold uploadPaths
  rw [hdst]
  simp [htmp]

theorem currentPath_eq (h : Ready cwd tree root rel) :
    currentPath root rel = some (targetPath root rel) :=
  (uploadPaths_eq_some h.uploadPaths_eq).1

theorem target_ne (h : Ready cwd tree root rel) :
    resolve cwd (targetPath root rel) ≠ resolve cwd (partialPath root rel) := by
  intro heq
  have hapart := (h.file.syncing_apart cwd h.base_ne).2
  rw [targetPath, partialPath] at heq
  rw [heq] at hapart
  exact hapart List.prefix_rfl

theorem plain_partial (h : Ready cwd tree root rel) : Plain (partialPath root rel) :=
  h.tmp.file.plain

theorem plain_target (h : Ready cwd tree root rel) : Plain (targetPath root rel) :=
  h.file.plain

theorem not_uploadWay_partial (h : Ready cwd tree root rel) :
    ¬ UploadWay cwd root rel (resolve cwd (partialPath root rel)) := by
  have hway := h.tmp.not_wayTo
  rwa [h.file.wayTo_syncing] at hway

end Ready

/-! ## The blocks -/

/-- No block but the first, from `m` on, is longer than the server takes. -/
def Sendable (config : ClientConfig) (S : Bytes) (m : Nat) : Prop :=
  config.block_size ≤ maxBlockLen ∨ S.length ≤ m + config.block_size + maxBlockLen

theorem Sendable.rest {config : ClientConfig} {m : Nat} (h : Sendable config S m) :
    config.block_size ≤ maxBlockLen ∨
      S.length ≤ m + (chunkAt config S m).length + maxBlockLen := by
  have hlen := length_chunkAt config S m
  unfold Sendable at h
  omega

variable {config : ClientConfig} {task : SyncTask}

/-- What follows the first header of the stream from `m` on. -/
def streamTail (config : ClientConfig) (task : SyncTask) (S : Bytes) (m : Nat) : Bytes :=
  (fileBlock config task S m).data ++
    ((fileBlocks config task S (S.length - 1) (m + (chunkAt config S m).length)).flatMap Block.wire ++
      (fileEndHeader task (hashBufferFnv1a S)).encode)

theorem uploadStream_of_lt {m : Nat} (hm : m < S.length) :
    uploadStream config task S m =
      (fileBlock config task S m).header.encode ++ streamTail config task S m := by
  obtain ⟨n, hn⟩ : ∃ n, S.length = n + 1 := ⟨S.length - 1, by omega⟩
  unfold uploadStream streamTail
  rw [hn, fileBlocks_succ hm, List.flatMap_cons, Block.wire, Nat.add_sub_cancel]
  simp

theorem uploadStream_of_ge {m : Nat} (hm : S.length ≤ m) :
    uploadStream config task S m = (fileEndHeader task (hashBufferFnv1a S)).encode := by
  unfold uploadStream
  rw [fileBlocks_nil hm, List.flatMap_nil, List.nil_append]

theorem returns_syncAndClose (fd : TreePath) (received : Rc) :
    (syncAndClose fd received).Returns (posix env) (fun rc w' => w' = w ∧ rc = received) w :=
  returns_op_bind.mpr (returns_op_bind.mpr (.ret ⟨rfl, rfl⟩))

/-- The directories on a way have been made and a file has been filled. -/
structure Staged (way : TreePath → Prop) (out : TreePath) (data : Bytes) (w w' : World) : Prop where
  output : w'.conn.output = w.conn.output
  peer : w'.conn.peer = w.conn.peer
  file : w'.tree.lookup out = some (.file data)
  dirs : ∀ q, way q → w'.tree.IsDir q
  rest : ∀ q, q ≠ out → ¬ way q → w'.tree.lookup q = w.tree.lookup q

theorem Made.staged {way : TreePath → Prop} {out : TreePath} {d c : Bytes} {w1 : World}
    (hmade : Made way w w1) (hout : out ≠ []) (hway : ¬ way out)
    (hfilled : Filled out c ⟨w1.tree.put out (.file d), w1.conn⟩ w') : Staged way out c w w' := by
  have hempty : Filled out d w1 _ := filled_put hout
  have hput := hempty.trans hfilled
  refine ⟨?_, ?_, hput.file, fun q hq => ?_, fun q hq hway' => ?_⟩
  · rw [hput.output, hmade.conn]
  · rw [hput.peer, hmade.conn]
  · have hne : q ≠ out := by
      rintro rfl
      exact hway hq
    exact (hput.rest q hne).trans (hmade.dirs q hq)
  · exact (hput.rest q hq).trans (hmade.rest q hway')

theorem Staged.dirsStay {way : TreePath → Prop} {out : TreePath} (h : Staged way out data w w')
    (hout : w.tree.lookup out ≠ some .dir) : w.tree.DirsStay w'.tree := by
  intro q hq
  by_cases hway : way q
  · exact h.dirs q hway
  · have hne : q ≠ out := by
      rintro rfl
      exact hout hq
    exact (h.rest q hne hway).trans hq

/-- The store still takes the file once the directories on the way are there. -/
theorem Ready.of_made (h : Ready env.cwd w.tree root rel) (hg : w'.tree.Grounded)
    (hstay : w.tree.DirsStay w'.tree) (hmade : Made (UploadWay env.cwd root rel) w w') :
    Ready env.cwd w'.tree root rel := by
  refine ⟨h.of_dirsStay hstay hmade.dirs ?_ ?_, hg⟩
  · have hsame := hmade.rest _ h.not_wayTo
    exact fun hdir => h.notDir (hsame.symm.trans hdir)
  · have hsame := hmade.rest _ h.not_uploadWay_partial
    exact fun hdir => h.tmp_notDir (hsame.symm.trans hdir)

/-- The store still takes the file after a part of it has been received. -/
theorem Ready.of_staged (h : Ready env.cwd w.tree root rel) (hg : w'.tree.Grounded)
    (hstaged : Staged (UploadWay env.cwd root rel) (resolve env.cwd (partialPath root rel)) data
      w w') : Ready env.cwd w'.tree root rel := by
  refine ⟨h.of_dirsStay (hstaged.dirsStay h.tmp_notDir) hstaged.dirs ?_ ?_, hg⟩
  · have hsame := hstaged.rest _ h.target_ne h.not_wayTo
    exact fun hdir => h.notDir (hsame.symm.trans hdir)
  · exact fun hdir => absurd (hstaged.file.symm.trans hdir) nofun

/-- The second block of a stream that the server does not take. -/
theorem refused_of_not_sendable {m : Nat} (hnot : ¬ Sendable config S m) :
    ∃ h rest, streamTail config task S m = (fileBlock config task S m).data ++ (h.encode ++ rest) ∧
      validateSyncHeader h = .ok ∧ h.msg_type = msgFileBlock ∧ h.data_len.toNat > maxBlockLen := by
  have hlen := length_chunkAt config S m
  have hnext := length_chunkAt config S (m + (chunkAt config S m).length)
  have hbs := config.block_size_pos
  unfold Sendable at hnot
  obtain ⟨n, hn⟩ : ∃ n, S.length - 1 = n + 1 := ⟨S.length - 2, by omega⟩
  unfold streamTail
  rw [hn, fileBlocks_succ (by omega), List.flatMap_cons, Block.wire, List.append_assoc,
    List.append_assoc]
  refine ⟨_, _, rfl, validateSyncHeader_eq_ok rfl rfl (Nat.zero_le _), rfl, ?_⟩
  rw [← (fileBlock config task S _).length_eq]
  change (chunkAt config S _).length > maxBlockLen
  omega

/-- Up to the end of the blocks. -/
theorem returns_streamBlocks (hready : Ready env.cwd w.tree root rel) {w1 : World}
    (hmade : Made (UploadWay env.cwd root rel) w w1)
    (hT : T.length < S.length) (hshort : S.length < 2 ^ 63)
    (hinput : w.conn.input = (streamTail config task S T.length).take k)
    (hfuel : S.length + 4 ≤ fuel) :
    (recvBlockStream fuel (resolve env.cwd (partialPath root rel))
      (fileBlock config task S T.length).header).Returns (posix env)
      (fun r w' => (∃ c, c <+: resumed T S ∧ Staged (UploadWay env.cwd root rel)
          (resolve env.cwd (partialPath root rel)) c w w') ∧
        ((streamTail config task S T.length).length ≤ k ∧ Sendable config S T.length →
          r = (.ok, fileEndHeader task (hashBufferFnv1a S)) ∧
          Staged (UploadWay env.cwd root rel) (resolve env.cwd (partialPath root rel))
            (resumed T S) w w') ∧
        (¬ ((streamTail config task S T.length).length ≤ k ∧ Sendable config S T.length) →
          r.1 = .err))
      ⟨w1.tree.put (resolve env.cwd (partialPath root rel)) (.file T), w1.conn⟩ := by
  obtain ⟨n, hn⟩ : ∃ n, S.length = n + 1 := ⟨S.length - 1, by omega⟩
  have hblocks : fileBlock config task S T.length ::
      fileBlocks config task S (S.length - 1) (T.length + (chunkAt config S T.length).length) =
      fileBlocks config task S S.length T.length := by
    rw [hn, fileBlocks_succ hT, Nat.add_sub_cancel]
  have htmp : resolve env.cwd (partialPath root rel) ≠ [] := hready.tmp.ne_root
  have hout : (w1.tree.put (resolve env.cwd (partialPath root rel))
      (.file T)).content (resolve env.cwd (partialPath root rel)) = some T := by
    rw [FileTree.content_eq_some, FileTree.lookup_put htmp, if_pos rfl]
  have hlen : (fileBlocks config task S (S.length - 1)
      (T.length + (chunkAt config S T.length).length)).length ≤ S.length - 1 :=
    length_fileBlocks_le _ _
  obtain ⟨hall, hsome⟩ :=
    @applyBlocks_fileBlocks config task S S.length T hshort (by omega)
  have hoff := @fileBlocks_offT config task S S.length T.length hshort
  rw [← hblocks] at hall hsome hoff
  by_cases hblock : Sendable config S T.length
  · have haccepted := @accepted_fileBlocks config task S (S.length - 1) _ hblock.rest
    have htail : w1.conn.input = ((fileBlock config task S T.length).data ++
        ((fileBlocks config task S (S.length - 1)
          (T.length + (chunkAt config S T.length).length)).flatMap
          Block.wire ++ (fileEndHeader task (hashBufferFnv1a S)).encode)).take k := by
      rw [hmade.conn]
      exact hinput
    have hvalid : validateSyncHeader (fileEndHeader task (hashBufferFnv1a S)) = .ok :=
      validateSyncHeader_eq_ok rfl rfl (Nat.zero_le _)
    have hrecv := @returns_recvBlockStream env
      ⟨w1.tree.put (resolve env.cwd (partialPath root rel)) (.file T), w1.conn⟩ fuel k _ _
      (fileBlock config task S T.length) _ _ hout haccepted hoff rfl hvalid rfl htail (by omega)
    apply hrecv.post
    rintro r w' ⟨⟨j, hj⟩, hok, herr⟩
    refine ⟨⟨_, hsome j, hmade.staged htmp hready.not_uploadWay_partial hj⟩, fun h => ?_,
      fun h => herr (Nat.lt_of_not_le fun hle => h ⟨hle, hblock⟩)⟩
    obtain ⟨hr, hfull⟩ := hok h.1
    rw [hall] at hfull
    exact ⟨hr, hmade.staged htmp hready.not_uploadWay_partial hfull⟩
  · obtain ⟨h, rest, htail, hvalid, htype, hlong⟩ := @refused_of_not_sendable S config task _ hblock
    rw [htail, ← hmade.conn] at hinput
    have hrecv := @returns_recvBlockStream_refused env
      ⟨w1.tree.put (resolve env.cwd (partialPath root rel)) (.file T), w1.conn⟩ fuel k _ _ rest
      (fileBlock config task S T.length) h hout (hoff _ List.mem_cons_self) rfl hvalid htype
      (Or.inr hlong) hinput (by omega)
    apply hrecv.post
    rintro r w' ⟨herr, j, hj⟩
    have hpart : applyBlocks T ([fileBlock config task S T.length].take j) <+: resumed T S := by
      cases j with
      | zero => exact hsome 0
      | succ j =>
          rw [List.take_succ_cons, List.take_nil]
          exact hsome 1
    exact ⟨⟨_, hpart, hmade.staged htmp hready.not_uploadWay_partial hj⟩,
      fun h => absurd h.2 hblock, fun _ => herr⟩

/-! ## The end of a block stream -/

/-- The hash of the client's file does not tell the resumed file from it. -/
def Agreed (T S : Bytes) : Prop :=
  hashBufferFnv1a S = 0 ∨ hashBufferFnv1a (resumed T S) = hashBufferFnv1a S

theorem agreed_of_isPrefix (h : T <+: S) : Agreed T S := by
  right
  rw [resumed_of_isPrefix h]

theorem expectedHash_fileBlock (m : Nat) :
    expectedHash (fileBlock config task S m).header (fileEndHeader task (hashBufferFnv1a S)) =
      hashBufferFnv1a S := by
  have hend : (fileEndHeader task (hashBufferFnv1a S)).total_hash = hashBufferFnv1a S := rfl
  have hfirst : (fileBlock config task S m).header.total_hash = hashBufferFnv1a S := rfl
  unfold expectedHash
  rw [hend, hfirst]
  split_ifs <;> rfl

theorem returns_hashAgrees {path : Bytes} (hdata : Readable env.cwd w.tree path data)
    (hfuel : data.length < fuel) (expected : UInt64) :
    (hashAgrees fuel path expected).Returns (posix env)
      (fun agrees w' => w' = w ∧
        (agrees = true ↔ expected = 0 ∨ hashBufferFnv1a data = expected)) w := by
  unfold hashAgrees
  split_ifs with hzero
  · exact .ret ⟨rfl, by simp [hzero]⟩
  · apply (returns_hashFileFnv1a hdata hfuel).bind
    rintro hash w1 ⟨rfl, rfl⟩
    exact .ret ⟨rfl, by simp [hzero]⟩

/-- A backup leaves the upload and the directories of the store alone. -/
theorem returns_backup (hready : Ready env.cwd w.tree root rel)
    (hfuel : ∀ old, currentAt env.cwd root rel w.tree = some old → old.length + 3 ≤ fuel) :
    (backupOldVersion fuel root rel).Returns (posix env)
      (fun _ w' => w'.conn = w.conn ∧ w'.tree.Grounded ∧ w.tree.DirsStay w'.tree ∧
        w'.tree.content (resolve env.cwd (partialPath root rel)) =
          w.tree.content (resolve env.cwd (partialPath root rel)) ∧
        w'.tree.lookup (resolve env.cwd (targetPath root rel)) =
          w.tree.lookup (resolve env.cwd (targetPath root rel))) w := by
  have hdst := hready.currentPath_eq
  obtain ⟨-, htmp⟩ := uploadPaths_eq_some hready.uploadPaths_eq
  by_cases hnone : w.tree.lookup (resolve env.cwd (targetPath root rel)) = none
  · unfold backupOldVersion
    rw [hdst]
    refine returns_op_bind.mpr ?_
    rw [posix_access hready.plain_target, hnone]
    exact .ret ⟨rfl, hready.grounded, .refl _, rfl, hnone⟩
  · have htidy : (backupOldVersion fuel root rel).Moves (Kernel env.cwd fun _ _ => False) _ _ w :=
      moves_backupOldVersion hdst
    have hsettled : (backupOldVersion fuel root rel).Moves (Kernel env.cwd fun _ _ => False)
        _ _ w := settled_backupOldVersion hdst
    have hreturns : (backupOldVersion fuel root rel).Returns (posix env) _ w :=
      returns_backupOldVersion hdst hready.plain_target hfuel
    apply (hreturns.and_safe (fun c s => posix_covered env c s)
      (Safe.and htidy hsettled)).post
    rintro rc w' ⟨-, ⟨htouch, -⟩, hstay, -⟩
    obtain ⟨hg, hdirs⟩ := hstay hready.grounded
    have hdstOut : ¬ InArea env.cwd root versionsName (resolve env.cwd (targetPath root rel)) :=
      not_inArea_current hdst (by decide)
    have htmpOut : ¬ InArea env.cwd root versionsName (resolve env.cwd (partialPath root rel)) := by
      rw [resolve_syncingPath hdst htmp]
      exact not_inArea (by decide)
    exact ⟨htouch.2, hg, hdirs, htouch.1.content htmpOut, htouch.1.lookup_of_ne_none hdstOut hnone⟩

theorem returns_setFileMetadata (path : Bytes) (mode : UInt32) (mtime : Int64) :
    (setFileMetadata path mode mtime).Returns (posix env) (fun _ w' => w' = w) w :=
  returns_op_bind.mpr (returns_op_bind.mpr (.ret rfl))

/-- The partial file takes the place of the target. -/
theorem returns_publish (hready : Ready env.cwd w.tree root rel) (header : SyncHeader)
    (hpart : partialAt env.cwd root rel w.tree = some data) :
    (publish fuel header (partialPath root rel) (targetPath root rel)).Returns (posix env)
      (fun rc w' => rc = .ok ∧ w'.conn = w.conn ∧ Ready env.cwd w'.tree root rel ∧
        currentAt env.cwd root rel w'.tree = some data ∧
        w'.tree.lookup (resolve env.cwd (partialPath root rel)) = none) w := by
  obtain ⟨hapart, hapart'⟩ := hready.file.syncing_apart env.cwd hready.base_ne
  have hsettled : (safeRenameOrCopyUnlink fuel (partialPath root rel) (targetPath root rel)).Moves
      (Kernel env.cwd fun _ _ => False) _ _ w := settled_safeRenameOrCopyUnlink hpart
  have hrename : (safeRenameOrCopyUnlink fuel (partialPath root rel) (targetPath root rel)).Returns
      (posix env) _ w :=
    returns_safeRenameOrCopyUnlink hready.plain_partial hpart hready.toCreatable hapart hapart'
  apply (hrename.and_safe (fun c s => posix_covered env c s) hsettled).bind
  rintro _ w1 ⟨⟨rfl, hmoved⟩, hstay, -⟩
  obtain ⟨hg, hdirs⟩ := hstay hready.grounded
  have hready1 : Ready env.cwd w1.tree root rel := by
    refine ⟨hready.of_dirsStay hdirs hmoved.dirs ?_ ?_, hg⟩
    · exact fun hdir => absurd (hmoved.file.symm.trans hdir) nofun
    · exact fun hdir => absurd (hmoved.gone.symm.trans hdir) nofun
  apply (returns_setFileMetadata _ _ _).bind
  rintro _ _ rfl
  exact .ret ⟨rfl, hmoved.conn, hready1, FileTree.content_eq_some.mpr hmoved.file, hmoved.gone⟩

/-- The critical section of `handle_large_block_stream` on a stream that is cut. -/
structure Streamed (cwd : TreePath) (root rel T S : Bytes) (whole : Prop) (w : World)
    (outcome : Except Bytes Unit) (w' : World) : Prop where
  ready : Ready cwd w'.tree root rel
  output : w'.conn.output = w.conn.output
  peer : w'.conn.peer = w.conn.peer
  failed : ¬ (whole ∧ Agreed T S) → (∃ e, outcome = .error e) ∧
    currentAt cwd root rel w'.tree = currentAt cwd root rel w.tree ∧
    ∃ c, partialAt cwd root rel w'.tree = some c ∧ c <+: resumed T S ∧ (whole → c = resumed T S)
  done : whole → Agreed T S → outcome = .ok () ∧
    currentAt cwd root rel w'.tree = some (resumed T S) ∧ partialAt cwd root rel w'.tree = none

theorem returns_blockStreamCritical (hready : Ready env.cwd w.tree root rel)
    (hstart : (partialAt env.cwd root rel w.tree).getD [] = T) (hT : T.length < S.length)
    (hshort : S.length < 2 ^ 63)
    (hinput : w.conn.input = (streamTail config task S T.length).take k)
    (hfuel : S.length + 4 ≤ fuel)
    (hold : ∀ old, currentAt env.cwd root rel w.tree = some old → old.length + 3 ≤ fuel) :
    (blockStreamCritical fuel (fileBlock config task S T.length).header root rel
      (targetPath root rel) (partialPath root rel)).Returns (posix env)
      (Streamed env.cwd root rel T S
        ((streamTail config task S T.length).length ≤ k ∧ Sendable config S T.length) w) w := by
  unfold blockStreamCritical
  apply ((returns_ensureParent hready.toCreatable).grounded hready.grounded).bind
  rintro _ w1 ⟨⟨rfl, hmade⟩, hg1⟩
  simp only [reduceCtorEq, if_false]
  have hparent : w1.tree.IsDir (resolve env.cwd (partialPath root rel)).dropLast := by
    have h := hready.tmp.wayTo_parent
    rw [hready.file.wayTo_syncing] at h
    exact hmade.dirs _ h
  have hsame1 := hmade.rest _ hready.not_uploadWay_partial
  have hdir1 : w1.tree.lookup (resolve env.cwd (partialPath root rel)) ≠ some .dir := by
    rw [hsame1]
    exact hready.tmp_notDir
  refine returns_op_bind.mpr ?_
  have hput := hg1.put_file (c := T) hready.tmp.ne_root hparent hdir1
  rw [posix_openKeep hready.plain_partial hdir1 hparent, FileTree.content_congr hsame1]
  change Returns (posix env) _ _ ⟨w1.tree.put _ (.file ((partialAt env.cwd root rel w.tree).getD
    [])), w1.conn⟩
  rw [hstart]
  refine returns_op_bind.mpr ?_
  rw [posix_malloc]
  simp only [Bool.not_true, Bool.false_eq_true, if_false]
  have hblocks := returns_streamBlocks hready hmade hT hshort hinput hfuel
  apply (hblocks.grounded hput).bind
  rintro ⟨received, end_header⟩ w3 ⟨⟨⟨c, hc, hsome⟩, hok, herr⟩, hg3⟩
  have hready3 := hready.of_staged hg3 hsome
  have hdst3 : currentAt env.cwd root rel w3.tree = currentAt env.cwd root rel w.tree :=
    FileTree.content_congr (hsome.rest _ hready.target_ne hready.not_wayTo)
  have hpart3 : partialAt env.cwd root rel w3.tree = some c :=
    FileTree.content_eq_some.mpr hsome.file
  have hfailed (message : Bytes)
      (hno : ¬ (((streamTail config task S T.length).length ≤ k ∧ Sendable config S T.length) ∧
        Agreed T S))
      (hfull : (streamTail config task S T.length).length ≤ k ∧ Sendable config S T.length →
        c = resumed T S) :
      Streamed env.cwd root rel T S
        ((streamTail config task S T.length).length ≤ k ∧ Sendable config S T.length) w
        (.error message) w3 :=
    ⟨hready3, hsome.output, hsome.peer, fun _ => ⟨⟨_, rfl⟩, hdst3, c, hpart3, hc, hfull⟩,
      fun h h' => absurd ⟨h, h'⟩ hno⟩
  apply (returns_syncAndClose _ received).bind
  rintro _ w3 ⟨rfl, rfl⟩
  by_cases hk : (streamTail config task S T.length).length ≤ k ∧ Sendable config S T.length
  swap
  · rw [if_pos (herr hk)]
    exact .ret (hfailed _ (fun h => hk h.1) fun h => absurd h hk)
  obtain ⟨hr, hall⟩ := hok hk
  cases hr
  have hcfull : c = resumed T S := by
    have heq := hsome.file.symm.trans hall.file
    cases heq
    rfl
  subst hcfull
  rw [if_neg nofun, expectedHash_fileBlock]
  have hlen := length_resumed (S := S) (T := T) (by omega)
  have hreadable : Readable env.cwd w3.tree (partialPath root rel) (resumed T S) :=
    ⟨hready.plain_partial.ne_nil, hready.plain_partial.names_file, hpart3⟩
  apply (returns_hashAgrees hreadable (by omega) (hashBufferFnv1a S)).bind
  rintro agrees w3 ⟨rfl, hagrees⟩
  by_cases hagreed : Agreed T S
  swap
  · rw [Bool.eq_false_iff.mpr (mt hagrees.mp hagreed), if_pos rfl]
    exact .ret (hfailed _ (fun h => hagreed h.2) fun _ => rfl)
  rw [hagrees.mpr hagreed, if_neg nofun]
  apply (returns_backup hready3 fun old hold' => hold old (hdst3.symm.trans hold')).bind
  rintro _ w4 ⟨hconn4, hg4, hdirs4, hpart4, hdst4⟩
  have hready4 : Ready env.cwd w4.tree root rel := by
    refine ⟨hready3.of_dirsStay hdirs4 (fun q hq => hdirs4 q (hall.dirs q hq)) ?_ ?_, hg4⟩
    · exact fun hdir => hready3.notDir (hdst4.symm.trans hdir)
    · have hfile4 := FileTree.content_eq_some.mp (hpart4.trans hpart3)
      exact fun hdir => absurd (hfile4.symm.trans hdir) nofun
  apply (returns_publish hready4 _ (hpart4.trans hpart3)).bind
  rintro _ w5 ⟨rfl, hconn5, hready5, hcur5, hgone5⟩
  refine .ret ⟨hready5, ?_, ?_, fun h => absurd ⟨hk, hagreed⟩ h, fun _ _ => ⟨rfl, hcur5, ?_⟩⟩
  · rw [hconn5, hconn4, hall.output]
  · rw [hconn5, hconn4, hall.peer]
  · unfold partialAt FileTree.content
    rw [hgone5]

end Site

/-! ## A small store -/

/-- A store `s` with files directly in `current`. -/
def storeWith (files : List (Bytes × Bytes)) : Tree :=
  ⟨([ascii "s"], .dir) :: ([ascii "s", currentName], .dir) ::
    files.map fun f => ([ascii "s", currentName, f.1], .file f.2)⟩

theorem lookup_storeWith_file {files : List (Bytes × Bytes)} {name : Bytes} :
    (storeWith files).lookup [ascii "s", currentName, name] =
      (files.find? fun f => decide (f.1 = name)).map fun f => .file f.2 := by
  unfold storeWith FileTree.lookup FileTree.find
  rw [if_neg nofun, List.find?_cons_of_neg (by simp), List.find?_cons_of_neg (by simp),
    List.find?_map, Option.map_map]
  congr 1
  apply congrArg (List.find? · files)
  funext f
  simp

theorem ready_storeWith (files : List (Bytes × Bytes)) :
    Ready [] (storeWith files) (ascii "s") (ascii "a") := by
  have hdirS : (storeWith files).lookup [ascii "s"] = some .dir := rfl
  have hdirCurrent : (storeWith files).lookup [ascii "s", currentName] = some .dir := rfl
  have hfile : ∀ name, (storeWith files).lookup [ascii "s", currentName, name] ≠ some .dir := by
    intro name h
    rw [lookup_storeWith_file] at h
    obtain ⟨f, -, hf⟩ := Option.map_eq_some_iff.mp h
    cases hf
  have hbase : currentBase (ascii "s") = ascii "s" ++ slash :: currentName := by decide
  have hwhere : resolve [] (currentBase (ascii "s")) = [ascii "s", currentName] := by decide
  have hnames : (relNames (ascii "a")).dropLast = [] := by decide
  refine ⟨⟨⟨by decide, by decide, ⟨by decide, by decide⟩, by decide, ⟨?_, ?_⟩, ?_⟩, by decide, ?_⟩,
    FileTree.grounded_of_entries ?_⟩
  · intro d hd hleads
    rw [hbase] at hleads
    rcases leads_join component_currentName.no_slash hleads with rfl | ⟨rest, hrest, -⟩
    · exact hdirCurrent
    · obtain ⟨c, cs, rfl⟩ := List.exists_cons_of_ne_nil hd
      have hs : ascii "s" = [115] := by decide
      rw [hs, List.cons_append, List.cons.injEq] at hrest
      obtain ⟨rfl, hnil⟩ := hrest
      rw [List.nil_eq, List.append_eq_nil_iff] at hnil
      rw [hnil.1, ← hs]
      exact hdirS
  · rintro q c ⟨r, hr, rfl⟩
    rw [hnames] at hr
    rw [List.prefix_nil.mp hr, List.append_nil, hwhere, hdirCurrent]
    nofun
  · exact hfile (ascii "a")
  · exact hfile (ascii "a" ++ syncingSuffix)
  · intro e he
    rcases List.mem_cons.mp he with rfl | he
    · rfl
    rcases List.mem_cons.mp he with rfl | he
    · exact hdirS
    · obtain ⟨f, -, rfl⟩ := List.mem_map.mp he
      exact hdirCurrent

end MiniSync
