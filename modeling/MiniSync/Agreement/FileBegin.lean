import MiniSync.Agreement.Request
import MiniSync.Agreement.SmallFile

/-!
# The server's side of a small upload

What `server_handle_file_begin` makes of one message with a path, blocks and an end
message, in a store that can take the file and can save its old version.
-/

namespace MiniSync

open Prog

/-! ## Saving the old version -/

/-- An old version of `rel` can be put below the stamp of the present time. -/
structure Savable (env : Env) (tree : Tree) (root rel : Bytes) : Prop where
  stamp_short : (timestampDirname env.now).length < 64
  version : Replaceable env.cwd tree (versionsBase root) (versionRel env.now rel)

section FileBegin

variable {env : Env} {w w' : World} {fuel k : Nat} {root rel S : Bytes} {task : SyncTask}

theorem stampedPath_versionsBase {now : Tm} (hrel : Relative rel)
    (hfits : (versionsBase root ++ slash :: versionRel now rel).length < maxPathLen) :
    stampedPath versionsName root (timestampDirname now) rel =
      some (versionsBase root ++ slash :: versionRel now rel) :=
  (stampedPath_iff component_versionsName (component_timestampDirname now) hrel).mpr ⟨rfl, hfits⟩

theorem resolve_versionsBase (cwd : TreePath) (root : Bytes) :
    resolve cwd (versionsBase root) = storeRoot cwd root ++ [versionsName] := by
  rw [versionsBase, resolve_append component_versionsName.splitOn_notMem,
    relNames_component component_versionsName (by decide)]
  rfl

theorem Creatable.inArea_version {cwd : TreePath} {tree : Tree} {sub : Bytes}
    (h : Creatable cwd tree (versionsBase root) sub) :
    InArea cwd root versionsName (resolve cwd (versionsBase root ++ slash :: sub)) := by
  rw [h.resolve_eq, resolve_versionsBase]
  exact List.prefix_append _ _

theorem inArea_of_wayTo_version {cwd : TreePath} {sub : Bytes} {q : TreePath}
    (h : WayTo cwd (versionsBase root) sub q) : InArea cwd root versionsName q := by
  obtain ⟨r, -, rfl⟩ := h
  rw [resolve_versionsBase]
  exact List.prefix_append _ _

/-- The directories on the way to a file of `current` are no versions. -/
theorem Ready.not_uploadWay_version {cwd : TreePath} {tree : Tree}
    (hready : Ready cwd tree root rel) {q : TreePath} (hq : InArea cwd root versionsName q) :
    ¬ UploadWay cwd root rel q := by
  intro hway
  apply not_inArea_current hready.currentPath_eq (by decide : currentName ≠ versionsName)
  exact InArea.of_under hq (hready.wayTo_prefix hway)

/-- Making the directories of the upload keeps the version savable. -/
theorem Savable.of_made (h : Savable env w.tree root rel) (hready : Ready env.cwd w.tree root rel)
    (hmade : Made (UploadWay env.cwd root rel) w w') (hstay : w.tree.DirsStay w'.tree) :
    Savable env w'.tree root rel := by
  have hsame {q : TreePath} (hq : InArea env.cwd root versionsName q) :
      w'.tree.lookup q = w.tree.lookup q := hmade.rest q (hready.not_uploadWay_version hq)
  refine ⟨h.stamp_short, ⟨?_, h.version.tmp_fits, ?_⟩⟩
  · apply h.version.of_lookup fun d _ _ => hstay (resolve env.cwd d)
    · intro q c hq
      rw [hsame (inArea_of_wayTo_version hq)]
      exact h.version.passable.free q c hq
    · rw [hsame h.version.inArea_version]
      exact h.version.notDir
  · rw [hsame h.version.tmp.inArea_version]
    exact h.version.tmp_notDir

/-- A backup succeeds, and changes nothing outside `.versions`. -/
theorem returns_backupOldVersion_ok (hready : Ready env.cwd w.tree root rel)
    (hsave : ∀ old, currentAt env.cwd root rel w.tree = some old →
      Savable env w.tree root rel ∧ old.length + 3 ≤ fuel) :
    (backupOldVersion fuel root rel).Returns (posix env)
      (fun rc w' => rc = .ok ∧ ∀ q, ¬ InArea env.cwd root versionsName q →
        w'.tree.lookup q = w.tree.lookup q) w := by
  unfold backupOldVersion
  rw [hready.currentPath_eq]
  refine returns_op_bind.mpr ?_
  rw [posix_access hready.plain_target]
  cases hlookup : w.tree.lookup (resolve env.cwd (targetPath root rel)) with
  | none => exact .ret ⟨rfl, fun _ _ => rfl⟩
  | some node =>
      cases node with
      | dir => exact absurd hlookup hready.notDir
      | file old =>
          obtain ⟨hsavable, hfuel⟩ := hsave old (FileTree.content_eq_some.mpr hlookup)
          have hpath : stampedPath versionsName root (timestampDirname env.now) rel = _ :=
            stampedPath_versionsBase hready.file.relative hsavable.version.fits
          simp only [Option.isSome_some, Bool.not_true, Bool.false_eq_true, if_false]
          have hstamp : (makeTimestampDirname : Sys TreePath (Option Bytes)).Returns (posix env)
              (fun stamp w' => w' = w ∧ stamp = some (timestampDirname env.now)) w :=
            returns_op_bind.mpr (.ret ⟨rfl, if_pos hsavable.stamp_short⟩)
          apply hstamp.bind
          rintro _ w ⟨rfl, rfl⟩
          rw [Option.bind_some, hpath]
          apply (returns_isDirectory hready.plain_target hlookup).bind
          rintro _ w ⟨rfl, rfl⟩
          simp only [Node.isDir, Bool.false_eq_true, if_false]
          have htmpArea := hsavable.version.tmp.inArea_version
          have hne : resolve env.cwd (targetPath root rel) ≠
              resolve env.cwd (versionsBase root ++ slash ::
                (versionRel env.now rel ++ syncingSuffix)) := by
            intro heq
            apply not_inArea_current hready.currentPath_eq (by decide : currentName ≠ versionsName)
            rw [heq]
            exact htmpArea
          have hreadable : Readable env.cwd w.tree (targetPath root rel) old :=
            ⟨hready.plain_target.ne_nil, hready.plain_target.names_file,
              FileTree.content_eq_some.mpr hlookup⟩
          apply (returns_copyFileAtomic hreadable hsavable.version hne hfuel).post
          rintro rc w' ⟨rfl, hmoved⟩
          refine ⟨rfl, fun q hq => hmoved.rest q (fun h => hq ?_) (fun h => hq ?_) fun h => hq ?_⟩
          · exact htmpArea.of_under h
          · exact hsavable.version.inArea_version.of_under h
          · exact inArea_of_wayTo_version h

/-! ## Receiving the file -/

/-- The server takes the block of a small file. -/
def Takes (task : SyncTask) (S : Bytes) : Prop :=
  taskSize task = 0 ∨ smallData task S ≠ [] ∧ (smallData task S).length ≤ maxBlockLen

theorem applyBlocks_smallBlocks : applyBlocks [] (smallBlocks task S) = smallData task S := by
  unfold smallBlocks
  split_ifs with hzero
  · rw [smallData, hzero, List.take_zero, List.take_nil]
    rfl
  · change ByteString.splice 0 [] ([] : Bytes).length (smallData task S) = _
    exact ByteString.splice_end

theorem returns_recvSmallBody {out : TreePath} (hout : w.tree.content out = some [])
    (hinput : w.conn.input = (smallBody task S).take k) (hfuel : 5 ≤ fuel) :
    (recvFileBlocksUntilEnd out (hashBufferFnv1a S) fuel).Returns (posix env)
      (fun r w' => (∃ c, Filled out c w w') ∧
        ((smallBody task S).length ≤ k ∧ Takes task S →
          r = (.ok, fileEndHeader task (hashBufferFnv1a S)) ∧
          Filled out (smallData task S) w w') ∧
        (¬ ((smallBody task S).length ≤ k ∧ Takes task S) → r.1 = .err)) w := by
  have hvalid : validateSyncHeader (fileEndHeader task (hashBufferFnv1a S)) = .ok :=
    validateSyncHeader_eq_ok rfl rfl (Nat.zero_le _)
  have hlen : (smallBlock task S).header.data_len.toNat = (smallData task S).length :=
    (smallBlock task S).length_eq.symm
  have hblock : validateSyncHeader (smallBlock task S).header = .ok :=
    validateSyncHeader_eq_ok rfl rfl (Nat.zero_le _)
  by_cases htakes : Takes task S
  · have haccepted : ∀ b ∈ smallBlocks task S, b.Accepted := by
      unfold smallBlocks
      split_ifs with hzero
      · nofun
      · intro b hb
        rw [List.mem_singleton.mp hb]
        obtain ⟨hne, hshort⟩ := htakes.resolve_left hzero
        refine ⟨hblock, rfl, fun h0 => hne ?_, by omega, fun _ => rfl⟩
        rw [h0] at hlen
        exact List.length_eq_zero_iff.mp hlen.symm
    have hoff : ∀ b ∈ smallBlocks task S, 0 ≤ b.header.offT := by
      unfold smallBlocks
      split_ifs with hzero
      · nofun
      · intro b hb
        rw [List.mem_singleton.mp hb]
        exact le_rfl
    have hcount : (smallBlocks task S).length ≤ 1 := by
      unfold smallBlocks
      split_ifs
      · exact Nat.zero_le 1
      · exact Nat.le_refl 1
    apply (returns_recvFileBlocksUntilEnd hout haccepted hoff hvalid rfl (Or.inr rfl) hinput
      (by omega)).post
    rintro r w' ⟨⟨j, hj⟩, hok, herr⟩
    refine ⟨⟨_, hj⟩, fun h => ?_, fun h => herr (Nat.lt_of_not_le fun hle => h ⟨hle, htakes⟩)⟩
    rw [applyBlocks_smallBlocks] at hok
    exact hok h.1
  · obtain ⟨hzero, hbad⟩ := not_or.mp htakes
    have hrefused : (smallBlock task S).header.data_len = 0 ∨
        (smallBlock task S).header.data_len.toNat > maxBlockLen := by
      by_cases hnil : smallData task S = []
      · left
        rw [hnil] at hlen
        exact UInt32.toNat_inj.mp hlen
      · right
        rw [hlen]
        exact Nat.lt_of_not_le fun hle => hbad ⟨hnil, hle⟩
    unfold smallBody smallBlocks at hinput
    rw [if_neg hzero, List.flatMap_cons, Block.wire, List.append_assoc, List.append_assoc] at hinput
    apply (returns_recvFileBlocksUntilEnd_refused hblock rfl hrefused hinput _ (by omega)).post
    rintro r w' ⟨rfl, herr⟩
    exact ⟨⟨_, filled_take hout headerSize⟩, fun h => absurd h.2 htakes, fun _ => herr⟩

/-! ## The critical section -/

/-- The critical section of `server_handle_file_begin` on the body of a small file. -/
theorem returns_fileBeginCritical (hready : Ready env.cwd w.tree root rel)
    (hsave : ∀ old, currentAt env.cwd root rel w.tree = some old →
      Savable env w.tree root rel ∧ old.length + 3 ≤ fuel)
    (hinput : w.conn.input = (smallBody task S).take k) (hfuel : S.length + 5 ≤ fuel) :
    (fileBeginCritical fuel (fileBeginHeader task (hashBufferFnv1a S)) root rel
      (targetPath root rel) (partialPath root rel)).Returns (posix env)
      (fun outcome w' => w'.conn.output = w.conn.output ∧
        (outcome = .ok () → Takes task S ∧
          currentAt env.cwd root rel w'.tree = some (smallData task S)) ∧
        ((smallBody task S).length ≤ k → Takes task S →
          hashBufferFnv1a (smallData task S) = hashBufferFnv1a S → outcome = .ok ())) w := by
  unfold fileBeginCritical
  have hsettled : (ensureParentDirExists (targetPath root rel)).Moves
      (Kernel env.cwd fun _ _ => False) Settled _ w :=
    moves_settled (all_ensureParentDirExists _ fun _ => nofun)
  apply ((returns_ensureParent hready.toCreatable).and_safe (fun c s => posix_covered env c s)
    hsettled).bind
  rintro _ w1 ⟨⟨rfl, hmade⟩, hstay, -⟩
  simp only [reduceCtorEq, if_false]
  obtain ⟨hg1, hdirs1⟩ := hstay hready.grounded
  have hready1 := hready.of_made hg1 hdirs1 hmade
  have hcur1 : currentAt env.cwd root rel w1.tree = currentAt env.cwd root rel w.tree :=
    FileTree.content_congr (hmade.rest _ hready.not_wayTo)
  have hsave1 : ∀ old, currentAt env.cwd root rel w1.tree = some old →
      Savable env w1.tree root rel ∧ old.length + 3 ≤ fuel := by
    intro old hold
    obtain ⟨hsavable, hlong⟩ := hsave old (hcur1.symm.trans hold)
    exact ⟨hsavable.of_made hready hmade hdirs1, hlong⟩
  apply ((returns_backupOldVersion_ok hready1 hsave1).and
    (returns_backup hready1 fun old hold => (hsave1 old hold).2)).bind
  rintro _ w2 ⟨⟨rfl, hframe⟩, hconn2, hg2, hdirs2, -, hdst2⟩
  simp only [reduceCtorEq, if_false]
  obtain ⟨hdst, htmp⟩ := uploadPaths_eq_some hready.uploadPaths_eq
  have htmp2 : w2.tree.lookup (resolve env.cwd (partialPath root rel)) =
      w1.tree.lookup (resolve env.cwd (partialPath root rel)) := by
    apply hframe
    rw [resolve_syncingPath hdst htmp]
    exact not_inArea (by decide)
  have hready2 : Ready env.cwd w2.tree root rel := by
    refine ⟨hready1.of_dirsStay hdirs2 (fun q hq => hdirs2 q (hmade.dirs q hq)) ?_ ?_, hg2⟩
    · exact fun hdir => hready1.notDir (hdst2.symm.trans hdir)
    · exact fun hdir => hready1.tmp_notDir (htmp2.symm.trans hdir)
  have hmade2 : Made (UploadWay env.cwd root rel) w2 w2 :=
    ⟨rfl, fun q hq => hdirs2 q (hmade.dirs q hq), fun _ _ => rfl⟩
  have hparent : w2.tree.IsDir (resolve env.cwd (partialPath root rel)).dropLast := by
    have h := hready.tmp.wayTo_parent
    rw [hready.file.wayTo_syncing] at h
    exact hmade2.dirs _ h
  have hroot : resolve env.cwd (partialPath root rel) ≠ [] := hready.tmp.ne_root
  refine returns_op_bind.mpr ?_
  rw [posix_openTrunc hready2.plain_partial hready2.tmp_notDir hparent]
  have hempty : (w2.tree.put (resolve env.cwd (partialPath root rel)) (.file [])).content
      (resolve env.cwd (partialPath root rel)) = some [] := by
    rw [FileTree.content_eq_some, FileTree.lookup_put hroot, if_pos rfl]
  have hinput2 : w2.conn.input = (smallBody task S).take k := by
    rw [hconn2, hmade.conn]
    exact hinput
  have hput := hg2.put_file (c := []) hroot hparent hready2.tmp_notDir
  have hrecv : (recvFileBlocksUntilEnd (resolve env.cwd (partialPath root rel))
      (hashBufferFnv1a S) fuel).Returns (posix env) _
      ⟨w2.tree.put (resolve env.cwd (partialPath root rel)) (.file []), w2.conn⟩ :=
    returns_recvSmallBody hempty hinput2 (by omega)
  apply (hrecv.grounded hput).bind
  rintro ⟨received, end_header⟩ w3 ⟨⟨⟨c, hfilled⟩, hok, herr⟩, hg3⟩
  have hstaged := hmade2.staged hroot hready.not_uploadWay_partial hfilled
  have hready3 := hready2.of_staged hg3 hstaged
  have hout3 : w3.conn.output = w.conn.output := by
    rw [hstaged.output, hconn2, hmade.conn]
  apply (returns_syncAndClose _ received).bind
  rintro _ w3 ⟨rfl, rfl⟩
  by_cases hk : (smallBody task S).length ≤ k ∧ Takes task S
  swap
  · rw [if_pos (herr hk)]
    exact .ret ⟨hout3, nofun, fun h h' => absurd ⟨h, h'⟩ hk⟩
  obtain ⟨hr, hall⟩ := hok hk
  cases hr
  rw [if_neg nofun]
  have hlen : (smallData task S).length ≤ S.length := by
    simp only [smallData, List.length_take]
    omega
  have hreadable : Readable env.cwd w3.tree (partialPath root rel) (smallData task S) :=
    ⟨hready.plain_partial.ne_nil, hready.plain_partial.names_file, hall.content⟩
  apply (returns_hashFileFnv1a hreadable (by omega)).bind
  rintro _ w3 ⟨rfl, rfl⟩
  have hexpected : expectedHash (fileBeginHeader task (hashBufferFnv1a S))
      (fileEndHeader task (hashBufferFnv1a S)) = hashBufferFnv1a S := by
    have hend : (fileEndHeader task (hashBufferFnv1a S)).total_hash = hashBufferFnv1a S := rfl
    have hbegin : (fileBeginHeader task (hashBufferFnv1a S)).total_hash = hashBufferFnv1a S := rfl
    unfold expectedHash
    rw [hend, hbegin]
    split_ifs <;> rfl
  simp only [hexpected]
  split_ifs with hdiffer
  · exact .ret ⟨hout3, nofun, fun _ _ heq => absurd heq hdiffer.2⟩
  apply (returns_publish hready3 _ hall.content).bind
  rintro _ w4 ⟨rfl, hconn4, -, hcur4, -⟩
  refine .ret ⟨?_, fun _ => ⟨hk.2, hcur4⟩, fun _ _ _ => rfl⟩
  rw [hconn4, hout3]

/-! ## The connection -/

theorem dispatch_fileBegin {header : SyncHeader} (htype : header.msg_type = msgFileBegin)
    (rel_path last_rel_path : Bytes) :
    dispatch fuel root header rel_path last_rel_path =
      (serverHandleFileBegin fuel header root (cString rel_path) : Sys TreePath Rc) := by
  unfold dispatch
  rw [htype, if_neg (by decide), if_pos rfl]

/-- How the connection of a small upload ends. -/
structure Begun (cwd : TreePath) (root : Bytes) (task : SyncTask) (S : Bytes) (tree : Tree)
    (answer : Bytes) : Prop where
  /-- Only an upload that has been published is acknowledged. -/
  published : ackOf answer = .ok → Takes task S ∧
    currentAt cwd root task.rel_path.bytes tree = some (smallData task S)
  acknowledged : taskSize task ≤ S.length → Takes task S →
    hashBufferFnv1a (smallData task S) = hashBufferFnv1a S → ackOf answer = .ok

/-- What arrives after the path. -/
theorem smallSends_eq (task : SyncTask) (S : Bytes) :
    ∃ k, smallSends task S = beginBytes task S ++ (smallBody task S).take k ∧
      (taskSize task ≤ S.length → (smallBody task S).length ≤ k) := by
  unfold smallSends
  split_ifs with hle
  · refine ⟨(smallBody task S).length, ?_, fun _ => le_rfl⟩
    rw [List.take_length]
  · refine ⟨0, ?_, fun h => absurd h hle⟩
    rw [List.take_zero, List.append_nil]

/-- The server against a client that sends a small file. -/
theorem returns_serverHandleConnection_small {tree : Tree} {log : Bytes}
    (hmode : isDirMode task.mode = false)
    (hready : Ready env.cwd tree root task.rel_path.bytes)
    (hsave : ∀ old, currentAt env.cwd root task.rel_path.bytes tree = some old →
      Savable env tree root task.rel_path.bytes ∧ old.length + 3 ≤ fuel)
    (hfuel : S.length + 5 ≤ fuel) :
    (serverHandleConnection fuel root log).Returns (posix env)
      (fun _ w' => Begun env.cwd root task S w'.tree w'.conn.output)
      ⟨tree, connectedTo fun _ => smallSends task S⟩ := by
  obtain ⟨k, hsends, hwhole⟩ := smallSends_eq task S
  have hlen := task.rel_path.length_lt
  have hpath : (fileBeginHeader task (hashBufferFnv1a S)).path_len.toNat =
      task.rel_path.bytes.length := path_len_pathHeader msgQueryOffset task
  have hnet : maxPathLen = maxNetPath := rfl
  have hvalid : validateSyncHeader (fileBeginHeader task (hashBufferFnv1a S)) = .ok :=
    validateSyncHeader_eq_ok rfl rfl (by rw [hpath]; omega)
  have htype : (fileBeginHeader task (hashBufferFnv1a S)).msg_type = msgFileBegin := rfl
  have hlast : IsLast (fileBeginHeader task (hashBufferFnv1a S)) := by
    unfold IsLast
    rw [htype]
    decide
  have hinput : (World.mk tree (connectedTo fun _ => smallSends task S)).conn.input =
      (fileBeginHeader task (hashBufferFnv1a S)).encode ++
        (task.rel_path.bytes ++ (smallBody task S).take k) := by
    change (smallSends task S).drop 0 = _
    rw [List.drop_zero, hsends, beginBytes, List.append_assoc]
  apply returns_singleRequest hvalid hpath hready.file.relative.ne_nil (by omega) hlast (by omega)
    hinput
  intro w htree hinput1 houtput1
  rw [dispatch_fileBegin htype, cString_of_nul_notMem task.rel_path.noNul]
  unfold serverHandleFileBegin
  rw [hready.uploadPaths_eq]
  have hdir : ¬ isDirMode (fileBeginHeader task (hashBufferFnv1a S)).mode = true := by
    change ¬ isDirMode task.mode = true
    rw [hmode]
    nofun
  simp only [if_neg hdir]
  refine returns_op_bind.mpr ?_
  subst htree
  apply (returns_fileBeginCritical (w := w) hready hsave hinput1 hfuel).bind
  rintro outcome w1 ⟨hout1, hpublished, hdone⟩
  apply (returns_unlockAndReply (by omega) outcome _).post
  rintro rc w2 ⟨-, rfl⟩
  have houtput : w1.conn.output = [] := hout1.trans houtput1
  rw [World.push_conn, Conn.push_output, houtput, List.nil_append]
  refine ⟨fun hack => ?_, fun hle htakes hhash => ?_⟩
  · cases outcome with
    | ok u => exact hpublished rfl
    | error message =>
        rw [ackOf_errorReply] at hack
        cases hack
  · rw [hdone (hwhole hle) htakes hhash]
    exact ackOf_ackReply _

end FileBegin

end MiniSync
