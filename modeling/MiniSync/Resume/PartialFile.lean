import MiniSync.Resume.Resumption
import MiniSync.Server.Discipline

/-!
# The partial file of a large upload

Whatever is cut, the partial file holds a part of the file from its beginning, a query
is answered with its length, and it is complete when the server has read the end of
the blocks.
-/

namespace MiniSync

open Prog

section PartialFile

variable {env : Env} {fuel cut k : Nat} {root log rel S T : Bytes} {config : ClientConfig}
  {task : SyncTask} {tree tree' : Tree} {w w' : World} {peer : Bytes → Bytes}
  {m : Message World} {ms : List (Message World)} {rc : Rc}

/-- In the connection that starts in `w`, the block loop of
`handle_large_block_stream` has read the end message, and the files are `tree`. -/
def ReadsEnd (env : Env) (fuel : Nat) (root log : Bytes) (w : World) (tree : Tree) : Prop :=
  ∃ ms rc w', Session (Prog.Graph (posix env)) fuel root log [] w ms rc w' ∧
    ∃ m ∈ ms, m.header.msg_type = msgFileBlock ∧ ∃ dst tmp fd end_header w₁ w₂ w₃,
      uploadPaths root m.last_rel_path = some (dst, tmp) ∧
      Exec (Prog.Graph (posix env)) (ensureParentDirExists dst) m.received .ok w₁ ∧
      Exec (Prog.Graph (posix env)) (sys (.openFile tmp (.writeCreate (openMode m.header.mode)))) w₁
        (.ok fd) w₂ ∧
      Exec (Prog.Graph (posix env)) (recvBlockStream fuel fd m.header) w₂ (.ok, end_header) w₃ ∧
      w₃.tree = tree

/-! ## The messages of the client -/

/-- A header that begins the input is the one that is received. -/
theorem header_of_exec {h header : SyncHeader} {rest : Bytes} (hfuel : 3 ≤ fuel)
    (hvalid : validateSyncHeader h = .ok) (hinput : w.conn.input = (h.encode ++ rest).take k)
    (hexec : Exec (Prog.Graph (posix env)) (recvHeader fuel) w (some header) w') :
    header = h ∧ headerSize ≤ k ∧ w' = w.take headerSize ∧
      w'.conn.input = rest.take (k - headerSize) := by
  obtain ⟨hw, hall, hnone⟩ := (returns_recvHeader_cut hfuel hvalid hinput).exec hexec
  rcases Nat.lt_or_ge k headerSize with hk | hk
  · exact absurd (hnone hk) nofun
  · obtain ⟨hheader, hrest⟩ := hall hk
    exact ⟨Option.some.inj hheader, hk, hw, hrest⟩

/-- The message that asks for the offset. -/
theorem Processed.query (hm : Processed (Prog.Graph (posix env)) fuel root log [] m)
    (hpeer : Uploading config task S T cut peer) (hbefore : m.before = ⟨tree, connectedTo peer⟩)
    (hready : Ready env.cwd tree root task.rel_path.bytes)
    (hT : (partialAt env.cwd root task.rel_path.bytes tree).getD [] = T) (hfuel : 4 ≤ fuel) :
    m.header.msg_type = msgQueryOffset ∧ (¬ m.Final →
      m.last_rel_path = task.rel_path.bytes ∧ m.after.tree = tree ∧
        m.after.conn.input =
          (uploadStream config task S T.length).take (cut - (queryBytes task).length)) := by
  have hlen := task.rel_path.length_lt
  have hpath := path_len_pathHeader msgQueryOffset task
  have hnet : maxPathLen = maxNetPath := rfl
  have hvalid : validateSyncHeader (pathHeader msgQueryOffset task.rel_path.bytes) = .ok :=
    validateSyncHeader_eq_ok rfl rfl (by rw [hpath]; omega)
  have hinput : m.before.conn.input =
      ((pathHeader msgQueryOffset task.rel_path.bytes).encode ++ task.rel_path.bytes).take cut := by
    rw [hbefore]
    change (peer []).drop 0 = _
    rw [hpeer.query, List.drop_zero]
    rfl
  have hrel : task.rel_path.bytes ≠ [] := by
    intro h
    have hfile := hready.file.sane
    rw [h] at hfile
    cases hfile
  obtain ⟨w₁, hheader, hrecv⟩ := hm.receives
  obtain ⟨hquery, hk, hw₁, hinput₁⟩ := header_of_exec (by omega) hvalid hinput hheader
  have htype : m.header.msg_type = msgQueryOffset := by rw [hquery]; rfl
  refine ⟨htype, fun hnot => ?_⟩
  cases hrelPath : m.rel_path with
  | none => exact absurd (Or.inl (hm.refuses hrelPath).1) hnot
  | some rel_path =>
      obtain ⟨hremember, hdispatch, hlog⟩ := hm.dispatches rel_path hrelPath
      -- the path has arrived, and the query is answered
      rw [hrelPath, hquery] at hrecv
      unfold recvRelPath recvPath at hrecv
      have hpos : (pathHeader msgQueryOffset task.rel_path.bytes).path_len ≠ 0 := by
        intro h0
        rw [h0] at hpath
        exact hrel (List.length_eq_zero_iff.mp hpath.symm)
      have hfits : ¬ (task.rel_path.bytes.length ≥ maxNetPath + 1 ∨
          task.rel_path.bytes.length > maxNetPath) := by omega
      rw [if_neg hpos, hpath, if_neg hfits, if_neg hpos] at hrecv
      rw [← List.append_nil task.rel_path.bytes] at hinput₁
      obtain ⟨hreceived, hall, hnone⟩ :=
        (returns_readFull_cut (by omega) rfl hinput₁).exec hrecv
      rcases Nat.lt_or_ge (cut - headerSize) task.rel_path.bytes.length with hk₂ | hk₂
      · exact absurd (hnone hk₂) nofun
      obtain ⟨hsome, -⟩ := hall hk₂
      cases hsome
      have hcstring : cString task.rel_path.bytes = task.rel_path.bytes :=
        cString_of_nul_notMem task.rel_path.noNul
      unfold lastRelPath at hremember
      rw [if_pos (Or.inr htype), hcstring] at hremember
      have hworld : m.received =
          ((World.mk tree (connectedTo peer)).take headerSize).take task.rel_path.bytes.length := by
        rw [hreceived, hw₁, hbefore]
      rw [dispatch_queryOffset htype, hcstring] at hdispatch
      rw [hworld] at hdispatch
      have hquery' : (serverHandleQueryOffset fuel root task.rel_path.bytes).Returns (posix env) _
          (((World.mk tree (connectedTo peer)).take headerSize).take task.rel_path.bytes.length) :=
        returns_serverHandleQueryOffset hready hT (by omega)
      obtain ⟨hreplied, -⟩ := hquery'.exec hdispatch
      have hafter : m.after = m.replied := by
        have hcall := exec_op hlog
        exact (congrArg Prod.snd hcall).symm
      have hcut : (queryBytes task).length ≤ cut := by
        rw [length_queryBytes]
        omega
      have hinput₂ := @input_after_query S T config task tree cut peer hpeer hcut
      rw [hafter, hreplied]
      exact ⟨hremember, rfl, hinput₂⟩

/-- Where a block stream starts. -/
structure StreamStarts (config : ClientConfig) (task : SyncTask) (S T : Bytes) (tree : Tree)
    (m : Message World) : Prop where
  lt : T.length < S.length
  header : m.header = (fileBlock config task S T.length).header
  path : m.last_rel_path = task.rel_path.bytes
  files : m.received.tree = tree
  input : ∃ k, m.received.conn.input = (streamTail config task S T.length).take k

/-- The message after the query. -/
theorem Processed.stream
    (hm : Processed (Prog.Graph (posix env)) fuel root log task.rel_path.bytes m)
    (hinput : m.before.conn.input = (uploadStream config task S T.length).take k)
    (htree : m.before.tree = tree) (hfuel : 4 ≤ fuel) :
    m.Final ∧ (m.header.msg_type = msgFileBlock → StreamStarts config task S T tree m) := by
  obtain ⟨w₁, hheader, hrecv⟩ := hm.receives
  rcases Nat.lt_or_ge T.length S.length with hlt | hge
  · rw [uploadStream_of_lt hlt] at hinput
    have hvalid : validateSyncHeader (fileBlock config task S T.length).header = .ok :=
      validateSyncHeader_eq_ok rfl rfl (Nat.zero_le _)
    obtain ⟨hblock, -, hw₁, hinput₁⟩ := header_of_exec (by omega) hvalid hinput hheader
    have htype : m.header.msg_type = msgFileBlock := by rw [hblock]; rfl
    have hpath : m.header.path_len = 0 := by rw [hblock]; rfl
    unfold recvRelPath at hrecv
    rw [if_pos hpath] at hrecv
    obtain ⟨hrel, hreceived⟩ := exec_ret hrecv
    obtain ⟨hremember, -, -⟩ := hm.dispatches [] hrel
    unfold lastRelPath at hremember
    rw [htype, if_neg (by decide)] at hremember
    refine ⟨Or.inr (by rw [htype]; decide), fun _ => ⟨hlt, hblock, hremember, ?_, ?_⟩⟩
    · rw [hreceived, hw₁, ← htree]
      rfl
    · rw [hreceived]
      exact ⟨_, hinput₁⟩
  · rw [uploadStream_of_ge hge, ← List.append_nil (SyncHeader.encode _)] at hinput
    have hvalid : validateSyncHeader (fileEndHeader task (hashBufferFnv1a S)) = .ok :=
      validateSyncHeader_eq_ok rfl rfl (Nat.zero_le _)
    obtain ⟨hend, -, -, -⟩ := header_of_exec (by omega) hvalid hinput hheader
    have htype : m.header.msg_type = msgFileEnd := by rw [hend]; rfl
    refine ⟨Or.inr (by rw [htype]; decide), fun hblock => ?_⟩
    rw [htype] at hblock
    exact absurd hblock (by decide)

/-- The only block stream of a connection starts where the partial file ends. -/
theorem Session.streamStarts (hpeer : Uploading config task S T cut peer)
    (hready : Ready env.cwd tree root task.rel_path.bytes)
    (hT : (partialAt env.cwd root task.rel_path.bytes tree).getD [] = T) (hfuel : 4 ≤ fuel)
    (h : Session (Prog.Graph (posix env)) fuel root log [] ⟨tree, connectedTo peer⟩ ms rc w')
    (hmem : m ∈ ms) (hblock : m.header.msg_type = msgFileBlock) :
    StreamStarts config task S T tree m := by
  have hdiff : msgQueryOffset ≠ msgFileBlock := by decide
  generalize hbefore : World.mk tree (connectedTo peer) = w at h
  cases h with
  | rejected => cases hmem
  | exit => cases hmem
  | @final _ m' hm' hfinal =>
      obtain ⟨hquery, -⟩ := hm'.query hpeer hbefore.symm hready hT hfuel
      rw [List.mem_singleton.mp hmem, hquery] at hblock
      exact absurd hblock hdiff
  | @next _ m' ms' rc s' hm' hnot hrest =>
      obtain ⟨hquery, hafter⟩ := hm'.query hpeer hbefore.symm hready hT hfuel
      obtain ⟨hpath, htree, hinput⟩ := hafter hnot
      have hlater : m ∈ ms' := by
        rcases List.mem_cons.mp hmem with rfl | hlater
        · rw [hquery] at hblock
          exact absurd hblock hdiff
        · exact hlater
      rw [hpath] at hrest
      generalize hstart : m'.after = w₁ at hrest htree hinput
      cases hrest with
      | rejected => cases hlater
      | exit => cases hlater
      | @final _ m'' hm'' hfinal =>
          obtain ⟨-, hstarts⟩ := hm''.stream hinput htree hfuel
          rw [List.mem_singleton.mp hlater] at hblock ⊢
          exact hstarts hblock
      | @next _ m'' _ _ _ hm'' hnot' _ => exact absurd (hm''.stream hinput htree hfuel).1 hnot'

/-! ## At the end message -/

/-- When the end message has been read, the partial file is complete. -/
theorem StreamStarts.partial_complete {dst tmp : Bytes} {fd : TreePath} {end_header : SyncHeader}
    {w₁ w₂ w₃ : World} (h : StreamStarts config task S T tree m)
    (hready : Ready env.cwd tree root task.rel_path.bytes)
    (hT : (partialAt env.cwd root task.rel_path.bytes tree).getD [] = T) (hpart : T <+: S)
    (hshort : S.length < 2 ^ 63) (hfuel : S.length + 4 ≤ fuel)
    (hpaths : uploadPaths root m.last_rel_path = some (dst, tmp))
    (hmake : Exec (Prog.Graph (posix env)) (ensureParentDirExists dst) m.received .ok w₁)
    (hopen : Exec (Prog.Graph (posix env))
      (sys (.openFile tmp (.writeCreate (openMode m.header.mode)))) w₁ (.ok fd) w₂)
    (hrecv : Exec (Prog.Graph (posix env)) (recvBlockStream fuel fd m.header) w₂
      (.ok, end_header) w₃) :
    partialAt env.cwd root task.rel_path.bytes w₃.tree = some S := by
  obtain ⟨k, hinput⟩ := h.input
  have hfiles := h.files
  subst hfiles
  rw [h.path, hready.uploadPaths_eq] at hpaths
  cases hpaths
  obtain ⟨⟨-, hmade⟩, hg₁⟩ :=
    ((returns_ensureParent hready.toCreatable).grounded hready.grounded).exec hmake
  have hparent : w₁.tree.IsDir
      (resolve env.cwd (partialPath root task.rel_path.bytes)).dropLast := by
    have hway := hready.tmp.wayTo_parent
    rw [hready.file.wayTo_syncing] at hway
    exact hmade.dirs _ hway
  have hsame₁ := hmade.rest _ hready.not_uploadWay_partial
  have hdir₁ : w₁.tree.lookup (resolve env.cwd (partialPath root task.rel_path.bytes)) ≠
      some .dir := by
    rw [hsame₁]
    exact hready.tmp_notDir
  have hopened := exec_op hopen
  unfold Prog.Graph at hopened
  rw [posix_openKeep hready.plain_partial hdir₁ hparent, FileTree.content_congr hsame₁] at hopened
  obtain ⟨hfd, hw₂⟩ := Prod.mk.inj hopened
  cases hfd
  change World.mk (w₁.tree.put _ (.file ((partialAt env.cwd root task.rel_path.bytes
    m.received.tree).getD []))) w₁.conn = w₂ at hw₂
  rw [hT] at hw₂
  subst hw₂
  rw [h.header] at hrecv
  obtain ⟨-, hok, herr⟩ :=
    (returns_streamBlocks hready hmade h.lt hshort hinput hfuel).exec hrecv
  by_cases hwhole : (streamTail config task S T.length).length ≤ k ∧ Sendable config S T.length
  · obtain ⟨-, hstaged⟩ := hok hwhole
    rw [resumed_of_isPrefix hpart] at hstaged
    exact FileTree.content_eq_some.mpr hstaged.file
  · exact absurd (herr hwhole) nofun

end PartialFile

/-! ## Any number of sessions -/

/-- What arrives at the server in a session of which `cut` bytes get through. -/
def LargeUpload.start (u : LargeUpload) (fuel cut : Nat) (store : Tree) : World where
  tree := store
  conn := connectedTo fun answer =>
    (sentBy u.site.env (sendRemoteLargeFile fuel u.config u.task) u.site.source answer).take cut

/-- After any sessions the partial file is absent or a part of the file from its
beginning, and a query returns its length; and where the next session reads the end
of the blocks, the partial file is the whole file. -/
theorem partial_is_start {fuel : Nat} {cwd : TreePath} {root log_path rel S : Bytes} {store : Tree}
    (sessions : List (LargeUpload × Nat)) (hready : Ready cwd store root rel)
    (hnone : partialAt cwd root rel store = none) (hsends : ∀ u ∈ sessions, u.1.Sends rel S)
    (hfuel : S.length + 4 ≤ fuel)
    (hold : ∀ old, currentAt cwd root rel store = some old → old.length + 3 ≤ fuel) :
    ∃ mid, afterCuts fuel cwd root log_path sessions store = some mid ∧
      (∀ part, partialAt cwd root rel mid = some part → part <+: S) ∧
      (∀ now conn, ∃ size : UInt64, size.toNat = ((partialAt cwd root rel mid).getD []).length ∧
        (serverHandleQueryOffset fuel root rel).run (posix ⟨cwd, now⟩) ⟨mid, conn⟩ =
          some (.ok, ⟨mid, conn.push
            (SyncHeader.encode { initSyncHeader msgOffsetReply with offset := size })⟩)) ∧
      ∀ next : LargeUpload, next.Sends rel S → ∀ cut tree,
        ReadsEnd ⟨cwd, next.now⟩ fuel root log_path (next.start fuel cut mid) tree →
          partialAt cwd root rel tree = some S := by
  have hstore : Resumable cwd root rel S fuel store :=
    ⟨hready, by rw [hnone]; exact Nat.two_pow_pos 63, hold⟩
  obtain ⟨mid, hmid, hstoreMid, hpart⟩ := afterCuts_eq log_path hsends hstore
    (by rw [hnone]; exact List.nil_prefix) hfuel
  refine ⟨mid, hmid, fun part heq => ?_, fun now conn => ?_, ?_⟩
  · rw [heq] at hpart
    exact hpart
  · have hquery : (serverHandleQueryOffset fuel root rel).Returns (posix ⟨cwd, now⟩)
        (fun rc w' => w' = World.push ⟨mid, conn⟩
          (offsetReply ((partialAt cwd root rel mid).getD []).length).encode ∧ rc = .ok)
        ⟨mid, conn⟩ :=
      returns_serverHandleQueryOffset hstoreMid.ready rfl (by omega)
    obtain ⟨rc, w', hrun, rfl, rfl⟩ := hquery
    have hsize := hstoreMid.part_lt
    exact ⟨_, toNat_ofNat_of_lt hsize, hrun⟩
  · rintro next hnext cut tree ⟨ms, rc, w', hsession, m, hmem, hblock, dst, tmp, fd, end_header,
      w₁, w₂, w₃, hpaths, hmake, hopen, hrecv, rfl⟩
    have hpath := hnext.path
    subst hpath
    have hpeer : (fun answer => (sentBy next.site.env
        (sendRemoteLargeFile fuel next.config next.task) next.site.source answer).take cut) =
        fun answer => (clientSends next.config next.task S answer).take cut := by
      funext answer
      obtain ⟨rc, w, hrun, -, hout⟩ := hnext.returns hfuel answer
      unfold sentBy
      rw [hrun, ← hout]
    unfold LargeUpload.start at hsession
    rw [hpeer] at hsession
    have hstarts := hsession.streamStarts (uploading_cut hstoreMid.part_lt cut) hstoreMid.ready rfl
      (by omega) hmem hblock
    exact hstarts.partial_complete hstoreMid.ready rfl hpart hnext.file.short hfuel hpaths hmake
      hopen hrecv

/-- The small upload, cut before its end message. -/
theorem partial_is_start_smallUpload :
    ∃ mid, afterCuts 8 [] (ascii "s") (ascii "log") [(smallUpload, 131)] (storeWith []) =
        some mid ∧
      (∀ part, partialAt [] (ascii "s") (ascii "a") mid = some part → part <+: [7, 8]) ∧
      (∀ now conn, ∃ size : UInt64,
        size.toNat = ((partialAt [] (ascii "s") (ascii "a") mid).getD []).length ∧
        (serverHandleQueryOffset 8 (ascii "s") (ascii "a")).run (posix ⟨[], now⟩) ⟨mid, conn⟩ =
          some (.ok, ⟨mid, conn.push
            (SyncHeader.encode { initSyncHeader msgOffsetReply with offset := size })⟩)) ∧
      ∀ next : LargeUpload, next.Sends (ascii "a") [7, 8] → ∀ cut tree,
        ReadsEnd ⟨[], next.now⟩ 8 (ascii "s") (ascii "log") (next.start 8 cut mid) tree →
          partialAt [] (ascii "s") (ascii "a") tree = some [7, 8] :=
  partial_is_start [(smallUpload, 131)] (ready_storeWith []) (by decide)
    (by rintro u hu; rw [List.mem_singleton.mp hu]; exact sends_smallUpload) (by decide)
    (by intro old h; cases h)

end MiniSync
