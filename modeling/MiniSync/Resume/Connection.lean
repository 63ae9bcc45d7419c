import MiniSync.Resume.Site

/-!
# A connection of a large upload

The server's dispatch loop against a client that asks for the offset and sends
the rest of its file, over a connection that may be cut anywhere.
-/

namespace MiniSync

open Prog

/-! ## Answers -/

/-- The answer to a query. -/
def offsetReply (size : Nat) : SyncHeader :=
  { initSyncHeader msgOffsetReply with offset := .ofNat size }

def ackReply (offset : UInt64) : SyncHeader := { initSyncHeader msgAck with offset := offset }

/-- What `send_error` sends. -/
def errorReply (message : Bytes) : Bytes :=
  SyncHeader.encode
      { initSyncHeader msgError with path_len := .ofNat (min message.length maxNetPath) } ++
    message.take (min message.length maxNetPath)

theorem headerAt_errorReply (message rest : Bytes) :
    ∃ h, headerAt (errorReply message ++ rest) = some h ∧ h.msg_type = msgError := by
  have hlen : (UInt32.ofNat (min message.length maxNetPath)).toNat ≤ maxNetPath := by
    have hle : min message.length maxNetPath ≤ maxNetPath := Nat.min_le_right _ _
    have hsmall : maxNetPath < 2 ^ 32 := by decide
    rw [UInt32.toNat_ofNat', Nat.mod_eq_of_lt (by omega)]
    exact hle
  unfold errorReply
  rw [List.append_assoc, headerAt_encode (validateSyncHeader_eq_ok rfl rfl hlen)]
  exact ⟨_, rfl, rfl⟩

theorem ackOf_errorReply (message : Bytes) : ackOf (errorReply message) = .err := by
  obtain ⟨h, hh, htype⟩ := headerAt_errorReply message []
  rw [List.append_nil] at hh
  unfold ackOf
  rw [hh]
  exact if_neg (by rw [htype]; decide)

theorem ackOf_ackReply (offset : UInt64) : ackOf (ackReply offset).encode = .ok := by
  have hh := headerAt_encode (h := ackReply offset)
    (validateSyncHeader_eq_ok rfl rfl (Nat.zero_le _)) []
  rw [List.append_nil] at hh
  unfold ackOf
  rw [hh]
  rfl

theorem replyOffset_nil : replyOffset [] = none := rfl

theorem clientResult_errorReply (message : Bytes) : clientResult (errorReply message) = .err := by
  obtain ⟨h, hh, htype⟩ := headerAt_errorReply message []
  have hne : ¬ msgError = msgOffsetReply := by decide
  rw [List.append_nil] at hh
  unfold clientResult replyOffset
  rw [hh, Option.bind_eq_bind, Option.bind_some, htype, if_neg hne]

section Answers

variable {m : Nat} {config : ClientConfig} {task : SyncTask} {S : Bytes}

theorem replyOffset_offsetReply (rest : Bytes) :
    replyOffset ((offsetReply m).encode ++ rest) = some (.ofNat m) := by
  unfold replyOffset
  rw [headerAt_encode (validateSyncHeader_eq_ok rfl rfl (Nat.zero_le _))]
  rfl

/-- After the offset reply the result is what comes next. -/
theorem clientResult_offsetReply (hm : m < 2 ^ 63) (rest : Bytes) :
    clientResult ((offsetReply m).encode ++ rest) = ackOf rest := by
  have hneg : ¬ (UInt64.ofNat m).toInt64.toInt < 0 := by
    rw [offT_of_lt hm]
    omega
  unfold clientResult
  rw [replyOffset_offsetReply]
  simp only [if_neg hneg]
  rw [← SyncHeader.length_encode (offsetReply m), List.drop_left]

theorem clientSends_nil : clientSends config task S [] = queryBytes task := by
  unfold clientSends
  rw [replyOffset_nil]

theorem clientSends_offsetReply (hm : m < 2 ^ 63) (rest : Bytes) :
    clientSends config task S ((offsetReply m).encode ++ rest) =
      queryBytes task ++ uploadStream config task S m := by
  have hneg : ¬ (UInt64.ofNat m).toInt64.toInt < 0 := by
    rw [offT_of_lt hm]
    omega
  unfold clientSends
  rw [replyOffset_offsetReply]
  simp only [if_neg hneg, toNat_ofNat_of_lt hm]

end Answers

section Session

variable {env : Env} {w w' : World} {fuel k : Nat} {root rel S T data : Bytes}
  {config : ClientConfig} {task : SyncTask}

/-! ## Single requests -/

theorem returns_sendError (hfuel : 2 ≤ fuel) (message : Bytes) :
    (sendError fuel message).Returns (posix env)
      (fun rc w' => w' = w.push (errorReply message) ∧ rc = .ok) w := by
  apply (returns_sendHeader hfuel _).bind
  rintro _ _ ⟨rfl, rfl⟩
  apply (returns_writeFull hfuel _).post
  rintro rc w' ⟨rfl, rfl⟩
  exact ⟨World.push_push _ _ _, rfl⟩

theorem returns_sendAck (hfuel : 2 ≤ fuel) (offset : UInt64) :
    (sendAck fuel offset).Returns (posix env)
      (fun rc w' => w' = w.push (ackReply offset).encode ∧ rc = .ok) w :=
  returns_sendHeader hfuel _

theorem returns_getFileSize {path : Bytes} (hpath : Plain path)
    (hdir : w.tree.lookup (resolve env.cwd path) ≠ some .dir) :
    (getFileSize path).Returns (posix env)
      (fun size w' => w' = w ∧
        size.getD 0 = ((w.tree.content (resolve env.cwd path)).getD []).length) w := by
  refine returns_op_bind.mpr ?_
  unfold FileTree.content
  simp only [posix, posix_stat hpath]
  cases hlookup : w.tree.lookup (resolve env.cwd path) with
  | none => exact .ret ⟨rfl, rfl⟩
  | some node =>
      cases node with
      | dir => exact absurd hlookup hdir
      | file c => exact .ret ⟨rfl, rfl⟩

/-- A query is answered with the size of the partial file. -/
theorem returns_serverHandleQueryOffset (hready : Ready env.cwd w.tree root rel)
    (hT : (partialAt env.cwd root rel w.tree).getD [] = T) (hfuel : 2 ≤ fuel) :
    (serverHandleQueryOffset fuel root rel).Returns (posix env)
      (fun rc w' => w' = w.push (offsetReply T.length).encode ∧ rc = .ok) w := by
  unfold serverHandleQueryOffset
  rw [hready.uploadPaths_eq]
  apply (returns_getFileSize hready.plain_partial hready.tmp_notDir).bind
  rintro size _ ⟨rfl, hsize⟩
  have hlen : size.getD 0 = T.length := by
    rw [hsize, ← hT]
    rfl
  rw [hlen]
  exact returns_sendHeader hfuel _

theorem returns_unlockAndReply (hfuel : 2 ≤ fuel) (outcome : Except Bytes Unit) (ack : UInt64) :
    (unlockAndReply fuel outcome ack).Returns (posix env)
      (fun rc w' => rc = (match outcome with | .ok _ => .ok | .error _ => .err) ∧
        w' = w.push (match outcome with
          | .ok _ => (ackReply ack).encode
          | .error message => errorReply message)) w := by
  refine returns_op_bind.mpr ?_
  cases outcome with
  | ok u =>
      apply (returns_sendAck hfuel ack).bind
      rintro _ _ ⟨rfl, rfl⟩
      exact .ret ⟨rfl, rfl⟩
  | error message =>
      apply (returns_sendError hfuel message).bind
      rintro _ _ ⟨rfl, rfl⟩
      exact .ret ⟨rfl, rfl⟩

/-- A message that the server does not know at this place. -/
theorem dispatch_fileEnd {header : SyncHeader} (htype : header.msg_type = msgFileEnd)
    (rel_path last_rel_path : Bytes) :
    dispatch fuel root header rel_path last_rel_path =
      (do
        let _ ← sendError fuel (ascii "unknown message type")
        return .err : Sys TreePath Rc) := by
  unfold dispatch
  rw [htype, if_neg (by decide), if_neg (by decide), if_neg (by decide), if_neg (by decide),
    if_neg (by decide), if_neg (by decide)]

theorem dispatch_fileBlock {header : SyncHeader} (htype : header.msg_type = msgFileBlock)
    {rel_path last_rel_path : Bytes} (hlast : last_rel_path ≠ []) :
    dispatch fuel root header rel_path last_rel_path =
      (handleLargeBlockStream fuel header root last_rel_path : Sys TreePath Rc) := by
  unfold dispatch
  rw [htype, if_neg (by decide), if_neg (by decide), if_neg (by decide), if_pos rfl,
    if_neg hlast]

theorem dispatch_queryOffset {header : SyncHeader} (htype : header.msg_type = msgQueryOffset)
    (rel_path last_rel_path : Bytes) :
    dispatch fuel root header rel_path last_rel_path =
      (serverHandleQueryOffset fuel root (cString rel_path) : Sys TreePath Rc) := by
  unfold dispatch
  rw [htype, if_neg (by decide), if_neg (by decide), if_pos rfl]

/-- One round of the loop on a message without a path after which the connection is
closed. -/
theorem returns_lastRound {log last : Bytes} {rounds : Nat} {header : SyncHeader}
    {rest : Bytes} {Q : Rc → World → Prop} (hfuel : 3 ≤ fuel)
    (hvalid : validateSyncHeader header = .ok) (hpath : header.path_len = 0)
    (htype : header.msg_type = msgFileBlock ∨ header.msg_type = msgFileEnd)
    (hinput : w.conn.input = (header.encode ++ rest).take k)
    (hcut : k < headerSize → Q .err (w.take headerSize))
    (hall : headerSize ≤ k → (w.take headerSize).conn.input = rest.take (k - headerSize) →
      (dispatch fuel root header [] last).Returns (posix env) Q (w.take headerSize)) :
    (serverHandleConnectionLoop fuel root log (rounds + 1) last).Returns (posix env) Q w := by
  have hkind : header.msg_type ∉ [msgExit, msgFileBegin, msgQueryOffset, msgHello] := by
    rcases htype with h | h <;> rw [h] <;> decide
  simp only [List.mem_cons, List.not_mem_nil, or_false, not_or] at hkind
  obtain ⟨hexit, hbegin, hquery, hhello⟩ := hkind
  rw [serverHandleConnectionLoop]
  apply (returns_recvHeader_cut hfuel hvalid hinput).bind
  rintro r w1 ⟨rfl, hsome, hnone⟩
  rcases Nat.lt_or_ge k headerSize with hk | hk
  · rw [hnone hk]
    exact .ret (hcut hk)
  obtain ⟨rfl, hinput1⟩ := hsome hk
  have hlast : lastRelPath header [] last = last := by
    unfold lastRelPath
    rw [if_neg (by rw [not_or]; exact ⟨hbegin, hquery⟩)]
  unfold recvRelPath
  simp only [if_neg hexit, if_pos hpath, pure_eq, ret_bind, hlast]
  apply (hall hk hinput1).bind
  intro rc w2 hQ
  refine returns_op_bind.mpr ?_
  cases rc with
  | err => exact .ret hQ
  | ok =>
      simp only [reduceCtorEq, if_false]
      rw [if_pos ⟨hhello, hquery⟩]
      exact .ret hQ

/-! ## After the query -/

/-- How a connection ends for a store where `T` was left of earlier uploads. -/
structure Served (cwd : TreePath) (root rel T S : Bytes) (whole : Prop) (tree : Tree)
    (answer : Bytes) (tree' : Tree) : Prop where
  ready : Ready cwd tree' root rel
  /-- Nothing is left to send: the end message comes without a block. -/
  late : S.length ≤ T.length → tree' = tree ∧ clientResult answer = .err
  failed : T.length < S.length → ¬ (whole ∧ Agreed T S) →
    currentAt cwd root rel tree' = currentAt cwd root rel tree ∧ clientResult answer = .err ∧
      (partialAt cwd root rel tree').getD [] <+: resumed T S ∧
      (whole → (partialAt cwd root rel tree').getD [] = resumed T S)
  done : T.length < S.length → whole → Agreed T S →
    currentAt cwd root rel tree' = some (resumed T S) ∧ partialAt cwd root rel tree' = none ∧
      clientResult answer = .ok

/-- Nothing has happened to the store. -/
theorem Served.unchanged {cwd : TreePath} {tree : Tree} {answer : Bytes} {whole : Prop}
    (hready : Ready cwd tree root rel) (hT : (partialAt cwd root rel tree).getD [] = T)
    (hanswer : clientResult answer = .err) (hwhole : T.length < S.length → ¬ whole) :
    Served cwd root rel T S whole tree answer tree :=
  ⟨hready, fun _ => ⟨rfl, hanswer⟩,
    fun h _ => ⟨rfl, hanswer, hT ▸ List.prefix_append T _, fun h' => absurd h' (hwhole h)⟩,
    fun h h' => absurd h' (hwhole h)⟩

/-- The request after the query. -/
theorem returns_secondRequest {log : Bytes} {rounds : Nat}
    (hready : Ready env.cwd w.tree root rel)
    (hT : (partialAt env.cwd root rel w.tree).getD [] = T) (hT63 : T.length < 2 ^ 63)
    (hshort : S.length < 2 ^ 63)
    (hinput : w.conn.input = (uploadStream config task S T.length).take k)
    (houtput : w.conn.output = (offsetReply T.length).encode) (hfuel : S.length + 4 ≤ fuel)
    (hold : ∀ old, currentAt env.cwd root rel w.tree = some old → old.length + 3 ≤ fuel) :
    (serverHandleConnectionLoop fuel root log (rounds + 1) rel).Returns (posix env)
      (fun _ w' => Served env.cwd root rel T S
        ((uploadStream config task S T.length).length ≤ k ∧ Sendable config S T.length)
        w.tree w'.conn.output w'.tree) w := by
  have hrel : rel ≠ [] := by
    intro h
    have hfile := hready.file.sane
    rw [h] at hfile
    cases hfile
  have hreply (message : Bytes) :
      clientResult ((offsetReply T.length).encode ++ errorReply message) = .err := by
    rw [clientResult_offsetReply hT63, ackOf_errorReply]
  have hsilent : clientResult (offsetReply T.length).encode = .err := by
    have h := clientResult_offsetReply hT63 []
    rwa [List.append_nil] at h
  rcases Nat.lt_or_ge T.length S.length with hlt | hge
  · rw [uploadStream_of_lt hlt] at hinput ⊢
    have hvalid : validateSyncHeader (fileBlock config task S T.length).header = .ok :=
      validateSyncHeader_eq_ok rfl rfl (Nat.zero_le _)
    have htype : (fileBlock config task S T.length).header.msg_type = msgFileBlock := rfl
    apply returns_lastRound (by omega) hvalid rfl (Or.inl htype) hinput
    · intro hk
      refine Served.unchanged hready hT ?_ fun _ h => ?_
      · rw [World.take_conn, Conn.take_output, houtput]
        exact hsilent
      · rw [List.length_append, SyncHeader.length_encode] at h
        omega
    intro hk hinput1
    rw [dispatch_fileBlock htype hrel]
    unfold handleLargeBlockStream
    rw [hready.uploadPaths_eq]
    refine returns_op_bind.mpr ?_
    have hcritical := returns_blockStreamCritical (w := w.take headerSize) hready hT hlt hshort
      hinput1 hfuel hold
    apply hcritical.bind
    intro outcome w2 hstreamed
    apply (returns_unlockAndReply (by omega) outcome _).post
    rintro rc w3 ⟨-, rfl⟩
    have hout2 : w2.conn.output = (offsetReply T.length).encode := by
      rw [hstreamed.output, World.take_conn, Conn.take_output, houtput]
    have hwhole : ((streamTail config task S T.length).length ≤ k - headerSize ∧
        Sendable config S T.length) ↔ (((fileBlock config task S T.length).header.encode ++
          streamTail config task S T.length).length ≤ k ∧ Sendable config S T.length) := by
      refine and_congr_left fun _ => ?_
      rw [List.length_append, SyncHeader.length_encode]
      omega
    refine ⟨hstreamed.ready, fun h => by omega, fun _ hno => ?_, fun _ hw hagreed => ?_⟩
    · rw [← hwhole] at hno ⊢
      obtain ⟨⟨e, rfl⟩, hcur, c, hpart, hc, hfull⟩ := hstreamed.failed hno
      refine ⟨hcur, ?_, ?_, fun h => ?_⟩
      · rw [World.push_conn, Conn.push_output, hout2]
        exact hreply e
      · rw [World.push_tree, hpart]
        exact hc
      · rw [World.push_tree, hpart]
        exact hfull h
    · obtain ⟨rfl, hcur, hpart⟩ := hstreamed.done (hwhole.mpr hw) hagreed
      refine ⟨hcur, hpart, ?_⟩
      rw [World.push_conn, Conn.push_output, hout2, clientResult_offsetReply hT63, ackOf_ackReply]
  · rw [uploadStream_of_ge hge, ← List.append_nil (SyncHeader.encode _)] at hinput
    have hvalid : validateSyncHeader (fileEndHeader task (hashBufferFnv1a S)) = .ok :=
      validateSyncHeader_eq_ok rfl rfl (Nat.zero_le _)
    apply returns_lastRound (by omega) hvalid rfl (Or.inr rfl) hinput
    · intro hk
      refine Served.unchanged hready hT ?_ fun h => by omega
      rw [World.take_conn, Conn.take_output, houtput]
      exact hsilent
    intro hk hinput1
    rw [dispatch_fileEnd rfl]
    apply (returns_sendError (by omega) _).bind
    rintro _ _ ⟨rfl, rfl⟩
    refine .ret (Served.unchanged hready hT ?_ fun h => by omega)
    rw [World.push_conn, Conn.push_output, World.take_conn, Conn.take_output, houtput]
    exact hreply _

/-! ## The whole connection -/

theorem length_queryBytes (task : SyncTask) :
    (queryBytes task).length = headerSize + task.rel_path.bytes.length := by
  unfold queryBytes
  rw [List.length_append, SyncHeader.length_encode]

theorem take_received {conn : Conn} {n : Nat} (h : n ≤ conn.input.length) :
    (conn.take n).received = conn.received + n := by
  change conn.received + min n conn.input.length = conn.received + n
  rw [Nat.min_eq_left h]

/-- The peer uploads `S` from the end of `T` on, and `cut` bytes of what it sends
get through. -/
structure Uploading (config : ClientConfig) (task : SyncTask) (S T : Bytes) (cut : Nat)
    (peer : Bytes → Bytes) : Prop where
  query : peer [] = (queryBytes task).take cut
  stream : peer (offsetReply T.length).encode =
    (queryBytes task ++ uploadStream config task S T.length).take cut

/-- All bytes of the client get through. -/
theorem uploading_whole (hT63 : T.length < 2 ^ 63) :
    Uploading config task S T (queryBytes task ++ uploadStream config task S T.length).length
      (clientSends config task S) := by
  constructor
  · rw [clientSends_nil, List.take_of_length_le]
    rw [List.length_append]
    omega
  · have hreply := @clientSends_offsetReply T.length config task S hT63 []
    rw [List.append_nil] at hreply
    rw [hreply, List.take_length]

theorem uploading_cut (hT63 : T.length < 2 ^ 63) (cut : Nat) :
    Uploading config task S T cut fun answer => (clientSends config task S answer).take cut := by
  have hreply := @clientSends_offsetReply T.length config task S hT63 []
  rw [List.append_nil] at hreply
  exact ⟨by rw [clientSends_nil], by rw [hreply]⟩

/-- What is left to be received once the query has been answered. -/
theorem input_after_query {tree : Tree} {cut : Nat} {peer : Bytes → Bytes}
    (hpeer : Uploading config task S T cut peer) (hcut : (queryBytes task).length ≤ cut) :
    ((((World.mk tree (connectedTo peer)).take headerSize).take
        task.rel_path.bytes.length).push (offsetReply T.length).encode).conn.input =
      (uploadStream config task S T.length).take (cut - (queryBytes task).length) := by
  have hinput : (connectedTo peer).input = queryBytes task := by
    change (peer []).drop 0 = _
    rw [hpeer.query, List.drop_zero, List.take_of_length_le hcut]
  have hlen := length_queryBytes task
  have hfirst : ((connectedTo peer).take headerSize).received = _ :=
    take_received (by rw [hinput]; omega)
  have hsecond : (((connectedTo peer).take headerSize).take task.rel_path.bytes.length).received =
      _ := take_received (by
      rw [Conn.take_input, hinput, List.length_drop]
      omega)
  change (peer ([] ++ (offsetReply T.length).encode)).drop
    (((connectedTo peer).take headerSize).take _).received = _
  rw [hsecond, hfirst, List.nil_append, hpeer.stream, List.drop_take]
  have hzero : (connectedTo peer).received + headerSize + task.rel_path.bytes.length =
      (queryBytes task).length := by
    change 0 + headerSize + _ = _
    omega
  rw [hzero, List.drop_left]

/-- The server against a client that uploads `S`. -/
theorem returns_serverHandleConnection {tree : Tree} {log : Bytes} {cut : Nat}
    {peer : Bytes → Bytes} (hpeer : Uploading config task S T cut peer)
    (hready : Ready env.cwd tree root task.rel_path.bytes)
    (hT : (partialAt env.cwd root task.rel_path.bytes tree).getD [] = T)
    (hT63 : T.length < 2 ^ 63) (hshort : S.length < 2 ^ 63)
    (hfuel : S.length + 4 ≤ fuel)
    (hold : ∀ old, currentAt env.cwd root task.rel_path.bytes tree = some old →
      old.length + 3 ≤ fuel) :
    (serverHandleConnection fuel root log).Returns (posix env)
      (fun _ w' => Served env.cwd root task.rel_path.bytes T S
        ((queryBytes task ++ uploadStream config task S T.length).length ≤ cut ∧
          Sendable config S T.length) tree w'.conn.output w'.tree)
      ⟨tree, connectedTo peer⟩ := by
  obtain ⟨f, rfl⟩ : ∃ f, fuel = f + 1 + 1 := ⟨fuel - 2, by omega⟩
  have hquery := length_queryBytes task
  have hlen := task.rel_path.length_lt
  have hrel : task.rel_path.bytes ≠ [] := by
    intro h
    have hfile := hready.file.sane
    rw [h] at hfile
    cases hfile
  have hpath := path_len_pathHeader msgQueryOffset task
  have hpos : (pathHeader msgQueryOffset task.rel_path.bytes).path_len ≠ 0 := by
    intro h0
    rw [h0] at hpath
    exact hrel (List.length_eq_zero_iff.mp hpath.symm)
  have hnet : maxPathLen = maxNetPath := rfl
  have hvalid : validateSyncHeader (pathHeader msgQueryOffset task.rel_path.bytes) = .ok :=
    validateSyncHeader_eq_ok rfl rfl (by rw [hpath]; omega)
  have hinput : (World.mk tree (connectedTo peer)).conn.input =
      ((pathHeader msgQueryOffset task.rel_path.bytes).encode ++ task.rel_path.bytes).take cut := by
    change (peer []).drop 0 = _
    rw [hpeer.query, List.drop_zero]
    rfl
  have hunserved (answer : Bytes) (hanswer : clientResult answer = .err)
      (hcut : cut < (queryBytes task).length) :
      Served env.cwd root task.rel_path.bytes T S
        ((queryBytes task ++ uploadStream config task S T.length).length ≤ cut ∧
          Sendable config S T.length) tree answer tree :=
    Served.unchanged hready hT hanswer fun _ h => by
      obtain ⟨hle, -⟩ := h
      rw [List.length_append] at hle
      omega
  unfold serverHandleConnection
  rw [serverHandleConnectionLoop]
  apply (returns_recvHeader_cut (by omega) hvalid hinput).bind
  rintro r w1 ⟨rfl, hall, hnone⟩
  rcases Nat.lt_or_ge cut headerSize with hk | hk
  · rw [hnone hk]
    exact .ret (hunserved _ rfl (by omega))
  obtain ⟨rfl, hinput1⟩ := hall hk
  have htype : (pathHeader msgQueryOffset task.rel_path.bytes).msg_type = msgQueryOffset := rfl
  have hexit : ¬ (pathHeader msgQueryOffset task.rel_path.bytes).msg_type = msgExit := by
    rw [htype]
    decide
  unfold recvRelPath recvPath
  have hfits : ¬ (task.rel_path.bytes.length ≥ maxNetPath + 1 ∨
      task.rel_path.bytes.length > maxNetPath) := by omega
  simp only [if_neg hexit, if_neg hpos, hpath, if_neg hfits]
  rw [← List.append_nil task.rel_path.bytes] at hinput1
  apply (returns_readFull_cut (by omega) rfl hinput1).bind
  rintro r w2 ⟨rfl, hall2, hnone2⟩
  rcases Nat.lt_or_ge (cut - headerSize) task.rel_path.bytes.length with hk2 | hk2
  · rw [hnone2 hk2]
    apply (returns_sendError (by omega) _).bind
    rintro _ _ ⟨rfl, rfl⟩
    exact .ret (hunserved _ (clientResult_errorReply _) (by omega))
  obtain ⟨rfl, -⟩ := hall2 hk2
  have hcstring : cString task.rel_path.bytes = task.rel_path.bytes :=
    cString_of_nul_notMem task.rel_path.noNul
  have hlast : lastRelPath (pathHeader msgQueryOffset task.rel_path.bytes) task.rel_path.bytes [] =
      task.rel_path.bytes := by
    unfold lastRelPath
    rw [if_pos (Or.inr htype), hcstring]
  simp only [hlast]
  rw [dispatch_queryOffset htype, hcstring]
  apply (returns_serverHandleQueryOffset (by exact hready) (by exact hT) (by omega)).bind
  rintro _ _ ⟨rfl, rfl⟩
  refine returns_op_bind.mpr ?_
  have hagain : ¬ ((pathHeader msgQueryOffset task.rel_path.bytes).msg_type ≠ msgHello ∧
      (pathHeader msgQueryOffset task.rel_path.bytes).msg_type ≠ msgQueryOffset) := by
    rintro ⟨-, h⟩
    exact h htype
  simp only [reduceCtorEq, if_false, if_neg hagain]
  have hinput3 := @input_after_query S T config task tree cut peer hpeer (by omega)
  have houtput3 : ((((World.mk tree (connectedTo peer)).take headerSize).take
      task.rel_path.bytes.length).push (offsetReply T.length).encode).conn.output =
      (offsetReply T.length).encode := List.nil_append _
  apply (returns_secondRequest hready hT hT63 hshort hinput3 houtput3 hfuel hold).post
  intro _ w' hserved
  have hwhole : (queryBytes task ++ uploadStream config task S T.length).length ≤ cut ↔
      (uploadStream config task S T.length).length ≤ cut - (queryBytes task).length := by
    rw [List.length_append]
    omega
  rw [hwhole]
  exact hserved

end Session

end MiniSync
