import MiniSync.Receive
import MiniSync.Session
import MiniSync.Transfer.Remote

/-!
# The stream of a large upload

What `send_remote_large_file` sends over a connection, as a function of what the
server has answered: first the query, and after the offset reply the blocks from
that offset on and the end message.
-/

namespace MiniSync

open Prog

section Stream

variable (config : ClientConfig) (task : SyncTask) (S : Bytes)

/-- One `read` of the client at `pos`. -/
def chunkAt (pos : Nat) : Bytes := (S.drop pos).take config.block_size

theorem length_chunkAt (pos : Nat) :
    (chunkAt config S pos).length = min config.block_size (S.length - pos) := by
  rw [chunkAt, List.length_take, List.length_drop]

theorem chunkAt_eq_nil {pos : Nat} : chunkAt config S pos = [] ↔ S.length ≤ pos := by
  have hpos := config.block_size_pos
  rw [← List.length_eq_zero_iff, length_chunkAt]
  omega

/-- The block sent for the bytes at `pos`. -/
def fileBlock (pos : Nat) : Block where
  header := fileBlockHeader task (hashBufferFnv1a S) (.ofNat pos) (chunkAt config S pos)
  data := chunkAt config S pos
  length_eq := by
    have hlt := config.block_size_lt
    have hlen := length_chunkAt config S pos
    have hsmall : (chunkAt config S pos).length < 2 ^ 32 := by omega
    simp only [fileBlockHeader, UInt32.toNat_ofNat']
    exact (Nat.mod_eq_of_lt hsmall).symm

/-- The blocks from `pos` to the end of the file, `n` of them at most. -/
def fileBlocks : Nat → Nat → List Block
  | 0, _ => []
  | n + 1, pos =>
      if chunkAt config S pos = [] then []
      else fileBlock config task S pos :: fileBlocks n (pos + (chunkAt config S pos).length)

/-- Everything after the query. -/
def uploadStream (pos : Nat) : Bytes :=
  (fileBlocks config task S S.length pos).flatMap Block.wire ++
    (fileEndHeader task (hashBufferFnv1a S)).encode

/-- `MSG_QUERY_OFFSET` and its path. -/
def queryBytes : Bytes :=
  (pathHeader msgQueryOffset task.rel_path.bytes).encode ++ task.rel_path.bytes

variable {config task S}

theorem fileBlocks_nil {n pos : Nat} (hpos : S.length ≤ pos) :
    fileBlocks config task S n pos = [] := by
  cases n with
  | zero => rfl
  | succ n => rw [fileBlocks, if_pos ((chunkAt_eq_nil config S).mpr hpos)]

theorem fileBlocks_succ {n pos : Nat} (hpos : pos < S.length) :
    fileBlocks config task S (n + 1) pos =
      fileBlock config task S pos ::
        fileBlocks config task S n (pos + (chunkAt config S pos).length) := by
  rw [fileBlocks, if_neg (fun h => absurd ((chunkAt_eq_nil config S).mp h) (by omega))]

theorem length_fileBlocks_le (n pos : Nat) : (fileBlocks config task S n pos).length ≤ n := by
  induction n generalizing pos with
  | zero => exact Nat.le_refl 0
  | succ n ih =>
      have hrest := ih (pos + (chunkAt config S pos).length)
      rw [fileBlocks]
      split_ifs
      · exact Nat.zero_le _
      · rw [List.length_cons]
        omega

/-! ## What the blocks make of a file -/

theorem toNat_ofNat_of_lt {pos : Nat} (h : pos < 2 ^ 63) : (UInt64.ofNat pos).toNat = pos := by
  rw [UInt64.toNat_ofNat']
  exact Nat.mod_eq_of_lt (by omega)

theorem offT_of_lt {pos : Nat} (h : pos < 2 ^ 63) :
    (UInt64.ofNat pos).toInt64.toInt = pos := by
  have hnat := toNat_ofNat_of_lt h
  rw [Int64.toInt, UInt64.toBitVec_toInt64, BitVec.toInt_eq_toNat_of_lt]
  · rw [UInt64.toNat_toBitVec, hnat]
  · rw [UInt64.toNat_toBitVec, hnat]
    omega

theorem fileBlock_offT {pos : Nat} (h : pos < 2 ^ 63) :
    (fileBlock config task S pos).header.offT = pos := offT_of_lt h

theorem fileBlocks_offT {n pos : Nat} (hshort : S.length < 2 ^ 63) :
    ∀ b ∈ fileBlocks config task S n pos, 0 ≤ b.header.offT := by
  induction n generalizing pos with
  | zero => nofun
  | succ n ih =>
      rcases Nat.lt_or_ge pos S.length with hlt | hge
      · rw [fileBlocks_succ hlt]
        intro b hb
        rcases List.mem_cons.mp hb with rfl | hb
        · rw [fileBlock_offT (by omega)]
          omega
        · exact ih b hb
      · rw [fileBlocks_nil hge]
        nofun

/-- The file `T` after `S` has been sent from the end of `T` on. -/
def resumed (T S : Bytes) : Bytes := T ++ S.drop T.length

/-- Resuming is sound where `T` is a part of `S`. -/
theorem resumed_of_isPrefix {T : Bytes} (h : T <+: S) : resumed T S = S := by
  obtain ⟨rest, rfl⟩ := h
  rw [resumed, List.drop_left]

theorem length_resumed {T : Bytes} (h : T.length ≤ S.length) :
    (resumed T S).length = S.length := by
  rw [resumed, List.length_append, List.length_drop]
  omega

theorem resumed_append_chunkAt (T : Bytes) :
    resumed (T ++ chunkAt config S T.length) S = resumed T S := by
  unfold resumed
  rw [List.append_assoc, List.append_cancel_left_eq, List.length_append, ← List.drop_drop]
  unfold chunkAt
  rcases Nat.le_total config.block_size (S.drop T.length).length with hle | hle
  · rw [List.length_take, Nat.min_eq_left hle, List.take_append_drop]
  · rw [List.take_of_length_le hle, List.drop_length, List.append_nil]

/-- All blocks from the end of a file on complete it; the first `j` of them a part
of that. -/
theorem applyBlocks_fileBlocks {n : Nat} {T : Bytes} (hshort : S.length < 2 ^ 63)
    (hn : S.length ≤ T.length + n) :
    applyBlocks T (fileBlocks config task S n T.length) = resumed T S ∧
      ∀ j, applyBlocks T ((fileBlocks config task S n T.length).take j) <+: resumed T S := by
  have hdone : S.length ≤ T.length → resumed T S = T := by
    intro hle
    rw [resumed, List.drop_of_length_le hle, List.append_nil]
  induction n generalizing T with
  | zero =>
      rw [hdone (by omega)]
      refine ⟨rfl, fun j => ?_⟩
      rw [fileBlocks, List.take_nil]
      exact List.prefix_rfl
  | succ n ih =>
      rcases Nat.lt_or_ge T.length S.length with hlt | hge
      · have hbs := config.block_size_pos
        have hlen := length_chunkAt config S T.length
        have happly : Block.apply T (fileBlock config task S T.length) =
            T ++ chunkAt config S T.length := by
          unfold Block.apply
          rw [fileBlock_offT (by omega), Int.toNat_natCast]
          exact ByteString.splice_end
        have hnext : (T ++ chunkAt config S T.length).length =
            T.length + (chunkAt config S T.length).length := List.length_append
        obtain ⟨hall, hsome⟩ := ih (T := T ++ chunkAt config S T.length) (by omega) fun hle => by
          rw [resumed, List.drop_of_length_le hle, List.append_nil]
        rw [resumed_append_chunkAt, hnext] at hall hsome
        rw [fileBlocks_succ hlt]
        refine ⟨?_, fun j => ?_⟩
        · rw [applyBlocks, List.foldl_cons, happly]
          exact hall
        · cases j with
          | zero => exact List.prefix_append T _
          | succ j =>
              rw [List.take_succ_cons, applyBlocks, List.foldl_cons, happly]
              exact hsome j
      · rw [fileBlocks_nil hge, hdone hge]
        refine ⟨rfl, fun j => ?_⟩
        rw [List.take_nil]
        exact List.prefix_rfl

theorem validateSyncHeader_eq_ok {h : SyncHeader} (hmagic : h.magic = protocolMagic)
    (hversion : h.version = protocolVersion) (hpath : h.path_len.toNat ≤ maxNetPath) :
    validateSyncHeader h = .ok := by
  unfold validateSyncHeader
  rw [if_neg (not_not.mpr hmagic), if_neg (not_not.mpr hversion), if_neg (by omega)]

/-- The server accepts every block from `pos` on. -/
theorem accepted_fileBlocks {n pos : Nat}
    (hbs : config.block_size ≤ maxBlockLen ∨ S.length ≤ pos + maxBlockLen) :
    ∀ b ∈ fileBlocks config task S n pos, b.Accepted := by
  induction n generalizing pos with
  | zero => nofun
  | succ n ih =>
      rcases Nat.lt_or_ge pos S.length with hlt | hge
      · rw [fileBlocks_succ hlt]
        intro b hb
        rcases List.mem_cons.mp hb with rfl | hb
        · have hpos := config.block_size_pos
          have hlen := length_chunkAt config S pos
          have hdata : (fileBlock config task S pos).header.data_len.toNat =
              (chunkAt config S pos).length := (fileBlock config task S pos).length_eq.symm
          refine ⟨validateSyncHeader_eq_ok rfl rfl (Nat.zero_le _), rfl,
            ?_, ?_, fun _ => rfl⟩
          · intro h0
            rw [h0] at hdata
            have hzero : (0 : UInt32).toNat = 0 := rfl
            omega
          · omega
        · exact ih (by omega) b hb
      · rw [fileBlocks_nil hge]
        nofun

end Stream

/-! ## What the client sends -/

section Client

variable {env : Env} {w : World} {fuel : Nat} {config : ClientConfig} {task : SyncTask}
  {S : Bytes}

theorem path_len_pathHeader (msg_type : UInt32) (task : SyncTask) :
    (pathHeader msg_type task.rel_path.bytes).path_len.toNat = task.rel_path.bytes.length := by
  have hlen := task.rel_path.length_lt
  unfold maxPathLen at hlen
  simp only [pathHeader, UInt32.toNat_ofNat']
  exact Nat.mod_eq_of_lt (by omega)

theorem returns_sendHeaderWithPath (hfuel : 2 ≤ fuel) :
    (sendHeaderWithPath fuel msgQueryOffset task.rel_path.bytes).Returns (posix env)
      (fun rc w' => w' = w.push (queryBytes task) ∧ rc = .ok) w := by
  have hlen := task.rel_path.length_lt
  unfold maxPathLen at hlen
  unfold sendHeaderWithPath sendPath
  rw [path_len_pathHeader, if_neg (by unfold maxNetPath; omega)]
  apply (returns_sendHeader hfuel _).bind
  rintro _ _ ⟨rfl, rfl⟩
  simp only
  rw [if_neg (by unfold maxNetPath; omega)]
  apply (returns_writeFull hfuel _).post
  rintro rc w' ⟨rfl, rfl⟩
  exact ⟨World.push_push _ _ _, rfl⟩

theorem returns_sendFileBlock (hfuel : 2 ≤ fuel) (pos : Nat) :
    (sendFileBlock fuel task (hashBufferFnv1a S) (.ofNat pos) (chunkAt config S pos)).Returns
      (posix env) (fun rc w' => w' = w.push (fileBlock config task S pos).wire ∧ rc = .ok) w := by
  apply (returns_sendHeader hfuel _).bind
  rintro _ _ ⟨rfl, rfl⟩
  apply (returns_writeFull hfuel _).post
  rintro rc w' ⟨rfl, rfl⟩
  exact ⟨World.push_push _ _ _, rfl⟩

theorem returns_sendBlocksLoop {in_ : TreePath} (hS : w.tree.content in_ = some S)
    (hshort : S.length < 2 ^ 63) {n pos : Nat} (hn : S.length ≤ pos + n) (hfuel : n + 3 ≤ fuel) :
    (sendBlocksLoop config task (hashBufferFnv1a S) in_ fuel pos (.ofNat pos)).Returns (posix env)
      (fun rc w' => w' = w.push ((fileBlocks config task S n pos).flatMap Block.wire) ∧
        rc = .ok) w := by
  induction n generalizing fuel pos w with
  | zero =>
      obtain ⟨fuel, rfl⟩ := Nat.exists_eq_add_of_le' hfuel
      rw [sendBlocksLoop]
      refine returns_op_bind.mpr ?_
      rw [posix_read hS]
      have hnil : chunkAt config S pos = [] := (chunkAt_eq_nil config S).mpr (by omega)
      change Returns (posix env) _ (if chunkAt config S pos = [] then _ else _) w
      rw [if_pos hnil]
      exact .ret ⟨(World.push_nil w).symm, rfl⟩
  | succ n ih =>
      obtain ⟨fuel, rfl⟩ : ∃ f, fuel = f + 1 := ⟨fuel - 1, by omega⟩
      rw [sendBlocksLoop]
      refine returns_op_bind.mpr ?_
      rw [posix_read hS]
      change Returns (posix env) _ (if chunkAt config S pos = [] then _ else _) w
      rcases Nat.lt_or_ge pos S.length with hlt | hge
      · rw [if_neg (fun h => absurd ((chunkAt_eq_nil config S).mp h) (by omega))]
        apply (returns_sendFileBlock (by omega) pos).bind
        rintro _ _ ⟨rfl, rfl⟩
        have hlen := length_chunkAt config S pos
        have hbs := config.block_size_pos
        have hnext : UInt64.ofNat pos + .ofNat (chunkAt config S pos).length =
            .ofNat (pos + (chunkAt config S pos).length) := (UInt64.ofNat_add _ _).symm
        simp only
        change Returns (posix env) _ (sendBlocksLoop config task _ in_ fuel
          (pos + (chunkAt config S pos).length)
          (UInt64.ofNat pos + .ofNat (chunkAt config S pos).length)) _
        rw [hnext]
        apply (ih (by simpa using hS) (by omega) (by omega)).post
        rintro rc w' ⟨rfl, rfl⟩
        rw [fileBlocks_succ hlt, List.flatMap_cons, World.push_push]
        exact ⟨rfl, rfl⟩
      · rw [if_pos ((chunkAt_eq_nil config S).mpr hge), fileBlocks_nil hge]
        exact .ret ⟨(World.push_nil w).symm, rfl⟩

/-- The client can read the file. -/
structure SourceFile (env : Env) (tree : Tree) (task : SyncTask) (S : Bytes) : Prop where
  readable : Readable env.cwd tree task.src_path.bytes S
  /-- Its size is an `off_t`. -/
  short : S.length < 2 ^ 63

/-- The offset in an answer to the query. -/
def replyOffset (answer : Bytes) : Option UInt64 := do
  let reply ← headerAt answer
  if reply.msg_type = msgOffsetReply then some reply.offset else none

/-- What `wait_for_ack` makes of an answer. -/
def ackOf (answer : Bytes) : Rc :=
  match headerAt answer with
  | none => .err
  | some reply => if reply.msg_type = msgAck ∨ reply.msg_type = msgOffsetReply then .ok else .err

/-- What the client sends, given what it receives. -/
def clientSends (config : ClientConfig) (task : SyncTask) (S answer : Bytes) : Bytes :=
  match replyOffset answer with
  | none => queryBytes task
  | some offset =>
      if offset.toInt64.toInt < 0 then queryBytes task
      else queryBytes task ++ uploadStream config task S offset.toNat

/-- What the client returns, given what it receives. -/
def clientResult (answer : Bytes) : Rc :=
  match replyOffset answer with
  | none => .err
  | some offset =>
      if offset.toInt64.toInt < 0 then .err else ackOf (answer.drop headerSize)

theorem returns_waitForAck (hfuel : 3 ≤ fuel) :
    (waitForAck fuel).Returns (posix env)
      (fun rc w' => w' = w.take headerSize ∧ rc = ackOf w.conn.input) w := by
  apply (returns_recvHeader hfuel).bind
  rintro r w' ⟨rfl, rfl⟩
  unfold ackOf
  cases headerAt w.conn.input with
  | none => exact .ret ⟨rfl, rfl⟩
  | some reply => exact .ret ⟨rfl, rfl⟩

theorem returns_queryRemoteOffset (hfuel : 3 ≤ fuel) :
    (queryRemoteOffset fuel task).Returns (posix env)
      (fun r w' => w' = (w.push (queryBytes task)).take headerSize ∧
        r = replyOffset (w.push (queryBytes task)).conn.input) w := by
  apply (returns_sendHeaderWithPath (by omega)).bind
  rintro _ _ ⟨rfl, rfl⟩
  apply (returns_recvHeader hfuel).bind
  rintro r w' ⟨rfl, rfl⟩
  unfold replyOffset
  cases headerAt (w.push (queryBytes task)).conn.input with
  | none => exact .ret ⟨rfl, rfl⟩
  | some reply => exact .ret ⟨rfl, rfl⟩

theorem returns_sendFromOffset {in_ : TreePath} (hS : w.tree.content in_ = some S)
    (hshort : S.length < 2 ^ 63) (hfuel : S.length + 3 ≤ fuel) (offset : UInt64) :
    (sendFromOffset fuel config task (hashBufferFnv1a S) in_ offset).Returns (posix env)
      (fun rc w' => w' = (w.push (uploadStream config task S offset.toNat)).take headerSize ∧
        rc = ackOf (w.push (uploadStream config task S offset.toNat)).conn.input) w := by
  have hloop : (sendBlocksLoop config task (hashBufferFnv1a S) in_ fuel offset.toNat
      (.ofNat offset.toNat)).Returns (posix env) _ w :=
    returns_sendBlocksLoop hS hshort (by omega : S.length ≤ offset.toNat + S.length) hfuel
  rw [UInt64.ofNat_toNat] at hloop
  apply hloop.bind
  rintro _ _ ⟨rfl, rfl⟩
  apply (returns_sendHeader (by omega) _).bind
  rintro _ _ ⟨rfl, rfl⟩
  apply (returns_waitForAck (by omega)).post
  rintro rc w' ⟨rfl, rfl⟩
  rw [World.push_push]
  exact ⟨rfl, rfl⟩

/-- `send_remote_large_file` against a server that answers `answer`. -/
theorem returns_sendRemoteLargeFile {tree : Tree} (hfile : SourceFile env tree task S)
    (hfuel : S.length + 3 ≤ fuel) (answer : Bytes) :
    (sendRemoteLargeFile fuel config task).Returns (posix env)
      (fun rc w' => rc = clientResult answer ∧
        w'.conn.output = clientSends config task S answer)
      ⟨tree, hearing answer⟩ := by
  unfold sendRemoteLargeFile
  refine returns_op_bind.mpr ?_
  have hquery : (queryRemoteOffset fuel task).Returns (posix env) _ ⟨tree, hearing answer⟩ :=
    returns_queryRemoteOffset (by omega)
  apply hquery.bind
  rintro r w1 ⟨rfl, rfl⟩
  unfold clientResult clientSends
  change Returns (posix env) _ (match replyOffset answer with | none => _ | some offset => _) _
  cases replyOffset answer with
  | none => exact .ret ⟨rfl, rfl⟩
  | some offset =>
      refine returns_op_bind.mpr ?_
      rw [posix_openRead hfile.readable]
      simp only
      apply (returns_hashFileFnv1a hfile.readable (by omega)).bind
      rintro hash w2 ⟨rfl, rfl⟩
      refine returns_op_bind.mpr ?_
      by_cases hneg : offset.toInt64.toInt < 0
      · rw [posix_lseek_neg hneg, if_pos hneg, if_pos hneg]
        exact returns_op_bind.mpr (.ret ⟨rfl, rfl⟩)
      rw [posix_lseek hneg, if_neg hneg, if_neg hneg]
      refine returns_op_bind.mpr ?_
      have hsend : (sendFromOffset fuel config task (hashBufferFnv1a S)
          (resolve env.cwd task.src_path.bytes) offset).Returns (posix env) _
          ((World.push ⟨tree, hearing answer⟩ (queryBytes task)).take headerSize) :=
        returns_sendFromOffset hfile.readable.content hfile.short hfuel offset
      apply hsend.bind
      rintro rc w3 ⟨rfl, rfl⟩
      refine returns_op_bind.mpr (.ret ⟨?_, rfl⟩)
      have hinput : ((hearing answer).push (queryBytes task)).input = answer := rfl
      rw [World.push_conn, World.take_conn, World.push_conn, Conn.push_input (fun _ _ => rfl),
        Conn.take_input, hinput]

end Client

end MiniSync
