import MiniSync.FaultFree.Files
import MiniSync.Transfer.Client

/-!
# The stream of a small upload

What `send_remote_small_file` sends: one message with the path, one block with as
many bytes as the task says the file has, and the end message.
-/

namespace MiniSync

open Prog

section Stream

variable (task : SyncTask) (S : Bytes)

/-- The bytes of the block, whose number is cut to 32 bits. -/
def smallData : Bytes := (S.take (taskSize task)).take (taskSize task % 2 ^ 32)

def smallBlock : Block where
  header := fileBlockHeader task (hashBufferFnv1a S) 0 (smallData task S)
  data := smallData task S
  length_eq := by
    have hmod : taskSize task % 2 ^ 32 < 2 ^ 32 := Nat.mod_lt _ (by omega)
    have hlen : (smallData task S).length < 2 ^ 32 := by
      rw [smallData, List.length_take]
      omega
    simp only [fileBlockHeader, UInt32.toNat_ofNat']
    exact (Nat.mod_eq_of_lt hlen).symm

/-- The blocks of a small file: one, or none for an empty file. -/
def smallBlocks : List Block := if taskSize task = 0 then [] else [smallBlock task S]

/-- `MSG_FILE_BEGIN` and its path. -/
def beginBytes : Bytes :=
  (fileBeginHeader task (hashBufferFnv1a S)).encode ++ task.rel_path.bytes

/-- What follows the path. -/
def smallBody : Bytes :=
  (smallBlocks task S).flatMap Block.wire ++ (fileEndHeader task (hashBufferFnv1a S)).encode

/-- What the client sends, whatever it hears. -/
def smallSends : Bytes :=
  if taskSize task ≤ S.length then beginBytes task S ++ smallBody task S else beginBytes task S

/-- What the client returns, given what it hears. -/
def smallResult (answer : Bytes) : Rc :=
  if taskSize task ≤ S.length then ackOf answer else .err

end Stream

section Client

variable {env : Env} {w : World} {fuel : Nat} {config : ClientConfig} {task : SyncTask}
  {S : Bytes}

/-- Reading a number of bytes from the front of a file. -/
theorem returns_readFull_file {fd : TreePath} {data : Bytes} (hdata : w.tree.content fd = some data)
    (hfuel : 3 ≤ fuel) (n : Nat) :
    (readFull fuel (.file fd 0) n).Returns (posix env)
      (fun r w' => w' = w ∧ r = if n ≤ data.length then some (data.take n) else none) w := by
  obtain ⟨fuel, rfl⟩ := Nat.exists_eq_add_of_le' hfuel
  have hread : (readnLoop (.file fd 0) (fuel + 3) n []).Returns (posix env)
      (fun r w' => w' = w ∧ r = some (data.take n)) w := by
    rw [readnLoop]
    split_ifs with hn
    · exact .ret ⟨rfl, by rw [hn]; rfl⟩
    refine returns_op_bind.mpr ?_
    rw [posix_read hdata]
    simp only [List.length_nil, Nat.add_zero, List.drop_zero, List.nil_append]
    split_ifs with hnil
    · exact .ret ⟨rfl, by rw [hnil]⟩
    rw [readnLoop]
    split_ifs with hleft
    · exact .ret ⟨rfl, rfl⟩
    refine returns_op_bind.mpr ?_
    rw [posix_read hdata]
    have hend : data.drop (0 + (data.take n).length) = [] := by
      rw [List.length_take] at hleft ⊢
      rw [List.drop_eq_nil_iff]
      omega
    simp only [hend, List.take_nil, if_true]
    exact .ret ⟨rfl, rfl⟩
  unfold readFull readn
  apply hread.bind
  rintro r _ ⟨rfl, rfl⟩
  refine .ret ⟨rfl, ?_⟩
  by_cases hle : n ≤ data.length
  · simp [hle]
  · have hne : ¬ min n data.length = n := by omega
    simp [hle, hne]

theorem returns_sendPath (hfuel : 2 ≤ fuel) :
    (sendPath fuel task.rel_path.bytes).Returns (posix env)
      (fun rc w' => w' = w.push task.rel_path.bytes ∧ rc = .ok) w := by
  have hlen := task.rel_path.length_lt
  have hnet : maxPathLen = maxNetPath := rfl
  unfold sendPath
  rw [if_neg (by omega)]
  exact returns_writeFull hfuel _

theorem returns_sendSmallBlock (hfuel : 2 ≤ fuel) :
    (sendFileBlock fuel task (hashBufferFnv1a S) 0 (smallData task S)).Returns
      (posix env) (fun rc w' => w' = w.push (smallBlock task S).wire ∧ rc = .ok) w := by
  apply (returns_sendHeader hfuel _).bind
  rintro _ _ ⟨rfl, rfl⟩
  apply (returns_writeFull hfuel _).post
  rintro rc w' ⟨rfl, rfl⟩
  exact ⟨World.push_push _ _ _, rfl⟩

/-- The end message and the answer to it. -/
theorem returns_sendFileEnd_waitForAck (hfuel : 3 ≤ fuel) :
    (do
      let rc ← sendFileEnd fuel task (hashBufferFnv1a S)
      andThen rc (waitForAck fuel)).Returns (posix env)
      (fun rc w' => rc = ackOf (w.push (fileEndHeader task (hashBufferFnv1a S)).encode).conn.input ∧
        w'.conn.output = w.conn.output ++ (fileEndHeader task (hashBufferFnv1a S)).encode) w := by
  apply (returns_sendHeader (by omega) _).bind
  rintro _ _ ⟨rfl, rfl⟩
  rw [andThen_ok]
  apply (returns_waitForAck hfuel).post
  rintro rc _ ⟨rfl, rfl⟩
  exact ⟨rfl, rfl⟩

theorem returns_sendWholeFile {in_ : TreePath} (hS : w.tree.content in_ = some S)
    (hlisten : ∀ a b, w.conn.peer a = w.conn.peer b) (hfuel : 3 ≤ fuel) :
    (sendWholeFile fuel task (hashBufferFnv1a S) in_).Returns (posix env)
      (fun rc w' => rc = smallResult task S w.conn.input ∧ w'.conn.output = w.conn.output ++
        if taskSize task ≤ S.length then smallBody task S else []) w := by
  unfold sendWholeFile smallResult smallBody smallBlocks
  refine returns_op_bind.mpr ?_
  rw [posix_malloc]
  simp only [Bool.not_true, Bool.false_eq_true, if_false]
  by_cases hzero : taskSize task = 0
  · rw [if_pos hzero, if_pos hzero, if_pos (by omega), if_pos (by omega)]
    apply (returns_sendFileEnd_waitForAck hfuel).post
    rintro rc w' ⟨rfl, hout⟩
    rw [World.push_conn, Conn.push_input hlisten, List.flatMap_nil, List.nil_append]
    exact ⟨rfl, hout⟩
  rw [if_neg hzero, if_neg hzero]
  apply (returns_readFull_file hS hfuel (taskSize task)).bind
  rintro _ w ⟨rfl, rfl⟩
  by_cases hle : taskSize task ≤ S.length
  · rw [if_pos hle, if_pos hle, if_pos hle]
    have hlisten1 : ∀ a b, (w.conn.push (smallBlock task S).wire).peer a =
        (w.conn.push (smallBlock task S).wire).peer b := hlisten
    apply (returns_sendSmallBlock (by omega)).bind
    rintro _ _ ⟨rfl, rfl⟩
    rw [andThen_ok]
    apply (returns_sendFileEnd_waitForAck hfuel).post
    rintro rc w' ⟨rfl, hout⟩
    refine ⟨?_, ?_⟩
    · rw [World.push_conn, World.push_conn, Conn.push_input hlisten1, Conn.push_input hlisten]
    · rw [hout, World.push_conn, Conn.push_output]
      simp
  · rw [if_neg hle, if_neg hle, if_neg hle]
    exact .ret ⟨rfl, (List.append_nil _).symm⟩

/-- `send_remote_small_file` against a server that answers `answer`. -/
theorem returns_sendRemoteSmallFile {tree : Tree} (hfile : SourceFile env tree task S)
    (hfuel : S.length + 3 ≤ fuel) (answer : Bytes) :
    (sendRemoteSmallFile fuel task).Returns (posix env)
      (fun rc w' => rc = smallResult task S answer ∧ w'.conn.output = smallSends task S)
      ⟨tree, hearing answer⟩ := by
  unfold sendRemoteSmallFile
  refine returns_op_bind.mpr ?_
  have hhash : (hashFileFnv1a fuel task.src_path.bytes).Returns (posix env) _
      ⟨tree, hearing answer⟩ := returns_hashFileFnv1a hfile.readable (by omega)
  apply hhash.bind
  rintro _ _ ⟨rfl, rfl⟩
  apply (returns_sendHeader (by omega) _).bind
  rintro _ _ ⟨rfl, rfl⟩
  rw [andThen_ok]
  apply (returns_sendPath (by omega)).bind
  rintro _ _ ⟨rfl, rfl⟩
  simp only [reduceCtorEq, if_false]
  refine returns_op_bind.mpr ?_
  rw [posix_openRead hfile.readable]
  have hsend : (sendWholeFile fuel task (hashBufferFnv1a S)
      (resolve env.cwd task.src_path.bytes)).Returns (posix env) _
      ((World.push ⟨tree, hearing answer⟩
        (fileBeginHeader task (hashBufferFnv1a S)).encode).push task.rel_path.bytes) :=
    returns_sendWholeFile hfile.readable.content (fun _ _ => rfl) (by omega)
  apply hsend.bind
  rintro rc w ⟨rfl, hout⟩
  refine returns_op_bind.mpr (.ret ⟨rfl, ?_⟩)
  change w.conn.output = _
  rw [hout, World.push_conn, Conn.push_output, World.push_conn, Conn.push_output]
  unfold smallSends beginBytes
  split_ifs
  · rw [hearing, List.nil_append]
  · rw [hearing, List.nil_append, List.append_nil]

/-- A small file. -/
theorem returns_syncTaskRemote_small {tree : Tree} (hup : Uploads task)
    (hfile : SourceFile env tree task S) (hsmall : ¬ task.file_size > config.hash_threshold)
    (hfuel : S.length + 3 ≤ fuel) (answer : Bytes) :
    (syncTaskRemote fuel config task).Returns (posix env)
      (fun rc w' => rc = smallResult task S answer ∧ w'.conn.output = smallSends task S)
      ⟨tree, hearing answer⟩ := by
  rw [hup.syncTaskRemote_eq, if_neg hsmall]
  exact returns_withSourceFile hfile.readable (returns_sendRemoteSmallFile hfile hfuel answer)

end Client

end MiniSync
