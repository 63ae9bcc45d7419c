import MiniSync.FaultFree.Files
import MiniSync.Receive
import MiniSync.Server

/-!
# Receiving a stream that is cut

What the block loop of the server makes of a stream that ends anywhere: the
blocks that arrived completely have been written, and the result is a success
exactly where the end message has arrived.
-/

namespace MiniSync

open Prog

section Receive

variable {env : Env} {w w' : World} {fuel k : Nat}

theorem returns_readFull_cut {data rest : Bytes} {n : Nat} (hfuel : 3 ≤ fuel)
    (hn : data.length = n) (hinput : w.conn.input = (data ++ rest).take k) :
    (readFull fuel .socket n).Returns (posix env)
      (fun r w' => w' = w.take n ∧
        (n ≤ k → r = some data ∧ w'.conn.input = rest.take (k - n)) ∧ (k < n → r = none)) w := by
  apply (returns_readFull hfuel n).post
  rintro r w' ⟨rfl, rfl⟩
  refine ⟨rfl, fun hk => ?_, fun hk => ?_⟩
  · have htake : w.conn.input = data ++ rest.take (k - n) := by
      rw [hinput, List.take_append, List.take_of_length_le (by omega), hn]
    have hlen : n ≤ w.conn.input.length := by
      rw [htake, List.length_append]
      omega
    rw [if_pos hlen, World.take_conn, Conn.take_input, htake, ← hn, List.take_left, List.drop_left]
    exact ⟨rfl, rfl⟩
  · rw [if_neg]
    rw [hinput, List.length_take]
    omega

theorem returns_recvHeader_cut {h : SyncHeader} {rest : Bytes} (hfuel : 3 ≤ fuel)
    (hvalid : validateSyncHeader h = .ok) (hinput : w.conn.input = (h.encode ++ rest).take k) :
    (recvHeader fuel).Returns (posix env)
      (fun r w' => w' = w.take headerSize ∧
        (headerSize ≤ k → r = some h ∧ w'.conn.input = rest.take (k - headerSize)) ∧
        (k < headerSize → r = none)) w := by
  apply (returns_recvHeader hfuel).post
  rintro r w' ⟨rfl, rfl⟩
  refine ⟨rfl, fun hk => ?_, fun hk => ?_⟩
  · have htake : w.conn.input = h.encode ++ rest.take (k - headerSize) := by
      rw [hinput, List.take_append, List.take_of_length_le (by simpa using hk),
        SyncHeader.length_encode]
    rw [World.take_conn, Conn.take_input, htake, headerAt_encode hvalid]
    refine ⟨rfl, ?_⟩
    rw [← SyncHeader.length_encode h, List.drop_left]
  · apply headerAt_short
    rw [hinput, List.length_take]
    omega

/-- A file has been filled from the socket, and nothing has been sent. -/
structure Filled (out : TreePath) (data : Bytes) (w w' : World) : Prop where
  output : w'.conn.output = w.conn.output
  peer : w'.conn.peer = w.conn.peer
  file : w'.tree.lookup out = some (.file data)
  rest : ∀ q, q ≠ out → w'.tree.lookup q = w.tree.lookup q

theorem Filled.trans {out : TreePath} {data data' : Bytes} {w'' : World} (h : Filled out data w w')
    (h' : Filled out data' w' w'') : Filled out data' w w'' :=
  ⟨h'.output.trans h.output, h'.peer.trans h.peer, h'.file,
    fun q hq => (h'.rest q hq).trans (h.rest q hq)⟩

theorem filled_take {out : TreePath} {data : Bytes} (h : w.tree.content out = some data)
    (n : Nat) : Filled out data w (w.take n) :=
  ⟨rfl, rfl, FileTree.content_eq_some.mp h, fun _ _ => rfl⟩

theorem Filled.content {out : TreePath} {data : Bytes} (h : Filled out data w w') :
    w'.tree.content out = some data :=
  FileTree.content_eq_some.mpr h.file

theorem filled_put {out : TreePath} {data : Bytes} (hout : out ≠ []) :
    Filled out data w { w with tree := w.tree.put out (.file data) } := by
  refine ⟨rfl, rfl, ?_, fun q hq => ?_⟩
  · rw [FileTree.lookup_put hout, if_pos rfl]
  · rw [FileTree.lookup_put hout, if_neg hq]

theorem ne_root_of_content {out : TreePath} {data : Bytes}
    (h : w.tree.content out = some data) : out ≠ [] := by
  rintro rfl
  cases h

theorem returns_recvFileBlocksUntilEnd {out : TreePath} {start : Bytes} {blocks : List Block}
    {end_header : SyncHeader} (hout : w.tree.content out = some start)
    (haccepted : ∀ b ∈ blocks, b.Accepted) (hoff : ∀ b ∈ blocks, 0 ≤ b.header.offT)
    (hvalid : validateSyncHeader end_header = .ok) (hend : end_header.msg_type = msgFileEnd)
    {expected_hash : UInt64} (hhash : expected_hash = 0 ∨ expected_hash = end_header.total_hash)
    (hinput : w.conn.input = (blocks.flatMap Block.wire ++ end_header.encode).take k)
    (hfuel : blocks.length + 4 ≤ fuel) :
    (recvFileBlocksUntilEnd out expected_hash fuel).Returns (posix env)
      (fun r w' => (∃ j, Filled out (applyBlocks start (blocks.take j)) w w') ∧
        ((blocks.flatMap Block.wire ++ end_header.encode).length ≤ k →
          r = (.ok, end_header) ∧ Filled out (applyBlocks start blocks) w w') ∧
        (k < (blocks.flatMap Block.wire ++ end_header.encode).length → r.1 = .err)) w := by
  -- induction on the blocks that are still to come
  induction blocks generalizing w start k fuel with
  | nil =>
      obtain ⟨fuel, rfl⟩ := Nat.exists_eq_add_of_le' hfuel
      rw [List.flatMap_nil, List.nil_append] at hinput ⊢
      rw [← List.append_nil end_header.encode] at hinput
      have hagree : ¬ (expected_hash ≠ 0 ∧ end_header.total_hash ≠ 0 ∧
          expected_hash ≠ end_header.total_hash) := by
        rintro ⟨hne, -, hdiff⟩
        exact hhash.elim hne hdiff
      change Returns (posix env) _ (recvFileBlocksUntilEnd out expected_hash (fuel + 3 + 1)) w
      rw [recvFileBlocksUntilEnd]
      apply (returns_recvHeader_cut (by omega) hvalid hinput).bind
      rintro r w1 ⟨rfl, hall, hcut⟩
      rw [SyncHeader.length_encode]
      have hstill := filled_take hout headerSize
      rcases Nat.lt_or_ge k headerSize with hk | hk
      · rw [hcut hk]
        exact .ret ⟨⟨0, hstill⟩, fun h => by omega, fun _ => rfl⟩
      · rw [(hall hk).1]
        simp only [if_pos hend, if_neg hagree]
        exact .ret ⟨⟨0, hstill⟩, fun _ => ⟨rfl, hstill⟩, fun h => by omega⟩
  | cons b blocks ih =>
      have hb := haccepted b List.mem_cons_self
      have hnotend : ¬ b.header.msg_type = msgFileEnd := by
        rw [hb.isBlock]
        decide
      have hgood : ¬ (b.header.msg_type ≠ msgFileBlock ∨ b.header.data_len = 0 ∨
          b.header.data_len.toNat > maxBlockLen) := by
        have hshort := hb.short
        rw [not_or, not_or, not_not]
        exact ⟨hb.isBlock, hb.ne_nil, by omega⟩
      have hgoodhash : ¬ (b.header.block_hash ≠ 0 ∧ hashBufferFnv1a b.data ≠ b.header.block_hash) :=
        fun h => h.2 (hb.hash h.1)
      obtain ⟨fuel, rfl⟩ : ∃ f, fuel = f + 1 := ⟨fuel - 1, by omega⟩
      rw [List.length_cons] at hfuel
      have hwire : (b :: blocks).flatMap Block.wire ++ end_header.encode =
          b.header.encode ++ (b.data ++ (blocks.flatMap Block.wire ++ end_header.encode)) := by
        rw [List.flatMap_cons, Block.wire]
        simp
      have htotal : ((b :: blocks).flatMap Block.wire ++ end_header.encode).length =
          headerSize + (b.data.length +
            (blocks.flatMap Block.wire ++ end_header.encode).length) := by
        rw [hwire, List.length_append, SyncHeader.length_encode, List.length_append]
      rw [hwire] at hinput
      rw [htotal]
      rw [recvFileBlocksUntilEnd]
      apply (returns_recvHeader_cut (by omega) hb.valid hinput).bind
      rintro r w1 ⟨rfl, hall, hcut⟩
      have hstill1 := filled_take hout headerSize
      rcases Nat.lt_or_ge k headerSize with hk | hk
      · rw [hcut hk]
        exact .ret ⟨⟨0, hstill1⟩, fun h => by omega, fun _ => rfl⟩
      obtain ⟨rfl, hinput1⟩ := hall hk
      simp only [if_neg hnotend, if_neg hgood]
      refine returns_op_bind.mpr ?_
      simp only [posix, Bool.not_true, Bool.false_eq_true, if_false]
      apply (returns_readFull_cut (by omega) b.length_eq hinput1).bind
      rintro r w2 ⟨rfl, hall2, hcut2⟩
      have hstill2 := hstill1.trans (filled_take hstill1.content b.header.data_len.toNat)
      rw [b.length_eq]
      rcases Nat.lt_or_ge (k - headerSize) b.header.data_len.toNat with hk2 | hk2
      · rw [hcut2 hk2]
        exact .ret ⟨⟨0, hstill2⟩, fun h => by omega, fun _ => rfl⟩
      obtain ⟨rfl, hinput2⟩ := hall2 hk2
      simp only [if_neg hgoodhash]
      refine returns_op_bind.mpr ?_
      have hpos : b.header.offT = ((b.header.offT.toNat : Nat) : Int) :=
        (Int.toNat_of_nonneg (hoff b List.mem_cons_self)).symm
      rw [hpos, posix_pwrite hstill2.content]
      simp only [b.length_eq, ne_eq, not_true_eq_false, if_false]
      have hwrote : Filled out (Block.apply start b) w _ :=
        hstill2.trans (filled_put (ne_root_of_content hout))
      apply (ih hwrote.content (fun b' hb' => haccepted b' (List.mem_cons_of_mem _ hb'))
        (fun b' hb' => hoff b' (List.mem_cons_of_mem _ hb')) hinput2 (by omega)).post
      rintro r w' ⟨⟨j, hsome⟩, hok, herr⟩
      refine ⟨⟨j + 1, hwrote.trans hsome⟩, fun h => ?_, fun h => herr (by omega)⟩
      obtain ⟨hr, hfull⟩ := hok (by omega)
      exact ⟨hr, hwrote.trans hfull⟩

/-- A header that the block loop refuses. -/
theorem returns_recvFileBlocksUntilEnd_refused {out : TreePath} {h : SyncHeader} {rest : Bytes}
    (hvalid : validateSyncHeader h = .ok) (htype : h.msg_type = msgFileBlock)
    (hlen : h.data_len = 0 ∨ h.data_len.toNat > maxBlockLen)
    (hinput : w.conn.input = (h.encode ++ rest).take k) (expected_hash : UInt64)
    (hfuel : 4 ≤ fuel) :
    (recvFileBlocksUntilEnd out expected_hash fuel).Returns (posix env)
      (fun r w' => w' = w.take headerSize ∧ r.1 = .err) w := by
  obtain ⟨fuel, rfl⟩ := Nat.exists_eq_add_of_le' hfuel
  have hnotend : ¬ h.msg_type = msgFileEnd := by
    rw [htype]
    decide
  change Returns (posix env) _ (recvFileBlocksUntilEnd out expected_hash (fuel + 3 + 1)) w
  rw [recvFileBlocksUntilEnd]
  apply (returns_recvHeader_cut (by omega) hvalid hinput).bind
  rintro r w1 ⟨rfl, hall, hcut⟩
  rcases Nat.lt_or_ge k headerSize with hk | hk
  · rw [hcut hk]
    exact .ret ⟨rfl, rfl⟩
  · rw [(hall hk).1]
    simp only [if_neg hnotend, if_pos (Or.inr hlen : h.msg_type ≠ msgFileBlock ∨ _)]
    exact .ret ⟨rfl, rfl⟩

/-- The first block of a stream, whose header has been read. -/
theorem returns_recvFirstBlock {out : TreePath} {start rest : Bytes} {first : Block}
    (hout : w.tree.content out = some start) (hoff : 0 ≤ first.header.offT)
    (hhash : hashBufferFnv1a first.data = first.header.block_hash)
    (hinput : w.conn.input = (first.data ++ rest).take k) (hfuel : 3 ≤ fuel) :
    (recvFirstBlock fuel out first.header).Returns (posix env)
      (fun rc w' => (first.header.data_len.toNat ≤ k → rc = .ok ∧
          Filled out (first.apply start) w w' ∧
          w'.conn.input = rest.take (k - first.header.data_len.toNat)) ∧
        (k < first.header.data_len.toNat → rc = .err ∧ Filled out start w w')) w := by
  apply (returns_readFull_cut hfuel first.length_eq hinput).bind
  rintro r w1 ⟨rfl, hsome, hnone⟩
  have hstill := filled_take hout first.header.data_len.toNat
  rcases Nat.lt_or_ge k first.header.data_len.toNat with hk | hk
  · rw [hnone hk]
    exact .ret ⟨fun h => by omega, fun _ => ⟨rfl, hstill⟩⟩
  · obtain ⟨rfl, hinput1⟩ := hsome hk
    simp only [hhash, ne_eq, not_true_eq_false, if_false]
    refine returns_op_bind.mpr ?_
    have hpos : first.header.offT = ((first.header.offT.toNat : Nat) : Int) :=
      (Int.toNat_of_nonneg hoff).symm
    rw [hpos, posix_pwrite hstill.content]
    have hwrote : Filled out (first.apply start) w _ :=
      hstill.trans (filled_put (ne_root_of_content hout))
    refine .ret ⟨fun _ => ⟨?_, hwrote, hinput1⟩, fun h => by omega⟩
    rw [first.length_eq, if_pos rfl]

/-- A block stream whose first header has been read. -/
theorem returns_recvBlockStream {out : TreePath} {start : Bytes} {first : Block}
    {blocks : List Block} {end_header : SyncHeader} (hout : w.tree.content out = some start)
    (haccepted : ∀ b ∈ blocks, b.Accepted) (hoff : ∀ b ∈ first :: blocks, 0 ≤ b.header.offT)
    (hhash : hashBufferFnv1a first.data = first.header.block_hash)
    (hvalid : validateSyncHeader end_header = .ok) (hend : end_header.msg_type = msgFileEnd)
    (hinput : w.conn.input =
      (first.data ++ (blocks.flatMap Block.wire ++ end_header.encode)).take k)
    (hfuel : blocks.length + 4 ≤ fuel) :
    (recvBlockStream fuel out first.header).Returns (posix env)
      (fun r w' => (∃ j, Filled out (applyBlocks start ((first :: blocks).take j)) w w') ∧
        ((first.data ++ (blocks.flatMap Block.wire ++ end_header.encode)).length ≤ k →
          r = (.ok, end_header) ∧ Filled out (applyBlocks start (first :: blocks)) w w') ∧
        (k < (first.data ++ (blocks.flatMap Block.wire ++ end_header.encode)).length →
          r.1 = .err)) w := by
  rw [List.length_append, first.length_eq]
  apply (returns_recvFirstBlock hout (hoff first List.mem_cons_self) hhash hinput (by omega)).bind
  rintro rc w1 ⟨hall, hcut⟩
  rcases Nat.lt_or_ge k first.header.data_len.toNat with hk | hk
  · obtain ⟨rfl, hfilled⟩ := hcut hk
    exact .ret ⟨⟨0, hfilled⟩, fun h => by omega, fun _ => rfl⟩
  · obtain ⟨rfl, hfilled, hinput1⟩ := hall hk
    apply (returns_recvFileBlocksUntilEnd hfilled.content haccepted
      (fun b hb => hoff b (List.mem_cons_of_mem _ hb)) hvalid hend (Or.inl rfl) hinput1 hfuel).post
    rintro r w' ⟨⟨j, hsome⟩, hok, herr⟩
    refine ⟨⟨j + 1, hfilled.trans hsome⟩, fun h => ?_, fun h => herr (by omega)⟩
    obtain ⟨hr, hfull⟩ := hok (by omega)
    exact ⟨hr, hfilled.trans hfull⟩

/-- A block stream whose second header is refused. -/
theorem returns_recvBlockStream_refused {out : TreePath} {start rest : Bytes} {first : Block}
    {h : SyncHeader} (hout : w.tree.content out = some start) (hoff : 0 ≤ first.header.offT)
    (hhash : hashBufferFnv1a first.data = first.header.block_hash)
    (hvalid : validateSyncHeader h = .ok) (htype : h.msg_type = msgFileBlock)
    (hlen : h.data_len = 0 ∨ h.data_len.toNat > maxBlockLen)
    (hinput : w.conn.input = (first.data ++ (h.encode ++ rest)).take k) (hfuel : 4 ≤ fuel) :
    (recvBlockStream fuel out first.header).Returns (posix env)
      (fun r w' => r.1 = .err ∧ ∃ j, Filled out (applyBlocks start ([first].take j)) w w') w := by
  apply (returns_recvFirstBlock hout hoff hhash hinput (by omega)).bind
  rintro rc w1 ⟨hall, hcut⟩
  rcases Nat.lt_or_ge k first.header.data_len.toNat with hk | hk
  · obtain ⟨rfl, hfilled⟩ := hcut hk
    exact .ret ⟨rfl, 0, hfilled⟩
  · obtain ⟨rfl, hfilled, hinput1⟩ := hall hk
    apply (returns_recvFileBlocksUntilEnd_refused hvalid htype hlen hinput1 0 hfuel).post
    rintro r w' ⟨rfl, herr⟩
    exact ⟨herr, 1, hfilled.trans (filled_take hfilled.content headerSize)⟩

end Receive

end MiniSync
