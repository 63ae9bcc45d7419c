import MiniSync.Effects
import MiniSync.Server

/-!
# Receiving a stream of blocks

What a byte stream has to be for the server to accept it, and what the accepted
blocks make of the temporary file.
-/

namespace MiniSync

open Prog

/-! ## Blocks -/

/-- A block header and the data announced by it. -/
structure Block where
  header : SyncHeader
  data : Bytes
  length_eq : data.length = header.data_len.toNat

namespace Block

/-- A block as it is sent. -/
def wire (b : Block) : Bytes := b.header.encode ++ b.data

/-- A block written into a file. -/
def apply (content : Bytes) (b : Block) : Bytes :=
  ByteString.splice 0 content b.header.offT.toNat b.data

/-- What the block loop asks of a block. -/
structure Accepted (b : Block) : Prop where
  valid : validateSyncHeader b.header = .ok
  isBlock : b.header.msg_type = msgFileBlock
  ne_nil : b.header.data_len ≠ 0
  short : b.header.data_len.toNat ≤ maxBlockLen
  hash : b.header.block_hash ≠ 0 → hashBufferFnv1a b.data = b.header.block_hash

end Block

/-- A file after all blocks of a stream have been written over `start`. -/
def applyBlocks (start : Bytes) (blocks : List Block) : Bytes := blocks.foldl Block.apply start

/-- The bytes `input` are accepted blocks, an end message and `rest`. -/
structure BlockStream (input : Bytes) (blocks : List Block) (end_header : SyncHeader)
    (rest : Bytes) : Prop where
  bytes : input = blocks.flatMap Block.wire ++ (end_header.encode ++ rest)
  accepted : ∀ b ∈ blocks, b.Accepted
  isEnd : end_header.msg_type = msgFileEnd

theorem BlockStream.cons {input rest : Bytes} {b : Block} {blocks : List Block}
    {end_header : SyncHeader} (hb : b.Accepted) (h : BlockStream input blocks end_header rest) :
    BlockStream (b.wire ++ input) (b :: blocks) end_header rest := by
  refine ⟨?_, ?_, h.isEnd⟩
  · rw [h.bytes, List.flatMap_cons, List.append_assoc]
  · intro b' hb'
    rcases List.mem_cons.mp hb' with rfl | hmem
    · exact hb
    · exact h.accepted b' hmem

/-! ## Reading from the socket -/

/-- Outside `X` only directories are made; bytes are received, none are sent. -/
def Hears (X : TreePath → Prop) (w w' : World) : Prop :=
  w.tree.Touches X w'.tree ∧ w'.conn.output = w.conn.output ∧ w'.conn.peer = w.conn.peer

instance (X : TreePath → Prop) : IsPreorder World (Hears X) where
  refl _ := ⟨.refl X _, rfl, rfl⟩
  trans _ _ _ h h' := ⟨h.1.trans h'.1, h'.2.1.trans h.2.1, h'.2.2.trans h.2.2⟩

theorem Tidy.hears {X : TreePath → Prop} {w w' : World} (h : Tidy X w w') : Hears X w w' := by
  obtain ⟨htree, hconn⟩ := h
  rw [Hears, hconn]
  exact ⟨htree, rfl, rfl⟩

theorem Hears.mono {X Y : TreePath → Prop} {w w' : World} (h : Hears X w w')
    (hXY : ∀ q, X q → Y q) : Hears Y w w' := ⟨h.1.mono hXY, h.2⟩

/-- The bytes `got` have been received and nothing else has happened. -/
def Got (got : Bytes) (w w' : World) : Prop :=
  w'.tree = w.tree ∧ w.conn.input = got ++ w'.conn.input

variable {cwd : TreePath} {mayFail : Call TreePath → Errno → Prop} {w : World}
  {X : TreePath → Prop}

theorem moves_readnLoop (fuel left : Nat) (buf : Bytes) :
    (readnLoop .socket fuel left buf).Moves (Kernel cwd mayFail) (Hears X)
      (fun r w' => ∀ all, r = some all → ∃ got, all = buf ++ got ∧ Got got w w') w := by
  induction fuel generalizing left buf w with
  | zero => exact Moves.spin
  | succ fuel ih =>
      rw [readnLoop]
      split_ifs with hleft
      · refine Moves.ret fun all hall => ⟨[], ?_, rfl, rfl⟩
        rw [← Option.some.inj hall, List.append_nil]
      · apply Moves.op_bind
        intro r w' hK
        rcases hK.recvCases with ⟨⟨e, rfl⟩, rfl⟩ | ⟨n, hn, -, rfl, rfl⟩
        · refine ⟨refl_of (Hears X) w', ?_⟩
          split
          · exact ih _ _
          · exact Moves.ret nofun
          · rename_i heq
            cases heq
        · refine ⟨⟨.refl X _, rfl, rfl⟩, ?_⟩
          have hgot : Got (w.conn.input.take n) w { w with conn := w.conn.take n } := by
            refine ⟨rfl, ?_⟩
            simp
          simp only
          split_ifs with hnil
          · refine Moves.ret fun all hall => ⟨[], ?_, rfl, ?_⟩
            · rw [← Option.some.inj hall, List.append_nil]
            · rw [hgot.2, hnil]
          · apply (ih _ _).post
            intro r' w'' _ hall all hr'
            obtain ⟨got, hgot', htree, hinput⟩ := hall all hr'
            refine ⟨w.conn.input.take n ++ got, ?_, htree.trans hgot.1, ?_⟩
            · rw [hgot', List.append_assoc]
            · exact hgot.2.trans (by rw [hinput, List.append_assoc])

theorem moves_readFull (fuel n : Nat) :
    (readFull fuel .socket n).Moves (Kernel cwd mayFail) (Hears X)
      (fun r w' => ∀ buf, r = some buf → buf.length = n ∧ Got buf w w') w := by
  apply (moves_readnLoop fuel n []).bind
  intro r w' _ hr
  cases r with
  | none => exact Moves.ret nofun
  | some all =>
      refine Moves.ret fun buf hbuf => ?_
      rw [Option.ite_none_right_eq_some] at hbuf
      obtain ⟨hlen, heq⟩ := hbuf
      obtain ⟨got, hgot, hworld⟩ := hr all rfl
      rw [List.nil_append] at hgot
      cases heq
      rw [hgot] at hlen ⊢
      exact ⟨hlen, hworld⟩

theorem moves_recvHeader (fuel : Nat) :
    (recvHeader fuel).Moves (Kernel cwd mayFail) (Hears X)
      (fun r w' => ∀ h, r = some h → validateSyncHeader h = .ok ∧ Got h.encode w w') w := by
  apply (moves_readFull fuel headerSize).bind
  intro r w' _ hr
  cases r with
  | none => exact Moves.ret nofun
  | some bytes =>
      obtain ⟨hlen, hgot⟩ := hr bytes rfl
      refine Moves.ret fun h hh => ?_
      rw [Option.ite_none_right_eq_some] at hh
      obtain ⟨hvalid, heq⟩ := hh
      cases heq
      refine ⟨hvalid, ?_⟩
      rwa [SyncHeader.encode_decode hlen]

/-! ## The block loop -/

theorem moves_recvFileBlocksUntilEnd {out : TreePath} {start : Bytes} (expected_hash : UInt64)
    (fuel : Nat) (hout : w.tree.content out = some start) :
    (recvFileBlocksUntilEnd out expected_hash fuel).Moves (Kernel cwd mayFail)
      (Hears (· = out))
      (fun r w' => r.1 = .ok → ∃ blocks, BlockStream w.conn.input blocks r.2 w'.conn.input ∧
        w'.tree.content out = some (applyBlocks start blocks)) w := by
  induction fuel generalizing start w with
  | zero => exact Moves.spin
  | succ fuel ih =>
      rw [recvFileBlocksUntilEnd]
      apply (moves_recvHeader fuel).bind
      intro r w1 _ hr
      cases r with
      | none => exact Moves.ret (by rintro ⟨⟩)
      | some h =>
          obtain ⟨hvalid, htree1, hinput1⟩ := hr h rfl
          simp only
          split_ifs with hend _ hblock
          · exact Moves.ret (by rintro ⟨⟩)
          · refine Moves.ret fun _ => ⟨[], ⟨by rw [hinput1]; rfl, by simp, hend⟩, ?_⟩
            rw [htree1]
            exact hout
          · exact Moves.ret (by rintro ⟨⟩)
          · refine moves_quiet trivial fun got => ?_
            split_ifs
            · exact Moves.ret (by rintro ⟨⟩)
            · apply (moves_readFull fuel h.data_len.toNat).bind
              intro r' w2 _ hr'
              cases r' with
              | none => exact Moves.ret (by rintro ⟨⟩)
              | some buf =>
                  obtain ⟨hlen, htree2, hinput2⟩ := hr' buf rfl
                  simp only
                  split_ifs with hhash
                  · exact Moves.ret (by rintro ⟨⟩)
                  · let b : Block := ⟨h, buf, hlen⟩
                    have hb : b.Accepted := by
                      rw [not_or, not_or, not_not, Nat.not_lt] at hblock
                      refine ⟨hvalid, hblock.1, hblock.2.1, hblock.2.2, fun hne => ?_⟩
                      by_contra hdiff
                      exact hhash ⟨hne, hdiff⟩
                    have hout2 : w2.tree.content out = some start := by
                      rw [htree2, htree1, hout]
                    apply Moves.op_bind
                    intro r'' w3 hK
                    rcases hK.pwriteCases with ⟨⟨e, rfl⟩, rfl⟩ |
                      ⟨data, n, hpos, hn, rfl, hdata, hconn, htree3⟩
                    · exact ⟨refl_of (Hears (· = out)) w3, Moves.ret (by rintro ⟨⟩)⟩
                    · rw [hout2] at hdata
                      cases hdata
                      have hne : out ≠ [] := by
                        rintro rfl
                        cases hout
                      have htidy : Tidy (· = out) w2 w3 := ⟨htree3 ▸ .put hne rfl, hconn⟩
                      refine ⟨htidy.hears, ?_⟩
                      simp only
                      split_ifs with hwritten
                      · exact Moves.ret (by rintro ⟨⟩)
                      · rw [not_not] at hwritten
                        have hall : buf.take n = buf := by
                          rw [hwritten, ← hlen, List.take_length]
                        have hnew : w3.tree.content out = some (Block.apply start b) := by
                          rw [htree3, FileTree.content_eq_some, FileTree.lookup_put hne,
                            if_pos rfl, hall]
                          rfl
                        apply (ih hnew).post
                        rintro ⟨rc, end_header⟩ w4 - hloop hok
                        obtain ⟨blocks, hstream, hfinal⟩ := hloop hok
                        refine ⟨b :: blocks, ?_, hfinal⟩
                        have hbytes : w.conn.input = b.wire ++ w3.conn.input := by
                          rw [hinput1, hinput2, hconn, ← List.append_assoc]
                          rfl
                        rw [hbytes]
                        exact hstream.cons hb

end MiniSync
