import MiniSync.Resume.Site

/-!
# The partial file at every moment

A block stream of a file whose partial copy holds a start of it keeps a start of it at
every moment, whatever fails: between the calls of the server, and after a write that
came up short.
-/

namespace MiniSync

open Prog

/-- The file at `p`, where there is one, is a start of `S`. -/
def StartOf (S : Bytes) (p : TreePath) (tree : Tree) : Prop :=
  ∀ c, tree.content p = some c → c <+: S

/-- `S` has only zeros between the end of `c` and `pos`. -/
def ZerosUpTo (S c : Bytes) (pos : Nat) : Prop :=
  ∀ j, c.length ≤ j → j < pos → S[j]? = some 0

section StartOfFile

variable {cwd : TreePath} {mayFail : Call TreePath → Errno → Prop} {w w' : World}
  {root rel dst tmp S c : Bytes} {out p : TreePath} {pos n k fuel : Nat}
  {config : ClientConfig} {task : SyncTask}

theorem zerosUpTo_of_le (h : pos ≤ c.length) : ZerosUpTo S c pos := by
  intro j hj hlt
  omega

theorem StartOf.congr {tree tree' : Tree} (h : StartOf S p tree)
    (hsame : tree'.content p = tree.content p) : StartOf S p tree' := by
  intro c hc
  exact h c (hsame.symm.trans hc)

theorem StartOf.getD {tree : Tree} (h : StartOf S p tree) : (tree.content p).getD [] <+: S := by
  cases hc : tree.content p with
  | none => exact List.nil_prefix
  | some c => exact h c hc

theorem startOf_of_content {tree : Tree} (hc : tree.content p = some c) (hstart : c <+: S) :
    StartOf S p tree := by
  intro c' hc'
  rw [hc] at hc'
  cases hc'
  exact hstart

/-! ## One write -/

/-- A piece of `S`, written where it belongs onto a start of `S`. -/
theorem isPrefix_splice (hstart : c <+: S) (hgap : ZerosUpTo S c pos) (n : Nat) :
    ByteString.splice 0 c pos ((S.drop pos).take n) <+: S ∧
      ZerosUpTo S (ByteString.splice 0 c pos ((S.drop pos).take n))
        (pos + ((S.drop pos).take n).length) := by
  by_cases hnil : (S.drop pos).take n = []
  · rw [hnil, ByteString.splice_nil]
    exact ⟨hstart, hgap⟩
  have hlen : ((S.drop pos).take n).length = min n (S.length - pos) := by
    rw [List.length_take, List.length_drop]
  have hpos : 0 < ((S.drop pos).take n).length := List.length_pos_iff.mpr hnil
  have hpiece : (S.drop pos).take n = (S.drop pos).take ((S.drop pos).take n).length := by
    rw [hlen, ← List.length_drop, ← List.take_take, List.take_length]
  have hc : c = S.take c.length := List.prefix_iff_eq_take.mp hstart
  have hfits : pos + ((S.drop pos).take n).length ≤ S.length := by omega
  have hwritten := ByteString.splice_take hstart.length_le hgap hpos hfits
  rw [← hpiece, ← hc] at hwritten
  rw [hwritten]
  refine ⟨List.take_prefix _ _, zerosUpTo_of_le ?_⟩
  simp only [List.length_take, List.length_drop] at hpos ⊢
  omega

/-- The write of a block of `S`. -/
theorem pwrite_chunk {r : Resp (.pwrite out (chunkAt config S pos) pos)}
    (hK : Kernel cwd mayFail (.pwrite out (chunkAt config S pos) pos) w r w')
    (hc : w.tree.content out = some c) (hstart : c <+: S) (hgap : ZerosUpTo S c pos) :
    w'.conn = w.conn ∧ ∃ c', w'.tree.content out = some c' ∧ c' <+: S ∧
      (r = .ok (chunkAt config S pos).length →
        ZerosUpTo S c' (pos + (chunkAt config S pos).length)) := by
  rcases hK.pwriteCases with ⟨⟨e, rfl⟩, rfl⟩ | ⟨data, n, -, hn, rfl, hdata, hconn, htree⟩
  · exact ⟨rfl, c, hc, hstart, by rintro ⟨⟩⟩
  rw [hc] at hdata
  cases hdata
  have hne : out ≠ [] := by
    rintro rfl
    cases hc
  have hpiece : (chunkAt config S pos).take n = (S.drop pos).take (min n config.block_size) := by
    rw [chunkAt, List.take_take]
  obtain ⟨hpart, hzeros⟩ := isPrefix_splice hstart hgap (min n config.block_size)
  rw [← hpiece] at hpart hzeros
  rw [Int.toNat_natCast] at htree
  refine ⟨hconn, _, ?_, hpart, fun hall => ?_⟩
  · rw [htree, FileTree.content_eq_some, FileTree.lookup_put hne, if_pos rfl]
  · cases hall
    rwa [List.take_length] at hzeros ⊢

/-! ## The blocks -/

/-- What has been read off the front of a stream that is cut. -/
theorem read_of_cut {a rest got x : Bytes} (hlen : got.length = a.length)
    (h : (a ++ rest).take k = got ++ x) : got = a ∧ x = rest.take (k - a.length) := by
  have hk : a.length ≤ k := by
    have hle := congrArg List.length h
    rw [List.length_take, List.length_append, List.length_append] at hle
    omega
  rw [List.take_append, List.take_of_length_le hk] at h
  obtain ⟨hgot, hx⟩ := List.append_inj h hlen.symm
  exact ⟨hgot.symm, hx.symm⟩

theorem header_of_cut {h h' : SyncHeader} {rest x : Bytes}
    (heq : (h.encode ++ rest).take k = h'.encode ++ x) :
    h' = h ∧ x = rest.take (k - headerSize) := by
  obtain ⟨hsame, hx⟩ := read_of_cut (by rw [SyncHeader.length_encode, SyncHeader.length_encode]) heq
  have hdecode := SyncHeader.decode_encode h' []
  rw [hsame, SyncHeader.decode_encode] at hdecode
  rw [SyncHeader.length_encode] at hx
  exact ⟨hdecode.symm, hx⟩

theorem recvHeader_of_cut {h : SyncHeader} {rest : Bytes}
    (hinput : w.conn.input = (h.encode ++ rest).take k) :
    (recvHeader fuel).Moves (Kernel cwd mayFail) (Hears fun _ => False)
      (fun r w' => r = none ∨ r = some h ∧ w'.tree = w.tree ∧
        w'.conn.input = rest.take (k - headerSize)) w := by
  apply (moves_recvHeader fuel).post
  rintro r w' - hr
  cases r with
  | none => exact Or.inl rfl
  | some h' =>
      obtain ⟨-, htree, hgot⟩ := hr h' rfl
      obtain ⟨rfl, hrest⟩ := header_of_cut (hinput.symm.trans hgot)
      exact Or.inr ⟨rfl, htree, hrest⟩

theorem readFull_of_cut {data rest : Bytes} (hn : data.length = n)
    (hinput : w.conn.input = (data ++ rest).take k) :
    (readFull fuel .socket n).Moves (Kernel cwd mayFail) (Hears fun _ => False)
      (fun r w' => r = none ∨ r = some data ∧ w'.tree = w.tree ∧
        w'.conn.input = rest.take (k - n)) w := by
  apply (moves_readFull fuel n).post
  rintro r w' - hr
  cases r with
  | none => exact Or.inl rfl
  | some buf =>
      obtain ⟨hlen, htree, hgot⟩ := hr buf rfl
      obtain ⟨rfl, hrest⟩ := read_of_cut (hlen.trans hn.symm) (hinput.symm.trans hgot)
      rw [hlen] at hrest
      exact Or.inr ⟨rfl, htree, hrest⟩

/-- A file that is being received. -/
def Holds (S : Bytes) (out : TreePath) (w : World) : Prop :=
  ∃ c, w.tree.content out = some c ∧ c <+: S

theorem Holds.of_hears (h : Holds S out w) (hhears : Hears (fun _ => False) w w') :
    Holds S out w' := by
  obtain ⟨c, hc, hstart⟩ := h
  exact ⟨c, (hhears.1.content not_false).trans hc, hstart⟩

/-- A program that touches no file. -/
theorem Prog.Moves.holds {α : Type} {p : Sys TreePath α} {Q : α → World → Prop}
    (h : p.Moves (Kernel cwd mayFail) (Hears fun _ => False) Q w) (hw : Holds S out w) :
    p.Safe (Kernel cwd mayFail) (Holds S out) (fun a w' => Holds S out w' ∧ Q a w') w :=
  Safe.mono h (fun _ hhears => hw.of_hears hhears) fun _ _ hq => ⟨hw.of_hears hq.1, hq.2⟩

theorem safe_recvFileBlocksUntilEnd {expected_hash : UInt64} (hshort : S.length < 2 ^ 63)
    (hc : w.tree.content out = some c) (hstart : c <+: S) (hgap : ZerosUpTo S c pos)
    (hinput : w.conn.input = ((fileBlocks config task S n pos).flatMap Block.wire ++
      (fileEndHeader task (hashBufferFnv1a S)).encode).take k) :
    (recvFileBlocksUntilEnd out expected_hash fuel).Safe (Kernel cwd mayFail) (Holds S out)
      (fun _ w' => Holds S out w') w := by
  -- induction on the fuel of the loop: each round takes one block off the stream
  induction fuel generalizing w c n pos k with
  | zero => trivial
  | succ fuel ih =>
      have hholds : Holds S out w := ⟨c, hc, hstart⟩
      rw [recvFileBlocksUntilEnd]
      have hend : (fileEndHeader task (hashBufferFnv1a S)).msg_type = msgFileEnd := rfl
      by_cases hmore : n = 0 ∨ S.length ≤ pos
      · have hnone : fileBlocks config task S n pos = [] := by
          rcases hmore with rfl | hpos
          · rfl
          · exact fileBlocks_nil hpos
        rw [hnone, List.flatMap_nil, List.nil_append,
          ← List.append_nil (SyncHeader.encode _)] at hinput
        apply ((recvHeader_of_cut hinput).holds hholds).bind
        rintro r w1 ⟨hholds1, hr⟩
        rcases hr with rfl | ⟨rfl, -, -⟩
        · exact hholds1
        · simp only [if_pos hend]
          split_ifs
          · exact hholds1
          · exact hholds1
      rw [not_or, Nat.not_le] at hmore
      obtain ⟨n, rfl⟩ := Nat.exists_eq_succ_of_ne_zero hmore.1
      rw [Nat.succ_eq_add_one, fileBlocks_succ hmore.2, List.flatMap_cons, Block.wire,
        List.append_assoc, List.append_assoc] at hinput
      have hblock : ¬ (fileBlock config task S pos).header.msg_type = msgFileEnd := by
        have htype : (fileBlock config task S pos).header.msg_type = msgFileBlock := rfl
        rw [htype]
        decide
      apply ((recvHeader_of_cut hinput).holds hholds).bind
      rintro r w1 ⟨hholds1, hr⟩
      rcases hr with rfl | ⟨rfl, htree1, hinput1⟩
      · exact hholds1
      simp only [if_neg hblock]
      split_ifs
      · exact hholds1
      apply Safe.op_bind
      intro got w2 hK2
      have hquiet := hK2.quiet trivial
      subst hquiet
      refine ⟨hholds1, ?_⟩
      split_ifs
      · exact hholds1
      have hlen := (fileBlock config task S pos).length_eq
      apply ((readFull_of_cut hlen hinput1).holds hholds1).bind
      rintro r w3 ⟨hholds3, hr⟩
      rcases hr with rfl | ⟨rfl, htree3, hinput3⟩
      · exact hholds3
      simp only
      split_ifs
      · exact hholds3
      rw [fileBlock_offT (by omega)]
      apply Safe.op_bind
      intro written w4 hK4
      have hc3 : w3.tree.content out = some c := by rw [htree3, htree1, hc]
      obtain ⟨hconn4, c', hc', hstart', hzeros⟩ := pwrite_chunk hK4 hc3 hstart hgap
      have hholds4 : Holds S out w4 := ⟨c', hc', hstart'⟩
      refine ⟨hholds4, ?_⟩
      cases written with
      | error e => exact hholds4
      | ok written =>
          simp only
          split_ifs with hwritten
          · exact hholds4
          rw [not_not, ← hlen] at hwritten
          subst hwritten
          rw [← hconn4] at hinput3
          exact ih hc' hstart' (hzeros rfl) hinput3

theorem safe_recvFirstBlock {rest : Bytes} (hpos : pos < 2 ^ 63)
    (hc : w.tree.content out = some c) (hstart : c <+: S) (hgap : ZerosUpTo S c pos)
    (hinput : w.conn.input = (chunkAt config S pos ++ rest).take k) :
    (recvFirstBlock fuel out (fileBlock config task S pos).header).Safe (Kernel cwd mayFail)
      (Holds S out) (fun rc w' => Holds S out w' ∧ (rc = .ok → ∃ c',
        w'.tree.content out = some c' ∧ c' <+: S ∧
        ZerosUpTo S c' (pos + (chunkAt config S pos).length) ∧
        w'.conn.input = rest.take (k - (chunkAt config S pos).length))) w := by
  have hlen : (chunkAt config S pos).length =
      (fileBlock config task S pos).header.data_len.toNat := (fileBlock config task S pos).length_eq
  have hholds : Holds S out w := ⟨c, hc, hstart⟩
  unfold recvFirstBlock
  apply ((readFull_of_cut hlen hinput).holds hholds).bind
  rintro r w1 ⟨hholds1, hr⟩
  rcases hr with rfl | ⟨rfl, htree1, hinput1⟩
  · exact ⟨hholds1, nofun⟩
  simp only
  split_ifs
  · exact ⟨hholds1, nofun⟩
  rw [fileBlock_offT hpos]
  apply Safe.op_bind
  intro written w2 hK2
  have hc1 : w1.tree.content out = some c := by rw [htree1, hc]
  obtain ⟨hconn2, c', hc', hstart', hzeros⟩ := pwrite_chunk hK2 hc1 hstart hgap
  have hholds2 : Holds S out w2 := ⟨c', hc', hstart'⟩
  refine ⟨hholds2, ?_⟩
  cases written with
  | error e => exact ⟨hholds2, nofun⟩
  | ok written =>
      refine ⟨hholds2, fun h => ⟨c', hc', hstart', hzeros ?_, ?_⟩⟩
      · split_ifs at h with hall
        rw [hall, ← hlen]
      · rw [hconn2, hlen, hinput1]

/-- The blocks of `S` from `pos` on, over a start of `S` that is long enough. -/
theorem safe_recvBlockStream (hpos : pos < S.length) (hshort : S.length < 2 ^ 63)
    (hc : w.tree.content out = some c) (hstart : c <+: S) (hgap : ZerosUpTo S c pos)
    (hinput : w.conn.input = (streamTail config task S pos).take k) :
    (recvBlockStream fuel out (fileBlock config task S pos).header).Safe (Kernel cwd mayFail)
      (Holds S out) (fun _ w' => Holds S out w') w := by
  unfold recvBlockStream
  apply (safe_recvFirstBlock (by omega) hc hstart hgap hinput).bind
  rintro rc w1 ⟨hholds, hok⟩
  cases rc with
  | err => exact hholds
  | ok =>
      obtain ⟨c', hc', hstart', hgap', hinput'⟩ := hok rfl
      exact safe_recvFileBlocksUntilEnd hshort hc' hstart' hgap' hinput'

/-! ## The final rename -/

/-- The file at `p` keeps its content or goes. -/
def Fades (p : TreePath) (w w' : World) : Prop :=
  w'.tree.content p = w.tree.content p ∨ w'.tree.content p = none

instance (p : TreePath) : IsPreorder World (Fades p) where
  refl _ := Or.inl rfl
  trans _ _ _ h h' := by
    rcases h' with h' | h'
    · rw [Fades, h']
      exact h
    · exact Or.inr h'

theorem Tidy.fades {X : TreePath → Prop} (h : Tidy X w w') (hp : ¬ X p) : Fades p w w' :=
  Or.inl (h.content hp)

theorem Hears.fades (h : Hears (fun _ => False) w w') : Fades p w w' :=
  Or.inl (h.1.content not_false)

theorem StartOf.fades (h : StartOf S p w.tree) (hfades : Fades p w w') : StartOf S p w'.tree := by
  rcases hfades with hsame | hnone
  · exact h.congr hsame
  · intro c hc
    rw [hnone] at hc
    cases hc

theorem fades_safeRenameOrCopyUnlink (hne : resolve cwd tmp ≠ resolve cwd dst) :
    (safeRenameOrCopyUnlink fuel tmp dst).Moves (Kernel cwd mayFail) (Fades (resolve cwd tmp))
      (fun _ _ => True) w := by
  have hmake : (ensureParentDirExists dst).Moves (Kernel cwd mayFail) _ _ w :=
    moves_ensureParentDirExists (fun _ => False) dst
  apply (hmake.coarsen (Fades (resolve cwd tmp)) fun _ _ h => h.fades not_false).bind
  rintro made w1 - -
  cases made with
  | err => exact Moves.ret trivial
  | ok =>
      apply Moves.op_bind
      intro r w2 hK2
      rcases hK2.renameCases with ⟨⟨e, rfl, -⟩, rfl⟩ | ⟨rfl, -, hren⟩
      · refine ⟨refl_of (Fades _) w2, ?_⟩
        split
        · exact Moves.ret trivial
        · -- across file systems: copy, then unlink
          have hcopy : (copyFilePlain fuel tmp dst).Moves (Kernel cwd mayFail) _ _ w2 :=
            moves_copyFilePlain hne
          apply (hcopy.coarsen (Fades (resolve cwd tmp)) fun _ _ h => h.fades hne).bind
          rintro copied w3 - -
          cases copied with
          | err => exact Moves.ret trivial
          | ok =>
              apply Moves.op_bind
              intro r' w4 hK4
              rcases hK4.unlinkCases with ⟨⟨e, rfl⟩, rfl⟩ | ⟨rfl, -, hunlink⟩
              · exact ⟨refl_of (Fades _) w4, Moves.ret trivial⟩
              · refine ⟨Or.inr ?_, Moves.ret trivial⟩
                unfold FileTree.content
                rw [FileTree.lookup_unlink hunlink]
        · exact Moves.ret trivial
      · refine ⟨Or.inr ?_, Moves.ret trivial⟩
        unfold FileTree.content
        rw [FileTree.lookup_rename_src hren hne]

/-! ## The critical section -/

/-- A program along which the partial file keeps its content or goes. -/
theorem Prog.Moves.startOf {α : Type} {prog : Sys TreePath α} {Q : α → World → Prop}
    (h : prog.Moves (Kernel cwd mayFail) (Fades p) Q w) (hw : StartOf S p w.tree) :
    prog.Safe (Kernel cwd mayFail) (fun w' => StartOf S p w'.tree)
      (fun a w' => StartOf S p w'.tree ∧ Q a w') w :=
  Safe.mono h (fun _ hfades => hw.fades hfades) fun _ _ hq => ⟨hw.fades hq.1, hq.2⟩

theorem Holds.startOf (h : Holds S out w) : StartOf S out w.tree := by
  obtain ⟨c, hc, hstart⟩ := h
  exact startOf_of_content hc hstart

theorem startOf_publish {header : SyncHeader} (hne : resolve cwd tmp ≠ resolve cwd dst)
    (hw : StartOf S (resolve cwd tmp) w.tree) :
    (publish fuel header tmp dst).Safe (Kernel cwd mayFail)
      (fun w' => StartOf S (resolve cwd tmp) w'.tree)
      (fun _ w' => StartOf S (resolve cwd tmp) w'.tree) w := by
  have hrename : (safeRenameOrCopyUnlink fuel tmp dst).Moves (Kernel cwd mayFail) _ _ w :=
    fades_safeRenameOrCopyUnlink hne
  apply (hrename.startOf hw).bind
  rintro renamed w1 ⟨hstart1, -⟩
  cases renamed with
  | err => exact hstart1
  | ok =>
      have hmeta : (setFileMetadata dst header.mode header.mtime).Moves (Kernel cwd mayFail)
          _ _ w1 :=
        moves_setFileMetadata (fun _ => False) dst header.mode header.mtime
      have hfades := hmeta.coarsen (Fades (resolve cwd tmp)) fun _ _ h => h.fades not_false
      apply (hfades.startOf hstart1).bind
      rintro _ w2 ⟨hstart2, -⟩
      exact hstart2

/-- A block stream from an offset to which the partial file is a start of `S`. -/
theorem safe_blockStreamCritical (hpaths : uploadPaths root rel = some (dst, tmp))
    (hpos : pos < S.length) (hshort : S.length < 2 ^ 63)
    (hstart : StartOf S (resolve cwd tmp) w.tree)
    (hgap : ZerosUpTo S ((w.tree.content (resolve cwd tmp)).getD []) pos)
    (hinput : w.conn.input = (streamTail config task S pos).take k) :
    (blockStreamCritical fuel (fileBlock config task S pos).header root rel dst tmp).Safe
      (Kernel cwd mayFail) (fun w' => StartOf S (resolve cwd tmp) w'.tree)
      (fun _ w' => StartOf S (resolve cwd tmp) w'.tree) w := by
  obtain ⟨hdst, htmp⟩ := uploadPaths_eq_some hpaths
  have hne : resolve cwd tmp ≠ resolve cwd dst := resolve_syncingPath_ne hdst htmp
  unfold blockStreamCritical
  have hmake : (ensureParentDirExists dst).Moves (Kernel cwd mayFail) _ _ w :=
    moves_ensureParentDirExists (fun _ => False) dst
  have hmake' := hmake.coarsen (Fades (resolve cwd tmp)) fun _ _ h => h.fades not_false
  apply (hmake'.startOf hstart).bind
  rintro made w1 ⟨hstart1, htidy1, -⟩
  split_ifs
  · exact hstart1
  apply Safe.op_bind
  intro opened w2 hK2
  rcases hK2.openCreate with ⟨⟨e, rfl⟩, rfl⟩ | ⟨rfl, hroot, -, htree2, hconn2⟩
  · exact ⟨hstart1, hstart1⟩
  have hc2 : w2.tree.content (resolve cwd tmp) =
      some ((w.tree.content (resolve cwd tmp)).getD []) := by
    rw [htree2, FileTree.content_eq_some, FileTree.lookup_put hroot, if_pos rfl,
      htidy1.content not_false]
  have hstart2 := startOf_of_content hc2 hstart.getD
  refine ⟨hstart2, ?_⟩
  simp only
  apply Safe.op_bind
  intro got w3 hK3
  have hsame3 := hK3.quiet trivial
  subst hsame3
  refine ⟨hstart2, ?_⟩
  split_ifs
  · apply Safe.op_bind
    intro _ w4 hK4
    have hsame4 := hK4.quiet trivial
    subst hsame4
    exact ⟨hstart2, hstart2⟩
  have hinput3 : w3.conn.input = (streamTail config task S pos).take k := by
    rw [hconn2, htidy1.2, hinput]
  have hblocks : (recvBlockStream fuel (resolve cwd tmp) (fileBlock config task S pos).header).Safe
      (Kernel cwd mayFail) (Holds S (resolve cwd tmp))
      (fun _ w' => Holds S (resolve cwd tmp) w') w3 :=
    safe_recvBlockStream hpos hshort hc2 hstart.getD hgap hinput3
  apply Safe.bind (hblocks.mono (fun _ h => h.startOf) fun _ _ h => h)
  rintro ⟨received, end_header⟩ w5 ⟨c, hc5, hpart⟩
  have hstart5 := startOf_of_content hc5 hpart
  have hclose : (syncAndClose (resolve cwd tmp) received).Moves (Kernel cwd mayFail) _ _ w5 :=
    moves_syncAndClose (fun _ => False) _ received
  have hclose' := hclose.coarsen (Fades (resolve cwd tmp)) fun _ _ h => h.fades
  apply (hclose'.startOf hstart5).bind
  rintro closed w5 ⟨-, -, rfl, -⟩
  split_ifs
  · exact hstart5
  have hhash : (hashAgrees fuel tmp (expectedHash (fileBlock config task S pos).header
      end_header)).Moves (Kernel cwd mayFail) _ _ w5 :=
    moves_hashAgrees (fun _ => False) fuel tmp _ hc5
  have hhash' := hhash.coarsen (Fades (resolve cwd tmp)) fun _ _ h => h.fades not_false
  apply (hhash'.startOf hstart5).bind
  rintro agrees w5 ⟨-, -, rfl, -⟩
  split_ifs
  · exact hstart5
  have hsave : (backupOldVersion fuel root rel).Moves (Kernel cwd mayFail) _ _ w5 :=
    moves_backupOldVersion hdst
  have hout : ¬ InArea cwd root versionsName (resolve cwd tmp) := by
    rw [resolve_syncingPath hdst htmp]
    exact not_inArea (by decide)
  have hsave' := hsave.coarsen (Fades (resolve cwd tmp)) fun _ _ h => h.fades hout
  apply (hsave'.startOf hstart5).bind
  rintro saved w6 ⟨hstart6, -⟩
  apply (startOf_publish hne hstart6).bind
  rintro published w7 hstart7
  split_ifs
  · exact hstart7
  · exact hstart7

end StartOfFile

end MiniSync
