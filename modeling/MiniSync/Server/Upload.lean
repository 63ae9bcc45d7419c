import MiniSync.Receive

/-!
# The critical sections of an upload

Both ways to upload a file, between taking and giving back the file mutex: what
they make of `current/p` where they succeed, and that they leave it alone where
they fail.
-/

namespace MiniSync

open Prog

/-- The temporary file, the target and the old versions. -/
def UploadArea (cwd : TreePath) (root dst tmp : Bytes) (q : TreePath) : Prop :=
  (Under (resolve cwd tmp) q ∨ Under (resolve cwd dst) q) ∨ InArea cwd root versionsName q

/-- What an upload may touch before the final rename. -/
def ScratchArea (cwd : TreePath) (root tmp : Bytes) (q : TreePath) : Prop :=
  q = resolve cwd tmp ∨ InArea cwd root versionsName q

/-- The content of an accepted upload, with the hash it was announced with. -/
structure Checked (first end_header : SyncHeader) (content : Bytes) : Prop where
  hash : expectedHash first end_header ≠ 0 →
    hashBufferFnv1a content = expectedHash first end_header

section Upload

variable {cwd : TreePath} {mayFail : Call TreePath → Errno → Prop} {w w' : World}
  {root rel_path dst tmp : Bytes}

theorem uploadPaths_eq_some (h : uploadPaths root rel_path = some (dst, tmp)) :
    currentPath root rel_path = some dst ∧ syncingPath dst = some tmp := by
  unfold uploadPaths at h
  obtain ⟨dst', hdst, h⟩ := Option.bind_eq_some_iff.mp h
  obtain ⟨tmp', htmp, h⟩ := Option.bind_eq_some_iff.mp h
  cases h
  exact ⟨hdst, htmp⟩

theorem scratchArea_sub {q : TreePath} (h : ScratchArea cwd root tmp q) :
    UploadArea cwd root dst tmp q := by
  rcases h with rfl | h
  · exact Or.inl (Or.inl List.prefix_rfl)
  · exact Or.inr h

/-- Before the final rename the target keeps its content. -/
theorem Hears.content_dst (hpaths : uploadPaths root rel_path = some (dst, tmp))
    (h : Hears (ScratchArea cwd root tmp) w w') :
    w'.tree.content (resolve cwd dst) = w.tree.content (resolve cwd dst) := by
  obtain ⟨hdst, htmp⟩ := uploadPaths_eq_some hpaths
  apply h.1.content
  rintro (heq | harea)
  · exact resolve_syncingPath_ne hdst htmp heq.symm
  · exact not_inArea_current hdst (by decide) harea

theorem moves_syncAndClose (X : TreePath → Prop) (fd : TreePath) (received : Rc) :
    (syncAndClose fd received).Moves (Kernel cwd mayFail) (Hears X)
      (fun rc w' => w' = w ∧ (rc = .ok → received = .ok)) w := by
  refine moves_quiet trivial fun synced => moves_quiet trivial fun _ => Moves.ret ⟨rfl, ?_⟩
  intro h
  split_ifs at h
  exact h

/-- Where the final rename fails, on one file system, nothing changes; where it
succeeds the target holds what the temporary file held. -/
theorem moves_publish (fuel : Nat) (header : SyncHeader)
    (hpaths : uploadPaths root rel_path = some (dst, tmp)) :
    (publish fuel header tmp dst).Moves (Kernel cwd mayFail) (Hears (UploadArea cwd root dst tmp))
      (fun rc w' => Renamed cwd mayFail tmp dst w rc w' ∧ w'.conn = w.conn) w := by
  obtain ⟨hdst, htmp⟩ := uploadPaths_eq_some hpaths
  have hrename : (safeRenameOrCopyUnlink fuel tmp dst).Moves (Kernel cwd mayFail) _ _ w :=
    moves_safeRenameOrCopyUnlink (resolve_syncingPath_ne hdst htmp)
  apply (hrename.coarsen (Hears (UploadArea cwd root dst tmp)) fun _ _ h =>
    (h.mono fun q hq => Or.inl hq).hears).bind
  rintro rc w1 - ⟨htidy, hrenamed⟩
  cases rc with
  | err => exact Moves.ret ⟨hrenamed, htidy.2⟩
  | ok =>
      have hmeta : (setFileMetadata dst header.mode header.mtime).Moves (Kernel cwd mayFail) _ _ w1 :=
        moves_setFileMetadata (fun _ => False) dst header.mode header.mtime
      apply (hmeta.coarsen (Hears (UploadArea cwd root dst tmp)) fun _ _ h =>
        (h.mono fun _ hf => hf.elim).hears).bind
      rintro _ w2 - ⟨-, rfl⟩
      exact Moves.ret ⟨hrenamed, htidy.2⟩

/-- The hash of the temporary file agrees with an expected value other than 0
only where it was read completely. -/
theorem content_of_hash {data : Bytes} {hash expected : UInt64} {p : TreePath}
    (hp : w.tree.content p = some data) (hne : expected ≠ 0) (heq : hash = expected)
    (h : hash = 0 ∨ ∃ data, w.tree.content p = some data ∧ hash = hashBufferFnv1a data) :
    hashBufferFnv1a data = expected := by
  rcases h with h0 | ⟨data', hdata', hh⟩
  · exact absurd (heq.symm.trans h0) hne
  · rw [hp] at hdata'
    cases hdata'
    exact hh.symm.trans heq

/-- Making directories and saving the old version keeps the target, the temporary
file and the connection. -/
structure Prepared (cwd : TreePath) (root dst tmp : Bytes) (w w' : World) : Prop where
  hears : Hears (ScratchArea cwd root tmp) w w'
  conn : w'.conn = w.conn
  tmp_content : w'.tree.content (resolve cwd tmp) = w.tree.content (resolve cwd tmp)

theorem Tidy.prepared {X : TreePath → Prop} (hpaths : uploadPaths root rel_path = some (dst, tmp))
    (h : Tidy X w w') (hX : ∀ q, X q → InArea cwd root versionsName q) :
    Prepared cwd root dst tmp w w' := by
  obtain ⟨hdst, htmp⟩ := uploadPaths_eq_some hpaths
  refine ⟨(h.mono fun q hq => Or.inr (hX q hq)).hears, h.2, h.content fun hq => ?_⟩
  have harea := hX _ hq
  rw [resolve_syncingPath hdst htmp] at harea
  exact not_inArea (by decide) harea

/-- The outcome of the critical section of `server_handle_file_begin`. -/
def BeginOutcome (cwd : TreePath) (header : SyncHeader) (dst : Bytes) (w : World)
    (outcome : Except Bytes Unit) (w' : World) : Prop :=
  match outcome with
  | .ok _ => ∃ blocks end_header, BlockStream w.conn.input blocks end_header w'.conn.input ∧
      w'.tree.content (resolve cwd dst) = some (applyBlocks [] blocks) ∧
      Checked header end_header (applyBlocks [] blocks)
  | .error _ => w'.tree.content (resolve cwd dst) = w.tree.content (resolve cwd dst)

theorem moves_fileBeginCritical (fuel : Nat) (header : SyncHeader)
    (hpaths : uploadPaths root rel_path = some (dst, tmp))
    (hxdev : ¬ mayFail (.rename tmp dst) .xdev) :
    (fileBeginCritical fuel header root rel_path dst tmp).Moves (Kernel cwd mayFail)
      (Hears (UploadArea cwd root dst tmp)) (BeginOutcome cwd header dst w) w := by
  obtain ⟨hdst, htmp⟩ := uploadPaths_eq_some hpaths
  have hsub : ∀ w w', Hears (ScratchArea cwd root tmp) w w' →
      Hears (UploadArea cwd root dst tmp) w w' := fun _ _ h => h.mono fun _ => scratchArea_sub
  unfold fileBeginCritical
  have hmake : (ensureParentDirExists dst).Moves (Kernel cwd mayFail) _ _ w :=
    moves_ensureParentDirExists (fun _ => False) dst
  apply (hmake.coarsen _ fun _ _ h => hsub _ _ (h.prepared hpaths fun _ hf => hf.elim).hears).bind
  rintro made w1 - ⟨htidy1, -⟩
  have hprep1 : Prepared cwd root dst tmp w w1 := htidy1.prepared hpaths fun _ hf => hf.elim
  split_ifs
  · exact Moves.ret (hprep1.hears.content_dst hpaths)
  have hsave : (backupOldVersion fuel root rel_path).Moves (Kernel cwd mayFail) _ _ w1 :=
    moves_backupOldVersion hdst
  apply (hsave.coarsen _ fun _ _ h => hsub _ _ (h.prepared hpaths fun _ hq => hq).hears).bind
  rintro saved w2 - ⟨htidy2, -⟩
  have hprep2 : Prepared cwd root dst tmp w1 w2 := htidy2.prepared hpaths fun _ hq => hq
  have hhears2 := trans_of (Hears _) hprep1.hears hprep2.hears
  split_ifs
  · exact Moves.ret (hhears2.content_dst hpaths)
  apply Moves.op_bind
  intro opened w3 hK
  rcases hK.openTrunc with ⟨⟨e, rfl⟩, rfl⟩ | ⟨rfl, hroot, -, htree3, hconn3⟩
  · exact ⟨refl_of (Hears _) w3, Moves.ret (hhears2.content_dst hpaths)⟩
  have htidy3 : Tidy (· = resolve cwd tmp) w2 w3 := ⟨htree3 ▸ .put hroot rfl, hconn3⟩
  have hscratch3 : Hears (ScratchArea cwd root tmp) w2 w3 :=
    (htidy3.mono fun q hq => Or.inl hq).hears
  have hhears3 := trans_of (Hears _) hhears2 hscratch3
  have hempty : w3.tree.content (resolve cwd tmp) = some [] := by
    rw [htree3, FileTree.content_eq_some, FileTree.lookup_put hroot, if_pos rfl]
  refine ⟨hsub _ _ hscratch3, ?_⟩
  have hrecv : (recvFileBlocksUntilEnd (resolve cwd tmp) header.total_hash fuel).Moves
      (Kernel cwd mayFail) _ _ w3 := moves_recvFileBlocksUntilEnd header.total_hash fuel hempty
  apply (hrecv.coarsen _ fun _ _ h => hsub _ _ (h.mono fun q hq => Or.inl hq)).bind
  rintro ⟨received, end_header⟩ w4 - ⟨hloop, hstream⟩
  have hhears4 := trans_of (Hears _) hhears3
    (hloop.mono fun q hq => (Or.inl hq : ScratchArea cwd root tmp q))
  apply (moves_syncAndClose _ _ _).bind
  rintro closed w5 - ⟨rfl, hclosed⟩
  simp only
  split_ifs with hok
  · exact Moves.ret (hhears4.content_dst hpaths)
  have hreceived : received = .ok := hclosed (Rc.ok_of_ne_err hok)
  obtain ⟨blocks, hblocks, hcontent⟩ := hstream hreceived
  have hhash : (hashFileFnv1a fuel tmp).Moves (Kernel cwd mayFail) _ _ w5 :=
    moves_hashFileFnv1a (fun _ => False) fuel tmp
  apply (hhash.coarsen _ fun _ _ h => hsub _ _ (h.mono fun _ hf => hf.elim).hears).bind
  rintro actual_hash w6 - ⟨-, rfl, hactual⟩
  split_ifs with hdiffer
  · exact Moves.ret (hhears4.content_dst hpaths)
  apply (moves_publish fuel header hpaths).bind
  rintro renamed w7 - ⟨hrenamed, hconn7⟩
  split_ifs with hren
  · have hkept : w7.tree.content (resolve cwd dst) = w6.tree.content (resolve cwd dst) :=
      (hrenamed.kept hren hxdev).content not_false
    exact Moves.ret (hkept.trans (hhears4.content_dst hpaths))
  · refine Moves.ret ⟨blocks, end_header, ?_, hrenamed.moved (Rc.ok_of_ne_err hren) _ hcontent, ?_⟩
    · have hinput : w3.conn.input = w.conn.input := by
        rw [hconn3, hprep2.conn, hprep1.conn]
      rwa [hconn7, ← hinput]
    · refine ⟨fun hne => content_of_hash hcontent hne ?_ hactual⟩
      by_contra hne'
      exact hdiffer ⟨hne, hne'⟩

/-- The outcome of the critical section of `handle_large_block_stream`. -/
def StreamOutcome (cwd : TreePath) (first_block : SyncHeader) (dst tmp : Bytes) (w : World)
    (outcome : Except Bytes Unit) (w' : World) : Prop :=
  match outcome with
  | .ok _ => ∃ first : Block, first.header = first_block ∧
      hashBufferFnv1a first.data = first_block.block_hash ∧
      ∃ blocks end_header rest, w.conn.input = first.data ++ rest ∧
        BlockStream rest blocks end_header w'.conn.input ∧
        let content := applyBlocks ((w.tree.content (resolve cwd tmp)).getD []) (first :: blocks)
        w'.tree.content (resolve cwd dst) = some content ∧ Checked first_block end_header content
  | .error _ => w'.tree.content (resolve cwd dst) = w.tree.content (resolve cwd dst)

theorem moves_recvFirstBlock {out : TreePath} {start : Bytes} (fuel : Nat)
    (first_block : SyncHeader) (hout : w.tree.content out = some start) :
    (recvFirstBlock fuel out first_block).Moves (Kernel cwd mayFail) (Hears (· = out))
      (fun rc w' => rc = .ok → ∃ first : Block, first.header = first_block ∧
        hashBufferFnv1a first.data = first_block.block_hash ∧
        w.conn.input = first.data ++ w'.conn.input ∧
        w'.tree.content out = some (first.apply start)) w := by
  apply (moves_readFull fuel first_block.data_len.toNat).bind
  intro r w1 _ hr
  cases r with
  | none => exact Moves.ret nofun
  | some buf =>
      obtain ⟨hlen, htree1, hinput1⟩ := hr buf rfl
      have hout1 : w1.tree.content out = some start := by rw [htree1, hout]
      simp only
      split_ifs with hhash
      · exact Moves.ret nofun
      · apply Moves.op_bind
        intro written w2 hK
        rcases hK.pwriteCases with ⟨⟨e, rfl⟩, rfl⟩ |
          ⟨data, n, -, hn, rfl, hdata, hconn, htree2⟩
        · exact ⟨refl_of (Hears (· = out)) w2, Moves.ret nofun⟩
        · rw [hout1] at hdata
          cases hdata
          have hne : out ≠ [] := by
            rintro rfl
            cases hout
          have htidy : Tidy (· = out) w1 w2 := ⟨htree2 ▸ .put hne rfl, hconn⟩
          refine ⟨htidy.hears, Moves.ret fun h => ?_⟩
          split_ifs at h with hwritten
          have hall : buf.take n = buf := by rw [hwritten, ← hlen, List.take_length]
          refine ⟨⟨first_block, buf, hlen⟩, rfl, not_not.mp hhash, by rw [hinput1, hconn], ?_⟩
          rw [htree2, FileTree.content_eq_some, FileTree.lookup_put hne, if_pos rfl, hall]
          rfl

theorem moves_recvBlockStream {out : TreePath} {start : Bytes} (fuel : Nat)
    (first_block : SyncHeader) (hout : w.tree.content out = some start) :
    (recvBlockStream fuel out first_block).Moves (Kernel cwd mayFail) (Hears (· = out))
      (fun r w' => r.1 = .ok → ∃ first : Block, first.header = first_block ∧
        hashBufferFnv1a first.data = first_block.block_hash ∧
        ∃ blocks rest, w.conn.input = first.data ++ rest ∧
          BlockStream rest blocks r.2 w'.conn.input ∧
          w'.tree.content out = some (applyBlocks start (first :: blocks))) w := by
  apply (moves_recvFirstBlock fuel first_block hout).bind
  intro rc w1 _ hfirst
  cases rc with
  | err => exact Moves.ret nofun
  | ok =>
      obtain ⟨first, hheader, hhash, hinput, hcontent⟩ := hfirst rfl
      apply (moves_recvFileBlocksUntilEnd 0 fuel hcontent).post
      intro r w2 _ hloop hok
      obtain ⟨blocks, hstream, hfinal⟩ := hloop hok
      exact ⟨first, hheader, hhash, blocks, w1.conn.input, hinput, hstream, hfinal⟩

theorem moves_hashAgrees (X : TreePath → Prop) (fuel : Nat) (path : Bytes) (expected : UInt64)
    {data : Bytes} (hdata : w.tree.content (resolve cwd path) = some data) :
    (hashAgrees fuel path expected).Moves (Kernel cwd mayFail) (Tidy X)
      (fun agrees w' => w' = w ∧ (agrees = true → expected ≠ 0 →
        hashBufferFnv1a data = expected)) w := by
  unfold hashAgrees
  split_ifs with hzero
  · exact Moves.ret ⟨rfl, fun _ hne => absurd hzero hne⟩
  · apply (moves_hashFileFnv1a X fuel path).bind
    rintro hash w1 - ⟨rfl, hh⟩
    exact Moves.ret ⟨rfl, fun h hne => content_of_hash hdata hne (of_decide_eq_true h) hh⟩

theorem moves_blockStreamCritical (fuel : Nat) (first_block : SyncHeader)
    (hpaths : uploadPaths root rel_path = some (dst, tmp))
    (hxdev : ¬ mayFail (.rename tmp dst) .xdev) :
    (blockStreamCritical fuel first_block root rel_path dst tmp).Moves (Kernel cwd mayFail)
      (Hears (UploadArea cwd root dst tmp)) (StreamOutcome cwd first_block dst tmp w) w := by
  obtain ⟨hdst, htmp⟩ := uploadPaths_eq_some hpaths
  have hsub : ∀ w w', Hears (ScratchArea cwd root tmp) w w' →
      Hears (UploadArea cwd root dst tmp) w w' := fun _ _ h => h.mono fun _ => scratchArea_sub
  unfold blockStreamCritical
  have hmake : (ensureParentDirExists dst).Moves (Kernel cwd mayFail) _ _ w :=
    moves_ensureParentDirExists (fun _ => False) dst
  apply (hmake.coarsen _ fun _ _ h => hsub _ _ (h.prepared hpaths fun _ hf => hf.elim).hears).bind
  rintro made w1 - ⟨htidy1, -⟩
  have hprep1 : Prepared cwd root dst tmp w w1 := htidy1.prepared hpaths fun _ hf => hf.elim
  split_ifs
  · exact Moves.ret (hprep1.hears.content_dst hpaths)
  apply Moves.op_bind
  intro opened w2 hK
  rcases hK.openCreate with ⟨⟨e, rfl⟩, rfl⟩ | ⟨rfl, hroot, -, htree2, hconn2⟩
  · exact ⟨refl_of (Hears _) w2, Moves.ret (hprep1.hears.content_dst hpaths)⟩
  have htidy2 : Tidy (· = resolve cwd tmp) w1 w2 := ⟨htree2 ▸ .put hroot rfl, hconn2⟩
  have hscratch2 : Hears (ScratchArea cwd root tmp) w1 w2 :=
    (htidy2.mono fun q hq => Or.inl hq).hears
  have hhears2 := trans_of (Hears _) hprep1.hears hscratch2
  have hstart : w2.tree.content (resolve cwd tmp) =
      some ((w.tree.content (resolve cwd tmp)).getD []) := by
    rw [htree2, FileTree.content_eq_some, FileTree.lookup_put hroot, if_pos rfl,
      hprep1.tmp_content]
  refine ⟨hsub _ _ hscratch2, moves_quiet trivial fun got => ?_⟩
  split_ifs
  · exact moves_quiet trivial fun _ => Moves.ret (hhears2.content_dst hpaths)
  have hrecv : (recvBlockStream fuel (resolve cwd tmp) first_block).Moves
      (Kernel cwd mayFail) _ _ w2 := moves_recvBlockStream fuel first_block hstart
  apply (hrecv.coarsen _ fun _ _ h => hsub _ _ (h.mono fun q hq => Or.inl hq)).bind
  rintro ⟨received, end_header⟩ w3 - ⟨hloop, hstream⟩
  have hhears3 := trans_of (Hears _) hhears2
    (hloop.mono fun q hq => (Or.inl hq : ScratchArea cwd root tmp q))
  apply (moves_syncAndClose _ _ _).bind
  rintro closed w4 - ⟨rfl, hclosed⟩
  split_ifs with hok
  · exact Moves.ret (hhears3.content_dst hpaths)
  obtain ⟨first, hheader, hfirst, blocks, rest, hinput, hblocks, hcontent⟩ :=
    hstream (hclosed (Rc.ok_of_ne_err hok))
  have hhash : (hashAgrees fuel tmp (expectedHash first_block end_header)).Moves
      (Kernel cwd mayFail) _ _ w4 := moves_hashAgrees (fun _ => False) fuel tmp _ hcontent
  apply (hhash.coarsen _ fun _ _ h => hsub _ _ (h.mono fun _ hf => hf.elim).hears).bind
  rintro agrees w5 - ⟨-, rfl, hagrees⟩
  split_ifs with hdiffer
  · exact Moves.ret (hhears3.content_dst hpaths)
  have hsave : (backupOldVersion fuel root rel_path).Moves (Kernel cwd mayFail) _ _ w5 :=
    moves_backupOldVersion hdst
  apply (hsave.coarsen _ fun _ _ h => hsub _ _ (h.prepared hpaths fun _ hq => hq).hears).bind
  rintro saved w6 - ⟨htidy6, -⟩
  have hprep6 : Prepared cwd root dst tmp w5 w6 := htidy6.prepared hpaths fun _ hq => hq
  have hhears6 := trans_of (Hears _) hhears3 hprep6.hears
  have hcontent6 := hprep6.tmp_content.trans hcontent
  apply (moves_publish fuel first_block hpaths).bind
  rintro renamed w7 - ⟨hrenamed, hconn7⟩
  split_ifs with hren
  · have hkept : w7.tree.content (resolve cwd dst) = w6.tree.content (resolve cwd dst) :=
      (hrenamed.kept hren hxdev).content not_false
    exact Moves.ret (hkept.trans (hhears6.content_dst hpaths))
  · refine Moves.ret ⟨first, hheader, hfirst, blocks, end_header, rest, ?_, ?_,
      hrenamed.moved (Rc.ok_of_ne_err hren) _ hcontent6, ?_⟩
    · rw [← hinput, hconn2, hprep1.conn]
    · rwa [hconn7, hprep6.conn]
    · exact ⟨hagrees (by simpa using hdiffer)⟩

end Upload

end MiniSync
