import MiniSync.Resume.PartialFile
import MiniSync.Resume.StartOfFile
import MiniSync.Server.Integrity

/-!
# Concurrent connections that upload one file

Any number of connections upload the same file.  A query is answered without the file
mutex, so the partial file may be another one when the block stream that follows takes
it; while it is not, every reachable state has a start of the file as partial file.
-/

namespace MiniSync

open Prog Threads

/-! ## A connection by itself -/

theorem Conn.take_take (conn : Conn) (m n : Nat) : (conn.take m).take n = conn.take (m + n) := by
  have hinput : (conn.take m).input.length = conn.input.length - m := by
    rw [Conn.take_input, List.length_drop]
  have hreceived : ((conn.take m).take n).received = (conn.take (m + n)).received := by
    change conn.received + min m conn.input.length + min n (conn.take m).input.length =
      conn.received + min (m + n) conn.input.length
    rw [hinput]
    omega
  change Conn.mk conn.peer ((conn.take m).take n).received conn.output =
    Conn.mk conn.peer (conn.take (m + n)).received conn.output
  rw [hreceived]

/-- What a call does to the connection, whatever the files are. -/
def connKernel (cwd : TreePath) (mayFail : Call TreePath → Errno → Prop) (c : Call TreePath)
    (conn : Conn) (r : Resp c) (conn' : Conn) : Prop :=
  ∃ tree tree', Kernel cwd mayFail c ⟨tree, conn⟩ r ⟨tree', conn'⟩

section Connection

variable {cwd : TreePath} {mayFail : Call TreePath → Errno → Prop} {conn conn' : Conn}
  {fuel n k : Nat}

theorem recv_conn {count : Nat} {r : Resp (.recv count)}
    (h : connKernel cwd mayFail (.recv count) conn r conn') :
    ((∃ e, r = .error e) ∧ conn' = conn) ∨ ∃ n, r = .ok (conn.input.take n) ∧
      conn' = conn.take n := by
  obtain ⟨tree, tree', hK⟩ := h
  rcases hK.recvCases with ⟨he, heq⟩ | ⟨n, -, -, hr, heq⟩
  · cases heq
    exact Or.inl ⟨he, rfl⟩
  · cases heq
    exact Or.inr ⟨n, hr, rfl⟩

theorem Conn.take_min (conn : Conn) (n : Nat) :
    conn.take (min n conn.input.length) = conn.take n := by
  unfold Conn.take
  rw [Nat.min_assoc, Nat.min_self]

theorem Conn.take_zero (conn : Conn) : conn.take 0 = conn := by
  unfold Conn.take
  rw [Nat.zero_min, Nat.add_zero]

theorem received_readnLoop (left : Nat) (buf : Bytes) :
    (readnLoop .socket fuel left buf).Safe (connKernel cwd mayFail) (fun _ => True)
      (fun r conn' => ∀ all, r = some all → ∃ n, n ≤ conn.input.length ∧
        all = buf ++ conn.input.take n ∧ conn' = conn.take n) conn := by
  induction fuel generalizing left buf conn with
  | zero => trivial
  | succ fuel ih =>
      rw [readnLoop]
      split_ifs
      · rintro all ⟨⟩
        exact ⟨0, Nat.zero_le _, by simp, conn.take_zero.symm⟩
      · apply Safe.op_bind
        intro r conn₁ hK
        refine ⟨trivial, ?_⟩
        rcases recv_conn hK with ⟨⟨e, rfl⟩, rfl⟩ | ⟨n, rfl, rfl⟩
        · split
          · exact ih _ _
          · rintro all ⟨⟩
          · rename_i heq
            cases heq
        · simp only
          split_ifs with hnil
          · rintro all ⟨⟩
            refine ⟨0, Nat.zero_le _, by simp, ?_⟩
            have hlen : min n conn.input.length = 0 := by
              rw [← List.length_take, hnil, List.length_nil]
            rw [← Conn.take_min, hlen]
          · apply (ih _ _).post
            intro r' conn₂ hr all hall
            obtain ⟨m, -, rfl, rfl⟩ := hr all hall
            refine ⟨min (n + m) conn.input.length, Nat.min_le_right _ _, ?_, ?_⟩
            · rw [Conn.take_input, ← List.take_eq_take_min, List.append_assoc, ← List.take_add]
            · rw [Conn.take_take, Conn.take_min]

theorem received_readFull (n : Nat) :
    (readFull fuel .socket n).Safe (connKernel cwd mayFail) (fun _ => True)
      (fun r conn' => ∀ buf, r = some buf → n ≤ conn.input.length ∧
        buf = conn.input.take n ∧ conn' = conn.take n) conn := by
  apply (received_readnLoop n []).bind
  intro r conn₁ hr
  cases r with
  | none => exact nofun
  | some all =>
      obtain ⟨m, hm, hall, rfl⟩ := hr all rfl
      rw [List.nil_append] at hall
      intro buf hbuf
      split_ifs at hbuf with hlen
      cases hbuf
      have hmn : m = n := by
        rw [← hlen, hall, List.length_take, Nat.min_eq_left hm]
      subst hmn
      exact ⟨hm, hall, rfl⟩

/-- What has been received off the front of a stream that is cut. -/
theorem taken_of_cut {data rest : Bytes} (hn : data.length = n) (hle : n ≤ conn.input.length)
    (hinput : conn.input = (data ++ rest).take k) :
    n ≤ k ∧ conn.input.take n = data ∧ (conn.take n).input = rest.take (k - n) := by
  have hk : n ≤ k := by
    rw [hinput, List.length_take] at hle
    omega
  have hfront : conn.input = data ++ rest.take (k - n) := by
    rw [hinput, List.take_append, List.take_of_length_le (hn ▸ hk), hn]
  rw [Conn.take_input, hfront, ← hn, List.take_left, List.drop_left]
  exact ⟨hn ▸ hk, rfl, rfl⟩

theorem received_recvHeader {h : SyncHeader} {rest : Bytes}
    (hinput : conn.input = (h.encode ++ rest).take k) :
    (recvHeader fuel).Safe (connKernel cwd mayFail) (fun _ => True)
      (fun r conn' => r = none ∨ headerSize ≤ k ∧ r = some h ∧ conn' = conn.take headerSize ∧
        conn'.input = rest.take (k - headerSize)) conn := by
  apply (received_readFull headerSize).bind
  intro r conn₁ hr
  cases r with
  | none => exact Or.inl rfl
  | some bytes =>
      obtain ⟨hle, hbytes, rfl⟩ := hr bytes rfl
      obtain ⟨hk, hdata, hrest⟩ := taken_of_cut (SyncHeader.length_encode h) hle hinput
      have hdecode : SyncHeader.decode bytes = h := by
        have hself := SyncHeader.decode_encode h []
        rwa [List.append_nil, ← hdata, ← hbytes] at hself
      simp only [hdecode]
      split_ifs
      · exact Or.inr ⟨hk, rfl, rfl, hrest⟩
      · exact Or.inl rfl

theorem sent_writenLoop (left : Bytes) :
    (writenLoop fuel left).Safe (connKernel cwd mayFail) (fun _ => True)
      (fun rc conn' => rc = .ok → conn' = conn.push left) conn := by
  induction fuel generalizing left conn with
  | zero => trivial
  | succ fuel ih =>
      rw [writenLoop]
      split_ifs with hnil
      · intro _
        rw [hnil]
        unfold Conn.push
        rw [List.append_nil]
      · apply Safe.op_bind
        rintro r conn₁ ⟨tree, tree', hK⟩
        refine ⟨trivial, ?_⟩
        rcases hK.sendCases with ⟨⟨e, rfl⟩, heq⟩ | ⟨n, -, rfl, heq⟩
        · cases heq
          split
          · exact ih _
          · exact ih _
          · rintro ⟨⟩
          · rename_i heq
            cases heq
        · cases heq
          apply (ih _).post
          intro rc conn₂ hsent hok
          rw [hsent hok]
          unfold Conn.push
          rw [List.append_assoc, List.take_append_drop]

/-- The answer to a query is the length of some file. -/
theorem sent_serverHandleQueryOffset (root rel : Bytes) :
    (serverHandleQueryOffset fuel root rel).Safe (connKernel cwd mayFail) (fun _ => True)
      (fun rc conn' => rc = .ok → ∃ size, conn' = conn.push (offsetReply size).encode) conn := by
  unfold serverHandleQueryOffset
  split
  · have hall : (sendError fuel (ascii "invalid query path") : Sys TreePath Rc).All
        (fun _ => True) fun _ => True := all_true _
    apply (All.safe hall (fun _ _ _ _ _ _ _ => trivial) (I := fun _ => True) trivial).bind
    intro _ _ _
    exact nofun
  · apply Safe.op_bind
    rintro r conn₁ ⟨tree, tree', hK⟩
    cases hK.keepsConn trivial
    refine ⟨trivial, ?_⟩
    have hsize (size : Option Nat) : (sendHeader fuel
        { initSyncHeader msgOffsetReply with offset := .ofNat (size.getD 0) }).Safe
        (connKernel cwd mayFail) (fun _ => True)
        (fun rc conn' => rc = .ok → ∃ size, conn' = conn.push (offsetReply size).encode) conn := by
      apply (sent_writenLoop _).post
      intro rc conn' hsent hok
      exact ⟨_, hsent hok⟩
    cases r with
    | error e => exact hsize none
    | ok st =>
        cases st with
        | regular size => exact hsize (some size)
        | directory => exact hsize (some dirSize)

end Connection

/-! ## The client -/

section Client

variable {config : ClientConfig} {task : SyncTask} {S : Bytes} {cut : Nat}

/-- The connection of a client that sends `S`, of whose bytes `cut` get through. -/
def uploader (config : ClientConfig) (task : SyncTask) (S : Bytes) (cut : Nat) : Conn :=
  connectedTo fun answer => (clientSends config task S answer).take cut

theorem uploader_input :
    (uploader config task S cut).input = (queryBytes task).take cut := by
  change ((clientSends config task S []).take cut).drop 0 = _
  rw [clientSends_nil, List.drop_zero]

/-- After the query has been answered, with whatever number, the blocks of the file from
there on are left, or nothing. -/
theorem input_after_answer (hcut : (queryBytes task).length ≤ cut) (size : Nat) :
    (((uploader config task S cut).take (queryBytes task).length).push
        (offsetReply size).encode).input =
      (uploadStream config task S (UInt64.ofNat size).toNat).take
        (cut - (queryBytes task).length) ∨
    (((uploader config task S cut).take (queryBytes task).length).push
        (offsetReply size).encode).input = [] := by
  have hfirst : (uploader config task S cut).input = queryBytes task := by
    rw [uploader_input, List.take_of_length_le hcut]
  have hreceived : ((uploader config task S cut).take (queryBytes task).length).received =
      (queryBytes task).length := by
    rw [take_received (by rw [hfirst])]
    exact Nat.zero_add _
  have hreply : replyOffset ((offsetReply size).encode ++ []) = some (.ofNat size) :=
    replyOffset_offsetReply []
  rw [List.append_nil] at hreply
  change ((clientSends config task S ([] ++ (offsetReply size).encode)).take cut).drop
      ((uploader config task S cut).take _).received = _ ∨
    ((clientSends config task S ([] ++ (offsetReply size).encode)).take cut).drop
      ((uploader config task S cut).take _).received = _
  rw [hreceived, List.nil_append, clientSends, hreply]
  simp only
  split_ifs
  · right
    rw [List.take_of_length_le hcut, List.drop_length]
  · left
    rw [List.drop_take, List.drop_left]

end Client

/-! ## A connection among others -/

/-- Where the mutex is taken, the bytes of `S` between the end of the partial file and
the offset that the connection was answered are zero. -/
def OnTime (cwd : TreePath) (root rel S : Bytes) (c : Call TreePath) (s : Tree × Conn) : Prop :=
  c = .lockFiles → ∀ dst tmp offset, uploadPaths root rel = some (dst, tmp) →
    replyOffset s.2.output = some offset →
    ZerosUpTo S ((s.1.content (resolve cwd tmp)).getD []) offset.toNat

/-- The server whose block streams all begin on time. -/
def timelyKernel (cwd : TreePath) (mayFail : Call TreePath → Errno → Prop) (root rel S : Bytes) :
    Threads.Kernel (Call TreePath) Resp Tree Conn :=
  fun c s r s' => serverKernel cwd mayFail c s r s' ∧ OnTime cwd root rel S c s

section Among

open Confinement

variable {cwd : TreePath} {mayFail : Call TreePath → Errno → Prop} {root rel S log dst tmp : Bytes}
  {v : View Tree Conn} {fuel k size : Nat} {I : Tree → Prop} {config : ClientConfig}
  {task : SyncTask}

theorem timelyKernel_respects : Respects (timelyKernel cwd mayFail root rel S) fileLock := by
  intro c s r s' hK hwrites
  exact serverKernel_respects c s r s' hK.1 hwrites

/-- A view of the server by one of its connections. -/
abbrev timelyView (cwd : TreePath) (mayFail : Call TreePath → Errno → Prop) (root rel S : Bytes)
    (I : Tree → Prop) (c : Call TreePath) (v : View Tree Conn) (r : Resp c)
    (v' : View Tree Conn) : Prop :=
  viewKernel (timelyKernel cwd mayFail root rel S) fileLock I c v r v'

/-- Code outside the critical sections, by what it does to the connection. -/
theorem safe_outside {α : Type} {p : Sys TreePath α} {Q : α → Conn → Prop}
    (hstays : Stays (fun _ => False) (fun _ => False) p)
    (hp : p.Safe (connKernel cwd mayFail) (fun _ => True) Q v.priv) (hv : v.holding = false) :
    p.Safe (timelyView cwd mayFail root rel S I) (fun v' => I v'.shared)
      (fun a v' => v'.holding = false ∧ Q a v'.priv) v := by
  have hunlocked := Safe.unlocked (K := timelyKernel cwd mayFail root rel S) (L := fileLock)
    (I := I) hstays (fun c hc => ⟨hc.op_none, fun s r s' hK => hK.1.keepsTree hc.keepsTree⟩) hv
  have hconn : p.Safe (timelyView cwd mayFail root rel S I) (fun _ => True)
      (fun a v' => Q a v'.priv) v := by
    apply (Safe.comap View.priv hp).narrow
    rintro c v r v' ⟨found, hstep⟩
    exact ⟨_, _, hstep.kernel.1⟩
  apply (hunlocked.and hconn).mono (fun _ h => h.1)
  rintro a v' ⟨⟨hholding, -⟩, hQ⟩
  exact ⟨hholding, hQ⟩

/-- Code outside the critical sections whatever it does. -/
theorem safe_reply {α : Type} {p : Sys TreePath α}
    (hstays : Stays (fun _ => False) (fun _ => False) p) (hv : v.holding = false) :
    p.Safe (timelyView cwd mayFail root rel S I) (fun v' => I v'.shared)
      (fun _ v' => v'.holding = false) v := by
  have hp : p.Safe (connKernel cwd mayFail) (fun _ => True) (fun _ _ => True) v.priv := by
    apply (All.safe hstays (I := fun _ => True) (fun _ _ _ _ _ _ _ => trivial) trivial).post
    exact fun _ _ _ => trivial
  exact (safe_outside hstays hp hv).post fun _ _ h => h.1

theorem safe_refusal (message : Bytes) (hv : v.holding = false) :
    (do let _ ← sendError fuel message; return .err : Sys TreePath Rc).Safe
      (timelyView cwd mayFail root rel S I) (fun v' => I v'.shared)
      (fun rc v' => rc = .err ∧ v'.holding = false) v := by
  have herror : Stays (fun _ => False) (fun _ => False)
      (sendError fuel message : Sys TreePath Rc) := stays_sendError fuel message
  apply (safe_reply herror hv).bind
  intro _ v' hholding
  exact ⟨rfl, hholding⟩

theorem safe_unlocking (outcome : Except Bytes Unit) (ack : UInt64) :
    (unlockAndReply fuel outcome ack).Safe (timelyView cwd mayFail root rel S I)
      (fun v' => I v'.shared) (fun _ v' => v'.holding = false) v := by
  apply Safe.op_bind
  rintro r v' ⟨found, hstep⟩
  have htree : v'.shared = found := hstep.kernel.1.keepsTree trivial
  have hholding : v'.holding = false := hstep.holding
  refine ⟨htree ▸ hstep.inv, ?_⟩
  cases outcome with
  | ok _ =>
      have hack : Stays (fun _ => False) (fun _ => False) (sendAck fuel ack : Sys TreePath Rc) :=
        stays_sendAck fuel ack
      apply (safe_reply hack hholding).bind
      exact fun _ _ h => h
  | error message => exact (safe_refusal message hholding).post fun _ _ h => h.2

/-- A block stream that takes the mutex on time. -/
theorem safe_handleLargeBlockStream (hpaths : uploadPaths root rel = some (dst, tmp))
    (hshort : S.length < 2 ^ 63) (hsize : (UInt64.ofNat size).toNat < S.length)
    (hout : v.priv.output = (offsetReply size).encode)
    (hinput : v.priv.input = (streamTail config task S (UInt64.ofNat size).toNat).take k) :
    (handleLargeBlockStream fuel (fileBlock config task S (UInt64.ofNat size).toNat).header
      root rel).Safe (timelyView cwd mayFail root rel S (StartOf S (resolve cwd tmp)))
      (fun v' => StartOf S (resolve cwd tmp) v'.shared) (fun _ v' => v'.holding = false) v := by
  unfold handleLargeBlockStream
  rw [hpaths]
  apply Safe.op_bind
  rintro r v₁ ⟨found, hstep⟩
  have hsame := hstep.kernel.1.quiet trivial
  simp only [World.mk.injEq] at hsame
  obtain ⟨hshared, hpriv⟩ := hsame
  have hreply : replyOffset v.priv.output = some (.ofNat size) := by
    have h := @replyOffset_offsetReply size []
    rwa [List.append_nil, ← hout] at h
  have hgap := hstep.kernel.2 rfl dst tmp _ hpaths hreply
  have hstart : StartOf S (resolve cwd tmp) v₁.shared := hshared ▸ hstep.inv
  refine ⟨hstart, ?_⟩
  rw [← hpriv] at hinput
  rw [← hshared] at hgap
  have hcritical : (blockStreamCritical fuel
      (fileBlock config task S (UInt64.ofNat size).toNat).header root rel dst tmp).Safe
      (Kernel cwd mayFail) _ _ ⟨v₁.shared, v₁.priv⟩ :=
    safe_blockStreamCritical hpaths hsize hshort hstart hgap hinput
  have halone : (blockStreamCritical fuel
      (fileBlock config task S (UInt64.ofNat size).toNat).header root rel dst tmp).Safe
      (timelyKernel cwd mayFail root rel S) _ _ (v₁.shared, v₁.priv) :=
    (Safe.comap (fun s : Tree × Conn => (⟨s.1, s.2⟩ : World)) hcritical).narrow
      fun c s r s' hK => hK.1
  have hlocked := Safe.locked (L := fileLock) (I := StartOf S (resolve cwd tmp))
    (stays_blockStreamCritical fuel _ hpaths) (fun _ hc => hc.op_none) hstep.holding halone
  apply Safe.bind hlocked
  rintro outcome v₂ -
  exact safe_unlocking outcome _

theorem safe_appendLog {α : Type} {f : Unit → Sys TreePath α} {A : View Tree Conn → Prop}
    {Q : α → View Tree Conn → Prop} (hA : ∀ v', I v'.shared → A v')
    (hf : ∀ v', v'.holding = v.holding → v'.priv = v.priv →
      (f ()).Safe (timelyView cwd mayFail root rel S I) A Q v') :
    (sys (.appendLog log) >>= f).Safe (timelyView cwd mayFail root rel S I) A Q v := by
  apply Safe.op_bind
  rintro ⟨⟩ v' ⟨found, hstep⟩
  have hsame := hstep.kernel.1.quiet trivial
  simp only [World.mk.injEq] at hsame
  exact ⟨hA v' (hsame.1 ▸ hstep.inv), hf v' hstep.holding hsame.2⟩

/-- One round of the loop on a message without a path after which the connection is
closed. -/
theorem safe_lastRound {rounds : Nat} {header : SyncHeader} {rest : Bytes}
    (hpath : header.path_len = 0)
    (htype : header.msg_type = msgFileBlock ∨ header.msg_type = msgFileEnd)
    (hinput : v.priv.input = (header.encode ++ rest).take k) (hv : v.holding = false)
    (hdispatch : ∀ v' : View Tree Conn, v'.holding = false → v'.priv.output = v.priv.output →
      v'.priv.input = rest.take (k - headerSize) →
      (dispatch fuel root header [] rel).Safe (timelyView cwd mayFail root rel S I)
        (fun v' => I v'.shared) (fun _ _ => True) v') :
    (serverHandleConnectionLoop fuel root log (rounds + 1) rel).Safe
      (timelyView cwd mayFail root rel S I) (fun v' => I v'.shared) (fun _ _ => True) v := by
  have hkind : header.msg_type ∉ [msgExit, msgFileBegin, msgQueryOffset, msgHello] := by
    rcases htype with h | h <;> rw [h] <;> decide
  simp only [List.mem_cons, List.not_mem_nil, or_false, not_or] at hkind
  obtain ⟨hexit, hbegin, hquery, hhello⟩ := hkind
  rw [serverHandleConnectionLoop]
  apply (safe_outside (stays_recvHeader fuel) (received_recvHeader hinput) hv).bind
  rintro r v₁ ⟨hv₁, rfl | ⟨-, rfl, hconn, hrest⟩⟩
  · trivial
  have hlast : lastRelPath header [] rel = rel := by
    unfold lastRelPath
    rw [if_neg (by rw [not_or]; exact ⟨hbegin, hquery⟩)]
  unfold recvRelPath
  simp only [if_neg hexit, if_pos hpath, pure_eq, ret_bind, hlast]
  apply (hdispatch v₁ hv₁ (by rw [hconn, Conn.take_output]) hrest).bind
  rintro rc v₂ -
  apply safe_appendLog fun _ h => h
  intro v₃ _ _
  split_ifs
  · trivial
  · trivial
  · rename_i hmore
    exact absurd ⟨hhello, hquery⟩ hmore

/-- The round after the query. -/
theorem safe_secondRound {rounds : Nat} (hpaths : uploadPaths root rel = some (dst, tmp))
    (hrel : rel ≠ []) (hshort : S.length < 2 ^ 63)
    (hout : v.priv.output = (offsetReply size).encode)
    (hinput : v.priv.input =
        (uploadStream config task S (UInt64.ofNat size).toNat).take k ∨ v.priv.input = [])
    (hv : v.holding = false) :
    (serverHandleConnectionLoop fuel root log rounds rel).Safe
      (timelyView cwd mayFail root rel S (StartOf S (resolve cwd tmp)))
      (fun v' => StartOf S (resolve cwd tmp) v'.shared) (fun _ _ => True) v := by
  cases rounds with
  | zero => trivial
  | succ rounds =>
      -- no bytes at all are those of a stream that is cut at once
      have hcut : ∃ k, v.priv.input =
          (uploadStream config task S (UInt64.ofNat size).toNat).take k := by
        rcases hinput with h | h
        · exact ⟨k, h⟩
        · exact ⟨0, by rw [h, List.take_zero]⟩
      obtain ⟨k, hinput⟩ := hcut
      rcases Nat.lt_or_ge (UInt64.ofNat size).toNat S.length with hlt | hge
      · rw [uploadStream_of_lt hlt] at hinput
        apply safe_lastRound rfl (Or.inl rfl) hinput hv
        intro v' hv' hout' hrest
        rw [dispatch_fileBlock rfl hrel]
        apply (safe_handleLargeBlockStream hpaths hshort hlt (hout'.trans hout) hrest).post
        exact fun _ _ _ => trivial
      · rw [uploadStream_of_ge hge, ← List.append_nil (SyncHeader.encode _)] at hinput
        apply safe_lastRound rfl (Or.inr rfl) hinput hv
        intro v' hv' _ _
        rw [dispatch_fileEnd rfl]
        exact (safe_refusal _ hv').post fun _ _ _ => trivial

theorem stays_serverHandleQueryOffset :
    Stays (fun _ => False) (fun _ => False)
      (serverHandleQueryOffset fuel root rel : Sys TreePath Rc) := by
  unfold serverHandleQueryOffset
  split
  · apply (stays_sendError fuel _).bind
    exact fun _ _ => trivial
  · apply (stays_getFileSize _).bind
    exact fun _ _ => stays_writeFull _ _

/-- The round in which the query is answered. -/
theorem safe_firstRound {cut rounds : Nat}
    (hpaths : uploadPaths root task.rel_path.bytes = some (dst, tmp)) (hshort : S.length < 2 ^ 63)
    (hconn : v.priv = uploader config task S cut) (hv : v.holding = false) :
    (serverHandleConnectionLoop fuel root log rounds []).Safe
      (timelyView cwd mayFail root task.rel_path.bytes S (StartOf S (resolve cwd tmp)))
      (fun v' => StartOf S (resolve cwd tmp) v'.shared) (fun _ _ => True) v := by
  have hlen := task.rel_path.length_lt
  have hrel : task.rel_path.bytes ≠ [] :=
    (currentPath_eq_some (uploadPaths_eq_some hpaths).1).1.ne_nil
  have hpath := path_len_pathHeader msgQueryOffset task
  have hnet : maxPathLen = maxNetPath := rfl
  have hpos : (pathHeader msgQueryOffset task.rel_path.bytes).path_len ≠ 0 := by
    intro h0
    rw [h0] at hpath
    exact hrel (List.length_eq_zero_iff.mp hpath.symm)
  have htype : (pathHeader msgQueryOffset task.rel_path.bytes).msg_type = msgQueryOffset := rfl
  have hexit : ¬ (pathHeader msgQueryOffset task.rel_path.bytes).msg_type = msgExit := by
    rw [htype]
    decide
  have hinput : v.priv.input =
      ((pathHeader msgQueryOffset task.rel_path.bytes).encode ++ task.rel_path.bytes).take cut := by
    rw [hconn]
    exact uploader_input
  have hquery := length_queryBytes task
  cases rounds with
  | zero => trivial
  | succ rounds =>
      rw [serverHandleConnectionLoop]
      apply (safe_outside (stays_recvHeader fuel) (received_recvHeader hinput) hv).bind
      rintro r v₁ ⟨hv₁, rfl | ⟨hk₁, rfl, hconn₁, hinput₁⟩⟩
      · trivial
      unfold recvRelPath recvPath
      have hfits : ¬ (task.rel_path.bytes.length ≥ maxNetPath + 1 ∨
          task.rel_path.bytes.length > maxNetPath) := by omega
      simp only [if_neg hexit, if_neg hpos, hpath, if_neg hfits]
      apply (safe_outside (stays_readFull fuel .socket _) (received_readFull _) hv₁).bind
      rintro r v₂ ⟨hv₂, hr⟩
      cases r with
      | none =>
          apply (safe_refusal _ hv₂).post
          exact fun _ _ _ => trivial
      | some rel_path =>
          obtain ⟨hle, hbytes, hconn₂⟩ := hr rel_path rfl
          rw [← List.append_nil task.rel_path.bytes] at hinput₁
          obtain ⟨hk₂, hdata, -⟩ := taken_of_cut rfl hle hinput₁
          rw [hdata] at hbytes
          subst hbytes
          have hcstring : cString task.rel_path.bytes = task.rel_path.bytes :=
            cString_of_nul_notMem task.rel_path.noNul
          have hlast : lastRelPath (pathHeader msgQueryOffset task.rel_path.bytes)
              task.rel_path.bytes [] = task.rel_path.bytes := by
            unfold lastRelPath
            rw [if_pos (Or.inr htype), hcstring]
          simp only [hlast]
          rw [dispatch_queryOffset htype, hcstring]
          apply (safe_outside stays_serverHandleQueryOffset
            (sent_serverHandleQueryOffset root task.rel_path.bytes) hv₂).bind
          rintro rc v₃ ⟨hv₃, hsent⟩
          apply safe_appendLog fun _ h => h
          intro v₄ hv₄ hconn₄
          cases rc with
          | err =>
              rw [if_pos rfl]
              trivial
          | ok =>
              obtain ⟨size, hsize⟩ := hsent rfl
              have hagain : ¬ ((pathHeader msgQueryOffset task.rel_path.bytes).msg_type ≠ msgHello ∧
                  (pathHeader msgQueryOffset task.rel_path.bytes).msg_type ≠ msgQueryOffset) := by
                rintro ⟨-, h⟩
                exact h htype
              simp only [reduceCtorEq, if_false, if_neg hagain]
              have hconn' : v₄.priv = ((uploader config task S cut).take
                  (queryBytes task).length).push (offsetReply size).encode := by
                rw [hconn₄, hsize, hconn₂, hconn₁, hconn, Conn.take_take, hquery]
              have hout : v₄.priv.output = (offsetReply size).encode := by
                rw [hconn']
                exact List.nil_append _
              have hinput₄ := @input_after_answer config task S cut (by omega) size
              rw [← hconn'] at hinput₄
              exact safe_secondRound hpaths hrel hshort hout hinput₄ (hv₄.trans hv₃)

end Among

/-! ## Every interleaving -/

/-- The upload sends `S` to `rel`. -/
structure LargeUpload.Carries (u : LargeUpload) (rel S : Bytes) : Prop where
  path : u.task.rel_path.bytes = rel
  file : SourceFile u.site.env u.site.source u.task S

section Runs

variable {ι : Type} [DecidableEq ι] {cwd : TreePath} {mayFail : Call TreePath → Errno → Prop}
  {fuel clientFuel cut : Nat} {root rel log_path S : Bytes} {tree : Tree} {u : LargeUpload}

/-- A client of the program is an uploader. -/
theorem LargeUpload.Carries.conn_eq (h : u.Carries rel S) (hfuel : S.length + 3 ≤ clientFuel)
    (tree : Tree) : (u.start clientFuel cut tree).conn = uploader u.config u.task S cut := by
  have hsent : ∀ answer, sentBy u.site.env (sendRemoteLargeFile clientFuel u.config u.task)
      u.site.source answer = clientSends u.config u.task S answer := by
    intro answer
    obtain ⟨rc, w, hrun, -, hout⟩ := returns_sendRemoteLargeFile h.file hfuel answer
    unfold sentBy
    rw [hrun, ← hout]
  unfold LargeUpload.start uploader
  simp only [hsent]

/-- In every run in which each block stream takes the mutex on time, whatever fails and
wherever the connections are cut, the partial file is absent or a start of `S` in every
state that is reached. -/
theorem partial_startOf_of_timely {uploads : ι → LargeUpload} {cuts : ι → Nat}
    {tr : List (Event ι (Call TreePath) Resp Tree)}
    {s' : Config ι (Call TreePath) Resp Rc Tree Conn} (hsends : ∀ i, (uploads i).Carries rel S)
    (hfuel : S.length + 3 ≤ clientFuel)
    (hstart : ∀ dst tmp, uploadPaths root rel = some (dst, tmp) → StartOf S (resolve cwd tmp) tree)
    (hrun : Run (timelyKernel cwd mayFail root rel S) fileLock
      (serverStart fuel root log_path tree fun i =>
        ((uploads i).start clientFuel (cuts i) tree).conn) tr s') :
    ∀ dst tmp, uploadPaths root rel = some (dst, tmp) →
      StartOf S (resolve cwd tmp) s'.shared := by
  intro dst tmp hpaths
  have hdisciplined := serverStart_disciplined fuel root log_path tree fun i =>
    ((uploads i).start clientFuel (cuts i) tree).conn
  apply Run.invariant timelyKernel_respects hdisciplined (hstart dst tmp hpaths) _ hrun
  intro i
  obtain ⟨hpath, hfile⟩ := hsends i
  subst hpath
  refine ⟨⟨false, tree, uploader (uploads i).config (uploads i).task S (cuts i), [], []⟩,
    ⟨by simp [serverStart], fun _ => rfl, ?_⟩, ?_⟩
  · exact (⟨rfl, hfile⟩ : (uploads i).Carries _ S).conn_eq hfuel tree
  · exact safe_firstRound hpaths hfile.short rfl rfl

end Runs

/-! ### Two bytes, sent one by one -/

def bytewiseUpload : LargeUpload :=
  { smallUpload with config := ⟨1, 1, one_pos,
      Nat.lt_trans Nat.one_lt_two smallUpload.config.block_size_lt, one_pos⟩ }

theorem carries_bytewiseUpload : bytewiseUpload.Carries (ascii "a") [7, 8] :=
  ⟨rfl, sourceFile_smallUpload⟩

/-- A server of an empty store with connections of which `cuts` many bytes get through. -/
def bytewiseStart {n : Nat} (cuts : Fin n → Nat) :
    Config (Fin n) (Call TreePath) Resp Rc Tree Conn :=
  serverStart 8 (ascii "s") (ascii "log") (storeWith []) fun i =>
    (bytewiseUpload.start 8 (cuts i) (storeWith [])).conn

/-- The partial file reaches up to the answered offset where the mutex is taken. -/
def inTime (cwd : TreePath) (root rel : Bytes) (c : Call TreePath) (s : Tree × Conn) : Bool :=
  match c, uploadPaths root rel, replyOffset s.2.output with
  | .lockFiles, some (_, tmp), some offset =>
      offset.toNat ≤ ((s.1.content (resolve cwd tmp)).getD []).length
  | _, _, _ => true

theorem onTime_of_inTime {cwd : TreePath} {root rel S : Bytes} {c : Call TreePath}
    {s : Tree × Conn} (h : inTime cwd root rel c s = true) : OnTime cwd root rel S c s := by
  rintro rfl dst tmp offset hpaths hreply
  unfold inTime at h
  rw [hpaths, hreply] at h
  exact zerosUpTo_of_le (of_decide_eq_true h)

/-- The queries of both connections are answered before the first block stream. -/
theorem partial_startOf_of_timely_two :
    StartOf [7, 8] (resolve [] (partialPath (ascii "s") (ascii "a")))
      (play fileLock (serverPosix ⟨[], bytewiseUpload.now⟩)
        (List.replicate 5 0 ++ List.replicate 40 1 ++ List.replicate 40 0)
        (bytewiseStart fun _ : Fin 2 => 300)).2.shared := by
  have hrun := Run.of_play (K := timelyKernel [] (fun _ _ => False) (ascii "s") (ascii "a") [7, 8])
    (L := fileLock) (serverPosix ⟨[], bytewiseUpload.now⟩) (inTime [] (ascii "s") (ascii "a"))
    (fun c s hok => ⟨Or.inl ⟨_, rfl⟩, onTime_of_inTime hok⟩)
    (List.replicate 5 0 ++ List.replicate 40 1 ++ List.replicate 40 0)
    (bytewiseStart fun _ : Fin 2 => 300) (by decide +kernel)
  have hempty : ∀ dst tmp, uploadPaths (ascii "s") (ascii "a") = some (dst, tmp) →
      StartOf [7, 8] (resolve [] tmp) (storeWith []) := by
    rintro dst tmp hpaths c hc
    obtain ⟨rfl, rfl⟩ : _ := Prod.mk.inj (Option.some.inj hpaths)
    cases hc
  exact partial_startOf_of_timely (fun _ => carries_bytewiseUpload) (by decide) hempty hrun _ _
    (ready_storeWith []).uploadPaths_eq

/-- The second connection is answered 1, and the third one completes the file before its
block stream begins. -/
theorem late_stream_leaves_hole :
    ∃ tr s', Run (serverKernel [] fun _ _ => False) fileLock
        (bytewiseStart fun i : Fin 3 => if i = 0 then 130 else 300) tr s' ∧
      partialAt [] (ascii "s") (ascii "a") s'.shared = some [0, 8] ∧ ¬ [0, 8] <+: [7, 8] :=
  ⟨_, _, Run.of_play (serverPosix ⟨[], bytewiseUpload.now⟩) (fun _ _ => true)
    (fun _ _ _ => Or.inl ⟨_, rfl⟩)
    (List.replicate 20 0 ++ List.replicate 5 1 ++ List.replicate 40 2 ++ List.replicate 40 1) _
    (passes_true _ _), by decide +kernel, by decide⟩

end MiniSync
