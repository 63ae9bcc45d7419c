import MiniSync.Lib.Threads
import MiniSync.Server.Confinement
import MiniSync.Server.Upload

/-!
# Upload integrity under concurrency

Any number of connections run `server_handle_connection` on one tree, with
`server_file_mutex` as the lock.  Every upload that is answered with success has
put exactly the received blocks in place, and every other one has left
`current/p` as it found it.
-/

namespace MiniSync

open Prog Threads

/-! ## The server as a system of threads -/

/-- `server_file_mutex` -/
def fileLock : Lock (Call TreePath) where
  op
    | .lockFiles => .acquire
    | .unlockFiles => .release
    | _ => .none
  writes c := ¬ c.KeepsTree

/-- The tree is shared, the connection is the thread's own. -/
def serverKernel (cwd : TreePath) (mayFail : Call TreePath → Errno → Prop) :
    Threads.Kernel (Call TreePath) Resp Tree Conn :=
  fun c s r s' => Kernel cwd mayFail c ⟨s.1, s.2⟩ r ⟨s'.1, s'.2⟩

/-- A server with its connections: each runs `server_handle_connection`. -/
def serverStart {ι : Type} (fuel : Nat) (root log_path : Bytes) (tree : Tree) (conns : ι → Conn) :
    Config ι (Call TreePath) Resp Rc Tree Conn where
  shared := tree
  holder := none
  threads i := ⟨serverHandleConnection fuel root log_path, conns i⟩

section Discipline

open Confinement

variable {cwd : TreePath} {mayFail : Call TreePath → Errno → Prop} {W M : Bytes → Prop}
  {α : Type} {b : Bool}

theorem serverKernel_respects : Respects (serverKernel cwd mayFail) fileLock := by
  intro c s r s' hK hwrites
  exact hK.keepsTree (not_not.mp hwrites)

theorem Call.Inner.op_none {c : Call TreePath} (h : c.Inner W M) : fileLock.op c = .none := by
  cases c <;> first | rfl | exact h.elim

theorem Call.Inner.keepsTree {c : Call TreePath}
    (h : c.Inner (fun _ => False) fun _ => False) : c.KeepsTree := by
  cases c with
  | openFile path how =>
      rcases h with h | h
      · exact h
      · exact h.elim
  | pwrite fd buf pos =>
      obtain ⟨path, h⟩ := h
      exact h
  | mkdir path => exact h
  | rename src dst => exact h.1
  | unlink path => exact h
  | _ => trivial

/-- Code inside the critical sections. -/
theorem Stays.guarded_locked {p : Sys TreePath α} (h : Stays W M p) :
    Guarded fileLock (· = true) p true :=
  Guarded.of_all h fun _ hc => ⟨hc.op_none, fun _ => rfl⟩

/-- Code outside the critical sections. -/
theorem Stays.guarded {p : Sys TreePath α}
    (h : Stays (fun _ => False) (fun _ => False) p) : Guarded fileLock (· = b) p b :=
  Guarded.of_all h fun _ hc => ⟨hc.op_none, fun hw => absurd hc.keepsTree hw⟩

theorem guarded_sendError (fuel : Nat) (message : Bytes) :
    Guarded fileLock (· = false)
      (do let _ ← sendError fuel message; return .err : Sys TreePath Rc) false := by
  apply (stays_sendError fuel message).guarded.bind
  rintro _ _ rfl
  rfl

theorem guarded_unlockAndReply (fuel : Nat) (outcome : Except Bytes Unit) (ack : UInt64) :
    Guarded fileLock (· = false) (unlockAndReply fuel outcome ack : Sys TreePath Rc) true := by
  apply Guarded.release rfl (not_not.mpr trivial)
  intro _
  cases outcome with
  | ok _ =>
      apply (stays_sendAck fuel ack).guarded.bind
      rintro _ _ rfl
      rfl
  | error message => exact guarded_sendError fuel message

/-- A critical section: lock, work, unlock and reply. -/
theorem guarded_critical {p : Sys TreePath α} {f : α → Sys TreePath Rc} (h : Stays W M p)
    (hf : ∀ a, Guarded fileLock (· = false) (f a) true) :
    Guarded fileLock (· = false) (sys .lockFiles >>= fun _ => p >>= f) false := by
  apply Guarded.acquire rfl (not_not.mpr trivial)
  intro _
  apply h.guarded_locked.bind
  rintro a _ rfl
  exact hf a

theorem guarded_dispatch (fuel : Nat) (root : Bytes) (header : SyncHeader)
    (rel_path last_rel_path : Bytes) :
    Guarded fileLock (· = false)
      (dispatch fuel root header rel_path last_rel_path : Sys TreePath Rc) false := by
  unfold dispatch
  dsimp only
  split_ifs
  · exact (stays_sendAck fuel 0).guarded
  · unfold serverHandleFileBegin
    split
    · exact guarded_sendError _ _
    · rename_i hpaths
      split_ifs
      · have hmake : Stays (InStore root) (MayMake root) (ensureDirExists _ : Sys TreePath Rc) :=
          stays_ensureDirExists (target_uploadPaths hpaths).1.makes
        exact guarded_critical hmake fun _ => guarded_unlockAndReply _ _ _
      · exact guarded_critical (stays_fileBeginCritical _ _ hpaths)
          fun _ => guarded_unlockAndReply _ _ _
  · unfold serverHandleQueryOffset
    split
    · exact guarded_sendError _ _
    · apply (stays_getFileSize _).guarded.bind
      rintro _ _ rfl
      exact (stays_writeFull _ _).guarded
  · exact guarded_sendError _ _
  · unfold handleLargeBlockStream
    split
    · exact guarded_sendError _ _
    · rename_i hpaths
      exact guarded_critical (stays_blockStreamCritical _ _ hpaths)
        fun _ => guarded_unlockAndReply _ _ _
  · exact guarded_critical (stays_moveToTrash _ _ _) fun _ => guarded_unlockAndReply _ _ _
  · unfold serverHandleFileRename
    dsimp only
    split_ifs
    · exact guarded_sendError _ _
    · exact guarded_sendError _ _
    · split
      · rename_i hold hnew
        exact guarded_critical (stays_renameCritical _ hold hnew)
          fun _ => guarded_unlockAndReply _ _ _
      · exact guarded_sendError _ _
  · exact guarded_sendError _ _

theorem guarded_connection (fuel : Nat) (root log_path : Bytes) (rounds : Nat)
    (last_rel_path : Bytes) :
    Guarded fileLock (· = false)
      (serverHandleConnectionLoop fuel root log_path rounds last_rel_path : Sys TreePath Rc)
      false := by
  induction rounds generalizing last_rel_path with
  | zero => trivial
  | succ rounds ih =>
      rw [serverHandleConnectionLoop]
      apply (stays_recvHeader fuel).guarded.bind
      rintro received _ rfl
      cases received with
      | none => rfl
      | some header =>
          by_cases hexit : header.msg_type = msgExit
          · simp only [if_pos hexit]
            rfl
          · simp only [if_neg hexit]
            apply (stays_recvRelPath fuel header).guarded.bind
            rintro rel_path _ rfl
            cases rel_path with
            | none => exact guarded_sendError _ _
            | some rel_path =>
                apply (guarded_dispatch _ _ _ _ _).bind
                rintro rc _ rfl
                have hlog : Guarded fileLock (· = false)
                    (sys (.appendLog log_path) : Sys TreePath Unit) false :=
                  Guarded.of_all (P := fun c => c = .appendLog log_path) ⟨rfl, fun _ => trivial⟩
                    fun _ hc => by
                      subst hc
                      exact ⟨rfl, fun hw => absurd trivial hw⟩
                apply hlog.bind
                rintro _ _ rfl
                split_ifs
                · rfl
                · rfl
                · exact ih _

theorem serverStart_disciplined {ι : Type} (fuel : Nat) (root log_path : Bytes) (tree : Tree)
    (conns : ι → Conn) : Disciplined fileLock (serverStart fuel root log_path tree conns) :=
  fun _ => ⟨false, (· = false), by simp [serverStart], guarded_connection _ _ _ _ _⟩

end Discipline

/-! ## Critical sections in a view -/

section Views

open Confinement

variable {cwd : TreePath} {mayFail : Call TreePath → Errno → Prop} {W M : Bytes → Prop}
  {v : View Tree Conn} {conn : Conn} {fuel : Nat}

/-- A view of the server by one of its connections. -/
abbrev serverView (cwd : TreePath) (mayFail : Call TreePath → Errno → Prop)
    (I : Tree → Prop) (c : Call TreePath) (v : View Tree Conn) (r : Resp c)
    (v' : View Tree Conn) : Prop :=
  viewKernel (serverKernel cwd mayFail) fileLock I c v r v'

/-- A view without a record of locking. -/
def Fresh (conn : Conn) (v : View Tree Conn) : Prop :=
  v.priv = conn ∧ v.taken = [] ∧ v.given = []

/-- Replies leave the record of locking alone. -/
theorem Stays.noLock {α : Type} {I : Tree → Prop} {p : Sys TreePath α} (h : Stays W M p) :
    p.Safe (serverView cwd mayFail I) (fun _ => True)
      (fun _ v' => v'.taken = v.taken ∧ v'.given = v.given) v :=
  Safe.noLock h fun _ hc => hc.op_none

theorem noLock_sendError {I : Tree → Prop} (message : Bytes) :
    (do let _ ← sendError fuel message; return .err : Sys TreePath Rc).Safe
      (serverView cwd mayFail I) (fun _ => True)
      (fun rc v' => rc = .err ∧ v'.taken = v.taken ∧ v'.given = v.given) v := by
  have herror : Stays (fun _ => False) (fun _ => False) (sendError fuel message : Sys TreePath Rc) :=
    stays_sendError fuel message
  apply (herror.noLock).bind
  intro _ v' hrec
  exact ⟨rfl, hrec⟩

/-- The reply says how the critical section ended. -/
def rcOf : Except Bytes Unit → Rc
  | .ok _ => .ok
  | .error _ => .err

theorem safe_unlockAndReply {I : Tree → Prop} (outcome : Except Bytes Unit) (ack : UInt64)
    (hv : v.holding = true) :
    (unlockAndReply fuel outcome ack).Safe (serverView cwd mayFail I) (fun _ => True)
      (fun rc v' => rc = rcOf outcome ∧ v'.taken = v.taken ∧
        v'.given = v.given ++ [v.shared]) v := by
  rintro ⟨⟩ v' ⟨found, hstep⟩
  have hfound := hstep.kept hv
  have htaken : v'.taken = v.taken := hstep.taken
  have hgiven : v'.given = v.given ++ [found] := hstep.given
  rw [hfound] at hgiven
  refine ⟨trivial, ?_⟩
  cases outcome with
  | ok _ =>
      have hack : Stays (fun _ => False) (fun _ => False) (sendAck fuel ack : Sys TreePath Rc) :=
        stays_sendAck fuel ack
      apply (hack.noLock).bind
      rintro _ v'' ⟨htaken', hgiven'⟩
      exact ⟨rfl, htaken'.trans htaken, hgiven'.trans hgiven⟩
  | error message =>
      apply (noLock_sendError message).post
      rintro _ v'' ⟨hrc, htaken', hgiven'⟩
      exact ⟨hrc, htaken'.trans htaken, hgiven'.trans hgiven⟩

/-- What a critical section does alone it does among the other connections,
between the tree it finds and the tree it leaves. -/
theorem safe_critical {I : Tree → Prop} {p : Sys TreePath (Except Bytes Unit)} {ack : UInt64}
    {B : World → Prop} {Q : World → Except Bytes Unit → World → Prop} (hstays : Stays W M p)
    (hp : ∀ tree, p.Safe (Kernel cwd mayFail) B (Q ⟨tree, conn⟩) ⟨tree, conn⟩)
    (hv : Fresh conn v) :
    (sys .lockFiles >>= fun _ => p >>= fun outcome => unlockAndReply fuel outcome ack).Safe
      (serverView cwd mayFail I) (fun _ => True)
      (fun rc v' => ∃ before after conn' outcome, v'.taken = [before] ∧ v'.given = [after] ∧
        rc = rcOf outcome ∧ Q ⟨before, conn⟩ outcome ⟨after, conn'⟩) v := by
  obtain ⟨hpriv, htaken, hgiven⟩ := hv
  rintro ⟨⟩ v₁ ⟨found, hstep⟩
  refine ⟨trivial, ?_⟩
  have hsame := hstep.kernel.quiet trivial
  simp only [World.mk.injEq] at hsame
  have htaken₁ : v₁.taken = v.taken ++ [found] := hstep.taken
  have hgiven₁ : v₁.given = v.given := hstep.given
  rw [htaken, List.nil_append] at htaken₁
  rw [hgiven] at hgiven₁
  have halone := Safe.comap (fun s : Tree × Conn => (⟨s.1, s.2⟩ : World)) (t := (found, conn))
    (hp found)
  rw [← hsame.1, ← hpriv, ← hsame.2] at halone
  have hlocked := Safe.locked (K := serverKernel cwd mayFail) (L := fileLock) (I := I) hstays
    (fun _ hc => hc.op_none) hstep.holding halone
  apply Safe.bind (hlocked.mono (fun _ _ => trivial) fun _ _ h => h)
  rintro outcome v₂ ⟨hQ, hholding₂, htaken₂, hgiven₂⟩
  apply (safe_unlockAndReply outcome ack hholding₂).post
  rintro rc v₃ ⟨hrc, htaken₃, hgiven₃⟩
  refine ⟨found, v₂.shared, v₂.priv, outcome, ?_, ?_, hrc, ?_⟩
  · rw [htaken₃, htaken₂, htaken₁]
  · rw [hgiven₃, hgiven₂, hgiven₁, List.nil_append]
  · rwa [hsame.1, hsame.2, hpriv] at hQ

end Views

/-! ## Uploads -/

/-- The two requests that bring the content of a file. -/
inductive Upload
  | fileBegin (header : SyncHeader)
  | blockStream (first_block : SyncHeader)

namespace Upload

/-- The handler, once the connection has selected it. -/
def handler (fuel : Nat) (root rel_path : Bytes) : Upload → Sys TreePath Rc
  | fileBegin header => serverHandleFileBegin fuel header root rel_path
  | blockStream first_block => handleLargeBlockStream fuel first_block root rel_path

/-- The upload is of a regular file. -/
def Regular : Upload → Prop
  | fileBegin header => isDirMode header.mode = false
  | blockStream _ => True

/-- `content` is what the blocks of the byte stream `input` make of the temporary
file, which held `start`, and it has the announced hash. -/
def Delivered (input start content : Bytes) : Upload → Prop
  | fileBegin header => ∃ blocks end_header rest, BlockStream input blocks end_header rest ∧
      content = applyBlocks [] blocks ∧ Checked header end_header content
  | blockStream first_block => ∃ first : Block, first.header = first_block ∧
      ∃ blocks end_header rest tail, input = first.data ++ tail ∧
        BlockStream tail blocks end_header rest ∧
        content = applyBlocks start (first :: blocks) ∧ Checked first_block end_header content

end Upload

/-- The outcome of an upload, between the trees in which the lock was taken and
given back. -/
def UploadResult (cwd : TreePath) (root rel_path input : Bytes) (u : Upload) (rc : Rc)
    (taken given : List Tree) : Prop :=
  match rc with
  | .ok => ∃ dst tmp before after content, uploadPaths root rel_path = some (dst, tmp) ∧
      taken = [before] ∧ given = [after] ∧
      after.content (resolve cwd dst) = some content ∧
      u.Delivered input ((before.content (resolve cwd tmp)).getD []) content
  | .err => ∀ dst, currentPath root rel_path = some dst → ∀ before ∈ taken, ∀ after ∈ given,
      after.content (resolve cwd dst) = before.content (resolve cwd dst)

/-- Files of `current` are never moved across file systems. -/
def OneFileSystem (cwd : TreePath) (root : Bytes) (mayFail : Call TreePath → Errno → Prop) :
    Prop :=
  ∀ src dst, InArea cwd root currentName (resolve cwd src) →
    InArea cwd root currentName (resolve cwd dst) → ¬ mayFail (.rename src dst) .xdev

section Uploads

open Confinement

variable {cwd : TreePath} {mayFail : Call TreePath → Errno → Prop} {v : View Tree Conn}
  {conn : Conn} {fuel : Nat} {root rel_path dst tmp : Bytes}

theorem OneFileSystem.upload (h : OneFileSystem cwd root mayFail)
    (hpaths : uploadPaths root rel_path = some (dst, tmp)) :
    ¬ mayFail (.rename tmp dst) .xdev := by
  obtain ⟨hdst, htmp⟩ := uploadPaths_eq_some hpaths
  apply h
  · rw [resolve_syncingPath hdst htmp]
    exact inArea_cons
  · rw [resolve_currentPath hdst]
    exact inArea_cons

/-- What both critical sections achieve. -/
def CriticalOutcome (cwd : TreePath) (dst tmp : Bytes) (u : Upload) (w : World)
    (outcome : Except Bytes Unit) (w' : World) : Prop :=
  match outcome with
  | .ok _ => ∃ content, w'.tree.content (resolve cwd dst) = some content ∧
      u.Delivered w.conn.input ((w.tree.content (resolve cwd tmp)).getD []) content
  | .error _ => w'.tree.content (resolve cwd dst) = w.tree.content (resolve cwd dst)

theorem BeginOutcome.critical {header : SyncHeader} {w w' : World} {outcome : Except Bytes Unit}
    (h : BeginOutcome cwd header dst w outcome w') :
    CriticalOutcome cwd dst tmp (.fileBegin header) w outcome w' := by
  cases outcome with
  | ok _ =>
      obtain ⟨blocks, end_header, hstream, hcontent, hchecked⟩ := h
      exact ⟨_, hcontent, blocks, end_header, _, hstream, rfl, hchecked⟩
  | error _ => exact h

theorem StreamOutcome.critical {first_block : SyncHeader} {w w' : World}
    {outcome : Except Bytes Unit} (h : StreamOutcome cwd first_block dst tmp w outcome w') :
    CriticalOutcome cwd dst tmp (.blockStream first_block) w outcome w' := by
  cases outcome with
  | ok _ =>
      obtain ⟨first, hheader, -, blocks, end_header, rest, hinput, hstream, hcontent, hchecked⟩ := h
      exact ⟨_, hcontent, first, hheader, blocks, end_header, _, rest, hinput, hstream, rfl,
        hchecked⟩
  | error _ => exact h

/-- An upload as one connection sees it. -/
theorem safe_handler (hone : OneFileSystem cwd root mayFail) (u : Upload) (hregular : u.Regular)
    (hv : Fresh conn v) :
    (u.handler fuel root rel_path).Safe (serverView cwd mayFail fun _ => True) (fun _ => True)
      (fun rc v' => UploadResult cwd root rel_path conn.input u rc v'.taken v'.given) v := by
  cases hpaths : uploadPaths root rel_path with
  | none =>
      have hinvalid : (do let _ ← sendError fuel (ascii "invalid path"); return .err :
          Sys TreePath Rc).Safe (serverView cwd mayFail fun _ => True) (fun _ => True)
          (fun rc v' => UploadResult cwd root rel_path conn.input u rc v'.taken v'.given) v := by
        apply (noLock_sendError _).post
        rintro rc v' ⟨rfl, htaken, -⟩ dst - before hbefore
        rw [htaken, hv.2.1] at hbefore
        cases hbefore
      cases u with
      | fileBegin header =>
          simpa only [Upload.handler, serverHandleFileBegin, hpaths] using hinvalid
      | blockStream first_block =>
          simpa only [Upload.handler, handleLargeBlockStream, hpaths] using hinvalid
  | some paths =>
      obtain ⟨dst, tmp⟩ := paths
      have hdst := (uploadPaths_eq_some hpaths).1
      have hxdev := hone.upload hpaths
      have hresult : ∀ (rc : Rc) (v' : View Tree Conn),
          (∃ before after conn' outcome, v'.taken = [before] ∧ v'.given = [after] ∧
            rc = rcOf outcome ∧
            CriticalOutcome cwd dst tmp u ⟨before, conn⟩ outcome ⟨after, conn'⟩) →
          UploadResult cwd root rel_path conn.input u rc v'.taken v'.given := by
        rintro rc v' ⟨before, after, conn', outcome, htaken, hgiven, rfl, hout⟩
        rw [htaken, hgiven]
        cases outcome with
        | ok _ =>
            obtain ⟨content, hcontent, hdelivered⟩ := hout
            exact ⟨dst, tmp, before, after, content, hpaths, rfl, rfl, hcontent, hdelivered⟩
        | error _ =>
            intro dst' hdst' before' hbefore' after' hafter'
            rw [hdst] at hdst'
            cases hdst'
            rw [List.mem_singleton.mp hbefore', List.mem_singleton.mp hafter']
            exact hout
      cases u with
      | fileBegin header =>
          have hcritical : ∀ tree, (fileBeginCritical fuel header root rel_path dst tmp).Safe
              (Kernel cwd mayFail) (fun _ => True)
              (CriticalOutcome cwd dst tmp (.fileBegin header) ⟨tree, conn⟩) ⟨tree, conn⟩ :=
            fun tree => (moves_fileBeginCritical fuel header hpaths hxdev).safe.post
              fun _ _ h => h.critical
          have hmode : isDirMode header.mode = false := hregular
          simp only [Upload.handler, serverHandleFileBegin, hpaths, hmode]
          exact (safe_critical (stays_fileBeginCritical fuel header hpaths) hcritical hv).post hresult
      | blockStream first_block =>
          have hcritical : ∀ tree, (blockStreamCritical fuel first_block root rel_path dst tmp).Safe
              (Kernel cwd mayFail) (fun _ => True)
              (CriticalOutcome cwd dst tmp (.blockStream first_block) ⟨tree, conn⟩) ⟨tree, conn⟩ :=
            fun tree => (moves_blockStreamCritical fuel first_block hpaths hxdev).safe.post
              fun _ _ h => h.critical
          simp only [Upload.handler, handleLargeBlockStream, hpaths]
          exact (safe_critical (stays_blockStreamCritical fuel first_block hpaths) hcritical
            hv).post hresult

end Uploads

/-! ## Every interleaving -/

section Runs

variable {cwd : TreePath} {mayFail : Call TreePath → Errno → Prop} {ι : Type} [DecidableEq ι]

/-- In every run of the server, from any tree and with any byte streams: an upload
that returns `MINISYNC_OK` leaves at its unlock exactly the delivered content in
`current/rel_path`, with the announced hash; one that returns `MINISYNC_ERR`
leaves there what was there when the lock was taken. -/
theorem upload_integrity {fuel : Nat} {root log_path rel_path : Bytes} {tree : Tree}
    {conns : ι → Conn} {s s' : Config ι (Call TreePath) Resp Rc Tree Conn}
    {tr₀ tr : List (Event ι (Call TreePath) Resp Tree)} {i : ι} {u : Upload}
    {k : Rc → Sys TreePath Rc} {rc : Rc} (hone : OneFileSystem cwd root mayFail)
    (hreached : Run (serverKernel cwd mayFail) fileLock
      (serverStart fuel root log_path tree conns) tr₀ s)
    (hregular : u.Regular) (hprog : (s.threads i).prog = u.handler fuel root rel_path >>= k)
    (hrun : Run (serverKernel cwd mayFail) fileLock s tr s')
    (hran : Ran i (u.handler fuel root rel_path) tr (.ret rc)) :
    UploadResult cwd root rel_path (s.threads i).priv.input u rc
      (statesAt fileLock i .acquire tr) (statesAt fileLock i .release tr) := by
  have hdisciplined :=
    hreached.disciplined (serverStart_disciplined fuel root log_path tree conns)
  obtain ⟨b, Q, hb, -⟩ := hdisciplined i
  have hmatches : Matches s i (⟨b, s.shared, (s.threads i).priv, [], []⟩ : View Tree Conn) :=
    ⟨hb, fun _ => rfl, rfl⟩
  obtain ⟨v', hresult, -, htaken, hgiven⟩ := Run.project serverKernel_respects hdisciplined
    hmatches hprog hrun hran (safe_handler hone u hregular ⟨rfl, rfl, rfl⟩)
  rw [htaken, hgiven] at hresult
  exact hresult

/-! ### One upload -/

/-- The server's kernel when nothing goes wrong. -/
def serverPosix (env : Env) (c : Call TreePath) (s : Tree × Conn) : Resp c × (Tree × Conn) :=
  let r := posix env c ⟨s.1, s.2⟩
  (r.1, (r.2.tree, r.2.conn))

def oneByteBegin : SyncHeader :=
  { initSyncHeader msgFileBegin with
    path_len := 1
    file_size := 1
    total_hash := hashBufferFnv1a [7] }

/-- A peer that uploads one byte to `a`. -/
def oneByteUpload : Conn where
  peer _ := oneByteBegin.encode ++ ascii "a" ++
    SyncHeader.encode { initSyncHeader msgFileBlock with data_len := 1 } ++ [7] ++
    SyncHeader.encode { initSyncHeader msgFileEnd with total_hash := hashBufferFnv1a [7] }
  received := 0
  output := []

/-- The connection receives the header and the path, and then runs the handler. -/
theorem upload_integrity_oneByte :
    ∃ (s s' : Config Unit (Call TreePath) Resp Rc Tree Conn)
      (tr₀ tr : List (Event Unit (Call TreePath) Resp Tree)),
      Run (serverKernel [] fun _ _ => False) fileLock
        (serverStart 8 (ascii "s") (ascii "log") ⟨[]⟩ fun _ => oneByteUpload) tr₀ s ∧
      Run (serverKernel [] fun _ _ => False) fileLock s tr s' ∧
      UploadResult [] (ascii "s") (ascii "a") (s.threads ()).priv.input (.fileBegin oneByteBegin)
        .ok (statesAt fileLock () .acquire tr) (statesAt fileLock () .release tr) := by
  have hcover (c : Call TreePath) (s : Tree × Conn) : serverKernel [] (fun _ _ => False) c s
      (serverPosix ⟨[], ⟨126, 1, 2, 3, 4, 5⟩⟩ c s).1
      (serverPosix ⟨[], ⟨126, 1, 2, 3, 4, 5⟩⟩ c s).2 := Or.inl ⟨_, rfl⟩
  have hone : OneFileSystem [] (ascii "s") fun _ _ => False := fun _ _ _ _ => not_false
  have hheader : ((recvHeader 8).run (serverPosix ⟨[], ⟨126, 1, 2, 3, 4, 5⟩⟩)
      (⟨[]⟩, oneByteUpload)).map Prod.fst = some (some oneByteBegin) := by decide +kernel
  have hpath : (((recvHeader 8).run (serverPosix ⟨[], ⟨126, 1, 2, 3, 4, 5⟩⟩)
      (⟨[]⟩, oneByteUpload)).bind fun r =>
        (recvRelPath 8 oneByteBegin).run (serverPosix ⟨[], ⟨126, 1, 2, 3, 4, 5⟩⟩) r.2).map Prod.fst =
          some (some (ascii "a")) := by decide +kernel
  have hupload : ((((recvHeader 8).run (serverPosix ⟨[], ⟨126, 1, 2, 3, 4, 5⟩⟩)
      (⟨[]⟩, oneByteUpload)).bind fun r =>
        (recvRelPath 8 oneByteBegin).run (serverPosix ⟨[], ⟨126, 1, 2, 3, 4, 5⟩⟩) r.2).bind fun r =>
          ((Upload.fileBegin oneByteBegin).handler 8 (ascii "s") (ascii "a")).run
            (serverPosix ⟨[], ⟨126, 1, 2, 3, 4, 5⟩⟩) r.2).map Prod.fst = some .ok := by
    decide +kernel
  obtain ⟨⟨_, a₁⟩, hrun₁, rfl⟩ := Option.map_eq_some_iff.mp hheader
  rw [hrun₁, Option.bind_some] at hpath hupload
  obtain ⟨⟨_, a₂⟩, hrun₂, rfl⟩ := Option.map_eq_some_iff.mp hpath
  rw [hrun₂, Option.bind_some] at hupload
  obtain ⟨⟨_, a₃⟩, hrun₃, rfl⟩ := Option.map_eq_some_iff.mp hupload
  have hguarded₁ : Guarded fileLock (· = false) (recvHeader 8 : Sys TreePath _) false :=
    (Confinement.stays_recvHeader 8).guarded
  obtain ⟨tr₁, s₁, b₁, hreached₁, -, hshared₁, hthread₁, rfl, hholder₁⟩ :=
    Run.of_run (i := ()) (s := serverStart 8 (ascii "s") (ascii "log") ⟨[]⟩ fun _ => oneByteUpload)
      hcover hguarded₁ rfl rfl hrun₁
  have hguarded₂ : Guarded fileLock (· = false) (recvRelPath 8 oneByteBegin : Sys TreePath _)
      false := (Confinement.stays_recvRelPath 8 oneByteBegin).guarded
  obtain ⟨tr₂, s₂, b₂, hreached₂, -, hshared₂, hthread₂, rfl, hholder₂⟩ :=
    Run.of_run (i := ()) (s := s₁) hcover hguarded₂ hholder₁
      (congrArg Thread.prog hthread₁)
      (by rw [hshared₁, hthread₁]; exact hrun₂)
  have hguarded₃ : Guarded fileLock (· = false)
      ((Upload.fileBegin oneByteBegin).handler 8 (ascii "s") (ascii "a")) false :=
    guarded_dispatch 8 (ascii "s") oneByteBegin (ascii "a") []
  obtain ⟨tr₃, s₃, b₃, hrun, hran, -⟩ :=
    Run.of_run (i := ()) (s := s₂) hcover hguarded₃ hholder₂ (congrArg Thread.prog hthread₂)
      (by rw [hshared₂, hthread₂]; exact hrun₃)
  exact ⟨s₂, s₃, tr₁ ++ tr₂, tr₃, hreached₁.append hreached₂, hrun,
    upload_integrity hone (hreached₁.append hreached₂) (by rfl)
      (congrArg Thread.prog hthread₂) hrun hran⟩

end Runs

end MiniSync
