import MiniSync.Fuel
import MiniSync.Server.Mute

/-!
# Framing

How the network cuts the stream of a client into pieces, and where reads are
interrupted, makes no difference to the server; and how the socket accepts what is
written makes no difference to what is sent.
-/

namespace MiniSync

open Prog

variable {Fd σ α β : Type}

/-! ## A stream in pieces -/

/-- The outcome of one `read` on the socket, where there are bytes to read. -/
inductive Cut
  | intr
  | piece (size : Nat) (pos : 0 < size)

/-- The bytes that a client has sent and that are not received yet, and how the next
reads go; any further read gets what it asks for. -/
structure Feed (σ : Type) where
  state : σ
  rest : Bytes
  cuts : List Cut

def Feed.take (f : Feed σ) (n : Nat) (cuts : List Cut) : Feed σ := ⟨f.state, f.rest.drop n, cuts⟩

/-- A kernel that answers receives from the stream. -/
def feeding (kernel : (c : Call Fd) → σ → Resp c × σ) : (c : Call Fd) → Feed σ → Resp c × Feed σ
  | .recv count, f =>
      match f.cuts with
      | [] => (.ok (f.rest.take count), f.take count [])
      | .intr :: cuts => (.error .intr, f.take 0 cuts)
      | .piece size _ :: cuts =>
          (.ok (f.rest.take (min size count)), f.take (min size count) cuts)
  | c, f => ((kernel c f.state).1, { f with state := (kernel c f.state).2 })

/-- The same, up to how the next reads go. -/
def Feed.Same (f g : Feed σ) : Prop := f.state = g.state ∧ f.rest = g.rest

/-- `P` does whatever `p` does, however the stream is cut. -/
abbrev Framed (kernel : (c : Call Fd) → σ → Resp c × σ) (p : Sys Fd α) (P : Nat → Sys Fd α) :
    Prop :=
  Follows (feeding kernel) (feeding kernel) Feed.Same p P

section Framing

variable {kernel : (c : Call Fd) → σ → Resp c × σ}

/-- The call receives nothing. -/
def Call.Local : Call Fd → Prop
  | .recv _ => False
  | _ => True

theorem Call.OnFiles.isLocal {c : Call Fd} (h : c.OnFiles) : c.Local := by
  cases c <;> first | exact h | trivial

theorem alike_of_local {c : Call Fd} (hc : c.Local) :
    Alike (feeding kernel) (feeding kernel) Feed.Same c := by
  rintro f g ⟨hstate, hrest⟩
  cases c <;> first
    | exact absurd hc not_false
    | exact ⟨by simp only [feeding, hstate], by simp only [feeding, hstate], hrest⟩

theorem framed_call {c : Call Fd} {f : Resp c → Sys Fd β} {F : Nat → Resp c → Sys Fd β}
    (hc : c.Local) (hf : ∀ r, Framed kernel (f r) fun fuel => F fuel r) :
    Framed kernel (sys c >>= f) fun fuel => sys c >>= F fuel :=
  (Follows.op (alike_of_local hc)).bind hf

theorem framed_of_onFiles {P : Nat → Sys Fd α} (hP : Fuelled P) {n : Nat} (h : OnFiles (P n)) :
    Framed kernel (P n) P :=
  All.follows hP h fun _ hc => alike_of_local hc.isLocal

/-! ## Whole buffers -/

theorem run_readnLoop_intr {fuel left : Nat} {buf : Bytes} {f f' : Feed σ} (hleft : left ≠ 0)
    (hrecv : feeding kernel (.recv left) f = (.error .intr, f')) :
    (readnLoop .socket (fuel + 1) left buf).run (feeding kernel) f =
      (readnLoop .socket fuel left buf).run (feeding kernel) f' := by
  rw [readnLoop, if_neg hleft]
  refine (run_call _ _ f).trans ?_
  rw [hrecv]
  rfl

theorem run_readnLoop_ok {fuel left : Nat} {buf piece : Bytes} {f f' : Feed σ} (hleft : left ≠ 0)
    (hrecv : feeding kernel (.recv left) f = (.ok piece, f')) :
    (readnLoop .socket (fuel + 1) left buf).run (feeding kernel) f =
      (if piece = [] then Prog.ret (some buf)
        else readnLoop .socket fuel (left - piece.length) (buf ++ piece)).run (feeding kernel) f' := by
  rw [readnLoop, if_neg hleft]
  refine (run_call _ _ f).trans ?_
  rw [hrecv]
  rfl

/-- The loop of `readn` gets what is there, up to the size asked for. -/
theorem ends_readnLoop (kernel : (c : Call Fd) → σ → Resp c × σ) (left : Nat) (buf : Bytes) (f : Feed σ) :
    ∃ cuts, Ends (feeding kernel) (fun fuel => readnLoop .socket fuel left buf) f
      (some (buf ++ f.rest.take left)) (f.take left cuts) := by
  induction hsize : f.rest.length + f.cuts.length using Nat.strong_induction_on
    generalizing left buf f with
  | _ size ih =>
      by_cases hleft : left = 0
      · refine ⟨f.cuts, 1, ?_⟩
        beta_reduce
        rw [readnLoop, if_pos hleft, hleft, List.take_zero, List.append_nil]
        rfl
      -- a read of `n` bytes
      have hread : ∀ n cuts, 0 < n → n ≤ left → f.rest.length + cuts.length ≤ size →
          feeding kernel (.recv left) f = (.ok (f.rest.take n), f.take n cuts) →
          ∃ cuts', Ends (feeding kernel) (fun fuel => readnLoop .socket fuel left buf) f
            (some (buf ++ f.rest.take left)) (f.take left cuts') := by
        intro n cuts hn hnleft hcuts hrecv
        by_cases hnil : f.rest = []
        · refine ⟨cuts, 1, ?_⟩
          beta_reduce
          rw [run_readnLoop_ok hleft hrecv, hnil, List.take_nil, List.take_nil, if_pos rfl,
            List.append_nil, run_ret]
          simp only [Feed.take, hnil, List.drop_nil]
        · have hpos : 0 < f.rest.length := List.length_pos_iff.mpr hnil
          have hlen : (f.rest.take n).length = min n f.rest.length := List.length_take
          have htake : f.rest.take n ≠ [] := by
            intro hempty
            rw [hempty, List.length_nil] at hlen
            omega
          obtain ⟨cuts', fuel, hrun⟩ := ih ((f.take n cuts).rest.length + cuts.length)
            (by simp only [Feed.take, List.length_drop]; omega)
            (left - (f.rest.take n).length) (buf ++ f.rest.take n) (f.take n cuts) rfl
          refine ⟨cuts', fuel + 1, ?_⟩
          have hall : f.rest.take n ++ (f.rest.drop n).take (left - (f.rest.take n).length) =
              f.rest.take left := by
            rw [hlen]
            rcases Nat.le_total n f.rest.length with hle | hle
            · rw [Nat.min_eq_left hle, ← List.take_add, Nat.add_sub_cancel' hnleft]
            · rw [List.drop_of_length_le hle, List.take_nil, List.append_nil,
                List.take_of_length_le hle, List.take_of_length_le (hle.trans hnleft)]
          have hdrop : (f.take n cuts).take (left - (f.rest.take n).length) cuts' =
              f.take left cuts' := by
            simp only [Feed.take, List.drop_drop, hlen]
            rcases Nat.le_total n f.rest.length with hle | hle
            · rw [Nat.min_eq_left hle, Nat.add_sub_cancel' hnleft]
            · rw [List.drop_of_length_le (hle.trans hnleft), List.drop_of_length_le (by omega)]
          rw [hdrop, List.append_assoc, Feed.take, hall] at hrun
          exact (run_readnLoop_ok hleft hrecv).trans (by rw [if_neg htake]; exact hrun)
      cases hcuts : f.cuts with
      | nil =>
          apply hread left [] (Nat.pos_of_ne_zero hleft) le_rfl
          · rw [← hsize]
            simp
          · simp only [feeding, hcuts]
      | cons cut cuts =>
          have hlength : f.cuts.length = cuts.length + 1 := by rw [hcuts, List.length_cons]
          cases cut with
          | intr =>
              obtain ⟨cuts', fuel, hrun⟩ := ih (f.rest.length + cuts.length) (by omega) left buf
                (f.take 0 cuts) rfl
              refine ⟨cuts', fuel + 1, ?_⟩
              have hrecv : feeding kernel (.recv left) f = (.error .intr, f.take 0 cuts) := by
                simp only [feeding, hcuts]
              exact (run_readnLoop_intr hleft hrecv).trans hrun
          | piece n hn =>
              apply hread (min n left) cuts (by omega) (by omega) (by omega)
              simp only [feeding, hcuts]

theorem framed_readFull (n size : Nat) :
    Framed kernel (readFull n .socket size) fun fuel => readFull fuel .socket size := by
  have hfuelled : Fuelled fun fuel => readnLoop (.socket : Source Fd) fuel size [] :=
    fuelled_readnLoop .socket size []
  suffices Framed kernel (readnLoop .socket n size []) fun fuel => readnLoop .socket fuel size [] by
    refine Follows.bind this fun r => ?_
    cases r with
    | none => exact .ret _
    | some buf => exact .ret _
  refine ⟨hfuelled, ?_⟩
  rintro f g r f' ⟨hstate, hrest⟩ hrun
  obtain ⟨cuts, hends⟩ := ends_readnLoop kernel size [] f
  obtain ⟨cuts', hends'⟩ := ends_readnLoop kernel size [] g
  obtain ⟨rfl, rfl⟩ := Ends.unique hfuelled ⟨n, hrun⟩ hends
  rw [← hrest] at hends'
  exact ⟨g.take size cuts', ⟨hstate, congrArg (List.drop size) hrest⟩, hends'⟩

theorem framed_recvHeader (n : Nat) :
    Framed kernel (recvHeader n) fun fuel => recvHeader fuel := by
  refine (framed_readFull n headerSize).bind fun r => ?_
  cases r with
  | none => exact .ret _
  | some bytes => exact .ret _

theorem framed_recvRelPath (n : Nat) (header : SyncHeader) :
    Framed kernel (recvRelPath n header) fun fuel => recvRelPath fuel header := by
  unfold recvRelPath recvPath
  split_ifs
  · exact .ret _
  · exact .ret _
  · exact framed_readFull n _

/-! ## The handlers -/

theorem fuelled_recvHeader : Fuelled fun fuel => (recvHeader fuel : Sys Fd (Option SyncHeader)) :=
  (fuelled_readFull .socket headerSize).bind fun _ => .const _

theorem fuelled_recvFileBlocksUntilEnd (out : Fd) (expected_hash : UInt64) :
    Fuelled fun fuel => recvFileBlocksUntilEnd out expected_hash fuel := by
  intro m n hmn
  induction m generalizing n with
  | zero => trivial
  | succ m ih =>
      obtain ⟨n, rfl⟩ : ∃ k, n = k + 1 := ⟨n - 1, by omega⟩
      have hle := Nat.le_of_succ_le_succ hmn
      simp only [recvFileBlocksUntilEnd]
      refine Le.bind (fuelled_recvHeader hle) fun r => ?_
      cases r with
      | none => rfl
      | some h =>
          simp only
          split_ifs
          · rfl
          · rfl
          · rfl
          · refine Le.op_bind fun got => ?_
            split_ifs
            · rfl
            · refine Le.bind (fuelled_readFull .socket _ hle) fun r' => ?_
              cases r' with
              | none => rfl
              | some buf =>
                  simp only
                  split_ifs
                  · rfl
                  · refine Le.op_bind fun written => ?_
                    cases written with
                    | error e => rfl
                    | ok size =>
                        simp only
                        split_ifs
                        · rfl
                        · exact ih hle

theorem framed_recvFileBlocksUntilEnd (out : Fd) (expected_hash : UInt64) (n : Nat) :
    Framed kernel (recvFileBlocksUntilEnd out expected_hash n)
      fun fuel => recvFileBlocksUntilEnd out expected_hash fuel := by
  induction n with
  | zero => exact .spin (fuelled_recvFileBlocksUntilEnd out expected_hash)
  | succ n ih =>
      apply Follows.of_succ (fuelled_recvFileBlocksUntilEnd out expected_hash)
      simp only [recvFileBlocksUntilEnd]
      refine (framed_recvHeader n).bind fun r => ?_
      cases r with
      | none => exact .ret _
      | some h =>
          simp only
          split_ifs
          · exact .ret _
          · exact .ret _
          · exact .ret _
          · refine framed_call trivial fun got => ?_
            split_ifs
            · exact .ret _
            · refine (framed_readFull n _).bind fun r' => ?_
              cases r' with
              | none => exact .ret _
              | some buf =>
                  simp only
                  split_ifs
                  · exact .ret _
                  · refine framed_call trivial fun written => ?_
                    cases written with
                    | error e => exact .ret _
                    | ok size =>
                        simp only
                        split_ifs
                        · exact .ret _
                        · exact ih

theorem framed_recvBlockStream (n : Nat) (fd : Fd) (first_block : SyncHeader) :
    Framed kernel (recvBlockStream n fd first_block)
      fun fuel => recvBlockStream fuel fd first_block := by
  refine Follows.bind (P := fun fuel => recvFirstBlock fuel fd first_block) ?_ fun rc => ?_
  · refine (framed_readFull n _).bind fun r => ?_
    cases r with
    | none => exact .ret _
    | some buf =>
        simp only
        split_ifs
        · exact .ret _
        · refine framed_call trivial fun written => ?_
          cases written <;> exact .ret _
  · cases rc with
    | err => exact .ret _
    | ok => exact framed_recvFileBlocksUntilEnd fd 0 n

theorem framed_const {p : Sys Fd α} (h : OnFiles p) : Framed kernel p fun _ => p :=
  framed_of_onFiles (n := 0) (Fuelled.const p) h

theorem framed_fileBeginCritical (n : Nat) (header : SyncHeader) (root rel_path dst tmp : Bytes) :
    Framed kernel (fileBeginCritical n header root rel_path dst tmp)
      fun fuel => fileBeginCritical fuel header root rel_path dst tmp := by
  refine (framed_const (onFiles_ensureParentDirExists dst)).bind fun made => ?_
  split_ifs
  · exact .ret _
  refine (framed_of_onFiles (fuelled_backupOldVersion root rel_path)
    (onFiles_backupOldVersion n root rel_path)).bind fun saved => ?_
  split_ifs
  · exact .ret _
  refine framed_call trivial fun opened => ?_
  cases opened with
  | error e => exact .ret _
  | ok fd =>
      refine (framed_recvFileBlocksUntilEnd fd header.total_hash n).bind fun received => ?_
      refine (framed_const (onFiles_syncAndClose fd received.1)).bind fun closed => ?_
      split_ifs
      · exact .ret _
      refine (framed_of_onFiles (fuelled_hashFileFnv1a tmp)
        (onFiles_hashFileFnv1a n tmp)).bind fun actual_hash => ?_
      simp only
      split_ifs
      · exact .ret _
      refine (framed_of_onFiles (fuelled_publish header tmp dst)
        (onFiles_publish n header tmp dst)).bind fun published => ?_
      split_ifs <;> exact .ret _

theorem onFiles_hashAgrees (fuel : Nat) (tmp : Bytes) (expected_hash : UInt64) :
    OnFiles (hashAgrees fuel tmp expected_hash : Sys Fd Bool) := by
  unfold hashAgrees
  split_ifs
  · trivial
  · exact (onFiles_hashFileFnv1a fuel tmp).bind fun _ _ => trivial

theorem framed_blockStreamCritical (n : Nat) (first_block : SyncHeader)
    (root rel_path dst tmp : Bytes) :
    Framed kernel (blockStreamCritical n first_block root rel_path dst tmp)
      fun fuel => blockStreamCritical fuel first_block root rel_path dst tmp := by
  refine (framed_const (onFiles_ensureParentDirExists dst)).bind fun made => ?_
  split_ifs
  · exact .ret _
  refine framed_call trivial fun opened => ?_
  cases opened with
  | error e => exact .ret _
  | ok fd =>
      refine framed_call trivial fun got => ?_
      split_ifs
      · exact framed_call trivial fun _ => .ret _
      refine (framed_recvBlockStream n fd first_block).bind fun received => ?_
      refine (framed_const (onFiles_syncAndClose fd received.1)).bind fun closed => ?_
      split_ifs
      · exact .ret _
      refine (framed_of_onFiles (fuelled_hashAgrees tmp _)
        (onFiles_hashAgrees n tmp _)).bind fun agrees => ?_
      split_ifs
      · exact .ret _
      refine (framed_of_onFiles (fuelled_backupOldVersion root rel_path)
        (onFiles_backupOldVersion n root rel_path)).bind fun saved => ?_
      refine (framed_of_onFiles (fuelled_publish first_block tmp dst)
        (onFiles_publish n first_block tmp dst)).bind fun published => ?_
      split_ifs <;> exact .ret _

/-! ## Replies -/

theorem framed_writeFull (n : Nat) (buf : Bytes) :
    Framed kernel (writeFull n buf) fun fuel => writeFull fuel buf := by
  have hlocal : (writenLoop n buf : Sys Fd Rc).All Call.Local fun _ => True := by
    induction n generalizing buf with
    | zero => trivial
    | succ n ih =>
        rw [writenLoop]
        split_ifs
        · trivial
        · refine All.op_bind trivial fun r => ?_
          split
          · exact ih _
          · exact ih _
          · trivial
          · exact ih _
  exact All.follows (fuelled_writenLoop buf) hlocal fun _ hc => alike_of_local hc

theorem framed_sendError (n : Nat) (message : Bytes) :
    Framed kernel (sendError n message) fun fuel => sendError fuel message := by
  refine (framed_writeFull n _).bind fun rc => ?_
  cases rc with
  | err => exact .ret _
  | ok => exact framed_writeFull n _

theorem framed_refusal (n : Nat) (message : Bytes) :
    Framed kernel (do let _ ← sendError n message; return .err : Sys Fd Rc)
      (fun fuel => do let _ ← sendError fuel message; return .err) :=
  (framed_sendError n message).bind fun _ => .ret _

theorem framed_unlockAndReply (n : Nat) (outcome : Except Bytes Unit) (ack : UInt64) :
    Framed kernel (unlockAndReply n outcome ack) fun fuel => unlockAndReply fuel outcome ack := by
  refine framed_call trivial fun _ => ?_
  cases outcome with
  | ok _ => exact (framed_writeFull n _).bind fun _ => .ret _
  | error message => exact framed_refusal n message

/-- What a handler does between taking the lock and giving it back, and its reply. -/
theorem framed_critical {p : Sys Fd α} {P : Nat → Sys Fd α} (n : Nat) (h : Framed kernel p P)
    (outcome : α → Except Bytes Unit) (ack : UInt64) :
    Framed kernel (do sys .lockFiles; let a ← p; unlockAndReply n (outcome a) ack)
      (fun fuel => do sys .lockFiles; let a ← P fuel; unlockAndReply fuel (outcome a) ack) :=
  framed_call trivial fun _ => h.bind fun a => framed_unlockAndReply n (outcome a) ack

theorem framed_serverHandleFileBegin (n : Nat) (header : SyncHeader) (root rel_path : Bytes) :
    Framed kernel (serverHandleFileBegin n header root rel_path)
      fun fuel => serverHandleFileBegin fuel header root rel_path := by
  unfold serverHandleFileBegin
  cases uploadPaths root rel_path with
  | none => exact framed_refusal n _
  | some paths =>
      obtain ⟨dst, tmp⟩ := paths
      simp only
      split_ifs
      · exact framed_critical n (framed_const (onFiles_ensureDirExists dst)) _ 0
      · exact framed_critical n (framed_fileBeginCritical n header root rel_path dst tmp) id _

theorem framed_serverHandleFileDelete (n : Nat) (root rel_path : Bytes) :
    Framed kernel (serverHandleFileDelete n root rel_path)
      fun fuel => serverHandleFileDelete fuel root rel_path :=
  framed_critical n (framed_of_onFiles (fuelled_moveToTrash root rel_path)
    (onFiles_moveToTrash n root rel_path)) _ 0

theorem framed_serverHandleFileRename (n : Nat) (root combined_path : Bytes) :
    Framed kernel (serverHandleFileRename n root combined_path)
      fun fuel => serverHandleFileRename fuel root combined_path := by
  unfold serverHandleFileRename
  simp only
  split_ifs
  · exact framed_refusal n _
  · exact framed_refusal n _
  · cases currentPath root (cString combined_path) with
    | none => exact framed_refusal n _
    | some old_path =>
        cases currentPath root
            (cString (combined_path.drop ((cString combined_path).length + 1))) with
        | none => exact framed_refusal n _
        | some new_path =>
            exact framed_critical n (framed_of_onFiles (fuelled_renameCritical old_path new_path)
              (onFiles_renameCritical n old_path new_path)) id 0

theorem framed_serverHandleQueryOffset (n : Nat) (root rel_path : Bytes) :
    Framed kernel (serverHandleQueryOffset n root rel_path)
      fun fuel => serverHandleQueryOffset fuel root rel_path := by
  unfold serverHandleQueryOffset
  cases uploadPaths root rel_path with
  | none => exact framed_refusal n _
  | some paths =>
      obtain ⟨dst, tmp⟩ := paths
      exact (framed_const (onFiles_getFileSize tmp)).bind fun size => framed_writeFull n _

theorem framed_handleLargeBlockStream (n : Nat) (first_block : SyncHeader)
    (root rel_path : Bytes) :
    Framed kernel (handleLargeBlockStream n first_block root rel_path)
      fun fuel => handleLargeBlockStream fuel first_block root rel_path := by
  unfold handleLargeBlockStream
  cases uploadPaths root rel_path with
  | none => exact framed_refusal n _
  | some paths =>
      obtain ⟨dst, tmp⟩ := paths
      exact framed_critical n
        (framed_blockStreamCritical n first_block root rel_path dst tmp) id _

theorem framed_dispatch (n : Nat) (root : Bytes) (header : SyncHeader)
    (rel_path last_rel_path : Bytes) :
    Framed kernel (dispatch n root header rel_path last_rel_path)
      fun fuel => dispatch fuel root header rel_path last_rel_path := by
  unfold dispatch
  simp only
  split_ifs
  · exact framed_writeFull n _
  · exact framed_serverHandleFileBegin n header root _
  · exact framed_serverHandleQueryOffset n root _
  · exact framed_refusal n _
  · exact framed_handleLargeBlockStream n header root last_rel_path
  · exact framed_serverHandleFileDelete n root _
  · exact framed_serverHandleFileRename n root rel_path
  · exact framed_refusal n _

/-! ## The connection -/

/-- A message that the server has processed: its header, its path unless that could
not be received, and the result. -/
structure Handled where
  header : SyncHeader
  rel_path : Option Bytes
  rc : Rc

/-- The loop of `server_handle_connection`, which also returns the messages. -/
def handledConnectionLoop (fuel : Nat) (root log_path : Bytes) :
    Nat → Bytes → Sys Fd (List Handled × Rc)
  | 0, _ => .spin
  | rounds + 1, last_rel_path => do
      match ← recvHeader fuel with
      | none => return ([], .err)
      | some header =>
          if header.msg_type = msgExit then return ([], .ok)
          match ← recvRelPath fuel header with
          | none =>
              let _ ← sendError fuel (ascii "read path failed")
              return ([⟨header, none, .err⟩], .err)
          | some rel_path =>
              let last_rel_path := lastRelPath header rel_path last_rel_path
              let rc ← dispatch fuel root header rel_path last_rel_path
              sys (.appendLog log_path)
              if rc = .err then return ([⟨header, some rel_path, rc⟩], .err)
              if header.msg_type ≠ msgHello ∧ header.msg_type ≠ msgQueryOffset then
                return ([⟨header, some rel_path, rc⟩], .ok)
              let (ms, rc') ← handledConnectionLoop fuel root log_path rounds last_rel_path
              return (⟨header, some rel_path, rc⟩ :: ms, rc')

/-- Without the messages this is the loop of the server. -/
theorem handledConnectionLoop_snd (fuel : Nat) (root log_path : Bytes) (rounds : Nat)
    (last_rel_path : Bytes) :
    (do let r ← handledConnectionLoop fuel root log_path rounds last_rel_path; return r.2) =
      (serverHandleConnectionLoop fuel root log_path rounds last_rel_path : Sys Fd Rc) := by
  induction rounds generalizing last_rel_path with
  | zero => rfl
  | succ rounds ih =>
      rw [handledConnectionLoop, serverHandleConnectionLoop, bind_assoc]
      congr 1
      funext r
      cases r with
      | none => rfl
      | some header =>
          simp only
          by_cases hexit : header.msg_type = msgExit
          · rw [if_pos hexit, if_pos hexit]
            rfl
          rw [if_neg hexit, if_neg hexit, bind_assoc]
          congr 1
          funext r
          cases r with
          | none =>
              simp only
              rw [bind_assoc]
              rfl
          | some rel_path =>
              simp only
              rw [bind_assoc]
              congr 1
              funext rc
              refine congrArg (Prog.call (Call.appendLog log_path)) (funext fun _ => ?_)
              change (_ >>= fun r : List Handled × Rc => Prog.ret r.2) = _
              split_ifs
              · rfl
              · rfl
              · rw [← ih]
                exact Prog.bind_assoc
                  (handledConnectionLoop fuel root log_path rounds
                    (lastRelPath header rel_path last_rel_path))
                  (fun r => Prog.ret (⟨header, some rel_path, rc⟩ :: r.1, r.2))
                  (fun r => Prog.ret r.2)

/-- A kernel without any state, for what depends on the fuel only. -/
def noKernel : (c : Call Fd) → Empty → Resp c × Empty := fun _ e => e.elim

theorem fuelled_recvRelPath (header : SyncHeader) :
    Fuelled fun fuel => (recvRelPath fuel header : Sys Fd (Option Bytes)) :=
  have h : Framed noKernel (recvRelPath 0 header) _ := framed_recvRelPath 0 header
  h.fuelled

theorem fuelled_dispatch (root : Bytes) (header : SyncHeader) (rel_path last_rel_path : Bytes) :
    Fuelled fun fuel => (dispatch fuel root header rel_path last_rel_path : Sys Fd Rc) :=
  have h : Framed noKernel (dispatch 0 root header rel_path last_rel_path) _ :=
    framed_dispatch 0 root header rel_path last_rel_path
  h.fuelled

theorem le_handledConnectionLoop (root log_path : Bytes) {m n : Nat} (hmn : m ≤ n) {k l : Nat}
    (hkl : k ≤ l) (last_rel_path : Bytes) :
    (handledConnectionLoop m root log_path k last_rel_path : Sys Fd (List Handled × Rc)).Le
      (handledConnectionLoop n root log_path l last_rel_path) := by
  induction k generalizing l last_rel_path with
  | zero => trivial
  | succ k ih =>
      obtain ⟨l, rfl⟩ : ∃ j, l = j + 1 := ⟨l - 1, by omega⟩
      rw [handledConnectionLoop, handledConnectionLoop]
      refine Le.bind (fuelled_recvHeader hmn) fun r => ?_
      cases r with
      | none => rfl
      | some header =>
          simp only
          by_cases hexit : header.msg_type = msgExit
          · rw [if_pos hexit, if_pos hexit]
            rfl
          rw [if_neg hexit, if_neg hexit]
          refine Le.bind (fuelled_recvRelPath header hmn) fun r => ?_
          cases r with
          | none => exact Le.bind (fuelled_sendError _ hmn) fun _ => .refl _
          | some rel_path =>
              refine Le.bind (fuelled_dispatch root header rel_path _ hmn) fun rc => ?_
              refine Le.op_bind fun _ => ?_
              split_ifs
              · rfl
              · rfl
              · exact Le.bind (ih (Nat.le_of_succ_le_succ hkl) _) fun _ => .refl _

/-- One more round on the right needs one more unit of fuel in everything it calls. -/
theorem framed_handledConnectionLoop (n extra : Nat) (root log_path : Bytes) (rounds : Nat)
    (last_rel_path : Bytes) :
    Framed kernel (handledConnectionLoop n root log_path rounds last_rel_path)
      fun fuel => handledConnectionLoop (fuel + extra) root log_path fuel last_rel_path := by
  have hfuelled (extra : Nat) (last_rel_path : Bytes) : Fuelled fun fuel =>
      (handledConnectionLoop (fuel + extra) root log_path fuel last_rel_path :
        Sys Fd (List Handled × Rc)) := fun m m' hm =>
    le_handledConnectionLoop root log_path (Nat.add_le_add_right hm extra) hm last_rel_path
  induction rounds generalizing extra last_rel_path with
  | zero => exact .spin (hfuelled extra last_rel_path)
  | succ rounds ih =>
      apply Follows.of_succ (hfuelled extra last_rel_path)
      simp only [handledConnectionLoop, Nat.add_assoc]
      refine ((framed_recvHeader n).add_fuel (1 + extra)).bind fun r => ?_
      cases r with
      | none => exact .ret _
      | some header =>
          simp only
          by_cases hexit : header.msg_type = msgExit
          · simp only [if_pos hexit]
            exact .ret _
          simp only [if_neg hexit]
          refine ((framed_recvRelPath n header).add_fuel (1 + extra)).bind fun r => ?_
          cases r with
          | none => exact ((framed_sendError n _).add_fuel (1 + extra)).bind fun _ => .ret _
          | some rel_path =>
              refine ((framed_dispatch n root header rel_path _).add_fuel (1 + extra)).bind
                fun rc => ?_
              refine framed_call trivial fun _ => ?_
              split_ifs
              · exact .ret _
              · exact .ret _
              · exact (ih (1 + extra) _).bind fun _ => .ret _

/-- The server handles the messages `ms` of the stream, with the result `rc`; then
the rest of the world is in state `s'`. -/
def Conducts (kernel : (c : Call Fd) → σ → Resp c × σ) (root log_path : Bytes) (f : Feed σ)
    (ms : List Handled) (rc : Rc) (s' : σ) : Prop :=
  ∃ f', f'.state = s' ∧ Ends (feeding kernel)
    (fun fuel => handledConnectionLoop fuel root log_path fuel []) f (ms, rc) f'

theorem fuelled_handledConnection (root log_path : Bytes) : Fuelled fun fuel =>
    (handledConnectionLoop fuel root log_path fuel [] : Sys Fd (List Handled × Rc)) :=
  fun _ _ hmn => le_handledConnectionLoop root log_path hmn hmn []

/-- Another way to cut the same stream. -/
theorem Conducts.recut {root log_path : Bytes} {f g : Feed σ} {ms : List Handled} {rc : Rc}
    {s' : σ} (hsame : f.Same g) (h : Conducts kernel root log_path f ms rc s') :
    Conducts kernel root log_path g ms rc s' := by
  obtain ⟨f', rfl, n, hrun⟩ := h
  obtain ⟨g', hsame', hends⟩ := (framed_handledConnectionLoop n 0 root log_path n []).ends hsame hrun
  exact ⟨g', hsame'.1.symm, hends⟩

theorem Conducts.unique {root log_path : Bytes} {f : Feed σ} {ms ms' : List Handled}
    {rc rc' : Rc} {s' s'' : σ} (h : Conducts kernel root log_path f ms rc s')
    (h' : Conducts kernel root log_path f ms' rc' s'') : ms = ms' ∧ rc = rc' ∧ s' = s'' := by
  obtain ⟨f', rfl, hends⟩ := h
  obtain ⟨f'', rfl, hends'⟩ := h'
  obtain ⟨hpair, rfl⟩ := Ends.unique (fuelled_handledConnection root log_path) hends hends'
  cases hpair
  exact ⟨rfl, rfl, rfl⟩

/-- This is what `server_handle_connection` does. -/
theorem exists_conducts_iff {root log_path : Bytes} {f : Feed σ} {rc : Rc} {s' : σ} :
    (∃ ms, Conducts kernel root log_path f ms rc s') ↔ ∃ f', f'.state = s' ∧
      Ends (feeding kernel) (fun fuel => serverHandleConnection fuel root log_path) f rc f' := by
  constructor
  · rintro ⟨ms, f', hstate, n, hrun⟩
    refine ⟨f', hstate, n, ?_⟩
    beta_reduce
    rw [serverHandleConnection, ← handledConnectionLoop_snd, run_bind_of_eq hrun]
    rfl
  · rintro ⟨f', hstate, n, hrun⟩
    beta_reduce at hrun
    rw [serverHandleConnection, ← handledConnectionLoop_snd, run_bind] at hrun
    obtain ⟨⟨⟨ms, rc'⟩, f''⟩, hrun', hret⟩ := Option.bind_eq_some_iff.mp hrun
    cases hret
    exact ⟨ms, _, hstate, n, hrun'⟩

/-! ## Writing -/

/-- The outcome of one `write` on the socket. -/
inductive Taken
  | intr
  | again
  | bytes (size : Nat)

/-- What has been written to the socket, and how many writes there were. -/
structure Wire (σ : Type) where
  state : σ
  output : Bytes
  turn : Nat

/-- A kernel whose socket takes what it takes in turn. -/
def taking (kernel : (c : Call Fd) → σ → Resp c × σ) (sched : Nat → Taken) :
    (c : Call Fd) → Wire σ → Resp c × Wire σ
  | .send buf, w =>
      match sched w.turn with
      | .intr => (.error .intr, { w with turn := w.turn + 1 })
      | .again => (.error .again, { w with turn := w.turn + 1 })
      | .bytes size =>
          (.ok (min size buf.length), ⟨w.state, w.output ++ buf.take size, w.turn + 1⟩)
  | c, w => ((kernel c w.state).1, { w with state := (kernel c w.state).2 })

/-- From any turn on some write takes bytes. -/
def Progresses (sched : Nat → Taken) : Prop := ∀ i, ∃ j ≥ i, ∃ size > 0, sched j = .bytes size

/-- `write_full` for each buffer in turn. -/
def writeEach (fuel : Nat) : List Bytes → Sys Fd Rc
  | [] => return .ok
  | buf :: rest => do
      match ← writeFull fuel buf with
      | .err => return .err
      | .ok => writeEach fuel rest

variable {sched : Nat → Taken}

theorem run_writenLoop_error {fuel : Nat} {left : Bytes} {w w' : Wire σ} {e : Errno}
    (hleft : left ≠ []) (he : e = .intr ∨ e = .again)
    (hsend : taking kernel sched (.send left) w = (.error e, w')) :
    (writenLoop (fuel + 1) left).run (taking kernel sched) w =
      (writenLoop fuel left).run (taking kernel sched) w' := by
  rw [writenLoop, if_neg hleft]
  refine (run_call _ _ w).trans ?_
  rw [hsend]
  rcases he with rfl | rfl <;> rfl

theorem run_writenLoop_ok {fuel size : Nat} {left : Bytes} {w w' : Wire σ} (hleft : left ≠ [])
    (hsend : taking kernel sched (.send left) w = (.ok size, w')) :
    (writenLoop (fuel + 1) left).run (taking kernel sched) w =
      (writenLoop fuel (left.drop size)).run (taking kernel sched) w' := by
  rw [writenLoop, if_neg hleft]
  refine (run_call _ _ w).trans ?_
  rw [hsend]
  rfl

theorem drop_min_length (size : Nat) (buf : Bytes) :
    buf.drop (min size buf.length) = buf.drop size := by
  rcases Nat.le_total size buf.length with h | h
  · rw [Nat.min_eq_left h]
  · rw [Nat.min_eq_right h, List.drop_length, List.drop_of_length_le h]

/-- The loop of `writen` sends all that is left, in order. -/
theorem ends_writenLoop (kernel : (c : Call Fd) → σ → Resp c × σ) (hprog : Progresses sched) (left : Bytes) (w : Wire σ) :
    ∃ turn, Ends (taking kernel sched) (fun fuel => writenLoop fuel left) w .ok
      ⟨w.state, w.output ++ left, turn⟩ := by
  induction hlen : left.length using Nat.strong_induction_on generalizing left w with
  | _ len ih =>
      by_cases hnil : left = []
      · refine ⟨w.turn, 1, ?_⟩
        beta_reduce
        rw [writenLoop, if_pos hnil, hnil, List.append_nil]
        rfl
      obtain ⟨j, hj, size, hsize, htaken⟩ := hprog w.turn
      -- until turn `j` the loop only waits, or is done sooner
      induction hwait : j - w.turn generalizing w with
      | zero =>
          have hturn : w.turn = j := by omega
          have hsend : taking kernel sched (.send left) w =
              (.ok (min size left.length), ⟨w.state, w.output ++ left.take size, w.turn + 1⟩) := by
            simp only [taking, hturn, htaken]
          have hpos : 0 < left.length := List.length_pos_iff.mpr hnil
          obtain ⟨turn, fuel, hrun⟩ := ih (left.drop size).length
            (by rw [List.length_drop]; omega) (left.drop size)
            ⟨w.state, w.output ++ left.take size, w.turn + 1⟩ rfl
          refine ⟨turn, fuel + 1, (run_writenLoop_ok hnil hsend).trans ?_⟩
          rw [drop_min_length]
          beta_reduce at hrun
          rw [hrun, List.append_assoc, List.take_append_drop]
      | succ wait ihWait =>
          have hwaits : ∀ e, (e = .intr ∨ e = .again) → taking kernel sched (.send left) w =
              (.error e, { w with turn := w.turn + 1 }) → ∃ turn,
                Ends (taking kernel sched) (fun fuel => writenLoop fuel left) w .ok
                  ⟨w.state, w.output ++ left, turn⟩ := by
            intro e he hsend
            obtain ⟨turn, fuel, hrun⟩ := ihWait { w with turn := w.turn + 1 }
              (Nat.lt_of_sub_eq_succ hwait) (by simp only; omega)
            exact ⟨turn, fuel + 1, (run_writenLoop_error hnil he hsend).trans hrun⟩
          cases hturn : sched w.turn with
          | intr => exact hwaits .intr (Or.inl rfl) (by simp only [taking, hturn])
          | again => exact hwaits .again (Or.inr rfl) (by simp only [taking, hturn])
          | bytes taken =>
              have hsend : taking kernel sched (.send left) w = (.ok (min taken left.length),
                  ⟨w.state, w.output ++ left.take taken, w.turn + 1⟩) := by
                simp only [taking, hturn]
              cases taken with
              | zero =>
                  obtain ⟨turn, fuel, hrun⟩ := ihWait { w with turn := w.turn + 1 }
                    (Nat.lt_of_sub_eq_succ hwait) (by simp only; omega)
                  rw [List.take_zero, List.append_nil] at hsend
                  refine ⟨turn, fuel + 1, (run_writenLoop_ok hnil hsend).trans ?_⟩
                  rw [Nat.zero_min, List.drop_zero]
                  exact hrun
              | succ taken =>
                  have hpos : 0 < left.length := List.length_pos_iff.mpr hnil
                  obtain ⟨turn, fuel, hrun⟩ := ih (left.drop (taken + 1)).length
                    (by rw [List.length_drop]; omega) (left.drop (taken + 1))
                    ⟨w.state, w.output ++ left.take (taken + 1), w.turn + 1⟩ rfl
                  refine ⟨turn, fuel + 1, (run_writenLoop_ok hnil hsend).trans ?_⟩
                  rw [drop_min_length]
                  beta_reduce at hrun
                  rw [hrun, List.append_assoc, List.take_append_drop]

/-- A sequence of sends puts the concatenation of its buffers on the wire. -/
theorem ends_writeEach (hprog : Progresses sched) (bufs : List Bytes) (w : Wire σ) :
    ∃ turn, Ends (taking kernel sched) (fun fuel => writeEach fuel bufs) w .ok
      ⟨w.state, w.output ++ bufs.flatten, turn⟩ := by
  have hfuelled (bufs : List Bytes) :
      Fuelled fun fuel => (writeEach fuel bufs : Sys Fd Rc) := by
    induction bufs with
    | nil => exact .const _
    | cons buf rest ih =>
        refine (fuelled_writenLoop buf).bind fun rc => ?_
        cases rc with
        | err => exact .const _
        | ok => exact ih
  induction bufs generalizing w with
  | nil =>
      refine ⟨w.turn, 0, ?_⟩
      rw [List.flatten_nil, List.append_nil]
      rfl
  | cons buf rest ih =>
      obtain ⟨turn, hends⟩ := ends_writenLoop kernel hprog buf w
      obtain ⟨turn', hends'⟩ := ih ⟨w.state, w.output ++ buf, turn⟩
      refine ⟨turn', ?_⟩
      rw [List.flatten_cons, ← List.append_assoc]
      refine Ends.bind (a := Rc.ok) (fuelled_writenLoop buf) ?_ hends ?_
      · exact hfuelled rest
      · exact hends'

/-! ## Framing is independent of fragmentation -/

/-- However a stream is cut, the server handles the same messages, and the world is
the same in the end, with what was sent and stored; and however the socket takes
what is written, it gets all of it in order. -/
theorem framing_independent (kernel : (c : Call Fd) → σ → Resp c × σ)
    (root log_path B : Bytes) (cuts₁ cuts₂ : List Cut) (s : σ) :
    (∀ ms rc s', Conducts kernel root log_path ⟨s, B, cuts₁⟩ ms rc s' ↔
      Conducts kernel root log_path ⟨s, B, cuts₂⟩ ms rc s') ∧
    (∀ ms₁ ms₂ rc₁ rc₂ s₁ s₂, Conducts kernel root log_path ⟨s, B, cuts₁⟩ ms₁ rc₁ s₁ →
      Conducts kernel root log_path ⟨s, B, cuts₂⟩ ms₂ rc₂ s₂ → ms₁ = ms₂ ∧ rc₁ = rc₂ ∧ s₁ = s₂) ∧
    (∀ rc s', (∃ ms, Conducts kernel root log_path ⟨s, B, cuts₁⟩ ms rc s') ↔ ∃ f', f'.state = s' ∧
      Ends (feeding kernel) (fun fuel => serverHandleConnection fuel root log_path)
        ⟨s, B, cuts₁⟩ rc f') ∧
    ∀ sched, Progresses sched → ∀ (bufs : List Bytes) (w : Wire σ), ∃ turn,
      Ends (taking kernel sched) (fun fuel => writeEach fuel bufs) w .ok
        ⟨w.state, w.output ++ bufs.flatten, turn⟩ := by
  have hsame : Feed.Same (⟨s, B, cuts₁⟩ : Feed σ) ⟨s, B, cuts₂⟩ := ⟨rfl, rfl⟩
  refine ⟨fun ms rc s' => ⟨.recut hsame, .recut ⟨rfl, rfl⟩⟩, ?_, fun rc s' => exists_conducts_iff,
    fun sched hprog bufs w => ends_writeEach hprog bufs w⟩
  intro ms₁ ms₂ rc₁ rc₂ s₁ s₂ h₁ h₂
  exact (h₁.recut hsame).unique h₂

end Framing

/-! ### One byte at a time -/

def emptyWorld : World := ⟨⟨[]⟩, ⟨fun _ => [], 0, []⟩⟩

theorem progresses_oneByte : Progresses fun _ => .bytes 1 := fun i => ⟨i, le_rfl, 1, one_pos, rfl⟩

theorem framing_independent_oneByte :
    (∀ ms rc w, Conducts (posix ⟨[], ⟨126, 1, 2, 3, 4, 5⟩⟩) (ascii "s") (ascii "log")
        ⟨emptyWorld, (initSyncHeader msgHello).encode, []⟩ ms rc w ↔
      Conducts (posix ⟨[], ⟨126, 1, 2, 3, 4, 5⟩⟩) (ascii "s") (ascii "log")
        ⟨emptyWorld, (initSyncHeader msgHello).encode, [.intr, .piece 1 one_pos]⟩ ms rc w) ∧
      ∃ turn, Ends (taking (posix ⟨[], ⟨126, 1, 2, 3, 4, 5⟩⟩) fun _ => .bytes 1)
        (fun fuel => writeEach fuel [[1, 2], [3]]) ⟨emptyWorld, [], 0⟩ .ok
        ⟨emptyWorld, [1, 2, 3], turn⟩ :=
  have h := framing_independent (posix ⟨[], ⟨126, 1, 2, 3, 4, 5⟩⟩) (ascii "s") (ascii "log")
    (initSyncHeader msgHello).encode [] [.intr, .piece 1 one_pos] emptyWorld
  ⟨h.1, h.2.2.2 _ progresses_oneByte [[1, 2], [3]] ⟨emptyWorld, [], 0⟩⟩

end MiniSync
