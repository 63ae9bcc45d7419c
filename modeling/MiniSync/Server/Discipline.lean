import MiniSync.Server.Mute

/-!
# The discipline of a connection

Every message whose header is accepted gets one reply, unless it is EXIT; all
messages but the last say hello or ask for an offset; and a stream of blocks goes to
the path that the last query named.

The file system is left open: whatever the file calls return, and however other
connections change the files in between, is covered.
-/

namespace MiniSync

open Prog

/-! ## Replies -/

inductive Reply
  | ack (offset : UInt64)
  | offsetReply (offset : UInt64)
  | error (message : Bytes)

/-- The bytes of a reply. -/
def Reply.wire : Reply → Bytes
  | .ack offset => SyncHeader.encode { initSyncHeader msgAck with offset := offset }
  | .offsetReply offset => SyncHeader.encode { initSyncHeader msgOffsetReply with offset := offset }
  | .error message =>
      let length := min message.length maxNetPath
      SyncHeader.encode { initSyncHeader msgError with path_len := .ofNat length } ++
        message.take length

section Discipline

variable {Fd σ : Type} {K : (c : Call Fd) → σ → Resp c → σ → Prop} {sent : σ → Bytes}
  {α : Type} {s s' : σ} {fuel : Nat} {root log_path : Bytes}

/-- Writes to the socket succeed: each sends the beginning of its buffer, or has to
be tried again; and nothing else sends. -/
structure Delivers (K : (c : Call Fd) → σ → Resp c → σ → Prop) (sent : σ → Bytes) : Prop where
  send : ∀ {buf : Bytes} {s s' : σ} {r : Resp (.send buf)}, K (.send buf) s r s' →
    ((r = .error .intr ∨ r = .error .again) ∧ sent s' = sent s) ∨
      ∃ n ≤ buf.length, r = .ok n ∧ sent s' = sent s ++ buf.take n
  silent : ∀ {c : Call Fd} {s s' : σ} {r : Resp c}, K c s r s' → c.Mute → sent s' = sent s
  unlock : ∀ {s s' : σ} {r : Resp (.unlockFiles : Call Fd)}, K .unlockFiles s r s' → sent s' = sent s
  lock : ∀ {s s' : σ} {r : Resp (.lockFiles : Call Fd)}, K .lockFiles s r s' → sent s' = sent s
  log : ∀ {path : Bytes} {s s' : σ} {r : Resp (.appendLog path : Call Fd)},
    K (.appendLog path) s r s' → sent s' = sent s

/-! ## What programs send -/

/-- The program sends one reply. -/
def Answers (K : (c : Call Fd) → σ → Resp c → σ → Prop) (sent : σ → Bytes) (p : Sys Fd α)
    (s : σ) : Prop :=
  p.Safe K (fun _ => True) (fun _ s' => ∃ reply : Reply, sent s' = sent s ++ reply.wire) s

theorem safe_writeFull (hK : Delivers K sent) (fuel : Nat) (buf : Bytes) (s : σ) :
    (writeFull fuel buf).Safe K (fun _ => True)
      (fun rc s' => rc = .ok ∧ sent s' = sent s ++ buf) s := by
  unfold writeFull
  induction fuel generalizing buf s with
  | zero => trivial
  | succ fuel ih =>
      rw [writenLoop]
      split_ifs with hnil
      · rw [hnil]
        exact ⟨rfl, (List.append_nil _).symm⟩
      · apply Safe.op_bind
        intro r s' hsend
        refine ⟨trivial, ?_⟩
        rcases hK.send hsend with ⟨rfl | rfl, hsent⟩ | ⟨n, -, rfl, hsent⟩
        · have hrest := ih buf s'
          rwa [hsent] at hrest
        · have hrest := ih buf s'
          rwa [hsent] at hrest
        · apply (ih (buf.drop n) s').post
          rintro rc s'' ⟨hrc, hsent'⟩
          refine ⟨hrc, ?_⟩
          rw [hsent', hsent, List.append_assoc, List.take_append_drop]

theorem Mute.safe {p : Sys Fd α} (hK : Delivers K sent) (h : Mute p) (s : σ) :
    p.Safe K (fun _ => True) (fun _ s' => sent s' = sent s) s := by
  have hframe := All.safe (K := K) (I := fun s' => sent s' = sent s) h
    (fun c s₁ r s₂ hc hs₁ hstep => (hK.silent hstep hc).trans hs₁) rfl
  exact hframe.mono (fun _ _ => trivial) fun a s' h => h.2

theorem answers_sendAck (hK : Delivers K sent) (fuel : Nat) (offset : UInt64) (s : σ) :
    Answers K sent (sendAck fuel offset) s := by
  apply (safe_writeFull hK fuel _ s).post
  rintro rc s' ⟨-, hsent⟩
  exact ⟨.ack offset, hsent⟩

theorem answers_sendError (hK : Delivers K sent) (fuel : Nat) (message : Bytes) (s : σ) :
    Answers K sent (sendError fuel message) s := by
  apply (safe_writeFull hK fuel _ s).bind
  rintro rc s₁ ⟨rfl, hheader⟩
  apply (safe_writeFull hK fuel _ s₁).post
  rintro rc s₂ ⟨-, htext⟩
  refine ⟨.error message, ?_⟩
  rw [htext, hheader, List.append_assoc]
  rfl

/-- An error reply after which `.err` is returned. -/
theorem answers_refusal (hK : Delivers K sent) (fuel : Nat) (message : Bytes) (s : σ) :
    Answers K sent (do let _ ← sendError fuel message; return .err : Sys Fd Rc) s :=
  (answers_sendError hK fuel message s).bind fun _ _ h => h

/-- A silent part before the reply. -/
theorem Answers.after {β : Type} {p : Sys Fd α} {f : α → Sys Fd β}
    (hp : p.Safe K (fun _ => True) (fun _ s' => sent s' = sent s) s)
    (hf : ∀ a s', Answers K sent (f a) s') : Answers K sent (p >>= f) s := by
  apply hp.bind
  intro a s' hsilent
  have hanswer := hf a s'
  unfold Answers at hanswer
  rwa [hsilent] at hanswer

/-- The same for one call. -/
theorem Answers.after_call {β : Type} {c : Call Fd} {f : Resp c → Sys Fd β}
    (hc : ∀ r s', K c s r s' → sent s' = sent s)
    (hf : ∀ a s', Answers K sent (f a) s') : Answers K sent (sys c >>= f) s := by
  apply Answers.after _ hf
  exact fun r s' hstep => ⟨trivial, hc r s' hstep⟩

theorem answers_unlockAndReply (hK : Delivers K sent) (fuel : Nat) (outcome : Except Bytes Unit)
    (ack : UInt64) (s : σ) : Answers K sent (unlockAndReply fuel outcome ack) s := by
  apply Answers.after_call fun _ _ => hK.unlock
  intro _ s'
  cases outcome with
  | ok _ => exact (answers_sendAck hK fuel ack s').bind fun _ _ h => h
  | error message => exact answers_refusal hK fuel message s'

/-! ## The handlers -/

theorem answers_serverHandleFileBegin (hK : Delivers K sent) (fuel : Nat) (header : SyncHeader)
    (root rel_path : Bytes) (s : σ) :
    Answers K sent (serverHandleFileBegin fuel header root rel_path) s := by
  unfold serverHandleFileBegin
  split
  · exact answers_refusal hK fuel _ s
  · rename_i dst tmp hpaths
    split_ifs
    · apply Answers.after_call fun _ _ => hK.lock
      intro _ s₁
      apply Answers.after ((onFiles_ensureDirExists dst).mute.safe hK s₁)
      intro made s₂
      exact answers_unlockAndReply hK fuel _ _ s₂
    · apply Answers.after_call fun _ _ => hK.lock
      intro _ s₁
      apply Answers.after ((mute_fileBeginCritical fuel header root rel_path dst tmp).safe hK s₁)
      intro outcome s₂
      exact answers_unlockAndReply hK fuel _ _ s₂

theorem answers_serverHandleFileDelete (hK : Delivers K sent) (fuel : Nat)
    (root rel_path : Bytes) (s : σ) :
    Answers K sent (serverHandleFileDelete fuel root rel_path) s := by
  apply Answers.after_call fun _ _ => hK.lock
  intro _ s₁
  apply Answers.after ((onFiles_moveToTrash fuel root rel_path).mute.safe hK s₁)
  intro moved s₂
  exact answers_unlockAndReply hK fuel _ _ s₂

theorem answers_serverHandleFileRename (hK : Delivers K sent) (fuel : Nat)
    (root combined_path : Bytes) (s : σ) :
    Answers K sent (serverHandleFileRename fuel root combined_path) s := by
  unfold serverHandleFileRename
  simp only
  split_ifs
  · exact answers_refusal hK fuel _ s
  · exact answers_refusal hK fuel _ s
  · split
    · rename_i old_path new_path _ _
      apply Answers.after_call fun _ _ => hK.lock
      intro _ s₁
      apply Answers.after ((onFiles_renameCritical fuel old_path new_path).mute.safe hK s₁)
      intro outcome s₂
      exact answers_unlockAndReply hK fuel _ _ s₂
    · exact answers_refusal hK fuel _ s

theorem answers_serverHandleQueryOffset (hK : Delivers K sent) (fuel : Nat)
    (root rel_path : Bytes) (s : σ) :
    Answers K sent (serverHandleQueryOffset fuel root rel_path) s := by
  unfold serverHandleQueryOffset
  split
  · exact answers_refusal hK fuel _ s
  · rename_i dst tmp hpaths
    apply Answers.after ((onFiles_getFileSize tmp).mute.safe hK s)
    intro size s₁
    apply (safe_writeFull hK fuel _ s₁).post
    rintro rc s₂ ⟨-, hsent⟩
    exact ⟨.offsetReply _, hsent⟩

theorem answers_handleLargeBlockStream (hK : Delivers K sent) (fuel : Nat)
    (first_block : SyncHeader) (root rel_path : Bytes) (s : σ) :
    Answers K sent (handleLargeBlockStream fuel first_block root rel_path) s := by
  unfold handleLargeBlockStream
  split
  · exact answers_refusal hK fuel _ s
  · rename_i dst tmp hpaths
    apply Answers.after_call fun _ _ => hK.lock
    intro _ s₁
    apply Answers.after
      ((mute_blockStreamCritical fuel first_block root rel_path dst tmp).safe hK s₁)
    intro outcome s₂
    exact answers_unlockAndReply hK fuel _ _ s₂

theorem answers_dispatch (hK : Delivers K sent) (fuel : Nat) (root : Bytes)
    (header : SyncHeader) (rel_path last_rel_path : Bytes) (s : σ) :
    Answers K sent (dispatch fuel root header rel_path last_rel_path) s := by
  unfold dispatch
  simp only
  split_ifs
  · exact answers_sendAck hK fuel 0 s
  · exact answers_serverHandleFileBegin hK fuel header root _ s
  · exact answers_serverHandleQueryOffset hK fuel root _ s
  · exact answers_refusal hK fuel _ s
  · exact answers_handleLargeBlockStream hK fuel header root last_rel_path s
  · exact answers_serverHandleFileDelete hK fuel root _ s
  · exact answers_serverHandleFileRename hK fuel root rel_path s
  · exact answers_refusal hK fuel _ s

/-! ## The messages of a connection -/

/-- A message whose header was accepted, and the states between which it was
processed. -/
structure Message (σ : Type) where
  header : SyncHeader
  /-- The buffer with the path, unless that could not be received. -/
  rel_path : Option Bytes
  /-- The path that is remembered while the message is processed. -/
  last_rel_path : Bytes
  before : σ
  received : σ
  replied : σ
  after : σ
  rc : Rc

/-- The server has processed `m`, having remembered `last_rel_path` before. -/
structure Processed (K : (c : Call Fd) → σ → Resp c → σ → Prop) (fuel : Nat)
    (root log_path last_rel_path : Bytes) (m : Message σ) : Prop where
  not_exit : m.header.msg_type ≠ msgExit
  receives : ∃ s, Exec K (recvHeader fuel) m.before (some m.header) s ∧
    Exec K (recvRelPath fuel m.header) s m.rel_path m.received
  refuses : m.rel_path = none → m.rc = .err ∧ m.after = m.replied ∧
    ∃ rc, Exec K (sendError fuel (ascii "read path failed")) m.received rc m.replied
  dispatches : ∀ rel_path, m.rel_path = some rel_path →
    m.last_rel_path = lastRelPath m.header rel_path last_rel_path ∧
      Exec K (dispatch fuel root m.header rel_path m.last_rel_path) m.received m.rc m.replied ∧
      Exec K (sys (.appendLog log_path)) m.replied () m.after

/-- No further header is read. -/
def Message.Final (m : Message σ) : Prop :=
  m.rc = .err ∨ (m.header.msg_type ≠ msgHello ∧ m.header.msg_type ≠ msgQueryOffset)

/-- A connection, message by message. -/
inductive Session (K : (c : Call Fd) → σ → Resp c → σ → Prop) (fuel : Nat)
    (root log_path : Bytes) : Bytes → σ → List (Message σ) → Rc → σ → Prop
  | rejected {last_rel_path : Bytes} {s s' : σ} :
      Exec K (recvHeader fuel) s none s' → Session K fuel root log_path last_rel_path s [] .err s'
  | exit {last_rel_path : Bytes} {s s' : σ} {header : SyncHeader} :
      Exec K (recvHeader fuel) s (some header) s' → header.msg_type = msgExit →
        Session K fuel root log_path last_rel_path s [] .ok s'
  | final {last_rel_path : Bytes} {m : Message σ} :
      Processed K fuel root log_path last_rel_path m → m.Final →
        Session K fuel root log_path last_rel_path m.before [m] m.rc m.after
  | next {last_rel_path : Bytes} {m : Message σ} {ms : List (Message σ)} {rc : Rc} {s' : σ} :
      Processed K fuel root log_path last_rel_path m → ¬ m.Final →
        Session K fuel root log_path m.last_rel_path m.after ms rc s' →
          Session K fuel root log_path last_rel_path m.before (m :: ms) rc s'

/-- The messages are a consequence of the execution. -/
theorem exec_session {rounds : Nat} {last_rel_path : Bytes} {rc : Rc}
    (h : Exec K (serverHandleConnectionLoop fuel root log_path rounds last_rel_path) s rc s') :
    ∃ ms, Session K fuel root log_path last_rel_path s ms rc s' := by
  induction rounds generalizing last_rel_path s with
  | zero => cases h
  | succ rounds ih =>
      rw [serverHandleConnectionLoop] at h
      obtain ⟨r, s₁, hheader, h⟩ := exec_bind.mp h
      cases r with
      | none =>
          obtain ⟨rfl, rfl⟩ := exec_ret h
          exact ⟨[], .rejected hheader⟩
      | some header =>
          simp only at h
          by_cases hexit : header.msg_type = msgExit
          · rw [if_pos hexit] at h
            obtain ⟨rfl, rfl⟩ := exec_ret h
            exact ⟨[], .exit hheader hexit⟩
          rw [if_neg hexit] at h
          obtain ⟨r, s₂, hpath, h⟩ := exec_bind.mp h
          cases r with
          | none =>
              obtain ⟨r, s₃, herror, h⟩ := exec_bind.mp h
              obtain ⟨rfl, rfl⟩ := exec_ret h
              let m : Message σ := ⟨header, none, last_rel_path, s, s₂, s', s', .err⟩
              have hm : Processed K fuel root log_path last_rel_path m :=
                ⟨hexit, ⟨s₁, hheader, hpath⟩, fun _ => ⟨rfl, rfl, r, herror⟩, nofun⟩
              exact ⟨[m], Session.final hm (Or.inl rfl)⟩
          | some rel_path =>
              obtain ⟨r, s₃, hdispatch, h⟩ := exec_bind.mp h
              obtain ⟨u, s₄, hlog, h⟩ := exec_bind.mp h
              let m : Message σ := ⟨header, some rel_path,
                lastRelPath header rel_path last_rel_path, s, s₂, s₃, s₄, r⟩
              have hm : Processed K fuel root log_path last_rel_path m := by
                refine ⟨hexit, ⟨s₁, hheader, hpath⟩, nofun, ?_⟩
                intro rel_path' heq
                cases heq
                exact ⟨rfl, hdispatch, hlog⟩
              by_cases hfinal : m.Final
              · have hend : rc = r ∧ s' = s₄ := by
                  cases r with
                  | err => exact exec_ret h
                  | ok =>
                      have hlast := hfinal.resolve_left nofun
                      rw [if_neg nofun, if_pos hlast] at h
                      exact exec_ret h
                obtain ⟨rfl, rfl⟩ := hend
                exact ⟨[m], Session.final hm hfinal⟩
              · obtain ⟨herr, hlast⟩ := not_or.mp hfinal
                rw [if_neg herr, if_neg hlast] at h
                obtain ⟨ms, hms⟩ := ih h
                exact ⟨m :: ms, .next hm hfinal hms⟩

/-! ## What holds of every message -/

variable {last_rel_path : Bytes} {m : Message σ} {ms : List (Message σ)} {rc : Rc}

theorem Exec.silent {p : Sys Fd α} {a : α} (hK : Delivers K sent) (hp : Mute p)
    (h : Exec K p s a s') : sent s' = sent s :=
  (hp.safe hK s).exec h

/-- Every message gets one reply. -/
theorem Processed.replied (hK : Delivers K sent)
    (h : Processed K fuel root log_path last_rel_path m) :
    ∃ reply : Reply, sent m.after = sent m.before ++ reply.wire := by
  obtain ⟨s₁, hheader, hpath⟩ := h.receives
  have hbefore : sent m.received = sent m.before :=
    (Exec.silent hK (mute_recvRelPath fuel m.header) hpath).trans
      (Exec.silent hK (mute_recvHeader fuel) hheader)
  cases hrel : m.rel_path with
  | none =>
      obtain ⟨-, hafter, rc, herror⟩ := h.refuses hrel
      obtain ⟨reply, hreply⟩ := (answers_sendError hK fuel _ _).exec herror
      exact ⟨reply, by rw [hafter, hreply, hbefore]⟩
  | some rel_path =>
      obtain ⟨-, hdispatch, hlog⟩ := h.dispatches rel_path hrel
      obtain ⟨reply, hreply⟩ := (answers_dispatch hK fuel root _ _ _ _).exec hdispatch
      exact ⟨reply, by rw [hK.log (exec_op hlog), hreply, hbefore]⟩

theorem Session.replies (hK : Delivers K sent)
    (h : Session K fuel root log_path last_rel_path s ms rc s') :
    ∃ replies : List Reply,
      List.Forall₂ (fun m (reply : Reply) => sent m.after = sent m.before ++ reply.wire)
        ms replies ∧ sent s' = sent s ++ replies.flatMap Reply.wire := by
  induction h with
  | rejected hheader =>
      refine ⟨[], .nil, ?_⟩
      rw [Exec.silent hK (mute_recvHeader fuel) hheader]
      exact (List.append_nil _).symm
  | exit hheader _ =>
      refine ⟨[], .nil, ?_⟩
      rw [Exec.silent hK (mute_recvHeader fuel) hheader]
      exact (List.append_nil _).symm
  | final hm _ =>
      obtain ⟨reply, hreply⟩ := hm.replied hK
      exact ⟨[reply], .cons hreply .nil, by rw [hreply, List.flatMap_singleton]⟩
  | next hm _ _ ih =>
      obtain ⟨reply, hreply⟩ := hm.replied hK
      obtain ⟨replies, hreplies, hsent⟩ := ih
      refine ⟨reply :: replies, .cons hreply hreplies, ?_⟩
      rw [hsent, hreply, List.flatMap_cons, List.append_assoc]

/-- The message processes a file. -/
def Message.Decisive (m : Message σ) : Prop :=
  m.header.msg_type ∈ [msgFileBegin, msgFileBlock, msgFileDelete, msgFileRename]

theorem Message.Decisive.final (h : m.Decisive) : m.Final := by
  unfold Message.Decisive at h
  simp only [List.mem_cons, List.not_mem_nil, or_false] at h
  right
  rcases h with h | h | h | h <;> rw [h] <;> decide

/-- Messages that are followed by others are not final, and after the last one
nothing more is read. -/
theorem Session.split (h : Session K fuel root log_path last_rel_path s ms rc s')
    {earlier later : List (Message σ)} (hms : ms = earlier ++ m :: later) :
    (∀ e ∈ earlier, ¬ e.Final) ∧ (m.Final → later = [] ∧ s' = m.after ∧ rc = m.rc) := by
  induction h generalizing earlier with
  | rejected => exact absurd hms (by simp)
  | exit => exact absurd hms (by simp)
  | @final last m' hm' hfinal =>
      cases earlier with
      | nil =>
          cases hms
          exact ⟨nofun, fun _ => ⟨rfl, rfl, rfl⟩⟩
      | cons e earlier => simp at hms
  | @next last m' ms' rc s' hm' hnot hrest ih =>
      cases earlier with
      | nil =>
          cases hms
          exact ⟨nofun, fun h => absurd h hnot⟩
      | cons e earlier =>
          cases hms
          obtain ⟨hearlier, hlast⟩ := ih rfl
          refine ⟨?_, hlast⟩
          intro e' he'
          rcases List.mem_cons.mp he' with rfl | he'
          · exact hnot
          · exact hearlier e' he'

/-! ## Streams of blocks -/

/-- The path that the most recent QUERY_OFFSET named, after `last` before. -/
def recentQuery (last : Option Bytes) (ms : List (Message σ)) : Option Bytes :=
  ms.foldl (fun last m =>
    if m.header.msg_type = msgQueryOffset then m.rel_path.map cString else last) last

theorem uploadPaths_nil (root : Bytes) : uploadPaths root [] = none := rfl

/-- A query without a path ends the connection. -/
theorem Processed.query_ne_nil {rel_path : Bytes}
    (h : Processed K fuel root log_path last_rel_path m) (hrel : m.rel_path = some rel_path)
    (hquery : m.header.msg_type = msgQueryOffset) (hnot : ¬ m.Final) : cString rel_path ≠ [] := by
  intro hnil
  obtain ⟨-, hdispatch, -⟩ := h.dispatches rel_path hrel
  unfold dispatch serverHandleQueryOffset at hdispatch
  simp only [hquery, hnil, uploadPaths_nil] at hdispatch
  rw [if_neg (by decide), if_neg (by decide), if_pos trivial] at hdispatch
  obtain ⟨rc, s₁, -, hret⟩ := exec_bind.mp hdispatch
  exact hnot (Or.inl (exec_ret hret).1)

/-- What a message that is not the last one leaves to remember. -/
theorem Processed.remembers {last : Option Bytes}
    (h : Processed K fuel root log_path (last.getD []) m) (hnot : ¬ m.Final)
    (hlast : last ≠ some []) :
    m.last_rel_path = (recentQuery last [m]).getD [] ∧ recentQuery last [m] ≠ some [] := by
  cases hrel : m.rel_path with
  | none => exact absurd (Or.inl (h.refuses hrel).1) hnot
  | some rel_path =>
      have hremember := (h.dispatches rel_path hrel).1
      unfold recentQuery
      simp only [List.foldl_cons, List.foldl_nil, hrel, Option.map_some]
      unfold lastRelPath at hremember
      rw [hremember]
      by_cases hquery : m.header.msg_type = msgQueryOffset
      · rw [if_pos (Or.inr hquery), if_pos hquery]
        refine ⟨rfl, fun hnil => ?_⟩
        exact h.query_ne_nil hrel hquery hnot (Option.some.inj hnil)
      · have hbegin : m.header.msg_type ≠ msgFileBegin := by
          intro hbegin
          exact hnot (Or.inr (by rw [hbegin]; decide))
        rw [if_neg (not_or.mpr ⟨hbegin, hquery⟩), if_neg hquery]
        exact ⟨rfl, hlast⟩

theorem Session.remembers {last : Option Bytes} (hlast : last ≠ some [])
    (h : Session K fuel root log_path (last.getD []) s ms rc s')
    {earlier later : List (Message σ)} (hms : ms = earlier ++ m :: later) :
    Processed K fuel root log_path ((recentQuery last earlier).getD []) m ∧
      recentQuery last earlier ≠ some [] := by
  generalize hlast' : last.getD [] = last_rel_path at h
  induction h generalizing last earlier with
  | rejected => exact absurd hms (by simp)
  | exit => exact absurd hms (by simp)
  | @final last_rel_path m' hm' hfinal =>
      subst hlast'
      cases earlier with
      | nil =>
          cases hms
          exact ⟨hm', hlast⟩
      | cons e earlier => simp at hms
  | @next last_rel_path m' ms' rc s' hm' hnot hrest ih =>
      subst hlast'
      cases earlier with
      | nil =>
          cases hms
          exact ⟨hm', hlast⟩
      | cons e earlier =>
          cases hms
          obtain ⟨hremember, hne⟩ := hm'.remembers hnot hlast
          exact ih hne rfl hremember.symm

/-- What a top-level block leads to: a stream to the path, if there is one. -/
def streamTo (fuel : Nat) (header : SyncHeader) (root : Bytes) : Option Bytes → Sys Fd Rc
  | none => do
      let _ ← sendError fuel (ascii "missing path before block")
      return .err
  | some path => handleLargeBlockStream fuel header root path

/-- A stream of blocks goes to the path of the most recent query, or is refused. -/
theorem Processed.streams {last : Option Bytes}
    (h : Processed K fuel root log_path (last.getD []) m) (hlast : last ≠ some [])
    (hblock : m.header.msg_type = msgFileBlock) {rel_path : Bytes}
    (hrel : m.rel_path = some rel_path) :
    Exec K (streamTo fuel m.header root last) m.received m.rc m.replied := by
  obtain ⟨hremember, hdispatch, -⟩ := h.dispatches rel_path hrel
  unfold lastRelPath at hremember
  rw [hblock, if_neg (by decide)] at hremember
  unfold dispatch at hdispatch
  simp only [hblock, hremember] at hdispatch
  rw [if_neg (by decide), if_neg (by decide), if_neg (by decide), if_pos trivial] at hdispatch
  cases last with
  | none => exact hdispatch
  | some path =>
      have hne : (some path).getD [] ≠ [] := fun hnil => hlast (congrArg some hnil)
      rw [if_neg hne] at hdispatch
      exact hdispatch

/-! ## The discipline -/

/-- What holds of the messages of a connection. -/
structure InDiscipline (K : (c : Call Fd) → σ → Resp c → σ → Prop) (sent : σ → Bytes)
    (fuel : Nat) (root log_path : Bytes) (s : σ) (ms : List (Message σ)) (rc : Rc) (s' : σ) :
    Prop where
  session : Session K fuel root log_path [] s ms rc s'
  /-- Each message is answered once before the next header is read or the connection
  ends, and nothing else is sent. -/
  replies : ∃ replies : List Reply,
    List.Forall₂ (fun m (reply : Reply) => sent m.after = sent m.before ++ reply.wire) ms replies ∧
      sent s' = sent s ++ replies.flatMap Reply.wire
  /-- A message that processes a file is the only such, and the last of all. -/
  decisive : ∀ earlier m later, ms = earlier ++ m :: later → m.Decisive →
    (∀ e ∈ earlier, ¬ e.Decisive) ∧ later = [] ∧ s' = m.after ∧ rc = m.rc
  /-- A stream of blocks goes to the path of the most recent query; without a query
  it is refused. -/
  streams : ∀ earlier m later, ms = earlier ++ m :: later → m.header.msg_type = msgFileBlock →
    m.rel_path ≠ none →
      Exec K (streamTo fuel m.header root (recentQuery none earlier)) m.received m.rc m.replied

/-- Every connection keeps to the discipline. -/
theorem session_discipline (hK : Delivers K sent)
    (h : Exec K (serverHandleConnection fuel root log_path) s rc s') :
    ∃ ms, InDiscipline K sent fuel root log_path s ms rc s' := by
  obtain ⟨ms, hsession⟩ := exec_session h
  refine ⟨ms, hsession, hsession.replies hK, ?_, ?_⟩
  · intro earlier m later hms hdecisive
    obtain ⟨hearlier, hlast⟩ := hsession.split hms
    exact ⟨fun e he hdec => hearlier e he hdec.final, hlast hdecisive.final⟩
  · intro earlier m later hms hblock hrel
    obtain ⟨rel_path, hrel⟩ := Option.ne_none_iff_exists'.mp hrel
    have hnone : (none : Option Bytes) ≠ some [] := by simp
    obtain ⟨hprocessed, hne⟩ := Session.remembers hnone hsession hms
    exact hprocessed.streams hne hblock hrel

end Discipline

/-! ## A connection that sends a file -/

theorem delivers_kernel {cwd : TreePath} {mayFail : Call TreePath → Errno → Prop}
    (hsend : ∀ buf e, mayFail (.send buf) e → e = .intr ∨ e = .again) :
    Delivers (Kernel cwd mayFail) fun w => w.conn.output where
  send {buf s s' r} h := by
    rcases h with ⟨now, h⟩ | ⟨e, he, rfl, rfl⟩ | ⟨n, hn, rfl, -, hconn⟩
    · cases h
      refine Or.inr ⟨buf.length, le_rfl, rfl, ?_⟩
      rw [List.take_length]
      rfl
    · rcases hsend buf e he with rfl | rfl
      · exact Or.inl ⟨Or.inl rfl, rfl⟩
      · exact Or.inl ⟨Or.inr rfl, rfl⟩
    · exact Or.inr ⟨n, hn.le, rfl, congrArg Conn.output hconn⟩
  silent {c s s' r} h hc := by
    by_cases hrecv : ∃ count, c = .recv count
    · obtain ⟨count, rfl⟩ := hrecv
      rcases h.recvCases with ⟨-, rfl⟩ | ⟨n, -, -, -, rfl⟩ <;> rfl
    · have hkeeps : c.KeepsConn := by
        cases c <;> first | exact hc | trivial | exact absurd ⟨_, rfl⟩ hrecv
      exact congrArg Conn.output (h.keepsConn hkeeps)
  unlock h := congrArg Conn.output (h.keepsConn trivial)
  lock h := congrArg Conn.output (h.keepsConn trivial)
  log h := congrArg Conn.output (h.keepsConn trivial)

/-- HELLO, a query for `a`, the two bytes of `a` as one block, and the end. -/
def uploadOfA : Bytes :=
  (initSyncHeader msgHello).encode ++
    SyncHeader.encode { initSyncHeader msgQueryOffset with path_len := 1 } ++ ascii "a" ++
    SyncHeader.encode { initSyncHeader msgFileBlock with
      file_size := 2
      data_len := 2
      block_hash := hashBufferFnv1a [7, 8] } ++ [7, 8] ++
    (initSyncHeader msgFileEnd).encode

/-- The client of an empty store. -/
def uploadWorld : World where
  tree := ⟨[([ascii "s"], .dir), ([ascii "s", currentName], .dir)]⟩
  conn := ⟨fun _ => uploadOfA, 0, []⟩

theorem session_discipline_upload :
    ∃ ms w', InDiscipline (Kernel [] fun _ _ => False) (fun w => w.conn.output) 8 (ascii "s")
        (ascii "log") uploadWorld ms .ok w' ∧
      w'.conn.output = [Reply.ack 0, .offsetReply 0, .ack 2].flatMap Reply.wire ∧
      w'.tree.content [ascii "s", currentName, ascii "a"] = some [7, 8] := by
  have hreturns : ((serverHandleConnection 8 (ascii "s") (ascii "log")).run
      (posix ⟨[], ⟨126, 1, 2, 3, 4, 5⟩⟩) uploadWorld).map
        (fun r => (r.1, r.2.conn.output, r.2.tree.content [ascii "s", currentName, ascii "a"])) =
      some (.ok, [Reply.ack 0, .offsetReply 0, .ack 2].flatMap Reply.wire, some [7, 8]) := by
    decide +kernel
  obtain ⟨⟨rc, w'⟩, hrun, heq⟩ := Option.map_eq_some_iff.mp hreturns
  obtain ⟨rfl, houtput, hcontent⟩ : rc = .ok ∧ _ ∧ _ := by simpa using heq
  have hcover : ∀ c w, Kernel [] (fun _ _ => False) c w
      (posix ⟨[], ⟨126, 1, 2, 3, 4, 5⟩⟩ c w).1 (posix ⟨[], ⟨126, 1, 2, 3, 4, 5⟩⟩ c w).2 :=
    fun c w => Or.inl ⟨⟨126, 1, 2, 3, 4, 5⟩, rfl⟩
  obtain ⟨ms, hms⟩ :=
    session_discipline (delivers_kernel fun _ _ hfail => hfail.elim) (exec_of_run hcover hrun)
  exact ⟨ms, w', hms, houtput, hcontent⟩

end MiniSync
