import MiniSync.Agreement.RenamePayload
import MiniSync.Current.Effects
import MiniSync.Lib.Serial
import MiniSync.Server.Mute

/-!
# The server is serializable

Whatever the connections send and however they interleave, the files of `current` change
one critical section after the other, and each section changes them as the request says
that its connection has received.
-/

namespace MiniSync

open Prog Threads

/-! ## What has been asked for -/

/-- The bytes that a connection has received, after one more call. -/
def heard (bytes : Bytes) : (c : Call TreePath) → Resp c → Bytes
  | .recv _, r =>
      match r with
      | .ok piece => bytes ++ piece
      | .error _ => bytes
  | _, _ => bytes

/-- A message that is no greeting and no query, and what has been received after it. -/
structure Request where
  header : SyncHeader
  /-- The path, as it was sent with the message. -/
  payload : Bytes
  /-- `last_rel_path` -/
  rel_path : Bytes
  body : Bytes

/-- The bytes are greetings and queries, followed by the request; at their beginning the
server remembers the path that comes first. -/
inductive Asks : Bytes → Bytes → Request → Prop
  | message {last_rel_path payload : Bytes} {header : SyncHeader} (body : Bytes)
      (length_eq : payload.length = header.path_len.toNat)
      (not_hello : header.msg_type ≠ msgHello) (not_query : header.msg_type ≠ msgQueryOffset) :
      Asks last_rel_path (header.encode ++ (payload ++ body))
        ⟨header, payload, lastRelPath header payload last_rel_path, body⟩
  | later {last_rel_path payload bytes : Bytes} {header : SyncHeader} {request : Request}
      (length_eq : payload.length = header.path_len.toNat)
      (goesOn : header.msg_type = msgHello ∨ header.msg_type = msgQueryOffset)
      (rest : Asks (lastRelPath header payload last_rel_path) bytes request) :
      Asks last_rel_path (header.encode ++ (payload ++ bytes)) request

/-- A message at the front of the bytes is determined by them. -/
theorem message_inj {header header' : SyncHeader} {payload payload' rest rest' : Bytes}
    (hlen : payload.length = header.path_len.toNat)
    (hlen' : payload'.length = header'.path_len.toNat)
    (h : header.encode ++ (payload ++ rest) = header'.encode ++ (payload' ++ rest')) :
    header = header' ∧ payload = payload' ∧ rest = rest' := by
  have hheader : header = header' := by
    rw [← SyncHeader.decode_encode header (payload ++ rest), h, SyncHeader.decode_encode]
  subst hheader
  have hrest := List.append_cancel_left h
  obtain ⟨hpayload, hrest⟩ := List.append_inj hrest (hlen.trans hlen'.symm)
  exact ⟨rfl, hpayload, hrest⟩

/-- The bytes ask for one thing only. -/
theorem Asks.unique {last_rel_path bytes : Bytes} {request request' : Request}
    (h : Asks last_rel_path bytes request) (h' : Asks last_rel_path bytes request') :
    request = request' := by
  generalize hbytes : bytes = bytes' at h'
  induction h generalizing bytes' with
  | message body length_eq not_hello not_query =>
      cases h' with
      | message body' length_eq' _ _ =>
          obtain ⟨rfl, rfl, rfl⟩ := message_inj length_eq length_eq' hbytes
          rfl
      | later length_eq' goesOn _ =>
          obtain ⟨rfl, rfl, rfl⟩ := message_inj length_eq length_eq' hbytes
          rcases goesOn with hhello | hquery
          · exact absurd hhello not_hello
          · exact absurd hquery not_query
  | later length_eq goesOn rest ih =>
      cases h' with
      | message body' length_eq' not_hello not_query =>
          obtain ⟨rfl, rfl, rfl⟩ := message_inj length_eq length_eq' hbytes
          rcases goesOn with hhello | hquery
          · exact absurd hhello not_hello
          · exact absurd hquery not_query
      | later length_eq' _ rest' =>
          obtain ⟨rfl, rfl, hrest⟩ := message_inj length_eq length_eq' hbytes
          exact ih _ hrest rest'

namespace Request

/-- The upload of a regular file that is asked for. -/
def upload (request : Request) : Option Upload :=
  if request.header.msg_type = msgFileBegin then
    if isDirMode request.header.mode then none else some (.fileBegin request.header)
  else if request.header.msg_type = msgFileBlock then some (.blockStream request.header)
  else none

/-- Where the temporary file of an upload is in `current`. -/
def syncing (request : Request) : TreePath := relNames (request.rel_path ++ syncingSuffix)

end Request

/-- What the server may make of the files of `current` when it is asked for something: the
whole of it, or nothing, but for the temporary file of an upload. -/
inductive RequestEffect (files : FileMap Bytes Bytes) (request : Request) : Effect → Prop
  | keep : RequestEffect files request .keep
  | stage {u : Upload} (data : Option Bytes) (asked : request.upload = some u) :
      RequestEffect files request (.stage request.syncing data)
  | put {u : Upload} {content : Bytes} (asked : request.upload = some u)
      (delivered : u.Delivered request.body ((files request.syncing).getD []) content) :
      RequestEffect files request (.put request.syncing (relNames request.rel_path) content)
  | remove (asked : request.header.msg_type = msgFileDelete) :
      RequestEffect files request (.remove (relNames (cString request.payload)))
  | move {old_rel new_rel : Bytes} (asked : request.header.msg_type = msgFileRename)
      (paths : renameSplit request.payload = .ok (old_rel, new_rel)) :
      RequestEffect files request (.move (relNames old_rel) (relNames new_rel))

/-- The files of `current` change as the request allows. -/
def Request.Acts (cwd : TreePath) (root : Bytes) (request : Request) (tree tree' : Tree) : Prop :=
  ∃ e, RequestEffect (currentFiles cwd root tree) request e ∧ MiniSync.Acts cwd root e tree tree'

/-- The bytes ask for one thing and no other, and the files of `current` change as it allows. -/
def Requested (cwd : TreePath) (root : Bytes) (bytes : Bytes) (tree tree' : Tree) : Prop :=
  ∃ request, Asks [] bytes request ∧ (∀ other, Asks [] bytes other → other = request) ∧
    request.Acts cwd root tree tree'

/-! ## What a connection receives -/

section Hearing

variable {cwd : TreePath} {mayFail : Call TreePath → Errno → Prop} {bytes : Bytes} {α : Type}

/-- The record of what is received while the program runs. -/
abbrev Hearing (Q : α → Bytes → Prop) (p : Sys TreePath α) (bytes : Bytes) : Prop :=
  p.Safe (recording heard) (fun _ => True) Q bytes

theorem hearing_readnLoop (fuel left : Nat) (buf : Bytes) :
    Hearing (fun r bytes' => ∀ all, r = some all → ∃ got, all = buf ++ got ∧ bytes' = bytes ++ got)
      (readnLoop .socket fuel left buf) bytes := by
  induction fuel generalizing left buf bytes with
  | zero => trivial
  | succ fuel ih =>
      rw [readnLoop]
      split_ifs
      · intro all hall
        exact ⟨[], by rw [← Option.some.inj hall, List.append_nil], (List.append_nil _).symm⟩
      · apply Safe.op_bind
        rintro (e | piece) bytes' hbytes
        · have hsame : bytes' = bytes := hbytes
          subst hsame
          refine ⟨trivial, ?_⟩
          split
          · exact ih _ _
          · exact fun all hall => by cases hall
          · rename_i heq
            cases heq
        · have hmore : bytes' = bytes ++ piece := hbytes
          subst hmore
          refine ⟨trivial, ?_⟩
          simp only
          split_ifs with hnil
          · intro all hall
            refine ⟨[], ?_, ?_⟩
            · rw [← Option.some.inj hall, List.append_nil]
            · rw [hnil]
          · apply (ih _ _).post
            intro r bytes'' h all hr
            obtain ⟨got, hall, hbytes''⟩ := h all hr
            exact ⟨piece ++ got, by rw [hall, List.append_assoc],
              by rw [hbytes'', List.append_assoc]⟩

theorem hearing_readFull (fuel n : Nat) :
    Hearing (fun r bytes' => ∀ buf, r = some buf → buf.length = n ∧ bytes' = bytes ++ buf)
      (readFull fuel .socket n) bytes := by
  apply (hearing_readnLoop fuel n []).bind
  intro r bytes' hr
  cases r with
  | none => exact fun buf hbuf => by cases hbuf
  | some all =>
      intro buf hbuf
      obtain ⟨hlen, heq⟩ := Option.ite_none_right_eq_some.mp hbuf
      cases heq
      obtain ⟨got, hgot, hbytes⟩ := hr all rfl
      rw [List.nil_append] at hgot
      exact ⟨hlen, hgot ▸ hbytes⟩

theorem hearing_recvHeader (fuel : Nat) :
    Hearing (fun r bytes' => ∀ header, r = some header → bytes' = bytes ++ header.encode)
      (recvHeader fuel) bytes := by
  apply (hearing_readFull fuel headerSize).bind
  intro r bytes' hr
  cases r with
  | none => exact fun header hheader => by cases hheader
  | some buf =>
      obtain ⟨hlen, hbytes⟩ := hr buf rfl
      intro header hheader
      obtain ⟨-, heq⟩ := Option.ite_none_right_eq_some.mp hheader
      cases heq
      rw [SyncHeader.encode_decode hlen]
      exact hbytes

theorem hearing_recvRelPath (fuel : Nat) (header : SyncHeader) :
    Hearing (fun r bytes' => ∀ rel_path, r = some rel_path →
      rel_path.length = header.path_len.toNat ∧ bytes' = bytes ++ rel_path)
      (recvRelPath fuel header) bytes := by
  have hempty (hzero : header.path_len = 0) : ∀ rel_path : Bytes, some [] = some rel_path →
      rel_path.length = header.path_len.toNat ∧ bytes = bytes ++ rel_path := by
    intro rel_path h
    rw [← Option.some.inj h, hzero]
    exact ⟨rfl, (List.append_nil _).symm⟩
  unfold recvRelPath recvPath
  split_ifs with hzero
  · exact hempty hzero
  · exact fun rel_path h => by cases h
  · exact hearing_readFull fuel _

/-- Without a receive nothing is heard. -/
theorem hearing_of_all {p : Sys TreePath α} (h : p.All (fun c => ∀ n, c ≠ .recv n) fun _ => True) :
    Hearing (fun _ bytes' => bytes' = bytes) p bytes := by
  apply (h.safe (I := fun bytes' => bytes' = bytes) _ rfl).mono (fun _ _ => trivial)
  · exact fun a bytes' hq => hq.2
  · rintro c bytes₁ r bytes₂ hc rfl hbytes
    rw [show bytes₂ = heard bytes₁ c r from hbytes]
    cases c with
    | recv n => exact absurd rfl (hc n)
    | _ => rfl

/-- A critical section sends nothing, so what it receives is what the stream loses. -/
theorem Mute.hears {p : Sys TreePath α} (h : Mute p) (s : (Tree × Conn) × Bytes) :
    p.Safe (recordKernel (serverKernel cwd mayFail) heard) (fun _ => True)
      (fun _ s' => ∃ got, s.1.2.input = got ++ s'.1.2.input ∧ s'.2 = s.2 ++ got) s := by
  apply (All.safe h (I := fun s' => ∃ got, s.1.2.input = got ++ s'.1.2.input ∧
    s'.2 = s.2 ++ got) _ ⟨[], rfl, (List.append_nil _).symm⟩).mono (fun _ _ => trivial)
  · exact fun a s' hq => hq.2
  · rintro c s₁ r s₂ hc ⟨got, hinput, hbytes⟩ ⟨hK, hheard⟩
    rw [hheard, hbytes]
    cases c with
    | recv count =>
        rcases hK.recvCases with ⟨⟨e, rfl⟩, hsame⟩ | ⟨n, -, -, rfl, htake⟩
        · rw [World.mk.injEq] at hsame
          exact ⟨got, by rw [hinput, hsame.2], rfl⟩
        · rw [World.mk.injEq] at htake
          refine ⟨got ++ s₁.1.2.input.take n, ?_, (List.append_assoc _ _ _)⟩
          rw [hinput, htake.2, Conn.take_input, List.append_assoc, List.take_append_drop]
    | send buf => exact hc.elim
    | _ =>
        have hsame : s₂.1.2 = s₁.1.2 := hK.keepsConn trivial
        exact ⟨got, by rw [hinput, hsame], rfl⟩

end Hearing

section Sections

open Confinement

variable {cwd : TreePath} {mayFail : Call TreePath → Errno → Prop} {fuel : Nat}
  {root log_path dst tmp bytes : Bytes} {W M : Bytes → Prop} {α : Type} {conn : Conn}

/-- The program changes the files in its critical sections only, each time as its connection
has asked, and comes to its end outside of them. -/
abbrev Requests (cwd : TreePath) (mayFail : Call TreePath → Errno → Prop) (root : Bytes)
    (Q : α → Bytes → Prop) (p : Sys TreePath α) (held : Option (Tree × Tree)) (bytes : Bytes)
    (conn : Conn) : Prop :=
  Sectioned (serverKernel cwd mayFail) fileLock heard FileTree.Grounded (Requested cwd root)
    (fun a held bytes' => held = none ∧ Q a bytes') p held bytes conn

theorem Stays.requests {Q : α → Bytes → Prop} {p : Sys TreePath α} (h : Stays W M p)
    (hearing : Hearing Q p bytes) : Requests cwd mayFail root Q p none bytes conn :=
  Sectioned.outside h (fun _ hc => hc.op_none) hearing

/-- Code that only reads and replies. -/
theorem requests_quiet {p : Sys TreePath α} (h : Stays W M p) :
    Requests cwd mayFail root (fun _ _ => True) p none bytes conn :=
  h.requests ((all_true p).safe (fun _ _ _ _ _ _ _ => trivial) trivial |>.post fun _ _ _ => trivial)

theorem requests_refusal (message : Bytes) :
    Requests cwd mayFail root (fun _ _ => True)
      (do let _ ← sendError fuel message; return .err : Sys TreePath Rc) none bytes conn := by
  have herror :
      Stays (fun _ => False) (fun _ => False) (sendError fuel message : Sys TreePath Rc) :=
    stays_sendError fuel message
  apply (requests_quiet herror).bind
  rintro rc held bytes conn ⟨rfl, -⟩
  exact ⟨rfl, trivial⟩

theorem requests_unlockAndReply {base tree : Tree} (hg : tree.Grounded)
    (hrequested : Requested cwd root bytes base tree) (outcome : Except Bytes Unit)
    (ack : UInt64) :
    Requests cwd mayFail root (fun _ _ => True) (unlockAndReply fuel outcome ack)
      (some (base, tree)) bytes conn := by
  apply Sectioned.release rfl
  intro r s' hK
  have hsame := hK.quiet trivial
  rw [World.mk.injEq] at hsame
  refine ⟨?_, ?_⟩
  · rw [hsame.1]
    exact ⟨hg, hrequested⟩
  · cases outcome with
    | ok _ =>
        have hack : Stays (fun _ => False) (fun _ => False) (sendAck fuel ack : Sys TreePath Rc) :=
          stays_sendAck fuel ack
        apply (requests_quiet hack).bind
        rintro rc held bytes conn ⟨rfl, -⟩
        exact ⟨rfl, trivial⟩
    | error message => exact requests_refusal message

/-- A critical section that alone acts as it has been asked. -/
theorem requests_critical {p : Sys TreePath α} {f : α → Except Bytes Unit} {ack : UInt64}
    {request : Bytes → Request} (hstays : Stays W M p) (hmute : Mute p)
    (hasks : ∀ body, Asks [] (bytes ++ body) (request body))
    (hp : ∀ w : World, w.tree.Grounded → p.Safe (Kernel cwd mayFail) (fun _ => True)
      (fun _ w' => ∀ body, w.conn.input = body ++ w'.conn.input →
        (request body).Acts cwd root w.tree w'.tree) w) :
    Requests cwd mayFail root (fun _ _ => True) (sys .lockFiles >>= fun _ => p >>= fun a =>
      unlockAndReply fuel (f a) ack) none bytes conn := by
  apply Sectioned.acquire rfl
  intro tree r s' hg hK
  have hsame := hK.quiet trivial
  rw [World.mk.injEq] at hsame
  rw [hsame.1]
  change Requests cwd mayFail root (fun _ _ => True) _ _ bytes _
  apply Sectioned.inside hstays fun _ hc => hc.op_none
  have halone := Safe.comap (fun s : (Tree × Conn) × Bytes => (⟨s.1.1, s.1.2⟩ : World))
    (t := ((tree, s'.2), bytes)) (Safe.grounded (hp ⟨tree, s'.2⟩ hg) hg)
  have hrecorded := halone.narrow
    fun c s r s' (hrec : recordKernel (serverKernel cwd mayFail) heard c s r s') => hrec.1
  apply (hrecorded.and (hmute.hears ((tree, s'.2), bytes))).post
  rintro a s'' ⟨⟨hg', hacts⟩, body, hinput, hbytes⟩
  rw [hbytes]
  have hunique : ∀ other, Asks [] (bytes ++ body) other → other = request body :=
    fun other hother => hother.unique (hasks body)
  exact requests_unlockAndReply hg' ⟨_, hasks body, hunique, hacts body hinput⟩ (f a) ack

/-! ## Uploads -/

theorem BlockStream.received {input rest body : Bytes} {blocks : List Block}
    {end_header : SyncHeader} (h : BlockStream input blocks end_header rest)
    (hinput : input = body ++ rest) : BlockStream body blocks end_header [] := by
  refine ⟨?_, h.accepted, h.isEnd⟩
  have hbytes := h.bytes
  rw [hinput, ← List.append_assoc] at hbytes
  rw [List.append_nil]
  exact List.append_cancel_right hbytes

/-- The part of the stream that an upload has received makes the file. -/
theorem BeginOutcome.delivered {header : SyncHeader} {w w' : World} {body start : Bytes}
    (h : BeginOutcome cwd header dst w (.ok ()) w')
    (hinput : w.conn.input = body ++ w'.conn.input) :
    ∃ content, w'.tree.content (resolve cwd dst) = some content ∧
      (Upload.fileBegin header).Delivered body start content := by
  obtain ⟨blocks, end_header, hstream, hcontent, hchecked⟩ := h
  exact ⟨_, hcontent, blocks, end_header, [], hstream.received hinput, rfl, hchecked⟩

theorem StreamOutcome.delivered {first_block : SyncHeader} {w w' : World} {body : Bytes}
    (h : StreamOutcome cwd first_block dst tmp w (.ok ()) w')
    (hinput : w.conn.input = body ++ w'.conn.input) :
    ∃ content, w'.tree.content (resolve cwd dst) = some content ∧
      (Upload.blockStream first_block).Delivered body
        ((w.tree.content (resolve cwd tmp)).getD []) content := by
  obtain ⟨first, hheader, -, blocks, end_header, rest, hfirst, hstream, hcontent, hchecked⟩ := h
  refine ⟨_, hcontent, first, hheader, blocks, end_header, [], blocks.flatMap Block.wire ++
    (end_header.encode ++ []), ?_, ⟨rfl, hstream.accepted, hstream.isEnd⟩, rfl, hchecked⟩
  have hbytes := hstream.bytes
  rw [hfirst, hbytes, ← List.append_assoc, ← List.append_assoc] at hinput
  rw [List.append_nil, ← List.append_assoc]
  exact (List.append_cancel_right hinput).symm

/-- What an upload does to the tree is what has been asked for. -/
theorem Uploaded.requested {request : Request} {u : Upload} {r : Option Bytes}
    {tree tree' : Tree} (h : Uploaded cwd dst tmp (Versions cwd root) tree r tree')
    (hasked : request.upload = some u)
    (hpaths : uploadPaths root request.rel_path = some (dst, tmp))
    (hdelivered : ∀ data, r = some data → ∃ content,
      tree'.content (resolve cwd dst) = some content ∧
      u.Delivered request.body ((tree.content (resolve cwd tmp)).getD []) content) :
    request.Acts cwd root tree tree' := by
  have hacts := h.acts hpaths not_version_current
  cases h with
  | staged touches =>
      obtain ⟨data, hacts⟩ := hacts
      exact ⟨_, .stage data hasked, hacts⟩
  | @replaced _ data _ _ hcontent =>
      obtain ⟨content, hcontent', hdelivered⟩ := hdelivered data rfl
      obtain rfl : data = content := Option.some.inj (hcontent.symm.trans hcontent')
      obtain ⟨hdst, htmp⟩ := uploadPaths_eq_some hpaths
      have hnode : resolve cwd tmp = currentNode cwd root request.syncing :=
        resolve_syncingPath hdst htmp
      rw [hnode, ← currentFiles_apply] at hdelivered
      exact ⟨_, .put hasked hdelivered, hacts⟩

theorem OneStore.upload (h : OneStore cwd root mayFail) {rel : Bytes}
    (hpaths : uploadPaths root rel = some (dst, tmp)) : ¬ mayFail (.rename tmp dst) .xdev := by
  obtain ⟨hdst, htmp⟩ := uploadPaths_eq_some hpaths
  apply h
  · rw [resolve_syncingPath hdst htmp]
    exact List.prefix_append _ _
  · rw [resolve_currentPath hdst]
    exact List.prefix_append _ _

/-! ## The handlers -/

theorem requests_serverHandleFileBegin (hone : OneStore cwd root mayFail) {header : SyncHeader}
    {payload last_rel_path : Bytes} (hbegin : header.msg_type = msgFileBegin)
    (hasks : ∀ body, Asks [] (bytes ++ body)
      ⟨header, payload, lastRelPath header payload last_rel_path, body⟩) :
    Requests cwd mayFail root (fun _ _ => True)
      (serverHandleFileBegin fuel header root (cString payload)) none bytes conn := by
  have htarget : lastRelPath header payload last_rel_path = cString payload :=
    if_pos (Or.inl hbegin)
  unfold serverHandleFileBegin
  split
  · exact requests_refusal _
  · rename_i dst tmp hpaths
    split_ifs with hdir
    · have hstays : Stays (InStore root) (MayMake root) (ensureDirExists dst : Sys TreePath Rc) :=
        stays_ensureDirExists (target_uploadPaths hpaths).1.makes
      apply requests_critical hstays (onFiles_ensureDirExists dst).mute hasks
      intro w hg
      have hmake : (ensureDirExists dst).Moves (Kernel cwd mayFail) (Tidy fun _ => False) _ w :=
        moves_ensureDirExists _ dst
      apply hmake.moved.post
      rintro rc w' ⟨htidy, -⟩ body -
      exact ⟨.keep, .keep, acts_keep htidy.1 fun _ => not_false⟩
    · apply requests_critical (f := id) (stays_fileBeginCritical fuel header hpaths)
        (mute_fileBeginCritical fuel header root _ dst tmp) hasks
      intro w hg
      have hxdev := hone.upload hpaths
      have houtcome :
          (fileBeginCritical fuel header root _ dst tmp).Moves (Kernel cwd mayFail) _ _ w :=
        moves_fileBeginCritical fuel header hpaths hxdev
      apply ((safe_fileBeginCritical_uploaded header hpaths hg hxdev).and houtcome.safe).mono
        fun _ _ => trivial
      rintro r w' ⟨huploaded, houtcome⟩ body hinput
      have hasked : Request.upload
          ⟨header, payload, lastRelPath header payload last_rel_path, body⟩ =
          some (.fileBegin header) := by
        rw [Request.upload, if_pos hbegin, if_neg hdir]
      cases r with
      | error e =>
          exact Uploaded.requested huploaded hasked (htarget ▸ hpaths) fun data h => by cases h
      | ok _ =>
          obtain ⟨data, huploaded⟩ := huploaded
          exact huploaded.requested hasked (htarget ▸ hpaths) fun _ _ =>
            BeginOutcome.delivered houtcome hinput

theorem requests_handleLargeBlockStream (hone : OneStore cwd root mayFail)
    {first_block : SyncHeader} {payload last_rel_path : Bytes}
    (hblock : first_block.msg_type = msgFileBlock)
    (hasks : ∀ body, Asks [] (bytes ++ body) ⟨first_block, payload, last_rel_path, body⟩) :
    Requests cwd mayFail root (fun _ _ => True)
      (handleLargeBlockStream fuel first_block root last_rel_path) none bytes conn := by
  unfold handleLargeBlockStream
  split
  · exact requests_refusal _
  · rename_i dst tmp hpaths
    apply requests_critical (f := id) (stays_blockStreamCritical fuel first_block hpaths)
      (mute_blockStreamCritical fuel first_block root _ dst tmp) hasks
    intro w hg
    have hxdev := hone.upload hpaths
    have houtcome : (blockStreamCritical fuel first_block root _ dst tmp).Moves
        (Kernel cwd mayFail) _ _ w :=
      moves_blockStreamCritical fuel first_block hpaths hxdev
    apply ((safe_blockStreamCritical_uploaded first_block hpaths hg hxdev).and houtcome.safe).mono
      fun _ _ => trivial
    rintro r w' ⟨huploaded, houtcome⟩ body hinput
    have hasked : Request.upload ⟨first_block, payload, last_rel_path, body⟩ =
        some (.blockStream first_block) := by
      rw [Request.upload, if_neg (by simp [hblock, msgFileBlock, msgFileBegin]), if_pos hblock]
    cases r with
    | error e => exact Uploaded.requested huploaded hasked hpaths fun data h => by cases h
    | ok _ =>
        obtain ⟨data, huploaded⟩ := huploaded
        exact huploaded.requested hasked hpaths fun _ _ => StreamOutcome.delivered houtcome hinput

theorem requests_serverHandleFileDelete (hone : OneStore cwd root mayFail) {header : SyncHeader}
    {payload rel_path : Bytes} (hdelete : header.msg_type = msgFileDelete)
    (hasks : ∀ body, Asks [] (bytes ++ body) ⟨header, payload, rel_path, body⟩) :
    Requests cwd mayFail root (fun _ _ => True)
      (serverHandleFileDelete fuel root (cString payload)) none bytes conn := by
  apply requests_critical (stays_moveToTrash fuel root (cString payload))
    (onFiles_moveToTrash fuel root _).mute hasks
  intro w hg
  apply (safe_moveToTrash_acts (g := True) hone fun _ _ _ _ => trivial).post
  intro rc w' hacts body _
  cases rc with
  | err => exact ⟨.keep, .keep, hacts⟩
  | ok =>
      rcases hacts with ⟨-, hkeep⟩ | hremove
      · exact ⟨.keep, .keep, hkeep⟩
      · exact ⟨_, .remove hdelete, hremove⟩

theorem requests_serverHandleFileRename (hone : OneStore cwd root mayFail) {header : SyncHeader}
    {payload rel_path : Bytes} (hrename : header.msg_type = msgFileRename)
    (hasks : ∀ body, Asks [] (bytes ++ body) ⟨header, payload, rel_path, body⟩) :
    Requests cwd mayFail root (fun _ _ => True) (serverHandleFileRename fuel root payload) none
      bytes conn := by
  rw [serverHandleFileRename_eq]
  split
  · exact requests_refusal _
  · rename_i old_rel new_rel hsplit
    split
    · rename_i old_path new_path hold hnew
      apply requests_critical (f := id) (stays_renameCritical fuel hold hnew)
        (onFiles_renameCritical fuel old_path new_path).mute hasks
      intro w hg
      have hxdev : ¬ mayFail (.rename old_path new_path) .xdev := by
        apply hone
        · rw [resolve_currentPath hold]
          exact List.prefix_append _ _
        · rw [resolve_currentPath hnew]
          exact List.prefix_append _ _
      apply (safe_renameCritical_acts hold hnew hxdev).post
      intro r w' hacts body _
      cases r with
      | error e => exact ⟨.keep, .keep, hacts⟩
      | ok _ => exact ⟨_, .move hrename hsplit, hacts⟩
    · exact requests_refusal _

/-! ## The connection -/

/-- A greeting or a query is answered, and nothing is received. -/
theorem requests_goesOn {header : SyncHeader} {rel_path last_rel_path : Bytes}
    (hgoesOn : header.msg_type = msgHello ∨ header.msg_type = msgQueryOffset) :
    Requests cwd mayFail root (fun _ bytes' => bytes' = bytes)
      (dispatch fuel root header rel_path last_rel_path) none bytes conn := by
  have hsend : ∀ buf : Bytes, ∀ n, (.send buf : Call TreePath) ≠ .recv n := fun _ _ h => by cases h
  unfold dispatch
  dsimp only
  rcases hgoesOn with hhello | hquery
  · rw [if_pos hhello]
    exact (stays_sendAck (W := fun _ => False) (M := fun _ => False) fuel 0).requests
      (hearing_of_all (all_writeFull hsend fuel _))
  · rw [if_neg (by simp [hquery, msgHello, msgQueryOffset]),
      if_neg (by simp [hquery, msgFileBegin, msgQueryOffset]), if_pos hquery]
    unfold serverHandleQueryOffset
    split
    · have hrefuse : (do let _ ← sendError fuel (ascii "invalid query path"); return .err :
          Sys TreePath Rc).All (fun c => ∀ n, c ≠ .recv n) fun _ => True :=
        (all_sendError hsend fuel _).bind fun _ _ => trivial
      have hstays : Stays (fun _ => False) (fun _ => False) (do
          let _ ← sendError fuel (ascii "invalid query path"); return .err : Sys TreePath Rc) :=
        (stays_sendError fuel _).bind fun _ _ => trivial
      exact hstays.requests (hearing_of_all hrefuse)
    · rename_i tmp hpaths
      have hsize : (getFileSize tmp : Sys TreePath (Option Nat)).All (fun c => ∀ n, c ≠ .recv n)
          fun _ => True := (onFiles_getFileSize tmp).mono
        (fun c hc n h => by subst h; exact hc) fun _ _ => trivial
      have hstays : Stays (fun _ => False) (fun _ => False)
          (getFileSize tmp : Sys TreePath (Option Nat)) := stays_getFileSize tmp
      exact Stays.requests (hstays.bind fun _ _ => stays_writeFull fuel _)
        (hearing_of_all (hsize.bind fun _ _ => all_writeFull hsend fuel _))

/-- The last message of a connection. -/
theorem requests_dispatch (hone : OneStore cwd root mayFail) {header : SyncHeader}
    {payload last_rel_path : Bytes} (hhello : header.msg_type ≠ msgHello)
    (hquery : header.msg_type ≠ msgQueryOffset)
    (hasks : ∀ body, Asks [] (bytes ++ body)
      ⟨header, payload, lastRelPath header payload last_rel_path, body⟩) :
    Requests cwd mayFail root (fun _ _ => True)
      (dispatch fuel root header payload (lastRelPath header payload last_rel_path)) none bytes
      conn := by
  unfold dispatch
  dsimp only
  rw [if_neg hhello]
  split_ifs with hbegin hblock hmissing hdelete hrename
  · exact requests_serverHandleFileBegin hone hbegin hasks
  · exact requests_refusal _
  · exact requests_handleLargeBlockStream hone hblock hasks
  · exact requests_serverHandleFileDelete hone hdelete hasks
  · exact requests_serverHandleFileRename hone hrename hasks
  · exact requests_refusal _

theorem requests_appendLog :
    Requests cwd mayFail root (fun _ bytes' => bytes' = bytes)
      (sys (.appendLog log_path) : Sys TreePath Unit) none bytes conn :=
  Sectioned.outside (P := fun c => c = .appendLog log_path) ⟨rfl, fun _ => trivial⟩
    (fun _ hc => by
      subst hc
      rfl)
    (hearing_of_all ⟨fun _ h => (by cases h), fun _ => trivial⟩)

/-- `hasks`: the bytes received so far are greetings and queries. -/
theorem requests_connection (hone : OneStore cwd root mayFail) (rounds : Nat)
    {last_rel_path : Bytes}
    (hasks : ∀ rest request, Asks last_rel_path rest request → Asks [] (bytes ++ rest) request) :
    Requests cwd mayFail root (fun _ _ => True)
      (serverHandleConnectionLoop fuel root log_path rounds last_rel_path) none bytes conn := by
  induction rounds generalizing last_rel_path bytes conn with
  | zero => trivial
  | succ rounds ih =>
      rw [serverHandleConnectionLoop]
      have hheader : Stays (fun _ => False) (fun _ => False)
          (recvHeader fuel : Sys TreePath (Option SyncHeader)) := stays_recvHeader fuel
      apply (hheader.requests (hearing_recvHeader fuel)).bind
      rintro received held bytes₁ conn ⟨rfl, hreceived⟩
      cases received with
      | none => exact ⟨rfl, trivial⟩
      | some header =>
          obtain rfl := hreceived header rfl
          by_cases hexit : header.msg_type = msgExit
          · simp only [if_pos hexit]
            exact ⟨rfl, trivial⟩
          simp only [if_neg hexit]
          have hpath : Stays (fun _ => False) (fun _ => False)
              (recvRelPath fuel header : Sys TreePath (Option Bytes)) :=
            stays_recvRelPath fuel header
          apply (hpath.requests (hearing_recvRelPath fuel header)).bind
          rintro payload held bytes₂ conn ⟨rfl, hpayload⟩
          cases payload with
          | none => exact requests_refusal _
          | some payload =>
              obtain ⟨hlen, rfl⟩ := hpayload payload rfl
              by_cases hgoesOn : header.msg_type = msgHello ∨ header.msg_type = msgQueryOffset
              · apply (requests_goesOn hgoesOn).bind
                rintro rc held bytes₁ conn ⟨rfl, rfl⟩
                apply requests_appendLog.bind
                rintro _ held bytes₂ conn ⟨rfl, rfl⟩
                split_ifs
                · exact ⟨rfl, trivial⟩
                · exact ⟨rfl, trivial⟩
                · apply ih
                  intro rest request hrest
                  rw [List.append_assoc, List.append_assoc]
                  exact hasks _ _ (.later hlen hgoesOn hrest)
              · have hfinal := not_or.mp hgoesOn
                have hlast : ∀ body, Asks [] (bytes ++ header.encode ++ payload ++ body)
                    ⟨header, payload, lastRelPath header payload last_rel_path, body⟩ := by
                  intro body
                  rw [List.append_assoc, List.append_assoc]
                  exact hasks _ _ (.message body hlen hfinal.1 hfinal.2)
                apply (requests_dispatch hone hfinal.1 hfinal.2 hlast).bind
                rintro rc held bytes₁ conn ⟨rfl, -⟩
                apply requests_appendLog.bind
                rintro _ held bytes₂ conn ⟨rfl, -⟩
                rw [if_pos hfinal]
                split_ifs
                · exact ⟨rfl, trivial⟩
                · exact ⟨rfl, trivial⟩

end Sections

/-! ## Every interleaving -/

section Runs

variable {cwd : TreePath} {mayFail : Call TreePath → Errno → Prop} {ι : Type} [DecidableEq ι]

/-- In every run of the server, with any byte streams and any calls failing, each critical
section changes the files of `current` as the bytes ask that its connection has received, from
what the last section has left; outside of the sections nothing changes. -/
theorem server_serializable {fuel : Nat} {root log_path : Bytes} {tree : Tree}
    {conns : ι → Conn} {s : Config ι (Call TreePath) Resp Rc Tree Conn}
    {tr : List (Threads.Event ι (Call TreePath) Resp Tree)} (hone : OneStore cwd root mayFail)
    (hg : tree.Grounded)
    (hrun : Run (serverKernel cwd mayFail) fileLock
      (serverStart fuel root log_path tree conns) tr s) :
    (∀ before e after, tr = before ++ e :: after → fileLock.op e.call = .release →
      Requested cwd root (recorded heard e.thread [] before)
        ((releases fileLock before).getLastD tree) e.before) ∧
      (s.holder = none → s.shared = (releases fileLock tr).getLastD tree) := by
  have hstart : Serial (serverKernel cwd mayFail) fileLock heard FileTree.Grounded
      (Requested cwd root) tree (fun _ => []) (serverStart fuel root log_path tree conns) := by
    refine ⟨hg, fun _ => rfl, fun i hi => ?_, fun i _ => ?_⟩
    · cases hi
    · exact (requests_connection hone fuel fun _ _ h => h).mono fun _ _ _ _ => trivial
  have hlock : ∀ c : Call TreePath, fileLock.op c ≠ .none → ¬ fileLock.writes c := by
    intro c hop hwrites
    apply hwrites
    cases c with
    | lockFiles => trivial
    | unlockFiles => trivial
    | _ => exact absurd rfl hop
  obtain ⟨hsections, hend⟩ := Run.serial serverKernel_respects hlock
    (serverStart_disciplined fuel root log_path tree conns) hstart hrun
  exact ⟨hsections, hend.free⟩

/-- One connection that uploads one byte. -/
theorem server_serializable_oneByte :
    ∃ (s : Config Unit (Call TreePath) Resp Rc Tree Conn)
      (tr : List (Threads.Event Unit (Call TreePath) Resp Tree)),
      currentFiles [] (ascii "s") s.shared [ascii "a"] = some [7] ∧
      (∀ before e after, tr = before ++ e :: after → fileLock.op e.call = .release →
        Requested [] (ascii "s") (recorded heard e.thread [] before)
          ((releases fileLock before).getLastD ⟨[]⟩) e.before) ∧
      (s.holder = none → s.shared = (releases fileLock tr).getLastD ⟨[]⟩) := by
  have hcover (c : Call TreePath) (s : Tree × Conn) : serverKernel [] (fun _ _ => False) c s
      (serverPosix ⟨[], ⟨126, 1, 2, 3, 4, 5⟩⟩ c s).1
      (serverPosix ⟨[], ⟨126, 1, 2, 3, 4, 5⟩⟩ c s).2 := Or.inl ⟨_, rfl⟩
  have hone : OneStore [] (ascii "s") fun _ _ => False := fun _ _ _ _ => not_false
  have hg : FileTree.Grounded (⟨[]⟩ : Tree) := FileTree.grounded_of_entries (by decide)
  have hstored : ((serverHandleConnection 8 (ascii "s") (ascii "log")).run
      (serverPosix ⟨[], ⟨126, 1, 2, 3, 4, 5⟩⟩) (⟨[]⟩, oneByteUpload)).map
        (fun r => currentFiles [] (ascii "s") r.2.1 [ascii "a"]) = some (some [7]) := by
    decide +kernel
  obtain ⟨⟨_, after⟩, hrun, hafter⟩ := Option.map_eq_some_iff.mp hstored
  have hguarded : Guarded fileLock (· = false)
      (serverHandleConnection 8 (ascii "s") (ascii "log")) false :=
    guarded_connection 8 (ascii "s") (ascii "log") 8 []
  obtain ⟨tr, s, b, hreached, -, hshared, -, -⟩ :=
    Run.of_run (i := ()) (k := .ret)
      (s := serverStart 8 (ascii "s") (ascii "log") ⟨[]⟩ fun _ => oneByteUpload)
      hcover hguarded rfl (bind_ret _).symm hrun
  refine ⟨s, tr, ?_, server_serializable hone hg hreached⟩
  rw [hshared]
  exact hafter

end Runs

end MiniSync
