import MiniSync.Resume.Connection
import MiniSync.Transfer.Client

/-!
# Uploads that are resumed

Sequences of uploads of one file: after interruptions, and over what an upload of
another version has left behind.
-/

namespace MiniSync

open Prog

section Resumption

variable {fuel cut : Nat} {cwd : TreePath} {root rel S T : Bytes} {server : ServerSite}
  {site : ClientSite} {config : ClientConfig} {task : SyncTask} {wire : Bytes → Bytes}
  {client : Sys TreePath Rc} {store : Tree}

/-- The store can take an upload of `S`, and `fuel` is enough for all of it. -/
structure Resumable (cwd : TreePath) (root rel S : Bytes) (fuel : Nat) (store : Tree) : Prop where
  ready : Ready cwd store root rel
  part_lt : ((partialAt cwd root rel store).getD []).length < 2 ^ 63
  old : ∀ old, currentAt cwd root rel store = some old → old.length + 3 ≤ fuel

/-- After a session the store can take the next. -/
theorem Resumable.of_served {whole : Prop} {answer : Bytes} {store' : Tree}
    (h : Resumable cwd root rel S fuel store) (hshort : S.length < 2 ^ 63)
    (hfuel : S.length + 4 ≤ fuel)
    (hserved : Served cwd root rel ((partialAt cwd root rel store).getD []) S whole store answer
      store') : Resumable cwd root rel S fuel store' := by
  rcases Nat.lt_or_ge ((partialAt cwd root rel store).getD []).length S.length with hlt | hge
  · have hlen := length_resumed (S := S) hlt.le
    by_cases hdone : whole ∧ Agreed ((partialAt cwd root rel store).getD []) S
    · obtain ⟨hcur, hpart, -⟩ := hserved.done hlt hdone.1 hdone.2
      refine ⟨hserved.ready, ?_, fun old hold => ?_⟩
      · rw [hpart]
        exact Nat.two_pow_pos 63
      · rw [hcur] at hold
        cases hold
        omega
    · obtain ⟨hcur, -, hpart, -⟩ := hserved.failed hlt hdone
      refine ⟨hserved.ready, ?_, fun old hold => h.old old (hcur ▸ hold)⟩
      have hle := hpart.length_le
      omega
  · rw [(hserved.late hge).1]
    exact h

/-- One session of a client that uploads `S`. -/
theorem session_upload (server : ServerSite) (wire : Bytes → Bytes) (cut : Nat)
    (h : Resumable server.env.cwd server.root task.rel_path.bytes S fuel store)
    (hclient : ∀ answer, client.Returns (posix site.env) (fun rc w => rc = clientResult answer ∧
      w.conn.output = clientSends config task S answer) ⟨site.source, hearing answer⟩)
    (hT : (partialAt server.env.cwd server.root task.rel_path.bytes store).getD [] = T)
    (hpeer : Uploading config task S T cut fun answer => wire (clientSends config task S answer))
    (hshort : S.length < 2 ^ 63) (hfuel : S.length + 4 ≤ fuel) :
    ∃ answer store', session fuel server site wire client store =
        some (clientResult answer, store') ∧
      Served server.env.cwd server.root task.rel_path.bytes T S
        ((queryBytes task ++ uploadStream config task S T.length).length ≤ cut ∧
          Sendable config S T.length) store answer store' := by
  have hT63 : T.length < 2 ^ 63 := hT ▸ h.part_lt
  have hserver : (serverHandleConnection fuel server.root server.log_path).Returns
      (posix server.env) _ ⟨store, _⟩ :=
    returns_serverHandleConnection hpeer h.ready hT hT63 hshort hfuel h.old
  obtain ⟨answer, store', hrun, rc, conn, rfl, hserved⟩ := session_eq hclient hserver
  exact ⟨conn.output, store', hrun, hserved⟩

/-! ## Interruptions -/

/-- One upload of a large file, with the server's clock and all of the client. -/
structure LargeUpload where
  now : Tm
  site : ClientSite
  config : ClientConfig
  task : SyncTask

/-- The file is `S`, it goes to `rel`, and it is a large one. -/
structure LargeUpload.Sends (u : LargeUpload) (rel S : Bytes) : Prop where
  path : u.task.rel_path.bytes = rel
  file : SourceFile u.site.env u.site.source u.task S
  large : u.config.hash_threshold < S.length
  block_size_le : u.config.block_size ≤ maxBlockLen

/-- A run of `send_remote_large_file` of whose bytes `wire` arrives. -/
def LargeUpload.run (u : LargeUpload) (fuel : Nat) (cwd : TreePath) (root log_path : Bytes)
    (wire : Bytes → Bytes) (store : Tree) : Option (Rc × Tree) :=
  session fuel ⟨⟨cwd, u.now⟩, root, log_path⟩ u.site wire
    (sendRemoteLargeFile fuel u.config u.task) store

/-- The store after uploads each of which is cut after a number of bytes. -/
def afterCuts (fuel : Nat) (cwd : TreePath) (root log_path : Bytes) :
    List (LargeUpload × Nat) → Tree → Option Tree
  | [], store => some store
  | (u, cut) :: rest, store => do
      let r ← u.run fuel cwd root log_path (List.take cut) store
      afterCuts fuel cwd root log_path rest r.2

theorem LargeUpload.Sends.returns {u : LargeUpload} (h : u.Sends rel S)
    (hfuel : S.length + 4 ≤ fuel) (answer : Bytes) :
    (sendRemoteLargeFile fuel u.config u.task).Returns (posix u.site.env)
      (fun rc w => rc = clientResult answer ∧ w.conn.output = clientSends u.config u.task S answer)
      ⟨u.site.source, hearing answer⟩ :=
  returns_sendRemoteLargeFile h.file (by omega) answer

/-- A session that is cut leaves a part of the file. -/
theorem LargeUpload.Sends.run_cut {u : LargeUpload} (log_path : Bytes) (h : u.Sends rel S)
    (hstore : Resumable cwd root rel S fuel store)
    (hpart : (partialAt cwd root rel store).getD [] <+: S) (hfuel : S.length + 4 ≤ fuel)
    (cut : Nat) :
    ∃ r, u.run fuel cwd root log_path (List.take cut) store = some r ∧
      Resumable cwd root rel S fuel r.2 ∧ (partialAt cwd root rel r.2).getD [] <+: S := by
  have hshort := h.file.short
  have hlen := hpart.length_le
  have hpath := h.path
  subst hpath
  obtain ⟨answer, store', hrun, hserved⟩ := session_upload
    ⟨⟨cwd, u.now⟩, root, log_path⟩ (List.take cut) cut hstore (h.returns hfuel) rfl
    (uploading_cut hstore.part_lt cut) hshort hfuel
  refine ⟨_, hrun, hstore.of_served hshort hfuel hserved, ?_⟩
  rcases Nat.lt_or_ge ((partialAt cwd root u.task.rel_path.bytes store).getD []).length S.length
    with hlt | hge
  · by_cases hdone : ((queryBytes u.task ++ uploadStream u.config u.task S
        ((partialAt cwd root u.task.rel_path.bytes store).getD []).length).length ≤ cut ∧
        Sendable u.config S ((partialAt cwd root u.task.rel_path.bytes store).getD []).length) ∧
        Agreed ((partialAt cwd root u.task.rel_path.bytes store).getD []) S
    · obtain ⟨-, hnone, -⟩ := hserved.done hlt hdone.1 hdone.2
      simp only
      rw [hnone]
      exact List.nil_prefix
    · obtain ⟨-, -, hnew, -⟩ := hserved.failed hlt hdone
      rw [resumed_of_isPrefix hpart] at hnew
      exact hnew
  · simp only
    rw [(hserved.late hge).1]
    exact hpart

/-- Whatever is cut, parts of the file are all that is left. -/
theorem afterCuts_eq (log_path : Bytes) {earlier : List (LargeUpload × Nat)}
    (hearlier : ∀ u ∈ earlier, u.1.Sends rel S) (hstore : Resumable cwd root rel S fuel store)
    (hpart : (partialAt cwd root rel store).getD [] <+: S) (hfuel : S.length + 4 ≤ fuel) :
    ∃ mid, afterCuts fuel cwd root log_path earlier store = some mid ∧
      Resumable cwd root rel S fuel mid ∧ (partialAt cwd root rel mid).getD [] <+: S := by
  induction earlier generalizing store with
  | nil => exact ⟨store, rfl, hstore, hpart⟩
  | cons u rest ih =>
      obtain ⟨u, cut⟩ := u
      obtain ⟨r, hrun, hstore', hpart'⟩ := (hearlier (u, cut) List.mem_cons_self).run_cut
        log_path hstore hpart hfuel cut
      obtain ⟨mid, hmid, hrest⟩ := ih (fun u hu => hearlier u (List.mem_cons_of_mem _ hu)) hstore'
        hpart'
      refine ⟨mid, ?_, hrest⟩
      rw [afterCuts, hrun]
      exact hmid

/-- After any interruptions one more upload completes the file if and only if the
partial file is not complete already.  `Ready` is what without faults means: there is no
directory at `current/rel`, `rel` ends in a name, files can be written, and no name is longer
than the kernel takes. -/
theorem resumption_completes_iff {log_path : Bytes} (earlier : List (LargeUpload × Nat))
    (last : LargeUpload) (hready : Ready cwd store root rel)
    (hnone : partialAt cwd root rel store = none)
    (hearlier : ∀ u ∈ earlier, u.1.Sends rel S) (hlast : last.Sends rel S)
    (hfuel : S.length + 4 ≤ fuel)
    (hold : ∀ old, currentAt cwd root rel store = some old → old.length + 3 ≤ fuel) :
    ∃ mid, afterCuts fuel cwd root log_path earlier store = some mid ∧
      ∃ rc final, last.run fuel cwd root log_path id mid = some (rc, final) ∧
        ((rc = .ok ∧ currentAt cwd root rel final = some S) ↔
          ((partialAt cwd root rel mid).getD []).length < S.length) := by
  have hstore : Resumable cwd root rel S fuel store :=
    ⟨hready, by rw [hnone]; exact Nat.two_pow_pos 63, hold⟩
  obtain ⟨mid, hmid, hstoreMid, hpart⟩ := afterCuts_eq log_path hearlier hstore
    (by rw [hnone]; exact List.nil_prefix) hfuel
  refine ⟨mid, hmid, ?_⟩
  have hshort := hlast.file.short
  have hlen := hpart.length_le
  have hpath := hlast.path
  subst hpath
  obtain ⟨answer, final, hrun, hserved⟩ := session_upload
    ⟨⟨cwd, last.now⟩, root, log_path⟩ id _ hstoreMid (hlast.returns hfuel) rfl
    (uploading_whole hstoreMid.part_lt) hshort hfuel
  refine ⟨_, final, hrun, ?_⟩
  rcases Nat.lt_or_ge ((partialAt cwd root last.task.rel_path.bytes mid).getD []).length S.length
    with hlt | hge
  · obtain ⟨hcur, -, hok⟩ := hserved.done hlt ⟨le_rfl, Or.inl hlast.block_size_le⟩
      (agreed_of_isPrefix hpart)
    rw [resumed_of_isPrefix hpart] at hcur
    exact iff_of_true ⟨hok, hcur⟩ hlt
  · have herr := (hserved.late hge).2
    refine iff_of_false (fun h => ?_) (by omega)
    rw [h.1] at herr
    cases herr

/-! ### A small upload -/

/-- A file `a` of two bytes, which is larger than the threshold. -/
def smallUpload : LargeUpload where
  now := ⟨126, 1, 2, 3, 4, 5⟩
  site := ⟨⟨[], ⟨126, 1, 2, 3, 4, 5⟩⟩, ⟨[([ascii "a"], .file [7, 8])]⟩⟩
  config := ⟨2, 1, by decide, by decide, by decide⟩
  task := { initSyncTask with
    event_type := .create
    src_path := nameA
    rel_path := nameA
    file_size := 2 }

theorem sourceFile_smallUpload :
    SourceFile smallUpload.site.env smallUpload.site.source smallUpload.task [7, 8] :=
  ⟨⟨by decide, by decide, by decide⟩, by decide⟩

theorem sends_smallUpload : smallUpload.Sends (ascii "a") [7, 8] :=
  ⟨rfl, sourceFile_smallUpload, by decide, by decide⟩

/-- One cut between the last block and the end message. -/
theorem resumption_completes_iff_smallUpload :
    ∃ mid, afterCuts 8 [] (ascii "s") (ascii "log") [(smallUpload, 131)] (storeWith []) =
        some mid ∧
      ∃ rc final, smallUpload.run 8 [] (ascii "s") (ascii "log") id mid = some (rc, final) ∧
        ((rc = .ok ∧ currentAt [] (ascii "s") (ascii "a") final = some [7, 8]) ↔
          ((partialAt [] (ascii "s") (ascii "a") mid).getD []).length < 2) :=
  resumption_completes_iff [(smallUpload, 131)] smallUpload (ready_storeWith []) (by decide)
    (by rintro u hu; rw [List.mem_singleton.mp hu]; exact sends_smallUpload) sends_smallUpload
    (by decide) (by intro old h; cases h)

/-- After that cut every further upload fails. -/
theorem cut_before_end_blocks :
    partialAt [] (ascii "s") (ascii "a") (storeWith []) = none ∧
      ((afterCuts 8 [] (ascii "s") (ascii "log") [(smallUpload, 131)] (storeWith [])).bind fun mid =>
        smallUpload.run 8 [] (ascii "s") (ascii "log") id mid).map Prod.fst = some .err := by
  decide +kernel

/-! ## A partial file of another version -/

/-- Executions of `sync_task_remote` one after the other, at the given times. -/
def attempts (fuel : Nat) (cwd : TreePath) (root log_path : Bytes) (site : ClientSite)
    (config : ClientConfig) (task : SyncTask) : List Tm → Tree → Option (List (Rc × Tree))
  | [], _ => some []
  | now :: later, store => do
      let r ← session fuel ⟨⟨cwd, now⟩, root, log_path⟩ site id (syncTaskRemote fuel config task)
        store
      let more ← attempts fuel cwd root log_path site config task later r.2
      return r :: more

/-- The task uploads `S` as a large file. -/
structure LargeTask (site : ClientSite) (config : ClientConfig) (task : SyncTask) (S : Bytes) :
    Prop where
  uploads : Uploads task
  file : SourceFile site.env site.source task S
  /-- The file is what it was when the task was built. -/
  size : task.file_size = S.length
  large : config.hash_threshold < S.length
  block_size_le : config.block_size ≤ maxBlockLen

/-- One execution of the task. -/
theorem LargeTask.session_eq (log_path : Bytes) (h : LargeTask site config task S)
    (hstore : Resumable cwd root task.rel_path.bytes S fuel store)
    (hT : (partialAt cwd root task.rel_path.bytes store).getD [] = T)
    (hfuel : S.length + 4 ≤ fuel) (now : Tm) :
    ∃ answer store', session fuel ⟨⟨cwd, now⟩, root, log_path⟩ site id
        (syncTaskRemote fuel config task) store = some (clientResult answer, store') ∧
      Resumable cwd root task.rel_path.bytes S fuel store' ∧
      Served cwd root task.rel_path.bytes T S True store answer store' := by
  have hshort := h.file.short
  have hlarge : task.file_size > config.hash_threshold := by
    rw [h.size]
    exact Int.ofNat_lt.mpr h.large
  have hT63 : T.length < 2 ^ 63 := hT ▸ hstore.part_lt
  have hfuel3 : S.length + 3 ≤ fuel := by omega
  obtain ⟨answer, store', hrun, hserved⟩ := session_upload
    ⟨⟨cwd, now⟩, root, log_path⟩ id _ hstore
    (returns_syncTaskRemote_large h.uploads h.file hlarge hfuel3) hT (uploading_whole hT63)
    hshort hfuel
  have hsendable : Sendable config S T.length := Or.inl h.block_size_le
  rw [eq_true (Nat.le_refl _), true_and, eq_true hsendable] at hserved
  subst hT
  exact ⟨answer, store', hrun, hstore.of_served hshort hfuel hserved, hserved⟩

/-- Every execution ends. -/
theorem LargeTask.attempts_eq (log_path : Bytes) (h : LargeTask site config task S)
    (hstore : Resumable cwd root task.rel_path.bytes S fuel store)
    (hfuel : S.length + 4 ≤ fuel) (times : List Tm) :
    ∃ results, attempts fuel cwd root log_path site config task times store = some results := by
  induction times generalizing store with
  | nil => exact ⟨[], rfl⟩
  | cons now later ih =>
      obtain ⟨answer, store', hrun, hstore', -⟩ := h.session_eq log_path hstore rfl
        hfuel now
      obtain ⟨more, hmore⟩ := ih hstore'
      refine ⟨(clientResult answer, store') :: more, ?_⟩
      rw [attempts, hrun]
      simp only [Option.bind_eq_bind, Option.bind_some]
      rw [hmore]
      rfl

/-- Where nothing is left to send, every execution fails and changes nothing. -/
theorem LargeTask.attempts_stuck (log_path : Bytes) (h : LargeTask site config task S)
    (hstore : Resumable cwd root task.rel_path.bytes S fuel store)
    (hfull : S.length ≤ ((partialAt cwd root task.rel_path.bytes store).getD []).length)
    (hfuel : S.length + 4 ≤ fuel) (times : List Tm) :
    attempts fuel cwd root log_path site config task times store =
      some (times.map fun _ => (.err, store)) := by
  induction times with
  | nil => rfl
  | cons now later ih =>
      obtain ⟨answer, store', hrun, -, hserved⟩ := h.session_eq log_path hstore rfl
        hfuel now
      obtain ⟨rfl, herr⟩ := hserved.late hfull
      rw [attempts, hrun, herr]
      simp only [Option.bind_eq_bind, Option.bind_some]
      rw [ih]
      rfl

/-- An execution and all retries over what is left of another version: one of them
succeeds and leaves `S` if and only if the hash of `S` does not tell the two apart.  They
run without faults: the store is `Ready` for the path, as above. -/
theorem stale_partial_unblocks_iff {log_path : Bytes} (h : LargeTask site config task S)
    (hready : Ready cwd store root task.rel_path.bytes)
    (hT : partialAt cwd root task.rel_path.bytes store = some T) (hlt : T.length < S.length)
    (hfuel : S.length + 4 ≤ fuel)
    (hold : ∀ old, currentAt cwd root task.rel_path.bytes store = some old →
      old.length + 3 ≤ fuel)
    (times : List Tm) (htimes : times.length = maxRetryCount + 1) :
    ∃ results, attempts fuel cwd root log_path site config task times store = some results ∧
      ((∃ r ∈ results, r.1 = .ok ∧ currentAt cwd root task.rel_path.bytes r.2 = some S) ↔
        Agreed T S) := by
  have hshort := h.file.short
  have hget : (partialAt cwd root task.rel_path.bytes store).getD [] = T := by
    rw [hT]
    rfl
  have hstore : Resumable cwd root task.rel_path.bytes S fuel store :=
    ⟨hready, by rw [hget]; omega, hold⟩
  obtain ⟨first, second, rest, rfl⟩ : ∃ first second rest, times = first :: second :: rest := by
    match times, htimes with
    | first :: second :: rest, _ => exact ⟨first, second, rest, rfl⟩
  obtain ⟨answer, store1, hrun1, hstore1, hserved1⟩ := h.session_eq log_path hstore
    hget hfuel first
  by_cases hagreed : Agreed T S
  · -- the first execution ends well, and the second starts afresh
    obtain ⟨-, hnone1, -⟩ := hserved1.done hlt trivial hagreed
    have hget1 : (partialAt cwd root task.rel_path.bytes store1).getD [] = [] := by
      rw [hnone1]
      rfl
    obtain ⟨answer2, store2, hrun2, hstore2, hserved2⟩ := h.session_eq log_path
      hstore1 hget1 hfuel second
    obtain ⟨hcur2, -, hok2⟩ := hserved2.done (by rw [List.length_nil]; omega) trivial
      (agreed_of_isPrefix List.nil_prefix)
    obtain ⟨more, hmore⟩ := h.attempts_eq log_path hstore2 hfuel rest
    refine ⟨(clientResult answer, store1) :: (clientResult answer2, store2) :: more, ?_, ?_⟩
    · rw [attempts, hrun1]
      simp only [Option.bind_eq_bind, Option.bind_some]
      rw [attempts, hrun2]
      simp only [Option.bind_eq_bind, Option.bind_some]
      rw [hmore]
      rfl
    · exact iff_of_true ⟨_, List.mem_cons_of_mem _ List.mem_cons_self, hok2, hcur2⟩ hagreed
  · -- the whole of `S` has been appended, and nothing is left to send
    obtain ⟨-, herr, -, hfull⟩ := hserved1.failed hlt fun h => hagreed h.2
    have hstuck := h.attempts_stuck log_path hstore1
      (by rw [hfull trivial, length_resumed hlt.le]) hfuel (second :: rest)
    refine ⟨(.err, store1) :: (second :: rest).map fun _ => (.err, store1), ?_, ?_⟩
    · rw [attempts, hrun1, herr]
      simp only [Option.bind_eq_bind, Option.bind_some]
      rw [hstuck]
      rfl
    · refine iff_of_false ?_ hagreed
      rintro ⟨r, hr, hok, -⟩
      rcases List.mem_cons.mp hr with rfl | hr
      · cases hok
      · obtain ⟨-, -, rfl⟩ := List.mem_map.mp hr
        cases hok

/-! ### The small upload over another version -/

theorem largeTask_smallUpload :
    LargeTask smallUpload.site smallUpload.config smallUpload.task [7, 8] :=
  ⟨⟨by decide, by decide, by decide, by decide⟩, sourceFile_smallUpload, by decide, by decide,
    by decide⟩

theorem stale_partial_unblocks_iff_smallUpload :
    ∃ results, attempts 8 [] (ascii "s") (ascii "log") smallUpload.site smallUpload.config
        smallUpload.task (List.replicate 4 smallUpload.now)
        (storeWith [(ascii "a.syncing", [9])]) = some results ∧
      ((∃ r ∈ results, r.1 = .ok ∧ currentAt [] (ascii "s") (ascii "a") r.2 = some [7, 8]) ↔
        Agreed [9] [7, 8]) :=
  stale_partial_unblocks_iff largeTask_smallUpload (ready_storeWith _) (by decide) (by decide)
    (by decide) (by intro old h; cases h) _ rfl

/-- Every attempt fails. -/
theorem stale_partial_blocks :
    partialAt [] (ascii "s") (ascii "a") (storeWith [(ascii "a.syncing", [9])]) = some [9] ∧
      (attempts 8 [] (ascii "s") (ascii "log") smallUpload.site smallUpload.config
        smallUpload.task (List.replicate 4 smallUpload.now)
        (storeWith [(ascii "a.syncing", [9])])).map (List.map Prod.fst) =
          some [.err, .err, .err, .err] := by
  decide +kernel

end Resumption

end MiniSync
