import MiniSync.Agreement.FileBegin
import MiniSync.Resume.Resumption

/-!
# Which uploads client and server agree on

`sync_task_remote` decides by the size in the task, which is what `lstat` said of the
source path, and sends what it reads through `open`.  The server takes blocks of at
most 16 MiB, except the first block of a stream.
-/

namespace MiniSync

open Prog

section Agreement

variable {fuel : Nat} {server : ServerSite} {site : ClientSite} {config : ClientConfig}
  {task : SyncTask} {S : Bytes} {store : Tree}

/-- What `build_task_from_path` makes of a path that is no directory: size and mode are
those that `lstat` reports, of the link where the path is one. -/
structure FileTask (task : SyncTask) : Prop extends Uploads task where
  size_nonneg : 0 ≤ task.file_size
  size_lt : task.file_size < 2 ^ 63
  mode : isDirMode task.mode = false

/-- The size of a small file is the size of its content, which fits into one block; a
large file is not empty and no block but its first is longer than the server takes. -/
def Agrees (config : ClientConfig) (task : SyncTask) (S : Bytes) : Prop :=
  if task.file_size ≤ config.hash_threshold then
    task.file_size = S.length ∧ S.length ≤ maxBlockLen
  else S ≠ [] ∧ Sendable config S 0

theorem FileTask.taskSize_eq (h : FileTask task) : (taskSize task : Int) = task.file_size := by
  have hnonneg := h.size_nonneg
  have hlt := h.size_lt
  have hmod : task.file_size % 2 ^ 64 = task.file_size := Int.emod_eq_of_lt hnonneg (by omega)
  unfold taskSize
  rw [hmod, Int.toNat_of_nonneg hnonneg]

theorem smallData_of_short {n : Nat} (hsize : taskSize task = n) (hn : n < 2 ^ 32) :
    smallData task S = S.take n := by
  rw [smallData, hsize, Nat.mod_eq_of_lt hn, List.take_take, Nat.min_self]

/-- A small upload succeeds with the source's bytes where the sizes agree. -/
theorem small_upload_iff (htask : FileTask task)
    (hfile : SourceFile site.env site.source task S)
    (hsmall : ¬ task.file_size > config.hash_threshold)
    (hready : Ready server.env.cwd store server.root task.rel_path.bytes)
    (hsave : ∀ old, currentAt server.env.cwd server.root task.rel_path.bytes store = some old →
      Savable server.env store server.root task.rel_path.bytes ∧ old.length + 3 ≤ fuel)
    (hfuel : S.length + 5 ≤ fuel) :
    ∃ rc final, session fuel server site id (syncTaskRemote fuel config task) store =
        some (rc, final) ∧
      ((rc = .ok ∧ currentAt server.env.cwd server.root task.rel_path.bytes final = some S) ↔
        task.file_size = S.length ∧ S.length ≤ maxBlockLen) := by
  have hsize := htask.taskSize_eq
  have hclient : ∀ answer, (syncTaskRemote fuel config task).Returns (posix site.env)
      (fun rc w => rc = smallResult task S answer ∧ w.conn.output = smallSends task S)
      ⟨site.source, hearing answer⟩ :=
    returns_syncTaskRemote_small htask.toUploads hfile hsmall (by omega)
  have hserver : (serverHandleConnection fuel server.root server.log_path).Returns
      (posix server.env) _ ⟨store, connectedTo fun _ => id (smallSends task S)⟩ :=
    returns_serverHandleConnection_small htask.mode hready hsave hfuel
  obtain ⟨answer, final, hrun, -, conn, rfl, hbegun⟩ := session_eq hclient hserver
  refine ⟨_, final, hrun, ?_⟩
  unfold smallResult
  constructor
  · rintro ⟨hok, hcur⟩
    split_ifs at hok with hle
    obtain ⟨htakes, hdata⟩ := hbegun.published hok
    have heq : smallData task S = S := Option.some.inj (hdata.symm.trans hcur)
    have hlen := congrArg List.length heq
    simp only [smallData, List.length_take] at hlen
    refine ⟨by omega, ?_⟩
    rcases htakes with hzero | ⟨-, hshort⟩
    · omega
    · rwa [heq] at hshort
  · rintro ⟨hlen, hshort⟩
    have hmax : maxBlockLen < 2 ^ 32 := by decide
    have hdata : smallData task S = S := by
      rw [smallData_of_short (n := S.length) (by omega) (by omega), List.take_length]
    have hle : taskSize task ≤ S.length := by omega
    have htakes : Takes task S := by
      unfold Takes
      rw [hdata, or_iff_not_imp_left]
      exact fun hne => ⟨fun hnil => hne (by rw [hnil, List.length_nil] at hlen; omega), hshort⟩
    have hack := hbegun.acknowledged hle htakes (by rw [hdata])
    rw [if_pos hle]
    refine ⟨hack, ?_⟩
    rw [(hbegun.published hack).2, hdata]

/-- A large upload onto a server without a partial file succeeds where the file is not
empty and its blocks are accepted. -/
theorem large_upload_iff (htask : FileTask task)
    (hfile : SourceFile site.env site.source task S)
    (hlarge : task.file_size > config.hash_threshold)
    (hready : Ready server.env.cwd store server.root task.rel_path.bytes)
    (hnone : partialAt server.env.cwd server.root task.rel_path.bytes store = none)
    (hold : ∀ old, currentAt server.env.cwd server.root task.rel_path.bytes store = some old →
      old.length + 3 ≤ fuel)
    (hfuel : S.length + 5 ≤ fuel) :
    ∃ rc final, session fuel server site id (syncTaskRemote fuel config task) store =
        some (rc, final) ∧
      ((rc = .ok ∧ currentAt server.env.cwd server.root task.rel_path.bytes final = some S) ↔
        S ≠ [] ∧ Sendable config S 0) := by
  have hget : (partialAt server.env.cwd server.root task.rel_path.bytes store).getD [] = [] := by
    rw [hnone]
    rfl
  have hstore : Resumable server.env.cwd server.root task.rel_path.bytes S fuel store :=
    ⟨hready, by rw [hget]; exact Nat.two_pow_pos 63, hold⟩
  have hfuel3 : S.length + 3 ≤ fuel := by omega
  obtain ⟨answer, final, hrun, hserved⟩ := session_upload server id _ hstore
    (returns_syncTaskRemote_large htask.toUploads hfile hlarge hfuel3) hget
    (uploading_whole (Nat.two_pow_pos 63)) hfile.short (by omega)
  refine ⟨_, final, hrun, ?_⟩
  have hpos : 0 < S.length ↔ S ≠ [] := List.length_pos_iff
  by_cases hdone : S ≠ [] ∧ Sendable config S 0
  · obtain ⟨hcur, -, hok⟩ := hserved.done (hpos.mpr hdone.1) ⟨le_rfl, hdone.2⟩
      (agreed_of_isPrefix List.nil_prefix)
    exact iff_of_true ⟨hok, hcur⟩ hdone
  · have herr : clientResult answer = .err := by
      by_cases hnil : S = []
      · exact (hserved.late (by rw [hnil])).2
      · exact (hserved.failed (hpos.mpr hnil) fun h => hdone ⟨hnil, h.1.2⟩).2.1
    refine iff_of_false (fun h => ?_) hdone
    rw [herr] at h
    cases h.1

/-- An upload to a server without a partial file returns `MINISYNC_OK` and leaves the
source's bytes if and only if client and server agree on it. -/
theorem remote_upload_iff_agrees (htask : FileTask task)
    (hfile : SourceFile site.env site.source task S)
    (hready : Ready server.env.cwd store server.root task.rel_path.bytes)
    (hnone : partialAt server.env.cwd server.root task.rel_path.bytes store = none)
    (hsave : ∀ old, currentAt server.env.cwd server.root task.rel_path.bytes store = some old →
      Savable server.env store server.root task.rel_path.bytes ∧ old.length + 3 ≤ fuel)
    (hfuel : S.length + 5 ≤ fuel) :
    ∃ rc final, session fuel server site id (syncTaskRemote fuel config task) store =
        some (rc, final) ∧
      ((rc = .ok ∧ currentAt server.env.cwd server.root task.rel_path.bytes final = some S) ↔
        Agrees config task S) := by
  unfold Agrees
  split_ifs with hsmall
  · exact small_upload_iff htask hfile (by omega) hready hsave hfuel
  · exact large_upload_iff htask hfile (by omega) hready hnone
      (fun old hold => (hsave old hold).2) hfuel

end Agreement

/-! ## A link to a file -/

/-- The file `a` of two bytes under the default configuration. -/
def defaultConfig : ClientConfig :=
  ⟨defaultBlockSize, defaultHashThreshold, by decide, by decide, by decide⟩

theorem fileTask_smallUpload : FileTask smallUpload.task :=
  ⟨⟨by decide, by decide, by decide, by decide⟩, by decide, by decide, by decide⟩

theorem remote_upload_iff_agrees_smallUpload :
    ∃ rc final, session 8 ⟨⟨[], smallUpload.now⟩, ascii "s", ascii "log"⟩ smallUpload.site id
        (syncTaskRemote 8 defaultConfig smallUpload.task) (storeWith []) = some (rc, final) ∧
      ((rc = .ok ∧ currentAt [] (ascii "s") (ascii "a") final = some [7, 8]) ↔
        Agrees defaultConfig smallUpload.task [7, 8]) :=
  @remote_upload_iff_agrees 8 ⟨⟨[], smallUpload.now⟩, ascii "s", ascii "log"⟩ smallUpload.site
    defaultConfig smallUpload.task [7, 8] (storeWith []) fileTask_smallUpload sourceFile_smallUpload (ready_storeWith []) (by decide)
    (by intro old h; cases h) (by decide)

/-- The source `a` is a link of five bytes to a file of two: `lstat` reports five. -/
def linkTask : SyncTask :=
  { smallUpload.task with
    file_size := 5
    mode := 0o120777 }

/-- The server hears of a file that the client cannot read in full. -/
theorem link_upload_fails :
    smallUpload.site.source.content (resolve [] linkTask.src_path.bytes) = some [7, 8] ∧
      partialAt [] (ascii "s") (ascii "a") (storeWith []) = none ∧
      (session 8 ⟨⟨[], smallUpload.now⟩, ascii "s", ascii "log"⟩ smallUpload.site id
        (syncTaskRemote 8 defaultConfig linkTask) (storeWith [])).map Prod.fst = some .err := by
  decide +kernel

end MiniSync
