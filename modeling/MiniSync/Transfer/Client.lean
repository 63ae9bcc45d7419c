import MiniSync.Transfer.UploadStream

/-!
# The client of an upload

`sync_task_remote` on a task that uploads a file reduces to one of the two ways to
send it.
-/

namespace MiniSync

open Prog

/-- The task is carried out by sending a file. -/
structure Uploads (task : SyncTask) : Prop where
  sane : sanitizeRelPath task.rel_path.bytes = .ok
  not_delete : task.event_type ≠ .delete
  not_rename : task.event_type = .rename → task.old_rel_path.bytes = []
  not_dir : task.is_dir = false

section Client

variable {env : Env} {w : World} {fuel : Nat} {config : ClientConfig} {task : SyncTask}
  {S : Bytes}

theorem Uploads.syncTaskRemote_eq (h : Uploads task) :
    (syncTaskRemote fuel config task : Sys TreePath Rc) =
      withSourceFile task
        (if task.file_size > config.hash_threshold then sendRemoteLargeFile fuel config task
        else sendRemoteSmallFile fuel task) := by
  have hsane : ¬ sanitizeRelPath task.rel_path.bytes = .err := by
    rw [h.sane]
    nofun
  have hrename : ¬ (task.event_type = .rename ∧ task.old_rel_path.bytes ≠ []) :=
    fun hr => hr.2 (h.not_rename hr.1)
  unfold syncTaskRemote syncPathRemote
  rw [if_neg hsane, if_neg h.not_delete, if_neg hrename, h.not_dir]
  rfl

theorem returns_isRegularFile {path data : Bytes} (h : Readable env.cwd w.tree path data) :
    (isRegularFile path).Returns (posix env) (fun r w' => w' = w ∧ r = true) w := by
  have hlookup := FileTree.content_eq_some.mp h.content
  have hstat : posixStat env.cwd w.tree path = .ok (.regular data.length) := by
    unfold posixStat
    rw [if_neg h.ne_nil, hlookup]
    simp [h.names_file]
  refine returns_op_bind.mpr ?_
  simp only [posix, hstat]
  exact .ret ⟨rfl, rfl⟩

theorem returns_withSourceFile {next : Sys TreePath Rc} {Q : Rc → World → Prop}
    (hsrc : Readable env.cwd w.tree task.src_path.bytes S) (hnext : next.Returns (posix env) Q w) :
    (withSourceFile task next).Returns (posix env) Q w := by
  apply (returns_isRegularFile hsrc).bind
  rintro _ _ ⟨rfl, rfl⟩
  refine returns_op_bind.mpr ?_
  rw [posix_openRead hsrc]
  exact hnext

/-- A large file. -/
theorem returns_syncTaskRemote_large {tree : Tree} (hup : Uploads task)
    (hfile : SourceFile env tree task S) (hlarge : task.file_size > config.hash_threshold)
    (hfuel : S.length + 3 ≤ fuel) (answer : Bytes) :
    (syncTaskRemote fuel config task).Returns (posix env)
      (fun rc w' => rc = clientResult answer ∧
        w'.conn.output = clientSends config task S answer)
      ⟨tree, hearing answer⟩ := by
  rw [hup.syncTaskRemote_eq, if_pos hlarge]
  exact returns_withSourceFile hfile.readable (returns_sendRemoteLargeFile hfile hfuel answer)

end Client

end MiniSync
