import MiniSync.Grounded
import MiniSync.Server

/-!
# Who uses the socket

Between taking and giving back the file mutex a handler may receive, but it sends
nothing; the file utilities do neither.
-/

namespace MiniSync

open Prog

variable {Fd : Type}

/-- Calls on files only. -/
def Call.OnFiles : Call Fd → Prop
  | .connect => False
  | .recv _ => False
  | .send _ => False
  | .lockFiles => False
  | .unlockFiles => False
  | .appendLog _ => False
  | _ => True

/-- Calls on files, and receives. -/
def Call.Mute : Call Fd → Prop
  | .recv _ => True
  | c => c.OnFiles

theorem Call.OnFiles.mute {c : Call Fd} (h : c.OnFiles) : c.Mute := by
  cases c <;> first | exact h | trivial

/-- The program works on files only. -/
abbrev OnFiles {α : Type} (p : Sys Fd α) : Prop := p.All Call.OnFiles fun _ => True

/-- The program sends nothing. -/
abbrev Mute {α : Type} (p : Sys Fd α) : Prop := p.All Call.Mute fun _ => True

theorem OnFiles.mute {α : Type} {p : Sys Fd α} (h : OnFiles p) : Mute p :=
  h.mono (fun _ hc => hc.mute) fun _ ha => ha

/-! ## File utilities -/

theorem onFiles_ensureDirExists (dir : Bytes) : OnFiles (ensureDirExists dir : Sys Fd Rc) :=
  all_ensureDirExists fun _ _ => trivial

theorem onFiles_ensureParentDirExists (path : Bytes) :
    OnFiles (ensureParentDirExists path : Sys Fd Rc) :=
  all_ensureParentDirExists path fun _ => trivial

theorem onFiles_getFileSize (path : Bytes) : OnFiles (getFileSize path : Sys Fd (Option Nat)) := by
  refine All.op_bind trivial fun stat => ?_
  split <;> trivial

theorem onFiles_copyFilePlain (fuel : Nat) (src dst : Bytes) :
    OnFiles (copyFilePlain fuel src dst : Sys Fd Rc) := by
  refine All.op_bind trivial fun opened => ?_
  cases opened with
  | error e => trivial
  | ok in_ =>
      apply (onFiles_ensureParentDirExists dst).bind
      intro made _
      cases made with
      | err => exact ⟨trivial, fun _ => trivial⟩
      | ok =>
          refine All.op_bind trivial fun opened => ?_
          cases opened with
          | error e => exact ⟨trivial, fun _ => trivial⟩
          | ok out =>
              apply (all_copyLoop (fun _ _ => trivial) (fun _ _ => trivial) fuel 0).bind
              intro copied _
              exact ⟨trivial, fun _ => ⟨trivial, fun _ => ⟨trivial, fun _ => trivial⟩⟩⟩

theorem onFiles_safeRenameOrCopyUnlink (fuel : Nat) (src dst : Bytes) :
    OnFiles (safeRenameOrCopyUnlink fuel src dst : Sys Fd Rc) := by
  apply (onFiles_ensureParentDirExists dst).bind
  intro made _
  cases made with
  | err => trivial
  | ok =>
      refine All.op_bind trivial fun renamed => ?_
      split
      · trivial
      · apply (onFiles_copyFilePlain fuel src dst).bind
        intro copied _
        cases copied with
        | err => trivial
        | ok =>
            refine All.op_bind trivial fun unlinked => ?_
            split <;> trivial
      · trivial

theorem onFiles_copyFileAtomic (fuel : Nat) (src dst : Bytes) :
    OnFiles (copyFileAtomic fuel src dst : Sys Fd Rc) := by
  unfold copyFileAtomic
  split
  · trivial
  · apply (onFiles_copyFilePlain fuel src _).bind
    intro copied _
    cases copied with
    | err => exact ⟨trivial, fun _ => trivial⟩
    | ok =>
        apply (onFiles_safeRenameOrCopyUnlink fuel _ dst).bind
        intro renamed _
        cases renamed with
        | err => exact ⟨trivial, fun _ => trivial⟩
        | ok => trivial

theorem onFiles_backupOldVersion (fuel : Nat) (root rel_path : Bytes) :
    OnFiles (backupOldVersion fuel root rel_path : Sys Fd Rc) := by
  unfold backupOldVersion
  split
  · trivial
  · refine All.op_bind trivial fun found => ?_
    split_ifs
    · trivial
    · apply (all_makeTimestampDirname trivial).bind
      intro stamp _
      split
      · trivial
      · apply (all_isDirectory trivial).bind
        intro isDir _
        split_ifs
        · exact onFiles_ensureDirExists _
        · exact onFiles_copyFileAtomic fuel _ _

theorem onFiles_moveToTrash (fuel : Nat) (root rel_path : Bytes) :
    OnFiles (moveToTrash fuel root rel_path : Sys Fd Rc) := by
  unfold moveToTrash
  split
  · trivial
  · refine All.op_bind trivial fun found => ?_
    split_ifs
    · trivial
    · apply (all_makeTimestampDirname trivial).bind
      intro stamp _
      split
      · trivial
      · exact onFiles_safeRenameOrCopyUnlink fuel _ _

theorem onFiles_hashFdLoop (fd : Fd) (fuel pos : Nat) (len : Option Nat) (hash : UInt64) :
    OnFiles (hashFdLoop fd fuel pos len hash) := by
  induction fuel generalizing pos len hash with
  | zero => trivial
  | succ fuel ih =>
      rw [hashFdLoop]
      split_ifs
      · trivial
      · refine All.op_bind trivial fun r => ?_
        split
        · exact ih _ _ _
        · trivial
        · split_ifs
          · trivial
          · exact ih _ _ _

theorem onFiles_hashFileFnv1a (fuel : Nat) (path : Bytes) :
    OnFiles (hashFileFnv1a fuel path : Sys Fd UInt64) := by
  refine All.op_bind trivial fun opened => ?_
  cases opened with
  | error e => trivial
  | ok fd =>
      apply All.bind (Q := fun _ => True)
      · unfold hashFdRange
        rw [if_neg (by decide)]
        exact onFiles_hashFdLoop fd fuel 0 none _
      · exact fun hash _ => ⟨trivial, fun _ => trivial⟩

theorem onFiles_setFileMetadata (path : Bytes) (mode : UInt32) (mtime : Int64) :
    OnFiles (setFileMetadata path mode mtime : Sys Fd Unit) :=
  ⟨trivial, fun _ => ⟨trivial, fun _ => trivial⟩⟩

theorem onFiles_syncAndClose (fd : Fd) (received : Rc) : OnFiles (syncAndClose fd received) :=
  ⟨trivial, fun _ => ⟨trivial, fun _ => trivial⟩⟩

theorem onFiles_publish (fuel : Nat) (header : SyncHeader) (tmp dst : Bytes) :
    OnFiles (publish fuel header tmp dst : Sys Fd Rc) := by
  apply (onFiles_safeRenameOrCopyUnlink fuel tmp dst).bind
  intro renamed _
  cases renamed with
  | err => trivial
  | ok =>
      apply (onFiles_setFileMetadata dst _ _).bind
      exact fun _ _ => trivial

theorem onFiles_renameCritical (fuel : Nat) (old_path new_path : Bytes) :
    OnFiles (renameCritical fuel old_path new_path : Sys Fd (Except Bytes Unit)) := by
  apply (onFiles_ensureParentDirExists new_path).bind
  intro made _
  split_ifs
  · trivial
  · apply (onFiles_safeRenameOrCopyUnlink fuel old_path new_path).bind
    intro renamed _
    split_ifs <;> trivial

/-! ## Receiving -/

theorem mute_readnLoop (fuel left : Nat) (buf : Bytes) :
    Mute (readnLoop .socket fuel left buf : Sys Fd (Option Bytes)) := by
  induction fuel generalizing left buf with
  | zero => trivial
  | succ fuel ih =>
      rw [readnLoop]
      split_ifs
      · trivial
      · refine All.op_bind trivial fun r => ?_
        split
        · exact ih _ _
        · trivial
        · split_ifs
          · trivial
          · exact ih _ _

theorem mute_readFull (fuel n : Nat) : Mute (readFull fuel .socket n : Sys Fd (Option Bytes)) := by
  apply (mute_readnLoop fuel n []).bind
  intro r _
  cases r <;> trivial

theorem mute_recvHeader (fuel : Nat) : Mute (recvHeader fuel : Sys Fd (Option SyncHeader)) := by
  apply (mute_readFull fuel headerSize).bind
  intro r _
  cases r <;> trivial

theorem mute_recvRelPath (fuel : Nat) (header : SyncHeader) :
    Mute (recvRelPath fuel header : Sys Fd (Option Bytes)) := by
  unfold recvRelPath recvPath
  split_ifs
  · trivial
  · trivial
  · exact mute_readFull fuel _

theorem mute_recvFileBlocksUntilEnd (out : Fd) (expected_hash : UInt64) (fuel : Nat) :
    Mute (recvFileBlocksUntilEnd out expected_hash fuel) := by
  induction fuel with
  | zero => trivial
  | succ fuel ih =>
      rw [recvFileBlocksUntilEnd]
      apply (mute_recvHeader fuel).bind
      intro r _
      cases r with
      | none => trivial
      | some h =>
          simp only
          split_ifs
          · trivial
          · trivial
          · trivial
          · refine All.op_bind trivial fun got => ?_
            split_ifs
            · trivial
            · apply (mute_readFull fuel _).bind
              intro r' _
              cases r' with
              | none => trivial
              | some buf =>
                  simp only
                  split_ifs
                  · trivial
                  · refine All.op_bind trivial fun written => ?_
                    cases written with
                    | error e => trivial
                    | ok n =>
                        simp only
                        split_ifs
                        · trivial
                        · exact ih

theorem mute_recvBlockStream (fuel : Nat) (fd : Fd) (first_block : SyncHeader) :
    Mute (recvBlockStream fuel fd first_block) := by
  apply All.bind (Q := fun _ => True)
  · apply (mute_readFull fuel _).bind
    intro r _
    cases r with
    | none => trivial
    | some buf =>
        simp only
        split_ifs
        · trivial
        · refine All.op_bind trivial fun written => ?_
          cases written <;> trivial
  · intro rc _
    cases rc with
    | err => trivial
    | ok => exact mute_recvFileBlocksUntilEnd fd 0 fuel

theorem mute_fileBeginCritical (fuel : Nat) (header : SyncHeader) (root rel_path dst tmp : Bytes) :
    Mute (fileBeginCritical fuel header root rel_path dst tmp : Sys Fd (Except Bytes Unit)) := by
  apply (onFiles_ensureParentDirExists dst).mute.bind
  intro made _
  split_ifs
  · trivial
  apply (onFiles_backupOldVersion fuel root rel_path).mute.bind
  intro saved _
  split_ifs
  · trivial
  refine All.op_bind trivial fun opened => ?_
  cases opened with
  | error e => trivial
  | ok fd =>
      apply (mute_recvFileBlocksUntilEnd fd header.total_hash fuel).bind
      rintro ⟨received, end_header⟩ _
      apply (onFiles_syncAndClose fd received).mute.bind
      intro closed _
      simp only
      split_ifs
      · trivial
      apply (onFiles_hashFileFnv1a fuel tmp).mute.bind
      intro actual_hash _
      split_ifs
      · trivial
      apply (onFiles_publish fuel header tmp dst).mute.bind
      intro published _
      split_ifs <;> trivial

theorem mute_blockStreamCritical (fuel : Nat) (first_block : SyncHeader)
    (root rel_path dst tmp : Bytes) :
    Mute (blockStreamCritical fuel first_block root rel_path dst tmp : Sys Fd (Except Bytes Unit)) := by
  apply (onFiles_ensureParentDirExists dst).mute.bind
  intro made _
  split_ifs
  · trivial
  refine All.op_bind trivial fun opened => ?_
  cases opened with
  | error e => trivial
  | ok fd =>
      refine All.op_bind trivial fun got => ?_
      split_ifs
      · exact ⟨trivial, fun _ => trivial⟩
      apply (mute_recvBlockStream fuel fd first_block).bind
      rintro ⟨received, end_header⟩ _
      apply (onFiles_syncAndClose fd received).mute.bind
      intro closed _
      split_ifs
      · trivial
      apply All.bind (Q := fun _ => True)
      · unfold hashAgrees
        split_ifs
        · trivial
        · apply (onFiles_hashFileFnv1a fuel tmp).mute.bind
          exact fun _ _ => trivial
      intro agrees _
      split_ifs
      · trivial
      apply (onFiles_backupOldVersion fuel root rel_path).mute.bind
      intro saved _
      apply (onFiles_publish fuel first_block tmp dst).mute.bind
      intro published _
      split_ifs <;> trivial

end MiniSync
