import MiniSync.Lib.Fuel
import MiniSync.Server

/-!
# Fuel

Fuel only bounds the loops: no run that returns depends on it.
-/

namespace MiniSync

open Prog

variable {Fd : Type}

/-! ## Reading and writing -/

theorem fuelled_readnLoop (src : Source Fd) (left : Nat) (buf : Bytes) :
    Fuelled fun fuel => readnLoop src fuel left buf := by
  intro m n hmn
  induction m generalizing n left buf with
  | zero => trivial
  | succ m ih =>
      obtain ⟨n, rfl⟩ : ∃ k, n = k + 1 := ⟨n - 1, by omega⟩
      have hle := Nat.le_of_succ_le_succ hmn
      simp only [readnLoop]
      split_ifs
      · rfl
      · refine Le.bind (.refl _) fun r => ?_
        split
        · exact ih _ _ hle
        · rfl
        · split_ifs
          · rfl
          · exact ih _ _ hle

theorem fuelled_readFull (src : Source Fd) (size : Nat) :
    Fuelled fun fuel => readFull fuel src size :=
  (fuelled_readnLoop src size []).bind fun _ => .const _

theorem fuelled_writenLoop (left : Bytes) :
    Fuelled fun fuel => (writenLoop fuel left : Sys Fd Rc) := by
  intro m n hmn
  induction m generalizing n left with
  | zero => trivial
  | succ m ih =>
      obtain ⟨n, rfl⟩ : ∃ k, n = k + 1 := ⟨n - 1, by omega⟩
      have hle := Nat.le_of_succ_le_succ hmn
      simp only [writenLoop]
      split_ifs
      · rfl
      · refine Le.op_bind fun r => ?_
        split
        · exact ih _ hle
        · exact ih _ hle
        · rfl
        · exact ih _ hle

theorem fuelled_sendError (message : Bytes) :
    Fuelled fun fuel => (sendError fuel message : Sys Fd Rc) := by
  refine (fuelled_writenLoop _).bind fun rc => ?_
  cases rc with
  | err => exact .const _
  | ok => exact fuelled_writenLoop _

/-! ## File utilities -/

theorem fuelled_writeLoop (out : Fd) (pos : Nat) (left : Bytes) :
    Fuelled fun fuel => writeLoop out fuel pos left := by
  intro m n hmn
  induction m generalizing n pos left with
  | zero => trivial
  | succ m ih =>
      obtain ⟨n, rfl⟩ : ∃ k, n = k + 1 := ⟨n - 1, by omega⟩
      have hle := Nat.le_of_succ_le_succ hmn
      simp only [writeLoop]
      split_ifs
      · rfl
      · refine Le.op_bind fun r => ?_
        split
        · exact ih _ _ hle
        · rfl
        · exact ih _ _ hle

theorem fuelled_copyLoop (in_ out : Fd) (pos : Nat) :
    Fuelled fun fuel => copyLoop in_ out fuel pos := by
  intro m n hmn
  induction m generalizing n pos with
  | zero => trivial
  | succ m ih =>
      obtain ⟨n, rfl⟩ : ∃ k, n = k + 1 := ⟨n - 1, by omega⟩
      have hle := Nat.le_of_succ_le_succ hmn
      simp only [copyLoop]
      refine Le.op_bind fun r => ?_
      split
      · exact ih _ hle
      · rfl
      · split_ifs
        · rfl
        · refine Le.bind (fuelled_writeLoop out pos _ hle) fun rc => ?_
          cases rc with
          | err => rfl
          | ok => exact ih _ hle

theorem fuelled_copyFilePlain (src dst : Bytes) :
    Fuelled fun fuel => (copyFilePlain fuel src dst : Sys Fd Rc) := by
  intro m n hmn
  refine Le.op_bind fun opened => ?_
  cases opened with
  | error e => rfl
  | ok in_ =>
      refine Le.bind (.refl _) fun made => ?_
      cases made with
      | err => exact .refl _
      | ok =>
          refine Le.op_bind fun opened => ?_
          cases opened with
          | error e => exact .refl _
          | ok out => exact Le.bind (fuelled_copyLoop in_ out 0 hmn) fun _ => .refl _

theorem fuelled_safeRenameOrCopyUnlink (src dst : Bytes) :
    Fuelled fun fuel => (safeRenameOrCopyUnlink fuel src dst : Sys Fd Rc) := by
  intro m n hmn
  refine Le.bind (.refl _) fun made => ?_
  cases made with
  | err => rfl
  | ok =>
      refine Le.op_bind fun renamed => ?_
      split
      · rfl
      · exact Le.bind (fuelled_copyFilePlain src dst hmn) fun _ => .refl _
      · rfl

theorem fuelled_copyFileAtomic (src dst : Bytes) :
    Fuelled fun fuel => (copyFileAtomic fuel src dst : Sys Fd Rc) := by
  intro m n hmn
  simp only [copyFileAtomic]
  split
  · rfl
  · refine Le.bind (fuelled_copyFilePlain src _ hmn) fun copied => ?_
    cases copied with
    | err => exact .refl _
    | ok => exact Le.bind (fuelled_safeRenameOrCopyUnlink _ dst hmn) fun _ => .refl _

theorem fuelled_backupOldVersion (root rel_path : Bytes) :
    Fuelled fun fuel => (backupOldVersion fuel root rel_path : Sys Fd Rc) := by
  intro m n hmn
  simp only [backupOldVersion]
  split
  · rfl
  · refine Le.op_bind fun found => ?_
    split_ifs
    · rfl
    · refine Le.bind (.refl _) fun stamp => ?_
      split
      · rfl
      · refine Le.bind (.refl _) fun isDir => ?_
        split_ifs
        · exact .refl _
        · exact fuelled_copyFileAtomic _ _ hmn

theorem fuelled_moveToTrash (root rel_path : Bytes) :
    Fuelled fun fuel => (moveToTrash fuel root rel_path : Sys Fd Rc) := by
  intro m n hmn
  simp only [moveToTrash]
  split
  · rfl
  · refine Le.op_bind fun found => ?_
    split_ifs
    · rfl
    · refine Le.bind (.refl _) fun stamp => ?_
      split
      · rfl
      · exact fuelled_safeRenameOrCopyUnlink _ _ hmn

theorem fuelled_hashFdLoop (fd : Fd) (pos : Nat) (len : Option Nat) (hash : UInt64) :
    Fuelled fun fuel => hashFdLoop fd fuel pos len hash := by
  intro m n hmn
  induction m generalizing n pos len hash with
  | zero => trivial
  | succ m ih =>
      obtain ⟨n, rfl⟩ : ∃ k, n = k + 1 := ⟨n - 1, by omega⟩
      have hle := Nat.le_of_succ_le_succ hmn
      simp only [hashFdLoop]
      split_ifs
      · rfl
      · refine Le.op_bind fun r => ?_
        split
        · exact ih _ _ _ hle
        · rfl
        · split_ifs
          · rfl
          · exact ih _ _ _ hle

theorem fuelled_hashFileFnv1a (path : Bytes) :
    Fuelled fun fuel => (hashFileFnv1a fuel path : Sys Fd UInt64) := by
  intro m n hmn
  refine Le.op_bind fun opened => ?_
  cases opened with
  | error e => rfl
  | ok fd => exact Le.bind (fuelled_hashFdLoop fd 0 none _ hmn) fun _ => .refl _

theorem fuelled_hashAgrees (tmp : Bytes) (expected_hash : UInt64) :
    Fuelled fun fuel => (hashAgrees fuel tmp expected_hash : Sys Fd Bool) := by
  intro m n hmn
  simp only [hashAgrees]
  split_ifs
  · rfl
  · exact Le.bind (fuelled_hashFileFnv1a tmp hmn) fun _ => .refl _

theorem fuelled_publish (header : SyncHeader) (tmp dst : Bytes) :
    Fuelled fun fuel => (publish fuel header tmp dst : Sys Fd Rc) := by
  intro m n hmn
  exact Le.bind (fuelled_safeRenameOrCopyUnlink tmp dst hmn) fun _ => .refl _

theorem fuelled_renameCritical (old_path new_path : Bytes) :
    Fuelled fun fuel => (renameCritical fuel old_path new_path : Sys Fd (Except Bytes Unit)) := by
  intro m n hmn
  refine Le.bind (.refl _) fun made => ?_
  split_ifs
  · rfl
  · exact Le.bind (fuelled_safeRenameOrCopyUnlink old_path new_path hmn) fun _ => .refl _

end MiniSync
