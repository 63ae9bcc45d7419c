import MiniSync.FaultFree.Files

/-!
# Backups end

`backup_old_version` returns without faults, whether or not it succeeds, given
fuel for the size of the file.
-/

namespace MiniSync

open Prog

section Backup

variable {env : Env} {w : World} {fuel : Nat} {src dst data root rel : Bytes}

theorem noSpin_mkdirEach (ds : List Bytes) : (mkdirEach ds : Sys TreePath Rc).NoSpin := by
  induction ds with
  | nil => trivial
  | cons d ds ih =>
      refine NoSpin.op_bind fun r => ?_
      split
      · exact ih
      · exact ih
      · trivial

theorem noSpin_ensureDirExists (dir : Bytes) : (ensureDirExists dir : Sys TreePath Rc).NoSpin := by
  unfold ensureDirExists
  split_ifs
  · trivial
  · trivial
  · exact noSpin_mkdirEach _

theorem noSpin_ensureParentDirExists (path : Bytes) :
    (ensureParentDirExists path : Sys TreePath Rc).NoSpin := by
  unfold ensureParentDirExists
  split_ifs
  · trivial
  · split
    · trivial
    · exact noSpin_ensureDirExists _

/-- Making directories leaves everything else as it is. -/
theorem returns_ensureParent_any (path : Bytes) :
    (ensureParentDirExists path).Returns (posix env)
      (fun _ w' => FileTree.Touches (fun _ => False) w.tree w'.tree) w := by
  have hmoves : (ensureParentDirExists path).Moves (Kernel env.cwd fun _ _ => False) _ _ w :=
    moves_ensureParentDirExists (fun _ => False) path
  have hboth := (noSpin_ensureParentDirExists path).returns.and_safe
    (fun c s => posix_covered env c s) hmoves
  exact hboth.post fun _ _ h => h.2.1.1

theorem returns_copyFilePlain_any (hsrc : Readable env.cwd w.tree src data)
    (hne : resolve env.cwd src ≠ resolve env.cwd dst) (hfuel : data.length + 3 ≤ fuel) :
    (copyFilePlain fuel src dst).Returns (posix env) (fun _ _ => True) w := by
  refine returns_op_bind.mpr ?_
  rw [posix_openRead hsrc]
  apply (returns_ensureParent_any dst).bind
  intro made w1 hsame
  have hin : w1.tree.content (resolve env.cwd src) = some data :=
    (hsame.content not_false).trans hsrc.content
  cases made with
  | err => exact returns_op_bind.mpr (.ret trivial)
  | ok =>
      refine returns_op_bind.mpr ?_
      have hK := @posix_covered (fun _ _ => False) env
        (.openFile dst (.writeCreateTrunc 0o644)) w1
      generalize posix env (.openFile dst (.writeCreateTrunc 0o644)) w1 = answer at hK ⊢
      obtain ⟨r, w2⟩ := answer
      rcases hK.openTrunc with ⟨⟨e, rfl⟩, rfl⟩ | ⟨rfl, hroot, -, htree, -⟩
      · exact returns_op_bind.mpr (.ret trivial)
      · have hempty : w2.tree.content (resolve env.cwd dst) = some [] := by
          rw [FileTree.content_eq_some, htree, FileTree.lookup_put hroot, if_pos rfl]
        have hin2 : w2.tree.content (resolve env.cwd src) = some data := by
          rw [← hin]
          apply FileTree.content_congr
          rw [htree, FileTree.lookup_put hroot, if_neg hne]
        have hstart : w2.tree.content (resolve env.cwd dst) = some (data.take 0) := hempty
        apply (returns_copyLoop hne hin2 hstart (Nat.zero_le _) (by omega)).bind
        intro copied w3 _
        exact returns_op_bind.mpr (returns_op_bind.mpr (returns_op_bind.mpr (.ret trivial)))

theorem returns_safeRenameOrCopyUnlink_any :
    (safeRenameOrCopyUnlink fuel src dst).Returns (posix env) (fun _ _ => True) w := by
  apply (returns_ensureParent_any dst).bind
  intro made w1 _
  cases made with
  | err => exact .ret trivial
  | ok =>
      refine returns_op_bind.mpr ?_
      have hK := @posix_covered (fun _ _ => False) env (.rename src dst) w1
      generalize posix env (.rename src dst) w1 = answer at hK ⊢
      obtain ⟨r, w2⟩ := answer
      rcases hK.renameCases with ⟨⟨e, rfl, hxdev⟩, rfl⟩ | ⟨rfl, -, -⟩
      · dsimp only
        split
        · exact .ret trivial
        · rename_i heq
          exact (hxdev (Except.error.inj heq)).elim
        · exact .ret trivial
      · exact .ret trivial

theorem returns_copyFileAtomic_any (hsrc : Readable env.cwd w.tree src data)
    (hne : ∀ tmp, syncingPath dst = some tmp → resolve env.cwd src ≠ resolve env.cwd tmp)
    (hfuel : data.length + 3 ≤ fuel) :
    (copyFileAtomic fuel src dst).Returns (posix env) (fun _ _ => True) w := by
  unfold copyFileAtomic
  split
  · exact .ret trivial
  · rename_i tmp htmp
    apply (returns_copyFilePlain_any hsrc (hne tmp htmp) hfuel).bind
    intro copied w1 _
    cases copied with
    | err => exact returns_op_bind.mpr (.ret trivial)
    | ok =>
        apply returns_safeRenameOrCopyUnlink_any.bind
        intro renamed w2 _
        cases renamed with
        | err => exact returns_op_bind.mpr (.ret trivial)
        | ok => exact .ret trivial

theorem returns_makeTimestampDirname :
    makeTimestampDirname.Returns (posix env)
      (fun stamp w' => w' = w ∧ ∀ s, stamp = some s → s = timestampDirname env.now) w := by
  refine returns_op_bind.mpr (.ret ⟨rfl, fun s hs => ?_⟩)
  rw [Option.ite_none_right_eq_some] at hs
  exact (Option.some.inj hs.2).symm

/-- With fuel for the file at `current/rel`, a backup returns. -/
theorem returns_backupOldVersion (hsrc : currentPath root rel = some src) (hplain : Plain src)
    (hfuel : ∀ data, w.tree.content (resolve env.cwd src) = some data → data.length + 3 ≤ fuel) :
    (backupOldVersion fuel root rel).Returns (posix env) (fun _ _ => True) w := by
  have hrel := (currentPath_eq_some hsrc).1
  unfold backupOldVersion
  rw [hsrc]
  refine returns_op_bind.mpr ?_
  rw [posix_access hplain]
  cases hlookup : w.tree.lookup (resolve env.cwd src) with
  | none => exact .ret trivial
  | some node =>
      simp only [Option.isSome_some, Bool.not_true, Bool.false_eq_true, if_false]
      apply returns_makeTimestampDirname.bind
      rintro stamp _ ⟨rfl, hstamp⟩
      split
      · exact .ret trivial
      · rename_i dst hdst
        obtain ⟨s, hs, hpath⟩ := Option.bind_eq_some_iff.mp hdst
        rw [hstamp s hs] at hpath
        apply (returns_isDirectory hplain hlookup).bind
        rintro _ _ ⟨rfl, rfl⟩
        cases node with
        | dir => exact (noSpin_ensureDirExists dst).returns
        | file data =>
            have hdata := FileTree.content_eq_some.mpr hlookup
            apply returns_copyFileAtomic_any ⟨hplain.ne_nil, hplain.names_file, hdata⟩
            · intro tmp htmp heq
              apply @not_inArea_current env.cwd root rel src versionsName hsrc (by decide)
              rw [heq, resolve_stampedPath_syncing name_versionsName
                (name_timestampDirname env.now) hrel hpath htmp]
              exact inArea_cons
            · exact hfuel data hdata

end Backup

end MiniSync
