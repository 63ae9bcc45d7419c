import MiniSync.Effects

/-!
# The tree stays a tree

Every call leaves a grounded tree grounded, and no directory goes away except by
a rename.  The renames of a copy or a backup move files only.
-/

namespace MiniSync

open Prog

def Call.IsRename {Fd : Type} : Call Fd → Prop
  | .rename _ _ => True
  | _ => False

/-- A grounded tree is still one, with all its directories. -/
def Settled (w w' : World) : Prop :=
  w.tree.Grounded → w'.tree.Grounded ∧ w.tree.DirsStay w'.tree

instance : IsPreorder World Settled where
  refl w h := ⟨h, .refl w.tree⟩
  trans _ _ _ h h' hg :=
    have hmid := h hg
    have hend := h' hmid.1
    ⟨hend.1, hmid.2.trans hend.2⟩

section Settled

variable {cwd : TreePath} {mayFail : Call TreePath → Errno → Prop} {w w' : World}

theorem settled_of_tree_eq (h : w'.tree = w.tree) : Settled w w' := by
  intro hg
  rw [h]
  exact ⟨hg, .refl w.tree⟩

/-- A file replaces a file, or nothing. -/
theorem settled_put_file {p : TreePath} {data : Bytes} (hp : p ≠ [])
    (hdir : w.tree.lookup p ≠ some .dir)
    (hparent : w.tree.Grounded → w.tree.lookup p.dropLast = some .dir)
    (htree : w'.tree = w.tree.put p (.file data)) : Settled w w' := by
  intro hg
  rw [htree]
  exact ⟨hg.put_file hp (hparent hg) hdir, .put hp fun h => absurd h hdir⟩

/-- `open` for writing makes a file in a directory only. -/
theorem settled_posixOpenWrite {path : Bytes} {trunc : Bool}
    (htree : w'.tree = (posixOpenWrite cwd w.tree path trunc).2) : Settled w w' := by
  unfold posixOpenWrite at htree
  simp only at htree
  by_cases hpath : path = []
  · rw [if_pos hpath] at htree
    exact settled_of_tree_eq htree
  rw [if_neg hpath] at htree
  split at htree
  · exact settled_of_tree_eq htree
  · rename_i data hfile
    have hroot : resolve cwd path ≠ [] := by
      intro h
      rw [h] at hfile
      cases hfile
    split_ifs at htree
    · exact settled_of_tree_eq htree
    all_goals
      refine settled_put_file hroot (by rw [hfile]; simp) (fun hg => ?_) htree
      exact hg _ hroot (by rw [hfile]; simp)
  · rename_i hnone
    have hroot : resolve cwd path ≠ [] := by
      intro h
      rw [h] at hnone
      cases hnone
    split_ifs at htree with hask hparent
    · exact settled_of_tree_eq htree
    · exact settled_put_file hroot (by rw [hnone]; simp) (fun _ => hparent) htree
    · exact settled_of_tree_eq htree

theorem Kernel.settled {c : Call TreePath} {r : Resp c} (h : Kernel cwd mayFail c w r w')
    (hc : ¬ c.IsRename) : Settled w w' := by
  cases c with
  | openFile path how =>
      rcases h with ⟨now, h⟩ | ⟨e, -, rfl, rfl⟩
      · have htree : w'.tree = (posixOpen cwd w.tree path how).2 := by
          cases h
          rfl
        cases how with
        | readOnly => exact settled_of_tree_eq htree
        | writeCreate mode => exact settled_posixOpenWrite htree
        | writeCreateTrunc mode => exact settled_posixOpenWrite htree
      · exact refl_of Settled w'
  | pwrite fd buf pos =>
      rcases h.pwriteCases with ⟨-, rfl⟩ | ⟨data, n, -, -, -, hdata, -, htree⟩
      · exact refl_of Settled w'
      · have hfile := FileTree.content_eq_some.mp hdata
        have hroot : fd ≠ [] := by
          rintro rfl
          cases hfile
        refine settled_put_file hroot (by rw [hfile]; nofun) (fun hg => ?_) htree
        exact hg fd hroot (by rw [hfile]; nofun)
  | mkdir path =>
      rcases h.mkdirCases with ⟨-, rfl⟩ | ⟨-, -, hmk⟩
      · exact refl_of Settled w'
      · exact fun hg => ⟨hg.mkdir hmk, .mkdir hmk⟩
  | rename src dst => exact absurd trivial hc
  | unlink path =>
      rcases h.unlinkCases with ⟨-, rfl⟩ | ⟨-, -, hun⟩
      · exact refl_of Settled w'
      · exact fun hg => ⟨hg.unlink hun, .unlink hun⟩
  | _ => exact settled_of_tree_eq (h.keepsTree trivial)

/-- A tree stays grounded, whatever is called. -/
theorem Kernel.grounded {c : Call TreePath} {r : Resp c} (h : Kernel cwd mayFail c w r w')
    (hg : w.tree.Grounded) : w'.tree.Grounded := by
  by_cases hc : c.IsRename
  · cases c with
    | rename src dst =>
        rcases h.renameCases with ⟨-, rfl⟩ | ⟨-, -, hren⟩
        · exact hg
        · exact hg.rename hren
    | _ => cases hc
  · exact (h.settled hc hg).1

/-! ## Programs -/

/-- Programs that rename nothing. -/
theorem moves_settled {α : Type} {Q : α → Prop} {p : Sys TreePath α}
    (h : p.All (fun c => ¬ c.IsRename) Q) :
    p.Moves (Kernel cwd mayFail) Settled (fun a _ => Q a) w :=
  h.moves fun _ _ _ _ hc hK => hK.settled hc

theorem all_writeLoop {Fd : Type} {P : Call Fd → Prop} {out : Fd}
    (hwrite : ∀ buf pos, P (.pwrite out buf pos)) (fuel pos : Nat) (left : Bytes) :
    (writeLoop out fuel pos left).All P fun _ => True := by
  induction fuel generalizing pos left with
  | zero => trivial
  | succ fuel ih =>
      rw [writeLoop]
      split_ifs
      · trivial
      · refine All.op_bind (hwrite _ _) fun r => ?_
        split
        · exact ih _ _
        · trivial
        · exact ih _ _

theorem all_copyLoop {Fd : Type} {P : Call Fd → Prop} {in_ out : Fd}
    (hread : ∀ pos count, P (.read in_ pos count)) (hwrite : ∀ buf pos, P (.pwrite out buf pos))
    (fuel pos : Nat) : (copyLoop in_ out fuel pos).All P fun _ => True := by
  induction fuel generalizing pos with
  | zero => trivial
  | succ fuel ih =>
      rw [copyLoop]
      refine All.op_bind (hread _ _) fun r => ?_
      split
      · exact ih _
      · trivial
      · split_ifs
        · trivial
        · apply (all_writeLoop hwrite fuel pos _).bind
          intro rc _
          cases rc with
          | err => trivial
          | ok => exact ih _

/-- A copy renames nothing, and makes the directories on the way to `dst`. -/
theorem all_copyFilePlain_on (fuel : Nat) (src dst : Bytes) :
    (copyFilePlain fuel src dst).All
      (fun c : Call TreePath => ¬ c.IsRename ∧ ∀ d, c = .mkdir d → d ∈ parentDirs dst)
      fun _ => True := by
  refine All.op_bind ⟨not_false, nofun⟩ fun opened => ?_
  cases opened with
  | error e => trivial
  | ok in_ =>
      have hmake : (ensureParentDirExists dst).All
          (fun c : Call TreePath => ¬ c.IsRename ∧ ∀ d, c = .mkdir d → d ∈ parentDirs dst) _ :=
        all_ensureParentDirExists_on fun d hd => ⟨not_false, fun d' heq => by cases heq; exact hd⟩
      apply hmake.bind
      intro made _
      cases made with
      | err => exact ⟨⟨not_false, nofun⟩, fun _ => trivial⟩
      | ok =>
          refine All.op_bind ⟨not_false, nofun⟩ fun opened => ?_
          cases opened with
          | error e => exact ⟨⟨not_false, nofun⟩, fun _ => trivial⟩
          | ok out =>
              apply (all_copyLoop (fun _ _ => ⟨not_false, nofun⟩)
                (fun _ _ => ⟨not_false, nofun⟩) fuel 0).bind
              intro copied _
              exact ⟨⟨not_false, nofun⟩, fun _ => ⟨⟨not_false, nofun⟩, fun _ =>
                ⟨⟨not_false, nofun⟩, fun _ => trivial⟩⟩⟩

theorem all_copyFilePlain (fuel : Nat) (src dst : Bytes) :
    (copyFilePlain fuel src dst).All (fun c : Call TreePath => ¬ c.IsRename) fun _ => True :=
  (all_copyFilePlain_on fuel src dst).mono (fun _ h => h.1) fun _ h => h

/-- Renaming a file. -/
theorem settled_safeRenameOrCopyUnlink {fuel : Nat} {src dst data : Bytes}
    (hsrc : w.tree.content (resolve cwd src) = some data) :
    (safeRenameOrCopyUnlink fuel src dst).Moves (Kernel cwd mayFail) Settled
      (fun _ _ => True) w := by
  have hmake : (ensureParentDirExists dst).Moves (Kernel cwd mayFail) _ _ w :=
    moves_ensureParentDirExists (fun _ => False) dst
  have hsettled : (ensureParentDirExists dst).Moves (Kernel cwd mayFail) Settled _ w :=
    moves_settled (all_ensureParentDirExists dst fun _ => not_false)
  apply (hsettled.and hmake).bind
  rintro made w1 - ⟨-, htidy, -⟩
  have hfile : w1.tree.content (resolve cwd src) = some data :=
    (htidy.content not_false).trans hsrc
  cases made with
  | err => exact Moves.ret trivial
  | ok =>
      apply Moves.op_bind
      intro r w2 hK
      rcases hK.renameCases with ⟨⟨e, rfl, -⟩, rfl⟩ | ⟨rfl, -, hren⟩
      · refine ⟨refl_of Settled w2, ?_⟩
        split
        · exact Moves.ret trivial
        · apply (moves_settled (all_copyFilePlain fuel src dst)).bind
          rintro copied w3 - -
          cases copied with
          | err => exact Moves.ret trivial
          | ok =>
              apply Moves.op_bind
              intro r' w4 hK4
              refine ⟨hK4.settled not_false, ?_⟩
              split <;> exact Moves.ret trivial
        · exact Moves.ret trivial
      · exact ⟨fun hg => ⟨hg.rename hren, .rename_file hg hfile hren⟩, Moves.ret trivial⟩

theorem settled_copyFileAtomic {fuel : Nat} {src dst : Bytes}
    (hne : ∀ tmp, syncingPath dst = some tmp → resolve cwd src ≠ resolve cwd tmp) :
    (copyFileAtomic fuel src dst).Moves (Kernel cwd mayFail) Settled (fun _ _ => True) w := by
  unfold copyFileAtomic
  split
  · exact Moves.ret trivial
  · rename_i tmp htmp
    have hcopy : (copyFilePlain fuel src tmp).Moves (Kernel cwd mayFail) _ _ w :=
      moves_copyFilePlain (hne tmp htmp)
    have hsettled : (copyFilePlain fuel src tmp).Moves (Kernel cwd mayFail) Settled _ w :=
      moves_settled (all_copyFilePlain fuel src tmp)
    apply (hsettled.and hcopy).bind
    rintro copied w1 - ⟨-, -, hcopied⟩
    cases copied with
    | err =>
        refine Moves.op_bind fun r w2 hK => ⟨hK.settled not_false, Moves.ret trivial⟩
    | ok =>
        obtain ⟨data, -, hdata⟩ := hcopied rfl
        apply (settled_safeRenameOrCopyUnlink hdata).bind
        rintro renamed w2 - -
        cases renamed with
        | err =>
            refine Moves.op_bind fun r w3 hK => ⟨hK.settled not_false, Moves.ret trivial⟩
        | ok => exact Moves.ret trivial

/-- A backup takes no directory away. -/
theorem settled_backupOldVersion {fuel : Nat} {root rel_path src : Bytes}
    (hsrc : currentPath root rel_path = some src) :
    (backupOldVersion fuel root rel_path).Moves (Kernel cwd mayFail) Settled
      (fun _ _ => True) w := by
  have hrel := (currentPath_eq_some hsrc).1
  unfold backupOldVersion
  simp only [hsrc]
  refine Moves.op_bind fun found w1 hK => ⟨hK.settled not_false, ?_⟩
  split_ifs
  · exact Moves.ret trivial
  apply (moves_settled (all_makeTimestampDirname not_false)).bind
  rintro stamp w2 - hstamp
  split
  · exact Moves.ret trivial
  · rename_i dst hdst
    obtain ⟨s, hs, hpath⟩ := Option.bind_eq_some_iff.mp hdst
    obtain ⟨tm, rfl⟩ := hstamp s hs
    apply (moves_settled (all_isDirectory not_false)).bind
    rintro isDir w3 - -
    have hmake : (ensureDirExists dst : Sys TreePath Rc).Moves (Kernel cwd mayFail) Settled _ w3 :=
      moves_settled (all_ensureDirExists fun _ _ => not_false)
    have hcopy : (copyFileAtomic fuel src dst).Moves (Kernel cwd mayFail) Settled
        (fun _ _ => True) w3 := by
      apply settled_copyFileAtomic
      intro tmp htmp heq
      apply @not_inArea_current cwd root rel_path src versionsName hsrc (by decide)
      rw [heq, resolve_stampedPath_syncing name_versionsName (name_timestampDirname tm) hrel hpath
        htmp]
      exact inArea_cons
    split
    · exact hmake
    · exact hcopy

end Settled

end MiniSync
