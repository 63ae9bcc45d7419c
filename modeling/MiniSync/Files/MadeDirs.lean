import MiniSync.Grounded

/-!
# Which directories are made

The file utilities make directories on the way to the path they work on, and
nowhere else.
-/

namespace MiniSync

open Prog

/-- One of the paths names the node. -/
def NamedBy (cwd : TreePath) (paths : List Bytes) (q : TreePath) : Prop :=
  ∃ path ∈ paths, q = resolve cwd path

/-- New directories are at nodes in `D` only. -/
def MakesDirs (D : TreePath → Prop) (w w' : World) : Prop := w.tree.MakesIn D w'.tree

instance (D : TreePath → Prop) : IsPreorder World (MakesDirs D) where
  refl w := .refl D w.tree
  trans _ _ _ h h' := FileTree.MakesIn.trans h h'

section MadeDirs

variable {cwd : TreePath} {mayFail : Call TreePath → Errno → Prop} {w w' : World}
  {D : TreePath → Prop}

theorem OpenedFor.makesDirs {path start : Bytes} {r : Except Errno TreePath}
    (h : OpenedFor cwd path start w r w') : MakesDirs D w w' := by
  rcases h with ⟨-, rfl⟩ | ⟨-, hroot, -, htree, -⟩
  · exact refl_of (MakesDirs D) w'
  · rw [MakesDirs, htree]
    exact .put_file hroot

theorem Kernel.makesDirs {c : Call TreePath} {r : Resp c} (h : Kernel cwd mayFail c w r w')
    (hc : ¬ c.IsRename) (hmkdir : ∀ d, c = .mkdir d → D (resolve cwd d)) : MakesDirs D w w' := by
  cases c with
  | openFile path how =>
      cases how with
      | readOnly =>
          rw [h.openRead.1]
          exact refl_of (MakesDirs D) w
      | writeCreate mode => exact h.openCreate.makesDirs
      | writeCreateTrunc mode => exact h.openTrunc.makesDirs
  | pwrite fd buf pos =>
      rcases h.pwriteCases with ⟨-, rfl⟩ | ⟨data, n, -, -, -, hdata, -, htree⟩
      · exact refl_of (MakesDirs D) w'
      · have hroot : fd ≠ [] := by
          rintro rfl
          cases hdata
        rw [MakesDirs, htree]
        exact .put_file hroot
  | mkdir path =>
      rcases h.mkdirCases with ⟨-, rfl⟩ | ⟨-, -, hmk⟩
      · exact refl_of (MakesDirs D) w'
      · exact .mkdir (hmkdir path rfl) hmk
  | rename src dst => exact absurd trivial hc
  | unlink path =>
      rcases h.unlinkCases with ⟨-, rfl⟩ | ⟨-, -, hun⟩
      · exact refl_of (MakesDirs D) w'
      · exact .unlink hun
  | _ =>
      rw [MakesDirs, h.keepsTree trivial]
      exact .refl D w.tree

theorem makes_ensureParentDirExists (path : Bytes) :
    (ensureParentDirExists path).Moves (Kernel cwd mayFail)
      (MakesDirs (NamedBy cwd (parentDirs path))) (fun _ _ => True) w := by
  apply All.moves (all_ensureParentDirExists_on
    (P := fun c => ∃ d ∈ parentDirs path, c = .mkdir d) fun d hd => ⟨d, hd, rfl⟩)
  rintro c s r s' ⟨d, hd, rfl⟩ h
  exact h.makesDirs not_false fun d' heq => by cases heq; exact ⟨d, hd, rfl⟩

theorem makes_copyFilePlain (fuel : Nat) (src dst : Bytes) :
    (copyFilePlain fuel src dst).Moves (Kernel cwd mayFail)
      (MakesDirs (NamedBy cwd (parentDirs dst))) (fun _ _ => True) w := by
  apply (all_copyFilePlain_on fuel src dst).moves
  rintro c s r s' ⟨hc, hmkdir⟩ h
  exact h.makesDirs hc fun d heq => ⟨d, hmkdir d heq, rfl⟩

end MadeDirs

end MiniSync
