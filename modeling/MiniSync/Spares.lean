import MiniSync.Grounded

/-!
# What files are spared

A frame relation between worlds: every file outside a set of nodes keeps its content.
Calls that touch only the set spare the others, and so does the rename of a file,
below which there is nothing.
-/

namespace MiniSync

open Prog

/-- A grounded tree is still one, and every file outside `X` is as it was. -/
def Spares (X : TreePath → Prop) (w w' : World) : Prop :=
  w.tree.Grounded → w'.tree.Grounded ∧
    ∀ q c, ¬ X q → w.tree.content q = some c → w'.tree.content q = some c

instance (X : TreePath → Prop) : IsPreorder World (Spares X) where
  refl _ h := ⟨h, fun _ _ _ hq => hq⟩
  trans _ _ _ h h' hg :=
    have hmid := h hg
    have hend := h' hmid.1
    ⟨hend.1, fun q c hX hq => hend.2 q c hX (hmid.2 q c hX hq)⟩

section Spares

variable {cwd : TreePath} {mayFail : Call TreePath → Errno → Prop} {w w' : World}
  {X Y : TreePath → Prop} {fuel : Nat} {src dst tmp data : Bytes}

theorem Spares.mono (h : Spares X w w') (hXY : ∀ q, X q → Y q) : Spares Y w w' := fun hg =>
  ⟨(h hg).1, fun q c hY hq => (h hg).2 q c (fun hX => hY (hXY q hX)) hq⟩

theorem spares_of_touches (hg : w.tree.Grounded → w'.tree.Grounded)
    (h : w.tree.Touches X w'.tree) : Spares X w w' :=
  fun hw => ⟨hg hw, fun _ _ hX hq => (h.content hX).trans hq⟩

/-- A program that touches only `X` spares the rest. -/
theorem Prog.Moves.spares {α : Type} {S : World → World → Prop} {Q : α → World → Prop}
    {p : Sys TreePath α} (h : p.Moves (Kernel cwd mayFail) S Q w)
    (hS : ∀ w', S w w' → w.tree.Touches X w'.tree) :
    p.Moves (Kernel cwd mayFail) (Spares X) Q w := by
  by_cases hg : w.tree.Grounded
  · have hgrounded : p.Safe (Kernel cwd mayFail) (fun w => w.tree.Grounded) _ w :=
      (all_true p).safe (fun _ _ _ _ _ hs hK => hK.grounded hs) hg
    apply (Safe.and h hgrounded).mono
    · rintro w' ⟨hs, hg'⟩
      exact spares_of_touches (fun _ => hg') (hS w' hs)
    · rintro a w' ⟨⟨hs, hq⟩, -, hg'⟩
      exact ⟨spares_of_touches (fun _ => hg') (hS w' hs), hq⟩
  · apply Safe.mono h
    · exact fun _ _ hg' => absurd hg' hg
    · exact fun a w' hq => ⟨fun hg' => absurd hg' hg, hq.2⟩

/-! ## Files -/

/-- A file that is written to remains one. -/
def Fills (out : TreePath) (w w' : World) : Prop :=
  Tidy (· = out) w w' ∧ ((w.tree.content out).isSome → (w'.tree.content out).isSome)

instance (out : TreePath) : IsPreorder World (Fills out) where
  refl w := ⟨refl_of (Tidy _) w, id⟩
  trans _ _ _ h h' := ⟨trans_of (Tidy _) h.1 h'.1, fun hs => h'.2 (h.2 hs)⟩

theorem moves_copyLoop_any (in_ out : TreePath) (fuel pos : Nat) :
    (copyLoop in_ out fuel pos).Moves (Kernel cwd mayFail) (Fills out) (fun _ _ => True) w := by
  have hcalls : (copyLoop in_ out fuel pos).All
      (fun c => (∃ pos count, c = .read in_ pos count) ∨ ∃ buf pos, c = .pwrite out buf pos) _ :=
    all_copyLoop (fun pos count => Or.inl ⟨pos, count, rfl⟩)
      (fun buf pos => Or.inr ⟨buf, pos, rfl⟩) fuel pos
  apply hcalls.moves
  rintro c s r s' (⟨pos, count, rfl⟩ | ⟨buf, pos, rfl⟩) hK
  · rw [hK.quiet trivial]
    exact refl_of (Fills out) s
  · rcases hK.pwriteCases with ⟨-, rfl⟩ | ⟨data, n, -, -, -, hdata, hconn, htree⟩
    · exact refl_of (Fills out) s'
    · have hne : out ≠ [] := by
        rintro rfl
        cases hdata
      refine ⟨⟨htree ▸ .put hne rfl, hconn⟩, fun _ => ?_⟩
      unfold FileTree.content
      rw [htree, FileTree.lookup_put hne, if_pos rfl]
      rfl

/-- A copy writes to the target only, whatever is copied. -/
theorem moves_copyFilePlain_any (fuel : Nat) (src dst : Bytes) :
    (copyFilePlain fuel src dst).Moves (Kernel cwd mayFail) (Tidy (· = resolve cwd dst))
      (fun rc w' => rc = .ok → ∃ data, w'.tree.content (resolve cwd dst) = some data) w := by
  have hrefl := refl_of (Tidy (· = resolve cwd dst))
  refine moves_quiet rfl fun opened => ?_
  cases opened with
  | error e => exact Moves.ret nofun
  | ok in_ =>
      apply (moves_ensureParentDirExists _ dst).bind
      intro made w2 _ _
      cases made with
      | err => exact moves_quiet trivial fun _ => Moves.ret nofun
      | ok =>
          apply Moves.op_bind
          intro opened w3 hK
          rcases hK.openTrunc with ⟨⟨e, rfl⟩, rfl⟩ | ⟨rfl, hroot, -, htree, hconn⟩
          · exact ⟨hrefl w3, moves_quiet trivial fun _ => Moves.ret nofun⟩
          refine ⟨⟨htree ▸ .put hroot rfl, hconn⟩, ?_⟩
          have hsome : (w3.tree.content (resolve cwd dst)).isSome := by
            unfold FileTree.content
            rw [htree, FileTree.lookup_put hroot, if_pos rfl]
            rfl
          have hcopy : (copyLoop in_ (resolve cwd dst) fuel 0).Moves (Kernel cwd mayFail)
              (Fills (resolve cwd dst)) _ w3 := moves_copyLoop_any in_ (resolve cwd dst) fuel 0
          apply (hcopy.coarsen (Tidy (· = resolve cwd dst)) fun _ _ h => h.1).bind
          rintro copied w4 - ⟨⟨-, hkept⟩, -⟩
          refine moves_quiet trivial fun _ => moves_quiet trivial fun _ => ?_
          refine moves_quiet trivial fun _ => Moves.ret fun _ => ?_
          exact Option.isSome_iff_exists.mp (hkept hsome)

/-- Renaming a file spares all but the two paths. -/
theorem spares_safeRenameOrCopyUnlink (hsrc : w.tree.content (resolve cwd src) = some data) :
    (safeRenameOrCopyUnlink fuel src dst).Moves (Kernel cwd mayFail)
      (Spares fun q => q = resolve cwd src ∨ q = resolve cwd dst) (fun _ _ => True) w := by
  have hmake : (ensureParentDirExists dst).Moves (Kernel cwd mayFail) _ _ w :=
    moves_ensureParentDirExists (fun _ => False) dst
  have hspared := (hmake.coarsen (Tidy fun _ => False) fun _ _ h => h).spares
    (X := fun q => q = resolve cwd src ∨ q = resolve cwd dst)
    fun w' h => h.1.mono fun _ hf => hf.elim
  apply hspared.bind
  rintro made w1 - ⟨htidy, -⟩
  have hfile : w1.tree.content (resolve cwd src) = some data :=
    (htidy.content not_false).trans hsrc
  cases made with
  | err => exact Moves.ret trivial
  | ok =>
      apply Moves.op_bind
      intro r w2 hK
      rcases hK.renameCases with ⟨⟨e, rfl, -⟩, rfl⟩ | ⟨rfl, -, hren⟩
      · refine ⟨refl_of (Spares _) w2, ?_⟩
        split
        · exact Moves.ret trivial
        · have hcopy : (copyFilePlain fuel src dst).Moves (Kernel cwd mayFail) _ _ w2 :=
            moves_copyFilePlain_any fuel src dst
          apply (hcopy.spares fun w' h => h.1.mono fun q hq => Or.inr hq).bind
          rintro copied w3 - -
          cases copied with
          | err => exact Moves.ret trivial
          | ok =>
              apply Moves.op_bind
              intro r' w4 hK4
              refine ⟨?_, by split <;> exact Moves.ret trivial⟩
              rcases hK4.unlinkCases with ⟨-, rfl⟩ | ⟨-, -, hunlink⟩
              · exact refl_of (Spares _) w4
              · exact spares_of_touches (fun hg => hK4.grounded hg) (.unlink (Or.inl rfl) hunlink)
        · exact Moves.ret trivial
      · refine ⟨fun hg => ⟨hg.rename hren, fun q c hq hc => ?_⟩, Moves.ret trivial⟩
        exact hg.content_rename_file hfile hren (fun h => hq (Or.inl h)) (fun h => hq (Or.inr h)) hc

theorem spares_copyFileAtomic (htmp : syncingPath dst = some tmp) :
    (copyFileAtomic fuel src dst).Moves (Kernel cwd mayFail)
      (Spares fun q => q = resolve cwd tmp ∨ q = resolve cwd dst) (fun _ _ => True) w := by
  have hclean (w : World) : (do
      let _ ← sys (.unlink tmp)
      return .err : Sys TreePath Rc).Moves (Kernel cwd mayFail)
        (Spares fun q => q = resolve cwd tmp ∨ q = resolve cwd dst) (fun _ _ => True) w := by
    apply Moves.op_bind
    intro r w' hK
    refine ⟨?_, Moves.ret trivial⟩
    rcases hK.unlinkCases with ⟨-, rfl⟩ | ⟨-, -, hunlink⟩
    · exact refl_of (Spares _) w'
    · exact spares_of_touches (fun hg => hK.grounded hg) (.unlink (Or.inl rfl) hunlink)
  unfold copyFileAtomic
  simp only [htmp]
  have hcopy : (copyFilePlain fuel src tmp).Moves (Kernel cwd mayFail) _ _ w :=
    moves_copyFilePlain_any fuel src tmp
  apply (hcopy.spares fun w' h => h.1.mono fun q hq => Or.inl hq).bind
  rintro copied w1 - hcopied
  cases copied with
  | err => exact hclean w1
  | ok =>
      obtain ⟨data, hdata⟩ := hcopied rfl
      apply (spares_safeRenameOrCopyUnlink hdata).bind
      rintro renamed w2 - -
      cases renamed with
      | err => exact hclean w2
      | ok => exact Moves.ret trivial

end Spares

end MiniSync
