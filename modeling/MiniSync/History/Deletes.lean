import MiniSync.History.Uploads

/-!
# Deletes in a run

A delete moves what was in `current` to the trash of the present time.
-/

namespace MiniSync

open Prog

section Deletes

variable {env : Env} {w w' : World} {fuel : Nat} {root rel : Bytes} {rc : Rc}

/-- `current/rel`, with all below it, is in the trash of the present time, in the place of a
file at most; all other files have stayed. -/
structure Trashes (env : Env) (root rel : Bytes) (w w' : World) : Prop where
  grounded : w'.tree.Grounded
  moved : ∀ r c, w.tree.content (currentNode env.cwd root (relNames rel) ++ r) = some c →
    w'.tree.content (trashNode env.cwd root env.now rel ++ r) = some c
  rest : ∀ q c, ¬ currentNode env.cwd root (relNames rel) <+: q → w.tree.content q = some c →
    w'.tree.content q = some c ∨
      (q = trashNode env.cwd root env.now rel ∧
        ∃ d, w.tree.content (currentNode env.cwd root (relNames rel)) = some d)

theorem Trashes.tree_eq {w1 : World} (h : Trashes env root rel w w1) (htree : w'.tree = w1.tree) :
    Trashes env root rel w w' := by
  refine ⟨?_, fun r c hc => ?_, fun q c hq hc => ?_⟩
  · rw [htree]
    exact h.grounded
  · rw [htree]
    exact h.moved r c hc
  · rw [htree]
    exact h.rest q c hq hc

/-- A rename to the trash. -/
theorem trashes_of_rename {dirOnly : Bool} {w1 : World} (hg : w.tree.Grounded)
    (hmade : Spares (fun _ => False) w w1)
    (hback : ∀ c, w1.tree.content (currentNode env.cwd root (relNames rel)) = some c →
      w.tree.content (currentNode env.cwd root (relNames rel)) = some c)
    (hren : w1.tree.rename (currentNode env.cwd root (relNames rel)) (trashNode env.cwd root env.now rel)
      dirOnly = .ok w'.tree) : Trashes env root rel w w' := by
  obtain ⟨hg1, hkept⟩ := hmade hg
  rcases FileTree.rename_eq_ok hren with ⟨heq, -⟩ | ⟨hsd, hds, hmove⟩
  · exact absurd heq.symm (stored_ne_current (Or.inr rfl))
  refine ⟨hg1.rename hren, fun r c hc => ?_, fun q c hq hc => ?_⟩
  · rw [hmove, FileTree.content_move hsd hds]
    exact hkept _ c not_false hc
  · have hc1 := hkept q c not_false hc
    by_cases hbelow : trashNode env.cwd root env.now rel <+: q
    · -- only a file makes way, and only for a file
      right
      obtain ⟨node, hnode, hroom⟩ := FileTree.room_of_rename hren (stored_ne_current (Or.inr rfl)).symm
      obtain ⟨rfl, hfile⟩ := hg1.file_makes_way hroom hc1 hbelow
      refine ⟨rfl, ?_⟩
      cases node with
      | dir => cases hfile
      | file d => exact ⟨d, hback d (FileTree.content_eq_some.mpr hnode)⟩
    · left
      rw [hmove, FileTree.content_move_apart hsd hds hq hbelow]
      exact hc1

theorem ran_moveToTrash (hg : w.tree.Grounded)
    (hexec : Exec (Prog.Graph (posix env)) (moveToTrash fuel root rel) w rc w') :
    Spares (fun _ => False) w w' ∨ Trashes env root rel w w' := by
  have hrefl : Spares (fun _ => False) w w := refl_of (Spares _) w
  unfold moveToTrash at hexec
  cases hsrc : currentPath root rel with
  | none =>
      rw [hsrc] at hexec
      obtain ⟨-, rfl⟩ := exec_ret hexec
      exact Or.inl hrefl
  | some src =>
      have hrel := (currentPath_eq_some hsrc).1
      have hsrcNode : resolve env.cwd src = currentNode env.cwd root (relNames rel) :=
        resolve_currentPath hsrc
      rw [hsrc] at hexec
      obtain ⟨found, w1, haccess, hstamp⟩ := exec_bind.mp hexec
      obtain rfl := (kernel_of_ran (exec_op haccess)).quiet trivial
      split_ifs at hstamp
      · obtain ⟨-, rfl⟩ := exec_ret hstamp
        exact Or.inl hrefl
      obtain ⟨stamp, w2, hmade, hmove⟩ := exec_bind.mp hstamp
      obtain ⟨rfl, hs⟩ := returns_makeTimestampDirname.exec hmade
      split at hmove
      · obtain ⟨-, rfl⟩ := exec_ret hmove
        exact Or.inl hrefl
      rename_i dst hdst
      obtain ⟨s, hsome, hpath⟩ := Option.bind_eq_some_iff.mp hdst
      rw [hs s hsome] at hpath
      have hdstNode : resolve env.cwd dst = trashNode env.cwd root env.now rel :=
        resolve_stampedPath name_trashName (name_timestampDirname env.now) hrel hpath
      obtain ⟨made, w3, hmake, hrename⟩ := exec_bind.mp hmove
      have hmoves : (ensureParentDirExists dst).Moves (Kernel env.cwd fun _ _ => False)
          (Tidy fun _ => False) _ w2 := moves_ensureParentDirExists _ dst
      have hspares : (ensureParentDirExists dst).Moves (Kernel env.cwd fun _ _ => False)
          (Spares fun _ => False) _ w2 := spares_ensureParentDirExists _ dst
      have htidy := (hmoves.ran hmake).1
      have hspared := (hspares.ran hmake).1
      cases made with
      | err =>
          obtain ⟨-, rfl⟩ := exec_ret hrename
          exact Or.inl hspared
      | ok =>
          obtain ⟨renamed, w4, hren, hrest⟩ := exec_bind.mp hrename
          rcases (kernel_of_ran (exec_op hren)).renameCases with
            ⟨⟨e, rfl, hxdev⟩, rfl⟩ | ⟨rfl, -, hok⟩
          · cases e with
            | xdev => exact absurd (hxdev rfl) not_false
            | _ =>
                obtain ⟨-, rfl⟩ := exec_ret hrest
                exact Or.inl hspared
          · right
            obtain ⟨-, rfl⟩ := exec_ret hrest
            rw [hsrcNode, hdstNode] at hok
            apply trashes_of_rename hg hspared (fun c hc => ?_) hok
            rw [← hc]
            exact (htidy.content not_false).symm

theorem ran_serverHandleFileDelete (hg : w.tree.Grounded)
    (hexec : Exec (Prog.Graph (posix env)) (serverHandleFileDelete fuel root rel) w rc w') :
    Spares (fun _ => False) w w' ∨ Trashes env root rel w w' := by
  obtain ⟨moved, w1, hmove, htree⟩ := ran_critical hexec
  rcases ran_moveToTrash hg hmove with hspared | htrashed
  · exact Or.inl (hspared.tree_eq htree)
  · exact Or.inr (htrashed.tree_eq htree)

end Deletes

end MiniSync
