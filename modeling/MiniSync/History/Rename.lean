import MiniSync.Resume.Site
import MiniSync.Server.Integrity
import MiniSync.Spares
import MiniSync.Transfer.Local

/-!
# What a rename overwrites

A rename inside the store replaces the file at the new path and saves no version of
it, in both modes.  Its content is lost unless another file of the store holds it.
-/

namespace MiniSync

open Prog

/-- Some file under `current`, `.versions` or `.trash` holds `c`. -/
def Stored (cwd : TreePath) (root : Bytes) (tree : Tree) (c : Bytes) : Prop :=
  ∃ area ∈ [currentName, versionsName, trashName],
    ∃ q, InArea cwd root area q ∧ tree.content q = some c

/-- The two ways to carry out a rename. -/
inductive Renamer
  | server (combined_path : Bytes)
  /-- The RENAME branch of `sync_task_local`. -/
  | inStore (task : SyncTask)

namespace Renamer

def old_rel : Renamer → Bytes
  | server combined_path => cString combined_path
  | inStore task => task.old_rel_path.bytes

def new_rel : Renamer → Bytes
  | server combined_path => cString (combined_path.drop ((cString combined_path).length + 1))
  | inStore task => task.rel_path.bytes

def prog (fuel : Nat) (root : Bytes) : Renamer → Sys TreePath Rc
  | server combined_path => serverHandleFileRename fuel root combined_path
  | inStore task => renameLocal fuel root task

end Renamer

/-- The content `c` of the file at `new` is also somewhere else in the store: in the
file that is moved there, or in a third one. -/
def Spared (cwd : TreePath) (root : Bytes) (tree : Tree) (old new c : Bytes) : Prop :=
  resolve cwd old = resolve cwd new ∨
    ∃ area ∈ [currentName, versionsName, trashName],
      ∃ q, q ≠ resolve cwd new ∧ InArea cwd root area q ∧ tree.content q = some c

section Rename

variable {cwd : TreePath} {mayFail : Call TreePath → Errno → Prop} {w : World} {fuel : Nat}
  {root old new data c : Bytes}

/-- The file at `src` is now at `dst`, and all other files are as they were. -/
def FileMoved (src dst : TreePath) (data : Bytes) (tree tree' : Tree) : Prop :=
  ∀ q, tree'.content q = if q = dst then some data else if q = src then none else tree.content q

theorem FileMoved.of_content_eq {src dst : TreePath} {t₀ t t' : Tree}
    (h : FileMoved src dst data t t') (heq : ∀ q, t.content q = t₀.content q) :
    FileMoved src dst data t₀ t' := by
  intro q
  rw [h q, heq q]

/-- Making directories changes no file. -/
theorem grounded_ensureParentDirExists (hg : w.tree.Grounded) (path : Bytes) :
    (ensureParentDirExists path).Safe (Kernel cwd mayFail) (fun _ => True)
      (fun _ w' => w'.tree.Grounded ∧ ∀ q, w'.tree.content q = w.tree.content q) w := by
  have hmake : (ensureParentDirExists path).Moves (Kernel cwd mayFail) _ _ w :=
    moves_ensureParentDirExists (fun _ => False) path
  have hsettled : (ensureParentDirExists path).Moves (Kernel cwd mayFail) Settled _ w :=
    moves_settled (all_ensureParentDirExists path fun _ => not_false)
  apply Safe.mono (hsettled.and hmake) (fun _ _ => trivial)
  rintro rc w' ⟨hsettle, -, htidy, -⟩
  exact ⟨(hsettle hg).1, fun q => htidy.content not_false⟩

theorem safe_rename_file (hg : w.tree.Grounded)
    (hold : w.tree.content (resolve cwd old) = some data)
    (hxdev : mayFail (.rename old new) .xdev → resolve cwd old ≠ resolve cwd new) :
    (safeRenameOrCopyUnlink fuel old new).Safe (Kernel cwd mayFail) (fun _ => True)
      (fun rc w' => rc = .ok →
        FileMoved (resolve cwd old) (resolve cwd new) data w.tree w'.tree) w := by
  apply (grounded_ensureParentDirExists hg new).bind
  rintro made w1 ⟨hg1, hsame1⟩
  have hold1 : w1.tree.content (resolve cwd old) = some data := (hsame1 _).trans hold
  cases made with
  | err => exact nofun
  | ok =>
      apply Safe.op_bind
      intro r w2 hK
      refine ⟨trivial, ?_⟩
      rcases hK.renameCases with ⟨⟨e, rfl, hmay⟩, rfl⟩ | ⟨rfl, -, hren⟩
      · split
        · rename_i heq
          cases heq
        · -- across file systems: copy, then unlink
          rename_i heq
          have hne := hxdev (hmay (Except.error.inj heq))
          have hcopy : (copyFilePlain fuel old new).Moves (Kernel cwd mayFail) _ _ w2 :=
            moves_copyFilePlain hne
          apply hcopy.moved.bind
          rintro copied w3 ⟨htidy, hcopied⟩
          cases copied with
          | err => exact nofun
          | ok =>
              obtain ⟨got, hgot, hnew⟩ := hcopied rfl
              rw [hold1] at hgot
              cases hgot
              apply Safe.op_bind
              intro r' w4 hK4
              refine ⟨trivial, ?_⟩
              rcases hK4.unlinkCases with ⟨⟨e, rfl⟩, rfl⟩ | ⟨rfl, -, hunlink⟩
              · exact nofun
              intro _ q
              have hunlinked : w3.tree.Touches (· = resolve cwd old) w4.tree := .unlink rfl hunlink
              split_ifs with hqnew hqold
              · rw [hqnew, hunlinked.content (Ne.symm hne), hnew]
              · unfold FileTree.content
                rw [hqold, FileTree.lookup_unlink hunlink]
              · rw [hunlinked.content hqold, htidy.content hqnew, hsame1]
        · exact nofun
      · intro _
        exact FileMoved.of_content_eq (hg1.content_after_rename_file hold1 hren) hsame1

theorem safe_renameCritical (hg : w.tree.Grounded)
    (hold : w.tree.content (resolve cwd old) = some data)
    (hxdev : mayFail (.rename old new) .xdev → resolve cwd old ≠ resolve cwd new) :
    (renameCritical fuel old new).Safe (Kernel cwd mayFail) (fun _ => True)
      (fun outcome w' => outcome = .ok () →
        FileMoved (resolve cwd old) (resolve cwd new) data w.tree w'.tree) w := by
  apply (grounded_ensureParentDirExists hg new).bind
  rintro made w1 ⟨hg1, hsame1⟩
  split_ifs
  · exact nofun
  apply (safe_rename_file hg1 ((hsame1 _).trans hold) hxdev).bind
  intro rc w2 hmoved
  split_ifs with hrc
  · exact nofun
  · exact fun _ => (hmoved (Rc.ok_of_ne_err hrc)).of_content_eq hsame1

theorem safe_renameLocal {task : SyncTask} (hg : w.tree.Grounded)
    (hpold : localTargetPath root task.old_rel_path.bytes = some old)
    (hpnew : localTargetPath root task.rel_path.bytes = some new)
    (hold : w.tree.content (resolve cwd old) = some data)
    (hxdev : mayFail (.rename old new) .xdev → resolve cwd old ≠ resolve cwd new) :
    (renameLocal fuel root task).Safe (Kernel cwd mayFail) (fun _ => True)
      (fun rc w' => rc = .ok →
        FileMoved (resolve cwd old) (resolve cwd new) data w.tree w'.tree) w := by
  unfold renameLocal
  rw [hpold, hpnew]
  apply (grounded_ensureParentDirExists hg new).bind
  rintro made w1 ⟨hg1, hsame1⟩
  split_ifs
  · exact nofun
  apply (safe_rename_file hg1 ((hsame1 _).trans hold) hxdev).post
  exact fun rc w2 hmoved hrc => (hmoved hrc).of_content_eq hsame1

/-- Calls that keep the tree do so in a program made of them. -/
theorem keepsTree_of_stays {α : Type} {p : Sys TreePath α}
    (h : Stays (fun _ => False) (fun _ => False) p) :
    p.Safe (Kernel cwd mayFail) (fun _ => True) (fun _ w' => w'.tree = w.tree) w := by
  apply (All.safe h (I := fun w' => w'.tree = w.tree) _ rfl).mono
  · exact fun _ _ => trivial
  · exact fun _ _ h => h.2
  · exact fun c s r s' hc hs hK => (hK.keepsTree hc.keepsTree).trans hs

/-- The reply changes nothing in the store. -/
theorem safe_replied (outcome : Except Bytes Unit) (ack : UInt64) :
    (unlockAndReply fuel outcome ack).Safe (Kernel cwd mayFail) (fun _ => True)
      (fun rc w' => rc = rcOf outcome ∧ w'.tree = w.tree) w := by
  apply Safe.op_bind
  intro _ w1 hK
  rw [hK.quiet trivial]
  refine ⟨trivial, ?_⟩
  cases outcome with
  | ok _ =>
      apply (keepsTree_of_stays (Confinement.stays_sendAck fuel ack)).bind
      exact fun _ w2 htree => ⟨rfl, htree⟩
  | error message =>
      apply (keepsTree_of_stays (Confinement.stays_sendError fuel message)).bind
      exact fun _ w2 htree => ⟨rfl, htree⟩

theorem safe_renamer (r : Renamer) (hg : w.tree.Grounded)
    (hpold : currentPath root r.old_rel = some old) (hpnew : currentPath root r.new_rel = some new)
    (hold : w.tree.content (resolve cwd old) = some data)
    (hxdev : mayFail (.rename old new) .xdev → resolve cwd old ≠ resolve cwd new) :
    (r.prog fuel root).Safe (Kernel cwd mayFail) (fun _ => True)
      (fun rc w' => rc = .ok →
        FileMoved (resolve cwd old) (resolve cwd new) data w.tree w'.tree) w := by
  cases r with
  | inStore task => exact safe_renameLocal hg hpold hpnew hold hxdev
  | server combined_path =>
      have hrefused (message : Bytes) :
          (do let _ ← sendError fuel message; return .err : Sys TreePath Rc).Safe
            (Kernel cwd mayFail) (fun _ => True) (fun rc w' => rc = .ok →
              FileMoved (resolve cwd old) (resolve cwd new) data w.tree w'.tree) w := by
        apply (keepsTree_of_stays (Confinement.stays_sendError fuel message)).bind
        exact fun _ _ _ => nofun
      simp only [Renamer.prog, Renamer.old_rel, Renamer.new_rel] at hpold hpnew ⊢
      unfold serverHandleFileRename
      dsimp only
      split_ifs
      · exact hrefused _
      · exact hrefused _
      rw [hpold, hpnew]
      apply Safe.op_bind
      intro _ w1 hK
      rw [hK.quiet trivial]
      refine ⟨trivial, ?_⟩
      apply (safe_renameCritical hg hold hxdev).bind
      intro outcome w2 hmoved
      apply (safe_replied outcome 0).post
      rintro rc w3 ⟨hrc, htree⟩ hok
      rw [htree]
      apply hmoved
      cases outcome with
      | ok _ => rfl
      | error message =>
          rw [hrc] at hok
          cases hok

/-- What the move of a file leaves of the content it replaces. -/
theorem FileMoved.stored_iff {tree tree' : Tree} {old_rel new_rel : Bytes}
    (h : FileMoved (resolve cwd old) (resolve cwd new) data tree tree')
    (hpold : currentPath root old_rel = some old) (hpnew : currentPath root new_rel = some new)
    (hold : tree.content (resolve cwd old) = some data)
    (hnew : tree.content (resolve cwd new) = some c) :
    Stored cwd root tree' c ↔ Spared cwd root tree old new c := by
  have hcurrent : ∀ {rel path : Bytes}, currentPath root rel = some path →
      InArea cwd root currentName (resolve cwd path) := by
    intro rel path hpath
    rw [resolve_currentPath hpath]
    exact inArea_cons
  have hplaced : tree'.content (resolve cwd new) = some data := by
    rw [h, if_pos rfl]
  constructor
  · rintro ⟨area, harea, q, hq, hcontent⟩
    rw [h] at hcontent
    by_cases hsame : resolve cwd old = resolve cwd new
    · exact Or.inl hsame
    refine Or.inr ?_
    split_ifs at hcontent with hqnew hqold
    · -- the file that has moved holds the same
      refine ⟨currentName, by simp, resolve cwd old, hsame, hcurrent hpold, ?_⟩
      rw [hold, hcontent]
    · exact ⟨area, harea, q, hqnew, hq, hcontent⟩
  · rintro (hsame | ⟨area, harea, q, hqnew, hq, hcontent⟩)
    · refine ⟨currentName, by simp, resolve cwd new, hcurrent hpnew, ?_⟩
      rw [hplaced, ← hnew, ← hsame, hold]
    · by_cases hqold : q = resolve cwd old
      · refine ⟨currentName, by simp, resolve cwd new, hcurrent hpnew, ?_⟩
        rw [hplaced, ← hcontent, hqold, hold]
      · refine ⟨area, harea, q, hq, ?_⟩
        rw [h, if_neg hqnew, if_neg hqold, hcontent]

end Rename

/-- After a rename that reports success the content it has replaced is in the store
if and only if another file of the store held it before. -/
theorem rename_stored_iff {cwd : TreePath} {mayFail : Call TreePath → Errno → Prop} {w : World}
    {fuel : Nat} {root old new data c : Bytes} (r : Renamer) (hg : w.tree.Grounded)
    (hpold : currentPath root r.old_rel = some old) (hpnew : currentPath root r.new_rel = some new)
    (hold : w.tree.content (resolve cwd old) = some data)
    (hnew : w.tree.content (resolve cwd new) = some c)
    -- `rename` of a file to itself succeeds
    (hxdev : mayFail (.rename old new) .xdev → resolve cwd old ≠ resolve cwd new) :
    (r.prog fuel root).Safe (Kernel cwd mayFail) (fun _ => True)
      (fun rc w' => rc = .ok →
        (Stored cwd root w'.tree c ↔ Spared cwd root w.tree old new c)) w := by
  apply (safe_renamer r hg hpold hpnew hold hxdev).post
  exact fun rc w' hmoved hok => (hmoved hok).stored_iff hpold hpnew hold hnew

/-! ## Two files -/

/-- A server with the files `a` and `b` in its store. -/
def twoFiles : World := ⟨storeWith [(ascii "a", [1]), (ascii "b", [2])], hearing []⟩

/-- `a` is renamed to `b`. -/
def renameAB : Renamer := .server (ascii "a" ++ nul :: ascii "b")

theorem grounded_twoFiles : twoFiles.tree.Grounded := FileTree.grounded_of_entries (by decide)

/-- The tree after the rename. -/
theorem renameAB_run : ∃ w', (renameAB.prog 8 (ascii "s")).run (posix ⟨[], ⟨126, 1, 2, 3, 4, 5⟩⟩)
    twoFiles = some (.ok, w') ∧ ∀ e ∈ w'.tree.entries, e.2 ≠ .file [2] := by
  have hrun : ((renameAB.prog 8 (ascii "s")).run (posix ⟨[], ⟨126, 1, 2, 3, 4, 5⟩⟩) twoFiles).map
      (fun r => (r.1, r.2.tree.entries.all fun e => decide (e.2 ≠ .file [2]))) = some (.ok, true) := by
    decide +kernel
  obtain ⟨⟨rc, w'⟩, hrun, heq⟩ := Option.map_eq_some_iff.mp hrun
  simp only [Prod.mk.injEq, List.all_eq_true, decide_eq_true_eq] at heq
  exact ⟨w', by rw [hrun, heq.1], heq.2⟩

/-- The content of `b` is in no file of the store any more. -/
theorem rename_loses_content : ¬ ∀ (mayFail : Call TreePath → Errno → Prop) (w : World)
    (fuel : Nat) (root old new data c : Bytes) (r : Renamer), w.tree.Grounded →
      currentPath root r.old_rel = some old → currentPath root r.new_rel = some new →
      w.tree.content (resolve [] old) = some data → w.tree.content (resolve [] new) = some c →
      (r.prog fuel root).Safe (Kernel [] mayFail) (fun _ => True)
        (fun rc w' => rc = .ok → Stored [] root w'.tree c) w := by
  intro hclaim
  have hsafe := hclaim (fun _ _ => False) twoFiles 8 (ascii "s") (ascii "s/current/a")
    (ascii "s/current/b") [1] [2] renameAB grounded_twoFiles (by decide) (by decide) (by decide)
    (by decide)
  obtain ⟨w', hrun, hnone⟩ := renameAB_run
  obtain ⟨-, -, q, -, hq⟩ := hsafe.of_run (posix_covered ⟨[], ⟨126, 1, 2, 3, 4, 5⟩⟩) hrun rfl
  exact hnone _ (FileTree.mem_entries_of_content hq) rfl

/-- The rename reports success and nothing else held the content. -/
theorem rename_stored_iff_twoFiles : ∃ w', (renameAB.prog 8 (ascii "s")).run
    (posix ⟨[], ⟨126, 1, 2, 3, 4, 5⟩⟩) twoFiles = some (.ok, w') ∧
      (Stored [] (ascii "s") w'.tree [2] ↔
        Spared [] (ascii "s") twoFiles.tree (ascii "s/current/a") (ascii "s/current/b") [2]) := by
  obtain ⟨w', hrun, -⟩ := renameAB_run
  have hsafe := @rename_stored_iff [] (fun _ _ => False) twoFiles 8 (ascii "s")
    (ascii "s/current/a") (ascii "s/current/b") [1] [2] renameAB grounded_twoFiles (by decide)
    (by decide) (by decide) (by decide) (fun h => h.elim)
  exact ⟨w', hrun, hsafe.of_run (posix_covered ⟨[], ⟨126, 1, 2, 3, 4, 5⟩⟩) hrun rfl⟩

end MiniSync
