import MiniSync.Current.Effects
import MiniSync.StoreRun
import MiniSync.Transfer.Local

/-!
# Local tasks act on the map of files

`sync_task_local` on a kernel in which no call fails without a reason: a task that reports
success has changed the files of `current` as the task says, and one that fails has changed
them in the same way or not at all, up to its temporary file.
-/

namespace MiniSync

open Prog

/-- The kernel without faults. -/
abbrev Sound (cwd : TreePath) : (c : Call TreePath) → World → Resp c → World → Prop :=
  Kernel cwd fun _ _ => False

/-- The content of the file that a path names. -/
def regularAt (cwd : TreePath) (tree : Tree) (path : Bytes) : Option Bytes :=
  if path = [] ∨ asksForDir path = true then none else tree.content (resolve cwd path)

theorem regularAt_eq {cwd : TreePath} {tree : Tree} {path : Bytes} :
    match posixStat cwd tree path with
    | .ok (.regular _) => ∃ data, tree.content (resolve cwd path) = some data ∧
        regularAt cwd tree path = some data
    | _ => regularAt cwd tree path = none := by
  unfold posixStat regularAt FileTree.content
  by_cases hpath : path = []
  · simp [hpath]
  · cases tree.lookup (resolve cwd path) with
    | none => simp [hpath]
    | some node =>
        cases node with
        | dir => simp [hpath]
        | file data => cases asksForDir path <;> simp [hpath]

/-- What a task that succeeds makes of the files.  A rename that does not succeed is done
as an upload of its new path. -/
inductive Does (task : SyncTask) (source : Option Bytes) : Effect → Prop
  | removes (event : task.event_type = .delete) :
      Does task source (.remove (relNames task.rel_path.bytes))
  | moves (event : task.event_type = .rename) (old : task.old_rel_path.bytes ≠ []) :
      Does task source (.move (relNames task.old_rel_path.bytes) (relNames task.rel_path.bytes))
  | makes (event : task.event_type ≠ .delete) (dir : task.is_dir = true) : Does task source .keep
  | copies (event : task.event_type ≠ .delete) (file : task.is_dir = false) (data : Bytes)
      (found : source = some data) :
      Does task source (.put (relNames (task.rel_path.bytes ++ syncingSuffix))
        (relNames task.rel_path.bytes) data)
  | skips (event : task.event_type ≠ .delete) (file : task.is_dir = false)
      (missing : source = none) : Does task source .keep

/-- What a task may make of the files: all it is to do, or nothing but its temporary file. -/
inductive MayDo (task : SyncTask) (source : Option Bytes) : Rc → Effect → Prop
  | done {rc : Rc} {e : Effect} (h : Does task source e) : MayDo task source rc e
  | nothing : MayDo task source .err .keep
  | staged (data : Option Bytes) :
      MayDo task source .err (.stage (relNames (task.rel_path.bytes ++ syncingSuffix)) data)

section LocalTasks

variable {cwd : TreePath} {w w' : World} {fuel : Nat} {root : Bytes} {task : SyncTask}

/-- The store does not hold the source. -/
def SourceOutside (cwd : TreePath) (root : Bytes) (task : SyncTask) : Prop :=
  ¬ storeRoot cwd root <+: resolve cwd task.src_path.bytes

theorem SourceOutside.ne {q : TreePath} (h : SourceOutside cwd root task) (hq : storeRoot cwd root <+: q) :
    resolve cwd task.src_path.bytes ≠ q := by
  rintro rfl
  exact h hq

theorem safe_isRegularFile_sound (path : Bytes) :
    (isRegularFile path).Safe (Sound cwd) (fun _ => True)
      (fun found w' => w' = w ∧ if found then
          ∃ data, w.tree.content (resolve cwd path) = some data ∧
            regularAt cwd w.tree path = some data
        else regularAt cwd w.tree path = none) w := by
  apply Safe.op_bind
  rintro r w1 (⟨now, h⟩ | ⟨e, hmay, -⟩)
  · cases h
    refine ⟨trivial, ?_⟩
    have hregular := @regularAt_eq cwd w.tree path
    cases hstat : posixStat cwd w.tree path with
    | error e =>
        rw [hstat] at hregular
        exact ⟨rfl, hregular⟩
    | ok stat =>
        rw [hstat] at hregular
        cases stat with
        | directory => exact ⟨rfl, hregular⟩
        | regular n => exact ⟨rfl, hregular⟩
  · exact hmay.elim

/-- The copy of the source, where the store has not been touched since `stat`. -/
theorem safe_copySource_uploaded {dst tmp : Bytes} (hout : SourceOutside cwd root task)
    (hpaths : uploadPaths root task.rel_path.bytes = some (dst, tmp)) (hg : w.tree.Grounded) :
    (copySource fuel task dst).Safe (Sound cwd) (fun _ => True)
      (fun rc w' => (rc = .err ∧ Uploaded cwd dst tmp (Versions cwd root) w.tree none w'.tree) ∨
        ∃ data, w.tree.content (resolve cwd task.src_path.bytes) = some data ∧
          Uploaded cwd dst tmp (Versions cwd root) w.tree (some data) w'.tree) w := by
  obtain ⟨hdst, htmp⟩ := uploadPaths_eq_some hpaths
  have hhash (path : Bytes) (w : World) : (hashFileFnv1a fuel path).Moves (Sound cwd)
      (Tidy fun _ => False) _ w := moves_hashFileFnv1a _ fuel path
  have htmpStore : storeRoot cwd root <+: resolve cwd tmp := by
    rw [resolve_syncingPath hdst htmp]
    exact List.prefix_append _ _
  apply (hhash task.src_path.bytes w).moved.bind
  rintro before w1 ⟨-, rfl, -⟩
  apply (safe_copyFileAtomic_touches htmp hg (hout.ne htmpStore) not_false).bind
  rintro copied w2 ⟨hfailed, hcopied⟩
  cases copied with
  | err => exact Or.inl ⟨rfl, .staged ((hfailed rfl).mono fun _ => Or.inr)⟩
  | ok =>
      obtain ⟨data, hsrc, htouch, hgone, hdata⟩ := hcopied rfl
      have huploaded : Uploaded cwd dst tmp (Versions cwd root) w1.tree (some data) w2.tree := by
        refine .replaced (htouch.mono fun _ => Or.inr) ?_ hdata
        unfold FileTree.content
        rw [hgone]
      apply (hhash dst w2).moved.bind
      rintro after w3 ⟨-, rfl, -⟩
      split_ifs
      · exact Or.inr ⟨data, hsrc, huploaded⟩
      · have hmeta : (setFileMetadata dst task.mode (.ofInt task.mtime)).Moves (Sound cwd) _ _ w3 :=
          moves_setFileMetadata (fun _ => False) dst task.mode (.ofInt task.mtime)
        apply hmeta.moved.bind
        rintro _ w4 ⟨htidy, -⟩
        exact Or.inr ⟨data, hsrc, huploaded.before htidy.1⟩

/-- The upload without the checks of the source. -/
theorem safe_upload_acts (hout : SourceOutside cwd root task) (hg : w.tree.Grounded) {data : Bytes}
    (hdata : w.tree.content (resolve cwd task.src_path.bytes) = some data)
    (hevent : task.event_type ≠ .delete) (hfile : task.is_dir = false) :
    (do
      match localTargetPath root task.rel_path.bytes with
      | none => return .err
      | some dst =>
          if (← backupOldVersion fuel root task.rel_path.bytes) = .err then return .err
          copySource fuel task dst : Sys TreePath Rc).Safe (Sound cwd) (fun _ => True)
      (fun rc w' => ∃ e, MayDo task (some data) rc e ∧ Acts cwd root e w.tree w'.tree) w := by
  unfold localTargetPath
  cases hdst : currentPath root task.rel_path.bytes with
  | none => exact ⟨.keep, .nothing, rfl⟩
  | some dst =>
      have hsave : (backupOldVersion fuel root task.rel_path.bytes).Moves (Sound cwd) _ _ w :=
        moves_backupOldVersion hdst
      apply (hsave.grounded hg).bind
      rintro saved w1 ⟨hg1, hversions, -⟩
      split_ifs
      · exact ⟨.keep, .nothing, acts_keep hversions.1 not_version_current⟩
      have hdata1 : w1.tree.content (resolve cwd task.src_path.bytes) = some data := by
        rw [← hdata]
        apply hversions.1.content
        intro harea
        exact hout ((List.prefix_append _ _).trans harea)
      cases htmp : syncingPath dst with
      | none =>
          have hhash : (hashFileFnv1a fuel task.src_path.bytes).Moves (Sound cwd)
              (Tidy fun _ => False) _ w1 := moves_hashFileFnv1a _ fuel _
          apply hhash.moved.bind
          rintro before w2 ⟨-, rfl, -⟩
          unfold copyFileAtomic
          rw [htmp]
          exact ⟨.keep, .nothing, acts_keep hversions.1 not_version_current⟩
      | some tmp =>
          have hpaths : uploadPaths root task.rel_path.bytes = some (dst, tmp) := by
            simp [uploadPaths, hdst, htmp]
          apply (safe_copySource_uploaded hout hpaths hg1).post
          rintro rc w2 (⟨rfl, huploaded⟩ | ⟨data', hsrc, huploaded⟩)
          · obtain ⟨staged, hacts⟩ :=
              (huploaded.after hversions.1).acts hpaths not_version_current
            exact ⟨_, .staged staged, hacts⟩
          · rw [hdata1] at hsrc
            cases hsrc
            exact ⟨_, .done (.copies hevent hfile data rfl),
              (huploaded.after hversions.1).acts hpaths not_version_current⟩

theorem safe_syncLocalFile_acts (hout : SourceOutside cwd root task) (hg : w.tree.Grounded)
    (hevent : task.event_type ≠ .delete) (hfile : task.is_dir = false) :
    (syncLocalFile fuel root task).Safe (Sound cwd) (fun _ => True)
      (fun rc w' => ∃ e, MayDo task (regularAt cwd w.tree task.src_path.bytes) rc e ∧
        Acts cwd root e w.tree w'.tree) w := by
  rw [syncLocalFile_eq]
  unfold withSourceFile
  apply (safe_isRegularFile_sound task.src_path.bytes).bind
  rintro regular w1 ⟨rfl, hfound⟩
  cases regular with
  | false => exact ⟨.keep, .done (.skips hevent hfile hfound), rfl⟩
  | true =>
      obtain ⟨data, hdata, hregular⟩ := hfound
      rw [hregular]
      apply Safe.op_bind
      intro opened w2 hK
      obtain ⟨rfl, -⟩ := hK.openRead
      refine ⟨trivial, ?_⟩
      cases opened with
      | error e => exact ⟨.keep, .nothing, rfl⟩
      | ok lock_fd =>
          apply Safe.op_bind
          intro locked w3 hK
          obtain rfl := hK.quiet trivial
          refine ⟨trivial, ?_⟩
          cases locked with
          | false =>
              apply Safe.op_bind
              intro _ w4 hK
              obtain rfl := hK.quiet trivial
              exact ⟨trivial, .keep, .nothing, rfl⟩
          | true =>
              apply Safe.op_bind
              intro _ w4 hK
              obtain rfl := hK.quiet trivial
              refine ⟨trivial, ?_⟩
              apply Safe.op_bind
              intro _ w5 hK
              obtain rfl := hK.quiet trivial
              exact ⟨trivial, safe_upload_acts hout hg hdata hevent hfile⟩

theorem safe_syncPathLocal_acts (hout : SourceOutside cwd root task) (hg : w.tree.Grounded)
    (hevent : task.event_type ≠ .delete) :
    (syncPathLocal fuel root task).Safe (Sound cwd) (fun _ => True)
      (fun rc w' => ∃ e, MayDo task (regularAt cwd w.tree task.src_path.bytes) rc e ∧
        Acts cwd root e w.tree w'.tree) w := by
  unfold syncPathLocal
  by_cases hdir : task.is_dir = true
  · rw [if_pos hdir]
    split
    · exact ⟨.keep, .nothing, rfl⟩
    · rename_i dst hdst
      have hmake : (ensureDirExists dst).Moves (Sound cwd) (Tidy fun _ => False) _ w :=
        moves_ensureDirExists _ dst
      apply hmake.moved.post
      rintro rc w1 ⟨htidy, -⟩
      exact ⟨.keep, .done (.makes hevent hdir), acts_keep htidy.1 fun _ => not_false⟩
  · rw [if_neg hdir]
    exact safe_syncLocalFile_acts hout hg hevent (Bool.not_eq_true _ ▸ hdir)

theorem safe_renameLocal_acts (hg : w.tree.Grounded) :
    (renameLocal fuel root task).Safe (Sound cwd) (fun _ => True)
      (fun rc w' => w'.tree.Grounded ∧ match rc with
        | .ok => Acts cwd root
            (.move (relNames task.old_rel_path.bytes) (relNames task.rel_path.bytes))
            w.tree w'.tree
        | .err => w'.tree.content = w.tree.content) w := by
  unfold renameLocal localTargetPath
  cases hold : currentPath root task.old_rel_path.bytes with
  | none => exact ⟨hg, rfl⟩
  | some old_path =>
      cases hnew : currentPath root task.rel_path.bytes with
      | none => exact ⟨hg, rfl⟩
      | some new_path =>
          have hmake : (ensureParentDirExists new_path).Moves (Sound cwd) (Tidy fun _ => False)
              _ w := moves_ensureParentDirExists _ new_path
          apply (hmake.grounded hg).bind
          rintro made w1 ⟨hg1, htidy, -⟩
          have hsame : w1.tree.content = w.tree.content :=
            funext fun q => htidy.1.content not_false
          split_ifs
          · exact ⟨hg1, hsame⟩
          · have hrename : (safeRenameOrCopyUnlink fuel old_path new_path).Safe (Sound cwd) _ _ w1 :=
              safe_safeRenameOrCopyUnlink_files not_false
            apply (Safe.grounded hrename hg1).post
            rintro rc w2 ⟨hg2, hfiles⟩
            refine ⟨hg2, ?_⟩
            rw [hsame] at hfiles
            cases rc with
            | err => exact hfiles
            | ok => exact acts_move hold hnew hfiles

/-- What `access` does not find is not there. -/
theorem safe_moveToTrash_sound {rel : Bytes} (hnames : NamesEntry rel) (hg : w.tree.Grounded) :
    (moveToTrash fuel root rel).Safe (Sound cwd) (fun _ => True)
      (fun rc w' => match rc with
        | .ok => Acts cwd root (.remove (relNames rel)) w.tree w'.tree
        | .err => Acts cwd root .keep w.tree w'.tree) w := by
  have hgone : ∀ src w1, currentPath root rel = some src →
      Sound cwd (.access src) w false w1 →
        ∀ r, currentFiles cwd root w.tree (relNames rel ++ r) = none := by
    rintro src w1 hsrc (⟨now, h⟩ | ⟨⟨e, hmay⟩, -⟩) r
    · have hshape := (currentPath_eq_some hsrc).2.2.1
      have hplain : Plain src := hshape ▸ (filePath_of_currentPath hnames hsrc).plain
      have hnone : w.tree.lookup (currentNode cwd root (relNames rel)) = none := by
        have hfound : (posix ⟨cwd, now⟩ (.access src) w).1 = false := congrArg Prod.fst h
        have hnode : resolve cwd src = currentNode cwd root (relNames rel) :=
          resolve_currentPath hsrc
        rw [posix_access hplain] at hfound
        rw [← hnode]
        exact Option.isNone_iff_eq_none.mp (Option.isSome_eq_false_iff.mp hfound)
      have hbelow : currentNode cwd root (relNames rel) <+: currentNode cwd root (relNames rel ++ r) := by
        rw [currentNode_eq, currentNode_eq, ← List.append_assoc]
        exact List.prefix_append _ _
      rw [currentFiles_apply]
      unfold FileTree.content
      by_cases hne : currentNode cwd root (relNames rel ++ r) = currentNode cwd root (relNames rel)
      · rw [hne, hnone]
      · rw [hg.lookup_of_under (by rw [hnone]; rintro ⟨⟩) hbelow hne]
    · exact hmay.elim
  apply (safe_moveToTrash_acts (fun _ _ _ _ => not_false) hgone).post
  intro rc w1 hacts
  cases rc with
  | err => exact hacts
  | ok =>
      rcases hacts with ⟨hnone, hkeep⟩ | hremove
      · unfold Acts at hkeep ⊢
        rw [hkeep]
        exact (FileMap.remove_of_none hnone).symm
      · exact hremove

/-- What `sync_task_local` makes of the files of `current`. -/
theorem safe_syncTaskLocal_acts (hout : SourceOutside cwd root task)
    (hnames : NamesEntry task.rel_path.bytes) (hg : w.tree.Grounded) :
    (syncTaskLocal fuel root task).Safe (Sound cwd) (fun _ => True)
      (fun rc w' => ∃ e, MayDo task (regularAt cwd w.tree task.src_path.bytes) rc e ∧
        Acts cwd root e w.tree w'.tree) w := by
  unfold syncTaskLocal
  split_ifs with hsane hdelete hrename
  · exact ⟨.keep, .nothing, rfl⟩
  · apply (safe_moveToTrash_sound hnames hg).post
    intro rc w1 hacts
    cases rc with
    | ok => exact ⟨_, .done (.removes hdelete), hacts⟩
    | err => exact ⟨_, .nothing, hacts⟩
  · apply (safe_renameLocal_acts hg).bind
    rintro rc w1 ⟨hg1, hacts⟩
    cases rc with
    | ok => exact ⟨_, .done (.moves hrename.1 hrename.2), hacts⟩
    | err =>
        have hsame : w1.tree.content = w.tree.content := hacts
        have hsource : regularAt cwd w1.tree task.src_path.bytes =
            regularAt cwd w.tree task.src_path.bytes := by
          unfold regularAt
          rw [hsame]
        apply (safe_syncPathLocal_acts hout hg1 hdelete).post
        rintro rc w2 ⟨e, hmay, hacts2⟩
        rw [hsource] at hmay
        refine ⟨e, hmay, ?_⟩
        unfold Acts currentFiles at hacts2 ⊢
        rw [hacts2, hsame]
  · exact safe_syncPathLocal_acts hout hg hdelete

end LocalTasks

/-! ## Runs -/

/-- A call of `sync_task_local`, when it was made, what it returned, and the worlds before and
after it. -/
structure LocalSync where
  now : Tm
  task : SyncTask
  rc : Rc
  before : World
  after : World

/-- The call, of a task whose source is not in the store and whose path names an entry. -/
structure LocalSync.Happens (cwd : TreePath) (root : Bytes) (e : LocalSync) : Prop where
  ran : ∃ fuel, (syncTaskLocal fuel root e.task).run (posix ⟨cwd, e.now⟩) e.before =
    some (e.rc, e.after)
  outside : SourceOutside cwd root e.task
  names : NamesEntry e.task.rel_path.bytes

/-- What the call may make of the files. -/
def LocalSync.MayAct (cwd : TreePath) (s : LocalSync) (e : Effect) : Prop :=
  MayDo s.task (regularAt cwd s.before.tree s.task.src_path.bytes) s.rc e

/-- A run of calls from `w` to `w'`. -/
abbrev IsLocalRun (cwd : TreePath) (root : Bytes) : World → List LocalSync → World → Prop :=
  IsStoreRun cwd root LocalSync.before LocalSync.after (LocalSync.Happens cwd root)

section Runs

variable {cwd : TreePath} {root : Bytes} {w w' : World}

theorem Meanwhile.currentFiles (h : Meanwhile cwd root w w') :
    currentFiles cwd root w'.tree = currentFiles cwd root w.tree := by
  funext q
  rw [currentFiles_apply, currentFiles_apply]
  exact FileTree.content_congr (h.store _ (List.prefix_append _ _))

theorem LocalSync.Happens.acts {e : LocalSync} (h : e.Happens cwd root)
    (hg : e.before.tree.Grounded) :
    ∃ effect, e.MayAct cwd effect ∧ Acts cwd root effect e.before.tree e.after.tree := by
  obtain ⟨fuel, hrun⟩ := h.ran
  have hexec := exec_graph_iff.mpr hrun
  exact Safe.ran (safe_syncTaskLocal_acts h.outside h.names hg) hexec

theorem LocalSync.Happens.grounded {e : LocalSync} (h : e.Happens cwd root)
    (hg : e.before.tree.Grounded) : e.after.tree.Grounded := by
  obtain ⟨fuel, hrun⟩ := h.ran
  have hexec := exec_graph_iff.mpr hrun
  exact (Safe.ran (Safe.grounded (safe_syncTaskLocal_acts h.outside h.names hg) hg) hexec).1

/-- The files of `current` after a run are what the effects of its calls make of them, one
after the other: those of a successful call are what its task says, and those of a failed
call either the same, or nothing but its temporary file. -/
theorem local_run_acts {es : List LocalSync} (h : IsLocalRun cwd root w es w') :
    ∃ effects, List.Forall₂ (LocalSync.MayAct cwd) es effects ∧
      currentFiles cwd root w'.tree =
        effects.foldl (fun m e => e.apply m) (currentFiles cwd root w.tree) := by
  induction es generalizing w with
  | nil => exact ⟨[], .nil, Meanwhile.currentFiles h⟩
  | cons e es ih =>
      obtain ⟨hmeanwhile, hhappens, hrest⟩ := h
      obtain ⟨effect, hmay, hacts⟩ := hhappens.acts hmeanwhile.grounded
      obtain ⟨effects, hall, hend⟩ := ih hrest
      refine ⟨effect :: effects, .cons hmay hall, ?_⟩
      rw [hend, List.foldl_cons, hacts, hmeanwhile.currentFiles]

end Runs

/-! ## A file that is copied and deleted -/

/-- The user has `[1]` as `a`, and the store has `[9]`. -/
def oldCopy : World := ⟨(storeWith [(ascii "a", [9])]).put [ascii "a"] (.file [1]), hearing []⟩

def modifyA : SyncTask :=
  { initSyncTask with event_type := .modify, src_path := nameA, rel_path := nameA }

def deleteA : SyncTask := { modifyA with event_type := .delete }

/-- The world that a task leaves. -/
def leftBy (task : SyncTask) (now : Tm) (w : World) : World :=
  (((syncTaskLocal 8 (ascii "s") task).run (posix ⟨[], now⟩) w).map Prod.snd).getD w

def newCopy : World := leftBy modifyA ⟨126, 1, 2, 3, 4, 5⟩ oldCopy

def noCopy : World := leftBy deleteA ⟨126, 1, 2, 3, 4, 6⟩ newCopy

theorem ran_leftBy {task : SyncTask} {now : Tm} {w : World}
    (h : ((syncTaskLocal 8 (ascii "s") task).run (posix ⟨[], now⟩) w).map Prod.fst = some .ok) :
    ∃ fuel, (syncTaskLocal fuel (ascii "s") task).run (posix ⟨[], now⟩) w =
      some (.ok, leftBy task now w) := by
  obtain ⟨⟨rc, w'⟩, hrun, hrc⟩ := Option.map_eq_some_iff.mp h
  refine ⟨8, ?_⟩
  rw [leftBy, hrun]
  exact congrArg (fun rc => some (rc, w')) hrc

theorem local_run_acts_oldCopy : ∃ effects, List.Forall₂ (LocalSync.MayAct [])
      [⟨⟨126, 1, 2, 3, 4, 5⟩, modifyA, .ok, oldCopy, newCopy⟩,
        ⟨⟨126, 1, 2, 3, 4, 6⟩, deleteA, .ok, newCopy, noCopy⟩] effects ∧
    currentFiles [] (ascii "s") noCopy.tree =
      effects.foldl (fun m e => e.apply m) (currentFiles [] (ascii "s") oldCopy.tree) := by
  have hout : ¬ storeRoot [] (ascii "s") <+: resolve [] (ascii "a") := by decide
  have hnames : NamesEntry (ascii "a") := by decide
  have hfirst : LocalSync.Happens [] (ascii "s")
      ⟨⟨126, 1, 2, 3, 4, 5⟩, modifyA, .ok, oldCopy, newCopy⟩ :=
    ⟨ran_leftBy (by decide +kernel), hout, hnames⟩
  have hsecond : LocalSync.Happens [] (ascii "s")
      ⟨⟨126, 1, 2, 3, 4, 6⟩, deleteA, .ok, newCopy, noCopy⟩ :=
    ⟨ran_leftBy (by decide +kernel), hout, hnames⟩
  have hg0 : oldCopy.tree.Grounded := FileTree.grounded_of_entries (by decide)
  have hg1 : newCopy.tree.Grounded := hfirst.grounded hg0
  have hg2 : noCopy.tree.Grounded := hsecond.grounded hg1
  exact local_run_acts (w := oldCopy) ⟨⟨hg0, fun _ _ => rfl⟩, hfirst, ⟨hg1, fun _ _ => rfl⟩,
    hsecond, ⟨hg2, fun _ _ => rfl⟩⟩

end MiniSync
