import MiniSync.Agreement.RenamePayload
import MiniSync.FaultFree.NewWay
import MiniSync.Files.MadeDirs
import MiniSync.Files.StoppedDirs
import MiniSync.History.Rename
import MiniSync.History.Trash
import MiniSync.Resume.Connection

/-!
# What refused requests leave behind

A request that is answered with `MSG_ERROR` leaves `current/` as it was, unless
directories have been made for it: the handlers make the missing ones from the top
down, and a rename asks for its own last.  Names may be too long for the kernel, and
calls may fail.
-/

namespace MiniSync

open Prog

/-! ## States and requests -/

/-- The tree under `current/` is as it was. -/
def CurrentKept (cwd : TreePath) (root : Bytes) (w w' : World) : Prop :=
  ∀ q, resolve cwd (currentBase root) <+: q → w'.tree.lookup q = w.tree.lookup q

/-- Where the handler answers `MSG_ERROR`, and so returns -1, `current/` is as it was. -/
def RefusedCleanly (tooLong : Bytes → Prop) (cwd : TreePath)
    (mayFail : Call TreePath → Errno → Prop) (root : Bytes) (w : World)
    (handler : Nat → Sys TreePath Rc) : Prop :=
  ∀ fuel w', Exec (Limited tooLong cwd mayFail) (handler fuel) w .err w' →
    CurrentKept cwd root w w'

/-- `rename` may be refused although the state allows it. -/
def RenameFails (tooLong : Bytes → Prop) (mayFail : Call TreePath → Errno → Prop)
    (old_path new_path : Bytes) : Prop :=
  tooLong old_path ∨ tooLong new_path ∨ ∃ e, mayFail (.rename old_path new_path) e

/-- A directory request that is refused after a directory was made for it: nothing
stands in the way, and one that may be refused comes after one that is missing. -/
def DirRefusedLate (tooLong : Bytes → Prop) (cwd : TreePath)
    (mayFail : Call TreePath → Errno → Prop) (tree : Tree) (root rel_path : Bytes) : Prop :=
  ∃ dst tmp, uploadPaths root rel_path = some (dst, tmp) ∧
    ¬ Blocked cwd tree (currentBase root) (relNames rel_path) ∧
    StopsLate tooLong cwd mayFail tree (dirsToMake dst)

/-- A rename that is refused after a directory on the way to the new path was made: by
the first round of calls for that way, by the second, or by `rename` itself. -/
def RenameStopsLate (tooLong : Bytes → Prop) (cwd : TreePath)
    (mayFail : Call TreePath → Errno → Prop) (tree : Tree) (old_path new_path : Bytes) : Prop :=
  StopsLate tooLong cwd mayFail tree (parentDirs new_path) ∨
    (∀ d ∈ parentDirs new_path, ¬ tooLong d) ∧
      (∃ d ∈ parentDirs new_path, tree.lookup (resolve cwd d) = none) ∧
      ((∃ d ∈ parentDirs new_path, MkdirFails tooLong mayFail d) ∨
        RenameFails tooLong mayFail old_path new_path ∨ RenameRefused cwd tree old_path new_path)

def RenameRefusedLate (tooLong : Bytes → Prop) (cwd : TreePath)
    (mayFail : Call TreePath → Errno → Prop) (tree : Tree) (root combined_path : Bytes) : Prop :=
  ∃ old_rel new_rel old_path new_path, renameSplit combined_path = .ok (old_rel, new_rel) ∧
    currentPath root old_rel = some old_path ∧ currentPath root new_rel = some new_path ∧
    ¬ Blocked cwd tree (currentBase root) (parentNames new_rel) ∧
    RenameStopsLate tooLong cwd mayFail tree old_path new_path

section Refusals

variable {env : Env} {cwd : TreePath} {tree tree' : Tree} {w w' w₁ : World} {fuel : Nat}
  {tooLong : Bytes → Prop} {mayFail : Call TreePath → Errno → Prop} {ds before : List Bytes}
  {root rel b v u path old_path new_path : Bytes} {names q base : TreePath} {rc : Rc}

theorem currentBase_ne_nil (root : Bytes) : currentBase root ≠ [] := by simp [currentBase]

theorem currentBase_getLast (root : Bytes) : (currentBase root).getLast? ≠ some slash := by
  have hname : currentName.getLast? ≠ some slash := by decide
  unfold currentBase
  rw [List.getLast?_append_of_ne_nil _ (by simp), List.getLast?_cons_of_ne_nil (by decide)]
  exact hname

theorem ne_nil_of_mem_parentDirs {d : Bytes} (h : d ∈ parentDirs path) : d ≠ [] := by
  unfold parentDirs at h
  split at h
  · cases h
  · rename_i parent hparent
    unfold dirsToMake at h
    rcases List.mem_append.mp h with h | h
    · exact (mem_slashPrefixes.mp h).1
    · rw [List.mem_singleton.mp h]
      exact stripTrailingSlashes_ne_nil (parentPart_ne_nil hparent)

theorem leads_of_mem_parentDirs {d x name : Bytes} (hx : x ≠ []) (hpath : path = x ++ slash :: name)
    (h : d ∈ parentDirs path) : Leads d path := by
  unfold parentDirs at h
  split at h
  · cases h
  · rename_i parent hparent
    exact (leads_of_mem_dirsToMake h).trans (leads_of_parentPart hpath hx hparent)

/-! ## Directories below a base -/

/-- The directories lead to `b` or lie on the way below it.  Without faults all are made,
or a file stands in the way and none is. -/
structure WayDirs (env : Env) (w : World) (b : Bytes) (names : TreePath) (ds : List Bytes) :
    Prop where
  place : ∀ d ∈ ds, (d ≠ [] ∧ Leads d b) ∨ OnWay (resolve env.cwd b) names (resolve env.cwd d)
  runs : (mkdirEach ds).Returns (posix env)
    (fun rc w' => (¬ Blocked env.cwd w.tree b names ∧ rc = .ok ∧
        Made (OnWay (resolve env.cwd b) names) w w') ∨
      (Blocked env.cwd w.tree b names ∧ w' = w)) w

theorem wayDirs_below (hb : b ≠ []) (hserving : Serving env.cwd w.tree b)
    (hdots : dotdot ∉ v.splitOn slash) :
    WayDirs env w b (relNames v) (slashPrefixes (b ++ slash :: v) ++ [b ++ slash :: v]) :=
  ⟨fun _ hd => leads_or_onWay hb hdots hd, returns_mkdirEach_way hb hserving hdots⟩

theorem wayDirs_dirsToMake (hb : b ≠ []) (hserving : Serving env.cwd w.tree b)
    (hrel : Relative rel) : WayDirs env w b (relNames rel) (dirsToMake (b ++ slash :: rel)) := by
  obtain ⟨v, heq, hnames, hdots⟩ := dirsToMake_below hrel.ne_nil hrel.head_ne hrel.no_dotdot
    (b := b)
  rw [heq, ← hnames]
  exact wayDirs_below hb hserving hdots

theorem wayDirs_parentDirs (hb : b ≠ []) (hlast : b.getLast? ≠ some slash)
    (hserving : Serving env.cwd w.tree b) (hrel : Relative rel)
    (hlen : (b ++ slash :: rel).length < maxPathLen) :
    WayDirs env w b (parentNames rel) (parentDirs (b ++ slash :: rel)) := by
  have hruns := returns_ensureParentDirExists_way hb hlast hserving hrel hlen
  rw [ensureParentDirExists_eq hlen] at hruns
  refine ⟨fun d hd => ?_, hruns⟩
  rcases parentDirs_below hb hlast hrel with ⟨heq, -⟩ | ⟨v, heq, hnames, hdots⟩
  · rw [heq] at hd
    rcases List.mem_append.mp hd with hd | hd
    · exact Or.inl ⟨(mem_slashPrefixes.mp hd).1, leads_of_mem_slashPrefixes hd⟩
    · rw [List.mem_singleton.mp hd]
      exact Or.inl ⟨hb, [], by simp, Or.inl rfl⟩
  · rw [heq] at hd
    rw [← hnames]
    exact leads_or_onWay hb hdots hd

namespace WayDirs

/-- A missing directory lies on the way. -/
theorem onWay_of_none (h : WayDirs env w b names ds) (hserving : Serving env.cwd w.tree b)
    {d : Bytes} (hd : d ∈ ds) (hnone : w.tree.lookup (resolve env.cwd d) = none) :
    OnWay (resolve env.cwd b) names (resolve env.cwd d) := by
  refine (h.place d hd).resolve_left ?_
  rintro ⟨hne, hleads⟩
  rw [show w.tree.lookup _ = some .dir from hserving.leads d hne hleads] at hnone
  cases hnone

/-- With a file in the way no front of the directories makes anything. -/
theorem stuck (h : WayDirs env w b names ds) (hserving : Serving env.cwd w.tree b)
    (hblocked : Blocked env.cwd w.tree b names) (hsub : ∀ d ∈ before, d ∈ ds)
    (hrun : (mkdirEach before).run (posix env) w = some (rc, w')) : w' = w := by
  refine (returns_mkdirEach_stuck fun d hd => ?_).unique hrun
  rcases h.place d (hsub d hd) with ⟨hne, hleads⟩ | hway
  · exact not_mkdir_of_isDir (hserving.leads d hne hleads)
  · exact hblocked.not_mkdir hserving.grounded hway

/-- What a refusal on the way leaves behind. -/
theorem exec_cases (h : WayDirs env w b names ds) (hserving : Serving env.cwd w.tree b)
    (hexist : ∀ d, ¬ mayFail (.mkdir d) .exist)
    (hexec : Exec (Limited tooLong env.cwd mayFail) (mkdirEach ds) w rc w') :
    (rc = .ok ∧ (∀ d ∈ ds, ¬ tooLong d) ∧
      (mkdirEach ds).run (posix env) w = some (.ok, w')) ∨
    (rc = .err ∧ ((∀ q, w'.tree.lookup q = w.tree.lookup q) ∨
      ¬ Blocked env.cwd w.tree b names ∧ StopsLate tooLong env.cwd mayFail w.tree ds)) := by
  rcases exec_mkdirEach_cases hexist hexec with
    hok | ⟨hrc, before, d, after, rfl, hshort, hrun, hwhy⟩
  · exact Or.inl hok
  refine Or.inr ⟨hrc, ?_⟩
  by_cases hblocked : Blocked env.cwd w.tree b names
  · have hsame := h.stuck hserving hblocked (fun p hp => List.mem_append_left _ hp) hrun
    exact Or.inl fun q => by rw [hsame]
  -- nothing is in the way, so POSIX would have made them all
  have hfails : MkdirFails tooLong mayFail d := by
    refine hwhy.resolve_right fun hposix => ?_
    obtain ⟨rc', w'', hall, hmade⟩ := h.runs
    rw [run_mkdirEach_append hrun, run_mkdirEach_cons_err hposix] at hall
    cases hall
    rcases hmade with ⟨-, hok, -⟩ | ⟨hb, -⟩
    · cases hok
    · exact hblocked hb
  by_cases hmissing : ∃ p ∈ before, w.tree.lookup (resolve env.cwd p) = none
  · exact Or.inr ⟨hblocked, before, d, after, rfl, hshort, hmissing, hfails⟩
  · exact Or.inl ((run_mkdirEach_asked hrun).same fun p hp hnone => hmissing ⟨p, hp, hnone⟩)

/-- A late stop has an execution, and it leaves a directory behind. -/
theorem exec_late (h : WayDirs env w b names ds) (hserving : Serving env.cwd w.tree b)
    (hexist : ∀ d, ¬ mayFail (.mkdir d) .exist) (hnot : ¬ Blocked env.cwd w.tree b names)
    (hlate : StopsLate tooLong env.cwd mayFail w.tree ds) :
    ∃ w', Exec (Limited tooLong env.cwd mayFail) (mkdirEach ds) w .err w' ∧
      ∃ q, OnWay (resolve env.cwd b) names q ∧ w.tree.lookup q = none ∧
        w'.tree.lookup q ≠ none := by
  obtain ⟨before, d, after, rfl, hshort, ⟨p, hp, hnone⟩, hfails⟩ := hlate
  obtain ⟨rc, w'', hall, ⟨-, rfl, -⟩ | ⟨hb, -⟩⟩ := h.runs
  · obtain ⟨w', hrun, -⟩ := run_mkdirEach_split hall
    exact ⟨w', exec_mkdirEach_stops hexist hshort hrun hfails, _,
      h.onWay_of_none hserving (List.mem_append_left _ hp) hnone, hnone,
      (run_mkdirEach_asked hrun).there p hp⟩
  · exact absurd hb hnot

end WayDirs

/-! ## Handlers -/

/-- Handlers that are safe are clean. -/
theorem refusedCleanly_of_safe {handler : Nat → Sys TreePath Rc}
    (h : ∀ fuel, (handler fuel).Safe (Limited tooLong env.cwd mayFail) (fun _ => True)
      (fun rc w' => rc = .err → CurrentKept env.cwd root w w') w) :
    RefusedCleanly tooLong env.cwd mayFail root w handler :=
  fun fuel _ hexec => (h fuel).exec hexec rfl

theorem currentKept_of_tree_eq (h : w'.tree = w.tree) : CurrentKept cwd root w w' := by
  intro q _
  rw [h]

/-- An error reply at once. -/
theorem safe_refuseAtOnce (message : Bytes) :
    (do
      let _ ← sendError fuel message
      return .err : Sys TreePath Rc).Safe (Limited tooLong env.cwd mayFail) (fun _ => True)
      (fun rc w' => rc = .err → CurrentKept env.cwd root w w') w := by
  have hkeeps : (sendError fuel message : Sys TreePath Rc).Safe
      (Kernel env.cwd fun c e => mayFail c e ∨ e = .nametoolong)
      (fun _ => True) (fun _ w' => w'.tree = w.tree) w :=
    keepsTree_of_stays (Confinement.stays_sendError fuel message)
  apply (hkeeps.narrow fun _ _ _ _ hK => hK.kernel).bind
  exact fun _ _ htree _ => currentKept_of_tree_eq htree

/-- A critical section whose failures are clean. -/
theorem safe_refuseAfter {α : Type} {p : Sys TreePath α} {f : α → Except Bytes Unit} {ack : UInt64}
    (h : p.Safe (Limited tooLong env.cwd mayFail) (fun _ => True)
      (fun a w' => rcOf (f a) = .err → CurrentKept env.cwd root w w') w) :
    (do
      sys .lockFiles
      let a ← p
      unlockAndReply fuel (f a) ack : Sys TreePath Rc).Safe (Limited tooLong env.cwd mayFail)
      (fun _ => True) (fun rc w' => rc = .err → CurrentKept env.cwd root w w') w := by
  apply Safe.op_bind
  intro _ w₁ hlock
  have hsame : w₁ = w := hlock.kernel.quiet trivial
  subst hsame
  refine ⟨trivial, ?_⟩
  apply h.bind
  intro a w₂ hkept
  have hreply : (unlockAndReply fuel (f a) ack : Sys TreePath Rc).Safe
      (Kernel env.cwd fun c e => mayFail c e ∨ e = .nametoolong) _ _ w₂ := safe_replied (f a) ack
  apply (hreply.narrow fun _ _ _ _ hK => hK.kernel).post
  rintro rc w₃ ⟨rfl, htree⟩ hrc q hq
  rw [htree]
  exact hkept hrc q hq

/-- A critical section that is refused in some execution. -/
theorem exec_refuseAfter {α : Type} {p : Sys TreePath α} {f : α → Except Bytes Unit} {a : α}
    {message : Bytes} (ack : UInt64) (hf : f a = .error message)
    (h : Exec (Limited tooLong env.cwd mayFail) p w a w') :
    ∃ w'', Exec (Limited tooLong env.cwd mayFail) (do
      sys .lockFiles
      let a ← p
      unlockAndReply 2 (f a) ack : Sys TreePath Rc) w .err w'' ∧ w''.tree = w'.tree := by
  have hreturns := @returns_unlockAndReply env w' 2 (le_refl 2) (f a) ack
  obtain ⟨rc, w'', hrun, rfl, hpush⟩ := hreturns
  have hlock : Limited tooLong env.cwd mayFail .lockFiles w () w :=
    @limited_posix env tooLong mayFail .lockFiles nofun w
  have hcalls : (unlockAndReply 2 (f a) ack : Sys TreePath Rc).All
      (fun c => ∀ path ∈ c.names, ¬ tooLong path) fun _ => True := by
    apply All.op_bind nofun
    intro _
    rw [hf]
    exact (all_sendError (fun _ => nofun) 2 message).bind fun _ _ => trivial
  have hreply := hcalls.exec_of_run
    (fun c w hc => @limited_posix env tooLong mayFail c hc w) hrun
  rw [hf] at hreply
  refine ⟨w'', exec_bind.mpr ⟨(), w, .call hlock (.ret _ _), exec_bind.mpr ⟨a, w', h, ?_⟩⟩, ?_⟩
  · rw [hf]
    exact hreply
  · rw [hpush]
    rfl

/-! ## Directories -/

theorem refusedCleanly_fileBegin (hserving : Serving env.cwd w.tree (currentBase root))
    (hexist : ∀ d, ¬ mayFail (.mkdir d) .exist) {header : SyncHeader}
    (hdir : isDirMode header.mode = true) {rel_path : Bytes}
    (hlate : ¬ DirRefusedLate tooLong env.cwd mayFail w.tree root rel_path) :
    RefusedCleanly tooLong env.cwd mayFail root w
      fun fuel => serverHandleFileBegin fuel header root rel_path := by
  apply refusedCleanly_of_safe
  intro fuel
  unfold serverHandleFileBegin
  cases hpaths : uploadPaths root rel_path with
  | none => exact safe_refuseAtOnce _
  | some paths =>
      obtain ⟨dst, tmp⟩ := paths
      simp only [hdir, if_true]
      apply safe_refuseAfter
      apply safe_of_exec
      intro rc w' hexec hrc
      obtain ⟨hrel, -, rfl, hlen⟩ := currentPath_eq_some (uploadPaths_eq_some hpaths).1
      rw [ensureDirExists_eq (by simp) hlen] at hexec
      have hway := wayDirs_dirsToMake (currentBase_ne_nil root) hserving hrel
      rcases hway.exec_cases hserving hexist hexec with ⟨rfl, -, -⟩ | ⟨-, hkept | ⟨hnot, hstops⟩⟩
      · cases hrc
      · exact fun q _ => hkept q
      · exact absurd ⟨_, tmp, hpaths, hnot, hstops⟩ hlate

theorem not_refusedCleanly_fileBegin (hserving : Serving env.cwd w.tree (currentBase root))
    (hexist : ∀ d, ¬ mayFail (.mkdir d) .exist) {header : SyncHeader}
    (hdir : isDirMode header.mode = true) {rel_path : Bytes}
    (hlate : DirRefusedLate tooLong env.cwd mayFail w.tree root rel_path) :
    ¬ RefusedCleanly tooLong env.cwd mayFail root w
      fun fuel => serverHandleFileBegin fuel header root rel_path := by
  intro hclean
  obtain ⟨dst, tmp, hpaths, hnot, hstops⟩ := hlate
  obtain ⟨hrel, -, hdst, hlen⟩ := currentPath_eq_some (uploadPaths_eq_some hpaths).1
  change dst = currentBase root ++ slash :: rel_path at hdst
  subst hdst
  have hway := wayDirs_dirsToMake (currentBase_ne_nil root) hserving hrel
  obtain ⟨w', hexec, q, ⟨r, -, rfl⟩, hnone, hmade⟩ := hway.exec_late hserving hexist hnot hstops
  rw [← ensureDirExists_eq (by simp) hlen] at hexec
  obtain ⟨w'', hwhole, htree⟩ := exec_refuseAfter
    (f := fun made : Rc => if made = .ok then .ok () else .error (ascii "mkdir failed")) 0 rfl hexec
  have hhandler : Exec (Limited tooLong env.cwd mayFail)
      (serverHandleFileBegin 2 header root rel_path) w .err w'' := by
    unfold serverHandleFileBegin
    rw [hpaths]
    simp only [hdir, if_true]
    exact hwhole
  have hkept := hclean 2 w'' hhandler _ (List.prefix_append _ r)
  rw [htree, hnone] at hkept
  exact hmade hkept

/-! ## Renames -/

/-- Where some directory is missing and no file is in the way, making them is a new way. -/
theorem newWay_of_made (hserving : Serving cwd w.tree (currentBase root))
    (hnot : ¬ Blocked cwd w.tree (currentBase root) names)
    (hmissing : ∃ q, OnWay (resolve cwd (currentBase root)) names q ∧ w.tree.lookup q = none)
    (hmade : Made (OnWay (resolve cwd (currentBase root)) names) w w₁) (hg : w₁.tree.Grounded) :
    NewWay w.tree w₁.tree (resolve cwd (currentBase root)) names :=
  ⟨hserving.grounded, hg, fun q c hq hfile => hnot ⟨q, c, hq, hfile⟩, hmissing, hmade.dirs,
    hmade.rest⟩

theorem Limited.renameCases (hxdev : ¬ mayFail (.rename old_path new_path) .xdev)
    {r : Resp (.rename old_path new_path)}
    (h : Limited tooLong env.cwd mayFail (.rename old_path new_path) w r w') :
    r = .ok () ∨ (w' = w ∧ ∃ e, e ≠ .xdev ∧ r = .error e ∧
      (RenameFails tooLong mayFail old_path new_path ∨
        ∃ e, (posixRename env.cwd w.tree old_path new_path).1 = .error e)) := by
  rcases h with ⟨-, ⟨now, h⟩ | ⟨e, hmay, rfl, rfl⟩⟩ | ⟨⟨path, hpath, hlong⟩, e, rfl, rfl, rfl⟩
  · have hne := posixRename_ne_xdev env.cwd w.tree old_path new_path
    rcases posixRename_cases env.cwd w.tree old_path new_path with ⟨e, he⟩ | ⟨tree', hok, -⟩
    · rw [he] at hne
      have hrefused : ∃ e, (posixRename env.cwd w.tree old_path new_path).1 = .error e :=
        ⟨e, congrArg Prod.fst he⟩
      simp only [posix, he] at h
      cases h
      exact Or.inr ⟨rfl, e, fun heq => hne (congrArg Except.error heq), rfl, Or.inr hrefused⟩
    · simp only [posix, hok] at h
      cases h
      exact Or.inl rfl
  · refine Or.inr ⟨rfl, e, ?_, rfl, Or.inl (Or.inr (Or.inr ⟨e, hmay⟩))⟩
    rintro rfl
    exact hxdev hmay
  · refine Or.inr ⟨rfl, .nametoolong, by decide, rfl, Or.inl ?_⟩
    rcases List.mem_pair.mp hpath with rfl | rfl
    · exact Or.inl hlong
    · exact Or.inr (Or.inl hlong)

/-- Where `rename` may be refused it is in some execution. -/
theorem exec_rename_refused (hxdev : ¬ mayFail (.rename old_path new_path) .xdev)
    (h : RenameFails tooLong mayFail old_path new_path ∨
      ∃ e, (posixRename env.cwd w.tree old_path new_path).1 = .error e) :
    ∃ e, e ≠ .xdev ∧
      Limited tooLong env.cwd mayFail (.rename old_path new_path) w (.error e) w := by
  by_cases hlong : ∃ path ∈ [old_path, new_path], tooLong path
  · exact ⟨.nametoolong, nofun, Or.inr ⟨hlong, .nametoolong, rfl, rfl, rfl⟩⟩
  have hshort : ∀ path ∈ [old_path, new_path], ¬ tooLong path :=
    fun path hpath hbad => hlong ⟨path, hpath, hbad⟩
  have hmay : (∃ e, mayFail (.rename old_path new_path) e) ∨
      ∃ e, (posixRename env.cwd w.tree old_path new_path).1 = .error e := by
    rcases h with (hold | hnew | hmay) | hrefused
    · exact absurd hold (hshort _ List.mem_cons_self)
    · exact absurd hnew (hshort _ (by simp))
    · exact Or.inl hmay
    · exact Or.inr hrefused
  rcases hmay with ⟨e, hmay⟩ | ⟨e, he⟩
  · refine ⟨e, ?_, Or.inl ⟨hshort, Or.inr ⟨e, hmay, rfl, rfl⟩⟩⟩
    rintro rfl
    exact hxdev hmay
  · refine ⟨e, fun heq => posixRename_ne_xdev env.cwd w.tree old_path new_path (heq ▸ he), ?_⟩
    have hanswer := @limited_posix env tooLong mayFail (.rename old_path new_path) hshort w
    rcases posixRename_cases env.cwd w.tree old_path new_path with ⟨e', he'⟩ | ⟨tree', hok, -⟩
    · rw [he'] at he
      cases he
      simp only [posix, he'] at hanswer
      exact hanswer
    · rw [hok] at he
      cases he

/-- How a refused `safe_rename_or_copy_unlink` ends. -/
theorem exec_safeRename_err (hxdev : ¬ mayFail (.rename old_path new_path) .xdev)
    (h : Exec (Limited tooLong env.cwd mayFail)
      (safeRenameOrCopyUnlink fuel old_path new_path) w .err w') :
    Exec (Limited tooLong env.cwd mayFail) (ensureParentDirExists new_path) w .err w' ∨
      Exec (Limited tooLong env.cwd mayFail) (ensureParentDirExists new_path) w .ok w' ∧
        (RenameFails tooLong mayFail old_path new_path ∨
          ∃ e, (posixRename env.cwd w'.tree old_path new_path).1 = .error e) := by
  obtain ⟨made, w₁, hmade, hrest⟩ := exec_bind.mp h
  cases made with
  | err =>
      obtain ⟨-, rfl⟩ := exec_ret hrest
      exact Or.inl hmade
  | ok =>
      obtain ⟨r, w₂, hren, hend⟩ := exec_bind.mp hrest
      rcases (exec_op hren).renameCases hxdev with rfl | ⟨rfl, e, he, rfl, hwhy⟩
      · cases (exec_ret hend).1
      · split at hend
        · rename_i heq
          cases heq
        · rename_i heq
          exact absurd (Except.error.inj heq) he
        · obtain ⟨-, rfl⟩ := exec_ret hend
          exact Or.inr ⟨hmade, hwhy⟩

/-- How a refused critical section ends: in the first round of calls for the directories,
or later, and then nothing has happened since. -/
theorem exec_renameCritical_refused (hexist : ∀ d, ¬ mayFail (.mkdir d) .exist)
    (hxdev : ¬ mayFail (.rename old_path new_path) .xdev) (hlen : new_path.length < maxPathLen)
    {outcome : Except Bytes Unit} (houtcome : outcome ≠ .ok ())
    (h : Exec (Limited tooLong env.cwd mayFail) (renameCritical fuel old_path new_path) w
      outcome w') :
    Exec (Limited tooLong env.cwd mayFail) (mkdirEach (parentDirs new_path)) w .err w' ∨
      (∀ d ∈ parentDirs new_path, ¬ tooLong d) ∧
        (mkdirEach (parentDirs new_path)).run (posix env) w = some (.ok, w') ∧
        ((∃ d ∈ parentDirs new_path, MkdirFails tooLong mayFail d) ∨
          RenameFails tooLong mayFail old_path new_path ∨
          ∃ e, (posixRename env.cwd w'.tree old_path new_path).1 = .error e) := by
  obtain ⟨made, w₁, hmade, hrest⟩ := exec_bind.mp h
  rw [ensureParentDirExists_eq hlen] at hmade
  cases made with
  | err =>
      rw [if_pos rfl] at hrest
      obtain ⟨-, rfl⟩ := exec_ret hrest
      exact Or.inl hmade
  | ok =>
      rw [if_neg nofun] at hrest
      obtain ⟨rc, w₂, hsafe, hend⟩ := exec_bind.mp hrest
      cases rc with
      | ok =>
          rw [if_neg nofun] at hend
          exact absurd (exec_ret hend).1 houtcome
      | err =>
          rw [if_pos rfl] at hend
          obtain ⟨-, rfl⟩ := exec_ret hend
          rcases exec_mkdirEach_cases hexist hmade with ⟨-, hshort, hrun⟩ | ⟨hrc, -⟩
          · -- the second round finds all that the first has made
            have hthere : ∀ d ∈ parentDirs new_path,
                d ≠ [] ∧ w₁.tree.lookup (resolve env.cwd d) ≠ none :=
              fun d hd => ⟨ne_nil_of_mem_parentDirs hd, (run_mkdirEach_asked hrun).there d hd⟩
            have hagain := exec_safeRename_err hxdev hsafe
            rw [ensureParentDirExists_eq hlen] at hagain
            rcases hagain with hstop | ⟨hmade₂, hwhy⟩
            · obtain ⟨rfl, hfails⟩ := exec_mkdirEach_of_there hexist hthere hstop
              exact Or.inr ⟨hshort, hrun, Or.inl (hfails rfl)⟩
            · obtain ⟨rfl, -⟩ := exec_mkdirEach_of_there hexist hthere hmade₂
              exact Or.inr ⟨hshort, hrun, Or.inr hwhy⟩
          · cases hrc

/-- What makes a missing directory is not stopped by a file. -/
theorem WayDirs.made_of_none (h : WayDirs env w b names ds)
    (hrun : (mkdirEach ds).run (posix env) w = some (.ok, w'))
    (hmissing : ∃ d ∈ ds, w.tree.lookup (resolve env.cwd d) = none) :
    ¬ Blocked env.cwd w.tree b names ∧ Made (OnWay (resolve env.cwd b) names) w w' := by
  rcases h.runs.unique hrun with ⟨hnot, -, hmade⟩ | ⟨-, rfl⟩
  · exact ⟨hnot, hmade⟩
  · obtain ⟨d, hd, hnone⟩ := hmissing
    exact absurd hnone ((run_mkdirEach_asked hrun).there d hd)

/-- After the way was made, `rename` is refused for the reasons of `RenameRefused`. -/
theorem renameRefused_after_made (hserving : Serving env.cwd w.tree (currentBase root))
    {old_rel new_rel : Bytes} (hrel : Relative new_rel)
    (hlen : (currentBase root ++ slash :: new_rel).length < maxPathLen)
    (hrun : (mkdirEach (parentDirs (currentBase root ++ slash :: new_rel))).run (posix env) w =
      some (.ok, w'))
    (hmissing : ∃ d ∈ parentDirs (currentBase root ++ slash :: new_rel),
      w.tree.lookup (resolve env.cwd d) = none) :
    (∃ e, (posixRename env.cwd w'.tree (currentBase root ++ slash :: old_rel)
        (currentBase root ++ slash :: new_rel)).1 = .error e) ↔
      RenameRefused env.cwd w.tree (currentBase root ++ slash :: old_rel)
        (currentBase root ++ slash :: new_rel) := by
  have hb := currentBase_ne_nil root
  have hlast := currentBase_getLast root
  have hway := wayDirs_parentDirs hb hlast hserving hrel hlen
  have hgrounded := (returns_ensureParentDirExists_way hb hlast hserving hrel
    hlen).grounded hserving.grounded
  rw [ensureParentDirExists_eq hlen] at hgrounded
  obtain ⟨hnot, hmade⟩ := hway.made_of_none hrun hmissing
  obtain ⟨d, hd, hnone⟩ := hmissing
  exact renameRefused_iff hb hrel (newWay_of_made hserving hnot
    ⟨_, hway.onWay_of_none hserving hd hnone, hnone⟩ hmade (hgrounded.unique hrun).2)

/-- A rename that is refused, but not late, leaves all as it was. -/
theorem exec_renameCritical_kept (hserving : Serving env.cwd w.tree (currentBase root))
    (hexist : ∀ d, ¬ mayFail (.mkdir d) .exist)
    {old_rel new_rel : Bytes} (hrel : Relative new_rel)
    (hlen : (currentBase root ++ slash :: new_rel).length < maxPathLen)
    (hxdev : ¬ mayFail (.rename (currentBase root ++ slash :: old_rel)
      (currentBase root ++ slash :: new_rel)) .xdev)
    (hlate : ¬ Blocked env.cwd w.tree (currentBase root) (parentNames new_rel) →
      ¬ RenameStopsLate tooLong env.cwd mayFail w.tree (currentBase root ++ slash :: old_rel)
        (currentBase root ++ slash :: new_rel))
    {outcome : Except Bytes Unit} (houtcome : outcome ≠ .ok ())
    (h : Exec (Limited tooLong env.cwd mayFail) (renameCritical fuel
      (currentBase root ++ slash :: old_rel) (currentBase root ++ slash :: new_rel)) w outcome w')
    (q : TreePath) : w'.tree.lookup q = w.tree.lookup q := by
  have hway := wayDirs_parentDirs (currentBase_ne_nil root) (currentBase_getLast root) hserving
    hrel hlen
  rcases exec_renameCritical_refused hexist hxdev hlen houtcome h with hfirst | ⟨hshort, hrun, hwhy⟩
  · rcases hway.exec_cases hserving hexist hfirst with ⟨hrc, -⟩ | ⟨-, hkept | ⟨hnot, hstops⟩⟩
    · cases hrc
    · exact hkept q
    · exact absurd (Or.inl hstops) (hlate hnot)
  · by_cases hmissing : ∃ d ∈ parentDirs (currentBase root ++ slash :: new_rel),
      w.tree.lookup (resolve env.cwd d) = none
    · -- then the refusal is a late one
      refine absurd ?_ (hlate (hway.made_of_none hrun hmissing).1)
      refine Or.inr ⟨hshort, hmissing, ?_⟩
      rw [← renameRefused_after_made hserving hrel hlen hrun hmissing]
      exact hwhy
    · exact (run_mkdirEach_asked hrun).same (fun d hd hnone => hmissing ⟨d, hd, hnone⟩) q

/-- A late refusal has an execution, and it leaves a directory behind. -/
theorem exec_renameCritical_late (fuel : Nat)
    (hserving : Serving env.cwd w.tree (currentBase root))
    (hexist : ∀ d, ¬ mayFail (.mkdir d) .exist)
    {old_rel new_rel : Bytes} (hrel : Relative new_rel)
    (hlen : (currentBase root ++ slash :: new_rel).length < maxPathLen)
    (hxdev : ¬ mayFail (.rename (currentBase root ++ slash :: old_rel)
      (currentBase root ++ slash :: new_rel)) .xdev)
    (hnot : ¬ Blocked env.cwd w.tree (currentBase root) (parentNames new_rel))
    (hlate : RenameStopsLate tooLong env.cwd mayFail w.tree (currentBase root ++ slash :: old_rel)
      (currentBase root ++ slash :: new_rel)) :
    ∃ w', Exec (Limited tooLong env.cwd mayFail) (renameCritical fuel
        (currentBase root ++ slash :: old_rel) (currentBase root ++ slash :: new_rel)) w
        (.error (ascii "rename failed")) w' ∧
      ∃ q, resolve env.cwd (currentBase root) <+: q ∧ w.tree.lookup q = none ∧
        w'.tree.lookup q ≠ none := by
  have hway := wayDirs_parentDirs (currentBase_ne_nil root) (currentBase_getLast root) hserving
    hrel hlen
  rcases hlate with hstops | ⟨hshort, hmissing, hwhy⟩
  · obtain ⟨w', hexec, q, ⟨r, -, rfl⟩, hnone, hmade⟩ :=
      hway.exec_late hserving hexist hnot hstops
    refine ⟨w', exec_bind.mpr ⟨.err, w', ?_, .ret _ _⟩, _, List.prefix_append _ r, hnone, hmade⟩
    rw [ensureParentDirExists_eq hlen]
    exact hexec
  · obtain ⟨rc, w', hrun, ⟨-, rfl, -⟩ | ⟨hblocked, -⟩⟩ := hway.runs
    · rw [← renameRefused_after_made hserving hrel hlen hrun hmissing] at hwhy
      obtain ⟨d, hd, hnone⟩ := hmissing
      have hthere := (run_mkdirEach_asked hrun).there
      obtain ⟨r, -, hr⟩ := hway.onWay_of_none hserving hd hnone
      have hfirst : Exec (Limited tooLong env.cwd mayFail)
          (mkdirEach (parentDirs (currentBase root ++ slash :: new_rel))) w .ok w' :=
        exec_mkdirEach_of_run hshort hrun
      have hagain := run_mkdirEach_of_there fun d hd => ⟨ne_nil_of_mem_parentDirs hd, hthere d hd⟩
      have hsafe : Exec (Limited tooLong env.cwd mayFail) (safeRenameOrCopyUnlink fuel
          (currentBase root ++ slash :: old_rel) (currentBase root ++ slash :: new_rel)) w' .err
          w' := by
        unfold safeRenameOrCopyUnlink
        rw [ensureParentDirExists_eq hlen]
        rcases hwhy with ⟨p, hp, hfails⟩ | hwhy
        · -- the second round is refused
          obtain ⟨before, after, hsplit⟩ := List.append_of_mem hp
          refine exec_bind.mpr ⟨.err, w', ?_, .ret _ _⟩
          rw [hsplit] at hagain hshort ⊢
          obtain ⟨w₂, hbefore, -⟩ := run_mkdirEach_split hagain
          have hsame : w₂ = w' := by
            rw [run_mkdirEach_of_there fun d hd => ⟨ne_nil_of_mem_parentDirs
              (hsplit ▸ List.mem_append_left _ hd), hthere d
              (hsplit ▸ List.mem_append_left _ hd)⟩] at hbefore
            cases hbefore
            rfl
          rw [hsame] at hbefore
          exact exec_mkdirEach_stops hexist
            (fun d hd => hshort d (List.mem_append_left _ hd)) hbefore hfails
        · obtain ⟨e, he, hrename⟩ := exec_rename_refused hxdev hwhy
          refine exec_bind.mpr ⟨.ok, w', exec_mkdirEach_of_run hshort hagain, ?_⟩
          refine exec_bind.mpr ⟨.error e, w', .call hrename (.ret _ _), ?_⟩
          split
          · rename_i heq
            cases heq
          · rename_i heq
            exact absurd (Except.error.inj heq) he
          · exact .ret _ _
      refine ⟨w', exec_bind.mpr ⟨.ok, w', ?_, exec_bind.mpr ⟨.err, w', hsafe, .ret _ _⟩⟩,
        _, ⟨r, hr.symm⟩, hnone, hthere d hd⟩
      rw [ensureParentDirExists_eq hlen]
      exact hfirst
    · exact absurd hblocked hnot

theorem refusedCleanly_fileRename (hserving : Serving env.cwd w.tree (currentBase root))
    (hexist : ∀ d, ¬ mayFail (.mkdir d) .exist)
    (hxdev : ∀ old new, ¬ mayFail (.rename old new) .xdev) {combined_path : Bytes}
    (hlate : ¬ RenameRefusedLate tooLong env.cwd mayFail w.tree root combined_path) :
    RefusedCleanly tooLong env.cwd mayFail root w
      fun fuel => serverHandleFileRename fuel root combined_path := by
  apply refusedCleanly_of_safe
  intro fuel
  rw [serverHandleFileRename_eq]
  cases hsplit : renameSplit combined_path with
  | error message => exact safe_refuseAtOnce message
  | ok pair =>
      obtain ⟨old_rel, new_rel⟩ := pair
      cases hold : currentPath root old_rel with
      | none =>
          simp only [hold]
          exact safe_refuseAtOnce _
      | some old_path =>
          cases hnew : currentPath root new_rel with
          | none =>
              simp only [hold, hnew]
              exact safe_refuseAtOnce _
          | some new_path =>
              simp only [hold, hnew]
              apply safe_refuseAfter (f := id)
              apply safe_of_exec
              intro outcome w' hexec herr q _
              have hne : outcome ≠ .ok () := by
                rintro rfl
                cases herr
              obtain ⟨hrel, -, rfl, hlen⟩ := currentPath_eq_some hnew
              obtain ⟨-, -, rfl, -⟩ := currentPath_eq_some hold
              exact exec_renameCritical_kept hserving hexist hrel hlen (hxdev _ _)
                (fun hnot hstops =>
                  hlate ⟨old_rel, new_rel, _, _, hsplit, hold, hnew, hnot, hstops⟩)
                hne hexec q

theorem not_refusedCleanly_fileRename (hserving : Serving env.cwd w.tree (currentBase root))
    (hexist : ∀ d, ¬ mayFail (.mkdir d) .exist)
    (hxdev : ∀ old new, ¬ mayFail (.rename old new) .xdev) {combined_path : Bytes}
    (hlate : RenameRefusedLate tooLong env.cwd mayFail w.tree root combined_path) :
    ¬ RefusedCleanly tooLong env.cwd mayFail root w
      fun fuel => serverHandleFileRename fuel root combined_path := by
  intro hclean
  obtain ⟨old_rel, new_rel, old_path, new_path, hsplit, hold, hnew, hnot, hstops⟩ := hlate
  obtain ⟨hrel, -, hnewPath, hlen⟩ := currentPath_eq_some hnew
  obtain ⟨-, -, holdPath, -⟩ := currentPath_eq_some hold
  rw [hnewPath] at hlen hstops
  rw [holdPath] at hstops
  obtain ⟨w', hexec, q, hq, hnone, hmade⟩ := exec_renameCritical_late 2 hserving hexist
    hrel hlen (hxdev _ _) hnot hstops
  obtain ⟨w'', hwhole, htree⟩ := exec_refuseAfter (f := id) 0 rfl hexec
  have hhandler : Exec (Limited tooLong env.cwd mayFail)
      (serverHandleFileRename 2 root combined_path) w .err w'' := by
    rw [serverHandleFileRename_eq, hsplit]
    simp only [hold, hnew]
    rw [hnewPath, holdPath]
    exact hwhole
  have hkept := hclean 2 w'' hhandler q hq
  rw [htree, hnone] at hkept
  exact hmade hkept

/-! ## Deletions -/

theorem resolve_currentBase (cwd : TreePath) (root : Bytes) :
    resolve cwd (currentBase root) = storeRoot cwd root ++ [currentName] := by
  rw [currentBase, resolve_append component_currentName.splitOn_notMem,
    relNames_component component_currentName (by decide)]
  rfl

/-- A directory on the way to the trash leads to the root, or lies in the trash. -/
theorem leads_trash_cases {stamp d : Bytes} (hstamp : Component stamp) (hrel : Relative rel)
    (h : Leads d (trashBase root ++ slash :: (stamp ++ slash :: rel))) :
    Leads d (joinBase root) ∨
      ∃ names, resolve cwd d = storeRoot cwd root ++ trashName :: names := by
  have hbase := resolve_trashBase cwd root
  have hdots := dotdot_splitOn_append hstamp.splitOn_notMem hrel.no_dotdot
  rcases Confinement.below_or_leads hdots h with ⟨rest, rfl, hrest, hno⟩ | hleads
  · right
    rcases hrest with rfl | hhead
    · exact ⟨[], by rw [List.append_nil, hbase]⟩
    · obtain ⟨tail, rfl⟩ : ∃ tail, rest = slash :: tail := by
        cases rest with
        | nil => cases hhead
        | cons c tail =>
            rw [List.head?_cons, Option.some.injEq] at hhead
            exact ⟨tail, by rw [hhead]⟩
      have hsplit : (slash :: tail).splitOn slash = [] :: tail.splitOn slash :=
        List.splitOn_append_cons_self [] tail
      rw [hsplit, List.mem_cons, not_or] at hno
      refine ⟨relNames tail, ?_⟩
      rw [resolve_below (by simp [trashBase]) hno.2, hbase, List.append_assoc]
      rfl
  · rcases leads_join component_trashName.no_slash hleads with rfl | hroot
    · exact Or.inr ⟨[], hbase⟩
    · exact Or.inl hroot

/-- The directories of the trash are not under `current/`. -/
theorem currentKept_of_trash (hserving : Serving cwd w.tree (currentBase root)) {stamp dst : Bytes}
    (hstamp : Component stamp) (hrel : Relative rel)
    (hdst : dst = trashBase root ++ slash :: (stamp ++ slash :: rel))
    (htouch : w.tree.Touches (fun _ => False) w'.tree)
    (hmade : MakesDirs (NamedBy cwd (parentDirs dst)) w w') : CurrentKept cwd root w w' := by
  intro q hq
  rcases FileTree.MakesIn.lookup_cases (p := q) hmade htouch not_false with
    hsame | ⟨hnone, -, d, hd, hnode⟩
  · exact hsame
  exfalso
  subst hnode
  have hleads := leads_of_mem_parentDirs (by simp [trashBase]) hdst hd
  rw [hdst] at hleads
  rcases @leads_trash_cases cwd root rel _ _ hstamp hrel hleads with hroot | ⟨names, htrash⟩
  · have hbase : Leads (joinBase root) (currentBase root) :=
      ⟨slash :: currentName, rfl, Or.inr ⟨currentName, rfl⟩⟩
    have hdir := hserving.leads d (ne_nil_of_mem_parentDirs hd) (hroot.trans hbase)
    rw [show w.tree.lookup _ = some .dir from hdir] at hnone
    cases hnone
  · rw [htrash, resolve_currentBase, List.prefix_append_right_inj, List.cons_prefix_cons] at hq
    exact absurd hq.1 (by decide)

theorem safe_moveToPlace (hserving : Serving cwd w.tree (currentBase root)) {stamp src dst : Bytes}
    (hxdev : ¬ mayFail (.rename src dst) .xdev) (hstamp : Component stamp) (hrel : Relative rel)
    (hdst : dst = trashBase root ++ slash :: (stamp ++ slash :: rel)) :
    (safeRenameOrCopyUnlink fuel src dst).Safe (Kernel cwd mayFail) (fun _ => True)
      (fun rc w' => rc = .err → CurrentKept cwd root w w') w := by
  have htidy : (ensureParentDirExists dst).Moves (Kernel cwd mayFail) _ _ w :=
    moves_ensureParentDirExists (fun _ => False) dst
  have hmakes : (ensureParentDirExists dst).Moves (Kernel cwd mayFail) _ _ w :=
    makes_ensureParentDirExists dst
  apply (htidy.and hmakes).moved.bind
  rintro made w₁ ⟨⟨htouch, -⟩, -, hmade, -⟩
  have hkept : CurrentKept cwd root w w₁ :=
    currentKept_of_trash hserving hstamp hrel hdst htouch hmade
  cases made with
  | err => exact fun _ => hkept
  | ok =>
      apply Safe.op_bind
      intro r w₂ hK
      refine ⟨trivial, ?_⟩
      rcases hK.renameCases with ⟨⟨e, rfl, hmay⟩, rfl⟩ | ⟨rfl, -, -⟩
      · split
        · nofun
        · rename_i heq
          exact (hxdev (hmay (Except.error.inj heq))).elim
        · exact fun _ => hkept
      · nofun

theorem refusedCleanly_fileDelete (hserving : Serving env.cwd w.tree (currentBase root))
    (hxdev : ∀ old new, ¬ mayFail (.rename old new) .xdev) (rel_path : Bytes) :
    RefusedCleanly tooLong env.cwd mayFail root w
      fun fuel => serverHandleFileDelete fuel root rel_path := by
  apply refusedCleanly_of_safe
  intro fuel
  apply safe_refuseAfter
  have hclean : (moveToTrash fuel root rel_path).Safe
      (Kernel env.cwd fun c e => mayFail c e ∨ e = .nametoolong)
      (fun _ => True) (fun rc w' => rc = .err → CurrentKept env.cwd root w w') w := by
    unfold moveToTrash
    cases hsrc : currentPath root rel_path with
    | none => exact fun _ => currentKept_of_tree_eq rfl
    | some src =>
        apply Safe.op_bind
        intro found w₁ haccess
        obtain rfl : w₁ = w := haccess.quiet trivial
        refine ⟨trivial, ?_⟩
        split
        · nofun
        apply Safe.op_bind
        intro now w₂ htime
        obtain rfl : w₂ = w₁ := htime.quiet trivial
        refine ⟨trivial, ?_⟩
        have hrel := (currentPath_eq_some hsrc).1
        have hstamp := component_timestampDirname now
        split_ifs
        · cases hdst : stampedPath trashName root (timestampDirname now) rel_path with
          | none =>
              simp only [Option.bind_some, hdst]
              exact fun _ => currentKept_of_tree_eq rfl
          | some dst =>
              simp only [Option.bind_some, hdst]
              obtain ⟨hpath, -⟩ := (stampedPath_iff component_trashName hstamp hrel).mp hdst
              exact safe_moveToPlace hserving (not_or.mpr ⟨hxdev _ _, nofun⟩) hstamp hrel hpath
        · exact fun _ => currentKept_of_tree_eq rfl
  apply (hclean.narrow fun _ _ _ _ hK => hK.kernel).post
  intro rc w' hkept hrc
  apply hkept
  cases rc with
  | ok => cases hrc
  | err => rfl

/-! ## The condition -/

/-- Refused deletions leave `current/` as it was, whatever the kernel refuses; refused
directory requests and renames do exactly where the refusal is not a late one. -/
theorem refused_requests_clean_iff (hserving : Serving cwd w.tree (currentBase root))
    (hexist : ∀ d, ¬ mayFail (.mkdir d) .exist)
    (hxdev : ∀ old new, ¬ mayFail (.rename old new) .xdev) :
    (∀ rel_path, RefusedCleanly tooLong cwd mayFail root w
      fun fuel => serverHandleFileDelete fuel root rel_path) ∧
    (∀ header rel_path, isDirMode header.mode = true →
      ((RefusedCleanly tooLong cwd mayFail root w
          fun fuel => serverHandleFileBegin fuel header root rel_path) ↔
        ¬ DirRefusedLate tooLong cwd mayFail w.tree root rel_path)) ∧
    ∀ combined_path,
      (RefusedCleanly tooLong cwd mayFail root w
          fun fuel => serverHandleFileRename fuel root combined_path) ↔
        ¬ RenameRefusedLate tooLong cwd mayFail w.tree root combined_path := by
  -- the clock plays no part in what is refused
  obtain ⟨env, rfl⟩ : ∃ env : Env, env.cwd = cwd := ⟨⟨cwd, ⟨70, 0, 1, 0, 0, 0⟩⟩, rfl⟩
  refine ⟨refusedCleanly_fileDelete hserving hxdev, fun header rel_path hdir => ⟨?_, ?_⟩,
    fun combined_path => ⟨?_, ?_⟩⟩
  · exact fun hclean hlate => not_refusedCleanly_fileBegin hserving hexist hdir hlate hclean
  · exact refusedCleanly_fileBegin hserving hexist hdir
  · exact fun hclean hlate => not_refusedCleanly_fileRename hserving hexist hxdev hlate hclean
  · exact refusedCleanly_fileRename hserving hexist hxdev

end Refusals

/-! ## A source that is missing -/

/-- The store `s` with an empty `current/`. -/
def emptyCurrent : World :=
  ⟨⟨[([ascii "s"], .dir), ([ascii "s", ascii "current"], .dir)]⟩, ⟨fun _ => [], 0, []⟩⟩

def anyTime : Env := ⟨[], ⟨126, 1, 2, 3, 4, 5⟩⟩

/-- The rename of the missing `a` to `new/x` is answered with an error, and `current/new`
is there. -/
theorem refused_rename_makes_parent :
    emptyCurrent.tree.lookup [ascii "s", ascii "current", ascii "new"] = none ∧
    ((serverHandleFileRename 8 (ascii "s") (ascii "a" ++ nul :: ascii "new/x")).run
        (posix anyTime) emptyCurrent).map
        (fun r => (r.1, r.2.conn.output,
          r.2.tree.lookup [ascii "s", ascii "current", ascii "new"])) =
      some (.err, errorReply (ascii "rename failed"), some .dir) := by
  constructor
  · decide
  · decide +kernel

theorem serving_emptyCurrent : Serving anyTime.cwd emptyCurrent.tree (currentBase (ascii "s")) := by
  refine ⟨FileTree.grounded_of_entries (by decide), fun d hd hleads => ?_⟩
  have hbase : currentBase (ascii "s") = ascii "s" ++ slash :: currentName := by decide
  rw [hbase] at hleads
  rcases leads_join component_currentName.no_slash hleads with rfl | ⟨rest, hrest, -⟩
  · unfold FileTree.IsDir
    decide
  · have hs : ascii "s" = [115] := by decide
    rw [hs] at hrest
    obtain ⟨c, cs, rfl⟩ := List.exists_cons_of_ne_nil hd
    rw [List.cons_append, List.cons.injEq] at hrest
    obtain ⟨rfl, hnil⟩ := hrest
    rw [(List.append_eq_nil_iff.mp hnil.symm).1]
    unfold FileTree.IsDir
    decide

/-- The kernel has room for names of 255 bytes. -/
def NameTooLong (path : Bytes) : Prop := ∃ name ∈ path.splitOn slash, 255 < name.length

/-- A directory in `new`, which is not there, whose name is too long. -/
def longName : Bytes := ascii "new/" ++ List.replicate 300 110

theorem dirRefusedLate_longName : DirRefusedLate NameTooLong anyTime.cwd (fun _ _ => False)
    emptyCurrent.tree (ascii "s") longName := by
  refine ⟨ascii "s/current/" ++ longName, ascii "s/current/" ++ longName ++ syncingSuffix,
    by decide +kernel, ?_, [ascii "s", ascii "s/current", ascii "s/current/new"],
    ascii "s/current/" ++ longName, [], by decide +kernel, ?_, ?_, Or.inl ?_⟩
  · rintro ⟨q, c, -, hfile⟩
    have hmem := FileTree.mem_entries_of_content (FileTree.content_eq_some.mpr hfile)
    simp [emptyCurrent] at hmem
  · have hshort : ∀ p ∈ [ascii "s", ascii "s/current", ascii "s/current/new"],
        ∀ name ∈ p.splitOn slash, ¬ 255 < name.length := by decide +kernel
    rintro p hp ⟨name, hname, hlong⟩
    exact hshort p hp name hname hlong
  · exact ⟨ascii "s/current/new", by decide, by decide +kernel⟩
  · refine ⟨List.replicate 300 110, by decide +kernel, ?_⟩
    rw [List.length_replicate]
    omega

/-- Where the directory of the new path is there already, a refused rename is clean; a
directory request is not where its last name is too long. -/
theorem refused_requests_clean_iff_emptyCurrent :
    (RefusedCleanly NameTooLong anyTime.cwd (fun _ _ => False) (ascii "s") emptyCurrent
      fun fuel => serverHandleFileRename fuel (ascii "s") (ascii "a" ++ nul :: ascii "x")) ∧
    ¬ RefusedCleanly NameTooLong anyTime.cwd (fun _ _ => False) (ascii "s") emptyCurrent
      fun fuel => serverHandleFileBegin fuel { initSyncHeader msgFileBegin with mode := 0o40755 }
        (ascii "s") longName := by
  obtain ⟨-, hdirs, hrenames⟩ := @refused_requests_clean_iff anyTime.cwd emptyCurrent NameTooLong
    (fun _ _ => False) (ascii "s") serving_emptyCurrent (fun _ => not_false) fun _ _ => not_false
  constructor
  · apply (hrenames _).mpr
    rintro ⟨old_rel, new_rel, old_path, new_path, hsplit, -, hnew, -, hlate⟩
    have hsame : renameSplit (ascii "a" ++ nul :: ascii "x") = .ok (ascii "a", ascii "x") := by
      decide +kernel
    rw [hsame] at hsplit
    cases hsplit
    have hpath : currentPath (ascii "s") (ascii "x") = some (ascii "s/current/x") := by
      decide +kernel
    rw [hpath] at hnew
    cases hnew
    -- no directory is missing
    have hall : ∀ d ∈ parentDirs (ascii "s/current/x"),
        emptyCurrent.tree.lookup (resolve anyTime.cwd d) ≠ none := by decide +kernel
    rcases hlate with ⟨before, d, after, heq, -, ⟨p, hp, hnone⟩, -⟩ | ⟨-, ⟨p, hp, hnone⟩, -⟩
    · exact hall p (by rw [heq]; exact List.mem_append_left _ hp) hnone
    · exact hall p hp hnone
  · exact fun hclean => (hdirs _ _ (by decide)).mp hclean dirRefusedLate_longName

end MiniSync
