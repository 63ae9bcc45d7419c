import MiniSync.Agreement.FileBegin
import MiniSync.History.Uploads

/-!
# Block streams in a run

`handle_large_block_stream` does not look at the result of the backup: it saves what it
replaces where there is a place for a version.
-/

namespace MiniSync

open Prog

section BlockStream

variable {env : Env} {w w' : World} {fuel : Nat} {root rel dst tmp c : Bytes}

/-! ## Versions that can be saved -/

theorem inArea_of_below_current {cwd : TreePath} {dir : Bytes}
    (h : Confinement.Below (joinBase root ++ slash :: currentName) dir) :
    InArea cwd root currentName (resolve cwd dir) := by
  have hcur := component_currentName
  obtain ⟨rest, rfl, hrest, hdots⟩ := h
  cases rest with
  | nil =>
      rw [List.append_nil, resolve_append hcur.splitOn_notMem, relNames_component hcur (by decide)]
      exact inArea_cons
  | cons d v =>
      rcases hrest with hnil | hhead
      · cases hnil
      have hd : d = slash := Option.some.inj hhead
      subst hd
      have hsplit : (slash :: v).splitOn slash = [] :: v.splitOn slash :=
        List.splitOn_append_cons_self [] v
      rw [hsplit, List.mem_cons, not_or] at hdots
      rw [List.append_assoc, List.cons_append,
        resolve_append (dotdot_splitOn_append hcur.splitOn_notMem hdots.2), relNames_append,
        relNames_component hcur (by decide)]
      exact inArea_cons

/-- The directories made for `current/rel` are none of `.versions`. -/
theorem not_made_version {q : TreePath} (hdst : currentPath root rel = some dst)
    (hleads : ∀ d, d ≠ [] → Leads d (versionsBase root) → w.tree.IsDir (resolve env.cwd d))
    (hq : InArea env.cwd root versionsName q) (hnone : w.tree.lookup q = none) :
    ¬ NamedBy env.cwd (parentDirs dst) q := by
  obtain ⟨hrel, -, hshape, -⟩ := currentPath_eq_some hdst
  rintro ⟨d, hd, rfl⟩
  have hlead : Leads d dst := leads_of_mem_parentDirs (by simp) hshape hd
  have hcurrent : ¬ InArea env.cwd root currentName (resolve env.cwd d) := by
    rintro ⟨more, hmore⟩
    rw [← hmore, List.append_assoc] at hq
    exact not_inArea (by decide) hq
  rw [hshape] at hlead
  rcases Confinement.below_or_leads hrel.no_dotdot hlead with hbelow | hbase
  · exact hcurrent (inArea_of_below_current hbelow)
  · rcases leads_join component_currentName.no_slash hbase with rfl | hroot
    · exact hcurrent (inArea_of_below_current (Confinement.Below.refl _))
    · have hdir := hleads d (ne_nil_of_mem_parentDirs hd)
        (hroot.trans ⟨slash :: versionsName, rfl, Or.inr ⟨_, rfl⟩⟩)
      unfold FileTree.IsDir at hdir
      rw [hnone] at hdir
      cases hdir

/-- A version that can be saved still can, where `.versions` and the directories have stayed. -/
theorem Savable.of_same (h : Savable env w.tree root rel) (hstay : w.tree.DirsStay w'.tree)
    (hsame : ∀ q, InArea env.cwd root versionsName q → w'.tree.lookup q = w.tree.lookup q) :
    Savable env w'.tree root rel := by
  refine ⟨h.stamp_short, ⟨?_, h.version.tmp_fits, ?_⟩⟩
  · apply h.version.of_lookup fun d _ _ => hstay (resolve env.cwd d)
    · intro q c hq
      rw [hsame q (inArea_of_wayTo_version hq)]
      exact h.version.passable.free q c hq
    · rw [hsame _ h.version.inArea_version]
      exact h.version.notDir
  · rw [hsame _ h.version.tmp.inArea_version]
    exact h.version.tmp_notDir

/-- A backup for which there is a place succeeds. -/
theorem returns_backupOldVersion_savable {old : Bytes} (hdst : currentPath root rel = some dst)
    (hplain : Plain dst) (hold : w.tree.content (resolve env.cwd dst) = some old)
    (hsavable : Savable env w.tree root rel) (hfuel : old.length + 3 ≤ fuel) :
    (backupOldVersion fuel root rel).Returns (posix env)
      (fun rc w' => rc = .ok ∧ ∀ q, ¬ InArea env.cwd root versionsName q →
        w'.tree.lookup q = w.tree.lookup q) w := by
  have hrel := (currentPath_eq_some hdst).1
  have hlookup := FileTree.content_eq_some.mp hold
  unfold backupOldVersion
  rw [hdst]
  refine returns_op_bind.mpr ?_
  rw [posix_access hplain, hlookup]
  have hpath : stampedPath versionsName root (timestampDirname env.now) rel = _ :=
    stampedPath_versionsBase hrel hsavable.version.fits
  simp only [Option.isSome_some, Bool.not_true, Bool.false_eq_true, if_false]
  have hstamp : (makeTimestampDirname : Sys TreePath (Option Bytes)).Returns (posix env)
      (fun stamp w' => w' = w ∧ stamp = some (timestampDirname env.now)) w :=
    returns_op_bind.mpr (.ret ⟨rfl, if_pos hsavable.stamp_short⟩)
  apply hstamp.bind
  rintro _ w ⟨rfl, rfl⟩
  rw [Option.bind_some, hpath]
  apply (returns_isDirectory hplain hlookup).bind
  rintro _ w ⟨rfl, rfl⟩
  simp only [Node.isDir, Bool.false_eq_true, if_false]
  have htmpArea := hsavable.version.tmp.inArea_version
  have hne : resolve env.cwd dst ≠ resolve env.cwd (versionsBase root ++ slash ::
      (versionRel env.now rel ++ syncingSuffix)) := by
    intro heq
    apply not_inArea_current hdst (by decide : currentName ≠ versionsName)
    rw [heq]
    exact htmpArea
  have hreadable : Readable env.cwd w.tree dst old := ⟨hplain.ne_nil, hplain.names_file, hold⟩
  apply (returns_copyFileAtomic hreadable hsavable.version hne hfuel).post
  rintro rc w' ⟨rfl, hmoved⟩
  refine ⟨rfl, fun q hq => hmoved.rest q (fun h => hq ?_) (fun h => hq ?_) fun h => hq ?_⟩
  · exact htmpArea.of_under h
  · exact hsavable.version.inArea_version.of_under h
  · exact inArea_of_wayTo_version h

theorem Savable.plain (h : Savable env w.tree root rel) (hdst : currentPath root rel = some dst) :
    Plain dst := by
  have hnames : NamesEntry rel := by
    have hversion := h.version.file.names_file
    rw [versionRel, mustBeDir_below] at hversion
    exact hversion
  have hshape := (currentPath_eq_some hdst).2.2.1
  rw [hshape]
  exact (filePath_of_currentPath hnames hdst).plain

/-- With any fuel. -/
theorem ran_backupOldVersion_ok {rc : Rc} (hdst : currentPath root rel = some dst)
    (hc : w.tree.content (currentNode env.cwd root (relNames rel)) = some c)
    (hsavable : Savable env w.tree root rel)
    (hexec : Exec (Prog.Graph (posix env)) (backupOldVersion fuel root rel) w rc w') : rc = .ok := by
  rw [currentNode, ← resolve_currentPath hdst] at hc
  obtain ⟨rc', w2, hrun, rfl, -⟩ :=
    returns_backupOldVersion_savable hdst (hsavable.plain hdst) hc hsavable (le_refl _)
  exact (Ends.unique (fuelled_backupOldVersion root rel) ⟨fuel, exec_graph_iff.mp hexec⟩
    ⟨_, hrun⟩).1

/-! ## `handle_large_block_stream` -/

/-- Everything before the backup of `handle_large_block_stream`. -/
def receivePartial {Fd : Type} (fuel : Nat) (first_block : SyncHeader) (dst tmp : Bytes) :
    Sys Fd (Except Bytes Unit) := do
  if (← ensureParentDirExists dst) = .err then
    return .error (ascii "prepare destination failed")
  match ← sys (.openFile tmp (.writeCreate (openMode first_block.mode))) with
  | .error _ => return .error (ascii "open temp failed")
  | .ok fd =>
      if !(← sys (.malloc first_block.data_len.toNat)) then
        sys (.close fd)
        return .error (ascii "alloc failed")
      let failed : Except Bytes Unit := .error (ascii "large file receive failed")
      let (received, end_header) ← recvBlockStream fuel fd first_block
      if (← syncAndClose fd received) = .err then return failed
      if (← hashAgrees fuel tmp (expectedHash first_block end_header)) = false then return failed
      return .ok ()

theorem blockStreamCritical_eq {Fd : Type} (first_block : SyncHeader) :
    (blockStreamCritical fuel first_block root rel dst tmp : Sys Fd (Except Bytes Unit)) = (do
      match ← receivePartial fuel first_block dst tmp with
      | .error e => return .error e
      | .ok _ =>
          let _ ← backupOldVersion fuel root rel
          if (← publish fuel first_block tmp dst) = .err then
            return .error (ascii "large file receive failed")
          return .ok ()) := by
  unfold blockStreamCritical receivePartial
  rw [Prog.bind_assoc]
  congr 1
  funext made
  split
  · rfl
  refine congrArg (Prog.call _) (funext fun opened => ?_)
  cases opened with
  | error e => rfl
  | ok fd =>
      refine congrArg (Prog.call _) (funext fun got => ?_)
      cases got with
      | false => rfl
      | true =>
          change (recvBlockStream fuel fd first_block >>= _) =
            (recvBlockStream fuel fd first_block >>= _) >>= _
          rw [Prog.bind_assoc]
          congr 1
          funext received
          obtain ⟨rc, end_header⟩ := received
          change (syncAndClose fd rc >>= _) = (syncAndClose fd rc >>= _) >>= _
          rw [Prog.bind_assoc]
          congr 1
          funext closed
          split
          · rfl
          · rw [Prog.bind_assoc]
            congr 1
            funext agrees
            split <;> rfl

/-! What comes before the backup writes to the temporary file, and makes the directories of
`current/rel`. -/

/-- No directory goes away, and those that are made lie in `D`. -/
def KeepsDirs (D : TreePath → Prop) (w w' : World) : Prop :=
  (w.tree.Grounded → w'.tree.Grounded) ∧ (w.tree.Grounded → w.tree.DirsStay w'.tree) ∧
    MakesDirs D w w'

instance (D : TreePath → Prop) : IsPreorder World (KeepsDirs D) where
  refl w := ⟨id, fun _ => .refl w.tree, refl_of (MakesDirs D) w⟩
  trans _ _ _ h h' :=
    ⟨fun hg => h'.1 (h.1 hg), fun hg => (h.2.1 hg).trans (h'.2.1 (h.1 hg)),
      trans_of (MakesDirs D) h.2.2 h'.2.2⟩

theorem Kernel.keepsDirs {cwd : TreePath} {mayFail : Call TreePath → Errno → Prop}
    {D : TreePath → Prop} {k : Call TreePath} {r : Resp k} (h : Kernel cwd mayFail k w r w')
    (hk : ¬ k.IsRename) (hmkdir : ∀ d, k = .mkdir d → D (resolve cwd d)) : KeepsDirs D w w' :=
  ⟨h.grounded, fun hg => (h.settled hk hg).2, h.makesDirs hk hmkdir⟩

/-- A rename of a path to itself changes nothing. -/
theorem Kernel.rename_self {cwd : TreePath} {mayFail : Call TreePath → Errno → Prop}
    {path : Bytes} {r : Resp (.rename path path)}
    (h : Kernel cwd mayFail (.rename path path) w r w') : w'.tree = w.tree := by
  rcases h.renameCases with ⟨-, rfl⟩ | ⟨-, -, hren⟩
  · rfl
  · unfold FileTree.rename at hren
    split at hren
    · cases hren
    · dsimp only at hren
      split_ifs at hren
      · exact (Except.ok.inj hren).symm
      · exact absurd rfl ‹_›

/-- Work on one file keeps the directories. -/
theorem keepsDirs_of_stays {cwd : TreePath} {mayFail : Call TreePath → Errno → Prop} {α : Type}
    {D : TreePath → Prop} {x : Bytes} {p : Sys TreePath α}
    (h : Stays (· = x) (fun _ => False) p) :
    p.Moves (Kernel cwd mayFail) (KeepsDirs D) (fun _ _ => True) w := by
  apply All.moves h
  intro k s r s' hk hK
  by_cases hren : k.IsRename
  · cases k with
    | rename src dst =>
        obtain ⟨rfl, rfl⟩ := hk
        have htree := hK.rename_self
        refine ⟨hK.grounded, fun _ => ?_, ?_⟩
        · rw [htree]
          exact .refl s.tree
        · rw [MakesDirs, htree]
          exact .refl D s.tree
    | _ => cases hren
  · refine hK.keepsDirs hren ?_
    rintro d rfl
    exact hk.elim

theorem keepsDirs_receivePartial {cwd : TreePath} {mayFail : Call TreePath → Errno → Prop}
    (first_block : SyncHeader) :
    (receivePartial fuel first_block dst tmp).Moves (Kernel cwd mayFail)
      (KeepsDirs (NamedBy cwd (parentDirs dst))) (fun _ _ => True) w := by
  have hmake : (ensureParentDirExists dst).Moves (Kernel cwd mayFail)
      (KeepsDirs (NamedBy cwd (parentDirs dst))) (fun _ _ => True) w := by
    apply All.moves (all_ensureParentDirExists_on
      (P := fun c => ∃ d ∈ parentDirs dst, c = .mkdir d) fun d hd => ⟨d, hd, rfl⟩)
    rintro k s r s' ⟨d, hd, rfl⟩ hK
    exact hK.keepsDirs not_false fun d' heq => by cases heq; exact ⟨d, hd, rfl⟩
  unfold receivePartial
  apply hmake.bind
  rintro made w1 - -
  split_ifs
  · exact Moves.ret trivial
  apply keepsDirs_of_stays (x := tmp)
  refine All.op_bind (Or.inr rfl) fun opened => ?_
  split
  · trivial
  · refine All.op_bind trivial fun got => ?_
    split_ifs
    · exact All.op_bind trivial fun _ => trivial
    · apply (@Confinement.stays_recvBlockStream _ (· = tmp) _ ⟨tmp, rfl⟩ _ _ _).bind
      intro received _
      apply (Confinement.stays_syncAndClose _ _).bind
      intro closed _
      split_ifs
      · trivial
      · apply (Confinement.stays_hashAgrees _ _ _).bind
        intro agrees _
        split_ifs <;> trivial

/-- The temporary file is the only one that is written to, and is there in the end. -/
theorem moves_receivePartial {cwd : TreePath} {mayFail : Call TreePath → Errno → Prop}
    (first_block : SyncHeader) :
    (receivePartial fuel first_block dst tmp).Moves (Kernel cwd mayFail)
      (Hears fun n => n = resolve cwd tmp)
      (fun r w' => r = .ok () → ∃ data, w'.tree.content (resolve cwd tmp) = some data) w := by
  have hmake : (ensureParentDirExists dst).Moves (Kernel cwd mayFail)
      (Tidy fun n => n = resolve cwd tmp) _ w := moves_ensureParentDirExists _ dst
  unfold receivePartial
  apply (hmake.mono (fun _ _ h => h.hears) fun _ _ _ h => h).bind
  rintro made w1 - -
  split_ifs
  · exact Moves.ret (by rintro ⟨⟩)
  apply Moves.op_bind
  intro opened w2 hK
  rcases hK.openCreate with ⟨⟨e, rfl⟩, rfl⟩ | ⟨rfl, hroot, -, htree, hconn⟩
  · exact ⟨refl_of (Hears _) w2, Moves.ret (by rintro ⟨⟩)⟩
  have hstart : w2.tree.content (resolve cwd tmp) =
      some ((w1.tree.content (resolve cwd tmp)).getD []) := by
    rw [htree, FileTree.content_eq_some, FileTree.lookup_put hroot, if_pos rfl]
  refine ⟨⟨htree ▸ .put hroot rfl, by rw [hconn], by rw [hconn]⟩,
    moves_quiet trivial fun got => ?_⟩
  split_ifs
  · exact moves_quiet trivial fun _ => Moves.ret (by rintro ⟨⟩)
  have hrecv : (recvBlockStream fuel (resolve cwd tmp) first_block).Moves
      (Kernel cwd mayFail) _ _ w2 := moves_recvBlockStream fuel first_block hstart
  apply hrecv.bind
  rintro ⟨received, end_header⟩ w3 - hstream
  apply (moves_syncAndClose _ _ received).bind
  rintro closed w4 - ⟨rfl, hclosed⟩
  split_ifs with hok
  · exact Moves.ret (by rintro ⟨⟩)
  obtain ⟨first, -, -, blocks, rest, -, -, hcontent⟩ := hstream (hclosed (Rc.ok_of_ne_err hok))
  have hhash : (hashAgrees fuel tmp (expectedHash first_block end_header)).Moves
      (Kernel cwd mayFail) (Tidy fun n => n = resolve cwd tmp) _ w4 :=
    moves_hashAgrees _ fuel tmp _ hcontent
  apply (hhash.mono (fun _ _ h => h.hears) fun _ _ _ h => h).bind
  rintro agrees w5 - ⟨rfl, -⟩
  split_ifs
  · exact Moves.ret (by rintro ⟨⟩)
  · exact Moves.ret fun _ => ⟨_, hcontent⟩

/-! ## The stream in a run -/

/-- The version that could be saved before the stream still can after it. -/
theorem savable_of_receivePartial (hdst : currentPath root rel = some dst)
    (htmp : syncingPath dst = some tmp) (hg : w.tree.Grounded)
    (hleads : ∀ d, d ≠ [] → Leads d (versionsBase root) → w.tree.IsDir (resolve env.cwd d))
    (hdirs : KeepsDirs (NamedBy env.cwd (parentDirs dst)) w w')
    (htouch : w.tree.Touches (fun n => n = resolve env.cwd tmp) w'.tree)
    (h : Savable env w.tree root rel) : Savable env w'.tree root rel := by
  apply h.of_same (hdirs.2.1 hg)
  intro q hq
  have hne : ¬ q = resolve env.cwd tmp := by
    rintro rfl
    rw [resolve_syncingPath hdst htmp] at hq
    exact not_inArea (by decide) hq
  rcases hdirs.2.2.lookup_cases htouch hne with hsame | ⟨hnone, -, hmade⟩
  · exact hsame
  · exact absurd hmade (not_made_version hdst hleads hq hnone)

/-- Writing to the temporary file alone. -/
theorem replaces_of_touches (hg : w.tree.Grounded → w'.tree.Grounded)
    (h : w.tree.Touches (fun n => n = currentNode env.cwd root (relNames (rel ++ syncingSuffix)))
      w'.tree) : Replaces env root rel w w' := by
  refine ⟨fun hgw => ⟨hg hgw, fun q c hq hc => ?_⟩, fun c d _ hd => Or.inl ?_, fun c hc => Or.inl ?_⟩
  · exact (h.content fun heq => hq (Or.inl (Or.inr heq))).trans hc
  · exact (h.content (stored_ne_current (Or.inl rfl))).trans hd
  · exact (h.content syncing_ne_current).trans hc

/-- Where `current/rel` is a file, a version of it can be saved. -/
def CanSave (env : Env) (tree : Tree) (root rel : Bytes) : Prop :=
  (∃ c, tree.content (currentNode env.cwd root (relNames rel)) = some c) →
    Savable env tree root rel ∧
      ∀ d, d ≠ [] → Leads d (versionsBase root) → tree.IsDir (resolve env.cwd d)

theorem ran_blockStreamCritical {first_block : SyncHeader} {r : Except Bytes Unit}
    (hg : w.tree.Grounded) (hpaths : uploadPaths root rel = some (dst, tmp))
    (hsave : CanSave env w.tree root rel)
    (hexec : Exec (Prog.Graph (posix env)) (blockStreamCritical fuel first_block root rel dst tmp) w
      r w') : Replaces env root rel w w' := by
  obtain ⟨hdst, htmp⟩ := uploadPaths_eq_some hpaths
  have htmpNode : resolve env.cwd tmp = currentNode env.cwd root (relNames (rel ++ syncingSuffix)) :=
    resolve_syncingPath hdst htmp
  rw [blockStreamCritical_eq] at hexec
  obtain ⟨received, w1, hreceive, hrest⟩ := exec_bind.mp hexec
  have hkeep : (receivePartial fuel first_block dst tmp).Moves
      (Kernel env.cwd fun _ _ => False) _ _ w := keepsDirs_receivePartial first_block
  have hmoves : (receivePartial fuel first_block dst tmp).Moves
      (Kernel env.cwd fun _ _ => False) _ _ w := moves_receivePartial first_block
  obtain ⟨hdirs, -⟩ := hkeep.ran hreceive
  obtain ⟨⟨htouch, -⟩, hdata⟩ := hmoves.ran hreceive
  have hbefore := htouch.mono fun n hn => hn.trans htmpNode
  cases received with
  | error e =>
      obtain ⟨-, rfl⟩ := exec_ret hrest
      exact replaces_of_touches hdirs.1 hbefore
  | ok _ =>
      obtain ⟨data, hdata⟩ := hdata rfl
      obtain ⟨rc, w2, hbackup, hpublish⟩ := exec_bind.mp hrest
      have hg1 := hdirs.1 hg
      obtain ⟨hg2, hkept⟩ := (ran_backupOldVersion hg1 hdst hbackup).1 hg1
      have hdata2 : w2.tree.content (resolve env.cwd tmp) = some data := by
        apply hkept _ data _ hdata
        rw [htmpNode]
        exact not_overwritten_current
      obtain ⟨published, w3, hpub, hend⟩ := exec_bind.mp hpublish
      have hspares : (publish fuel first_block tmp dst).Moves (Kernel env.cwd fun _ _ => False)
          _ _ w2 := spares_publish first_block hdata2
      have hafter := (hspares.ran hpub).1
      have hw : w' = w3 := by
        split_ifs at hend
        · exact (exec_ret hend).2
        · exact (exec_ret hend).2
      subst hw
      apply replaces_of_parts hdst hg1 hbefore hbackup
        (hafter.mono fun n hn => currentNodes_of_paths hdst htmp hn)
      intro old hold _
      right
      have hold0 : w.tree.content (currentNode env.cwd root (relNames rel)) = some old := by
        rw [← hold]
        exact (htouch.content fun heq => syncing_ne_current (heq.trans htmpNode)).symm
      obtain ⟨hsavable, hleads⟩ := hsave ⟨old, hold0⟩
      have hsavable1 := savable_of_receivePartial hdst htmp hg hleads hdirs htouch hsavable
      exact ⟨ran_backupOldVersion_ok hdst hold hsavable1 hbackup,
        (hsavable1.plain hdst).names_file⟩

theorem ran_handleLargeBlockStream {first_block : SyncHeader} {rc : Rc} (hg : w.tree.Grounded)
    (hsave : CanSave env w.tree root rel)
    (hexec : Exec (Prog.Graph (posix env)) (handleLargeBlockStream fuel first_block root rel) w rc
      w') : Spares (fun _ => False) w w' ∨ Replaces env root rel w w' := by
  unfold handleLargeBlockStream at hexec
  cases hpaths : uploadPaths root rel with
  | none =>
      rw [hpaths] at hexec
      exact Or.inl ((refl_of (Spares _) w).tree_eq (ran_refusal hexec))
  | some paths =>
      obtain ⟨dst, tmp⟩ := paths
      rw [hpaths] at hexec
      obtain ⟨outcome, w1, hcritical, htree⟩ := ran_critical (f := id) hexec
      exact Or.inr ((ran_blockStreamCritical hg hpaths hsave hcritical).tree_eq htree)

end BlockStream

end MiniSync
