import MiniSync.FaultFree
import MiniSync.Files.MadeDirs
import MiniSync.Session

/-!
# A copy is complete or has not happened

`copy_file_atomic` writes to a temporary file and renames it.  On one file system
its result says which of the two is the case, whatever else fails on the way.
-/

namespace MiniSync

open Prog

/-! ## The temporary file -/

theorem resolve_syncing_ne {cwd : TreePath} {dst tmp : Bytes} (h : syncingPath dst = some tmp) :
    resolve cwd tmp ≠ resolve cwd dst := by
  obtain ⟨rfl, -⟩ := syncingPath_eq_some.mp h
  have hstart : ((dst ++ syncingSuffix).head? = some slash) = (dst.head? = some slash) := by
    cases dst with
    | nil => exact eq_iff_iff.mpr (by decide)
    | cons c cs => rfl
  unfold resolve
  simp only [hstart]
  exact PosixPath.walk_append_suffix_ne (by decide) (by decide)

theorem parentDirs_syncing {dst tmp : Bytes} (h : syncingPath dst = some tmp) :
    parentDirs tmp = parentDirs dst := by
  obtain ⟨rfl, -⟩ := syncingPath_eq_some.mp h
  unfold parentDirs
  rw [parentPart_append_of_notMem (by decide)]

/-! ## All or nothing -/

/-- What the result of `copy_file_atomic` says, for a source that held `data`. -/
structure AllOrNothing (cwd : TreePath) (dst data : Bytes) (w : World) (rc : Rc) (w' : World) :
    Prop where
  copied : rc = .ok → w'.tree.content (resolve cwd dst) = some data
  tmp_gone : rc = .ok → ∀ tmp, syncingPath dst = some tmp → w'.tree.lookup (resolve cwd tmp) = none
  /-- The target is as it was, unless it was not there and is itself one of the
  directories on the way to the temporary file. -/
  kept : rc = .err → w'.tree.lookup (resolve cwd dst) = w.tree.lookup (resolve cwd dst) ∨
    (w.tree.lookup (resolve cwd dst) = none ∧ w'.tree.lookup (resolve cwd dst) = some .dir ∧
      NamedBy cwd (parentDirs dst) (resolve cwd dst))
  /-- The files other than the two are as they were. -/
  others : ∀ q, q ≠ resolve cwd dst →
    (∀ tmp, syncingPath dst = some tmp → q ≠ resolve cwd tmp) →
      w'.tree.content q = w.tree.content q

section AtomicCopy

variable {cwd : TreePath} {mayFail : Call TreePath → Errno → Prop} {w w' : World} {fuel : Nat}
  {src dst tmp data : Bytes}

/-- Nothing but the temporary file has changed, except for directories on the way. -/
def OnlyTmp (cwd : TreePath) (dst tmp : Bytes) (w w' : World) : Prop :=
  w.tree.Touches (· = resolve cwd tmp) w'.tree ∧
    w.tree.MakesIn (NamedBy cwd (parentDirs dst)) w'.tree

instance (dst tmp : Bytes) : IsPreorder World (OnlyTmp cwd dst tmp) where
  refl w := ⟨.refl _ w.tree, .refl _ w.tree⟩
  trans _ _ _ h h' := ⟨h.1.trans h'.1, h.2.trans h'.2⟩

theorem OnlyTmp.failed (htmp : syncingPath dst = some tmp) (h : OnlyTmp cwd dst tmp w w') :
    AllOrNothing cwd dst data w .err w' := by
  refine ⟨nofun, nofun, fun _ => ?_, fun q _ hq => h.1.content (hq tmp htmp)⟩
  exact h.2.lookup_cases h.1 (resolve_syncing_ne htmp).symm

/-- Every failure ends by removing the temporary file. -/
theorem safe_unlinkTmp (htmp : syncingPath dst = some tmp) {w₀ : World}
    (h : OnlyTmp cwd dst tmp w₀ w) :
    (do
      let _ ← sys (.unlink tmp)
      return .err : Sys TreePath Rc).Safe (Kernel cwd mayFail) (fun _ => True)
        (AllOrNothing cwd dst data w₀) w := by
  apply Safe.op_bind
  intro r w' hK
  refine ⟨trivial, OnlyTmp.failed htmp (trans_of (OnlyTmp cwd dst tmp) h ?_)⟩
  rcases hK.unlinkCases with ⟨-, rfl⟩ | ⟨-, -, hunlink⟩
  · exact refl_of (OnlyTmp cwd dst tmp) w'
  · exact ⟨.unlink rfl hunlink, .unlink hunlink⟩

theorem onlyTmp_copyFilePlain (htmp : syncingPath dst = some tmp) (hg : w.tree.Grounded)
    (hne : resolve cwd src ≠ resolve cwd tmp) :
    (copyFilePlain fuel src tmp).Safe (Kernel cwd mayFail) (fun _ => True)
      (fun rc w' => OnlyTmp cwd dst tmp w w' ∧ w'.tree.Grounded ∧
        (rc = .ok → ∃ data, w.tree.content (resolve cwd src) = some data ∧
          w'.tree.content (resolve cwd tmp) = some data)) w := by
  have hcopy : (copyFilePlain fuel src tmp).Moves (Kernel cwd mayFail) _ _ w :=
    moves_copyFilePlain hne
  have hmakes : (copyFilePlain fuel src tmp).Moves (Kernel cwd mayFail) _ _ w :=
    makes_copyFilePlain fuel src tmp
  have hsettled : (copyFilePlain fuel src tmp).Moves (Kernel cwd mayFail) Settled _ w :=
    moves_settled (all_copyFilePlain fuel src tmp)
  apply ((hcopy.and hmakes).and hsettled).moved.post
  rintro rc w' ⟨htidy, ⟨hcopied, hmade, -⟩, hset, -⟩
  rw [parentDirs_syncing htmp] at hmade
  exact ⟨⟨htidy.1, hmade⟩, (hset hg).1, hcopied⟩

/-- The rename of the temporary file. -/
theorem safe_renameTmp (htmp : syncingPath dst = some tmp) (hg : w.tree.Grounded)
    (hdata : w.tree.content (resolve cwd tmp) = some data)
    (hxdev : ¬ mayFail (.rename tmp dst) .xdev) :
    (safeRenameOrCopyUnlink fuel tmp dst).Safe (Kernel cwd mayFail) (fun _ => True)
      (fun rc w' => (rc = .err → OnlyTmp cwd dst tmp w w') ∧
        (rc = .ok → FileTree.Touches (fun q => q = resolve cwd tmp ∨ q = resolve cwd dst)
            w.tree w'.tree ∧ w'.tree.lookup (resolve cwd tmp) = none ∧
          w'.tree.content (resolve cwd dst) = some data)) w := by
  have hmake : (ensureParentDirExists dst).Moves (Kernel cwd mayFail) _ _ w :=
    moves_ensureParentDirExists (fun _ => False) dst
  have hmakes : (ensureParentDirExists dst).Moves (Kernel cwd mayFail) _ _ w :=
    makes_ensureParentDirExists dst
  have hsettled : (ensureParentDirExists dst).Moves (Kernel cwd mayFail) Settled _ w :=
    moves_settled (all_ensureParentDirExists dst fun _ => not_false)
  apply ((hmake.and hmakes).and hsettled).moved.bind
  rintro made w1 ⟨htidy, ⟨-, hmade, -⟩, hset, -⟩
  have honly : OnlyTmp cwd dst tmp w w1 := ⟨htidy.1.mono fun _ h => h.elim, hmade⟩
  have hdata1 : w1.tree.content (resolve cwd tmp) = some data :=
    (htidy.content not_false).trans hdata
  cases made with
  | err => exact ⟨fun _ => honly, by rintro ⟨⟩⟩
  | ok =>
      apply Safe.op_bind
      intro r w2 hK
      refine ⟨trivial, ?_⟩
      rcases hK.renameCases with ⟨⟨e, rfl, hmay⟩, rfl⟩ | ⟨rfl, -, hren⟩
      · split
        · rename_i heq
          cases heq
        · rename_i heq
          exact absurd (hmay (Except.error.inj heq)) hxdev
        · exact ⟨fun _ => honly, by rintro ⟨⟩⟩
      · have hmoved := FileTree.Touches.rename_file (hset hg).1 hdata1 hren
        refine ⟨by rintro ⟨⟩, fun _ => ⟨(htidy.1.mono fun _ h => h.elim).trans hmoved,
          FileTree.lookup_rename_src hren (resolve_syncing_ne htmp), ?_⟩⟩
        rw [← hdata1]
        unfold FileTree.content
        rw [FileTree.lookup_rename_dst hren]

/-- A copy writes to its temporary file, and to `dst` where it succeeds. -/
theorem safe_copyFileAtomic_touches (htmp : syncingPath dst = some tmp) (hg : w.tree.Grounded)
    (hne : resolve cwd src ≠ resolve cwd tmp) (hxdev : ¬ mayFail (.rename tmp dst) .xdev) :
    (copyFileAtomic fuel src dst).Safe (Kernel cwd mayFail) (fun _ => True)
      (fun rc w' => (rc = .err → w.tree.Touches (fun q => q = resolve cwd tmp) w'.tree) ∧
        (rc = .ok → ∃ data, w.tree.content (resolve cwd src) = some data ∧
          w.tree.Touches (fun q => q = resolve cwd tmp ∨ q = resolve cwd dst) w'.tree ∧
          w'.tree.lookup (resolve cwd tmp) = none ∧
          w'.tree.content (resolve cwd dst) = some data)) w := by
  have hunlink {w1 : World} (h : OnlyTmp cwd dst tmp w w1) : (do
      let _ ← sys (.unlink tmp)
      return .err : Sys TreePath Rc).Safe (Kernel cwd mayFail) (fun _ => True)
        (fun rc w' => rc = .err ∧ w.tree.Touches (fun q => q = resolve cwd tmp) w'.tree) w1 := by
    apply Safe.op_bind
    intro r w2 hK
    refine ⟨trivial, rfl, h.1.trans ?_⟩
    rcases hK.unlinkCases with ⟨-, rfl⟩ | ⟨-, -, hun⟩
    · exact .refl _ w2.tree
    · exact .unlink rfl hun
  unfold copyFileAtomic
  rw [htmp]
  apply (onlyTmp_copyFilePlain htmp hg hne).bind
  rintro copied w1 ⟨honly, hg1, hcopied⟩
  cases copied with
  | err =>
      apply (hunlink honly).post
      rintro rc w2 ⟨rfl, htouch⟩
      exact ⟨fun _ => htouch, by rintro ⟨⟩⟩
  | ok =>
      obtain ⟨data, hsrc, hdata⟩ := hcopied rfl
      apply (safe_renameTmp htmp hg1 hdata hxdev).bind
      rintro renamed w2 ⟨hfailed, hrenamed⟩
      cases renamed with
      | err =>
          apply (hunlink (trans_of (OnlyTmp cwd dst tmp) honly (hfailed rfl))).post
          rintro rc w3 ⟨rfl, htouch⟩
          exact ⟨fun _ => htouch, by rintro ⟨⟩⟩
      | ok =>
          obtain ⟨htouch, hgone, hdst⟩ := hrenamed rfl
          have hboth := (honly.1.mono fun _ => Or.inl).trans htouch
          exact ⟨by rintro ⟨⟩, fun _ => ⟨data, hsrc, hboth, hgone, hdst⟩⟩

/-- On one file system a copy is complete or has not happened, whichever calls
fail or come up short. -/
theorem copyFileAtomic_all_or_nothing (hg : w.tree.Grounded)
    (hsrc : w.tree.content (resolve cwd src) = some data)
    (hdst : resolve cwd src ≠ resolve cwd dst)
    (htmp : ∀ tmp, syncingPath dst = some tmp → resolve cwd src ≠ resolve cwd tmp)
    (hxdev : ∀ old new, ¬ mayFail (.rename old new) .xdev) :
    (copyFileAtomic fuel src dst).Safe (Kernel cwd mayFail) (fun _ => True)
      (fun rc w' => AllOrNothing cwd dst data w rc w' ∧
        w'.tree.content (resolve cwd src) = some data) w := by
  have hwhole : (copyFileAtomic fuel src dst).Safe (Kernel cwd mayFail) (fun _ => True)
      (AllOrNothing cwd dst data w) w := by
    unfold copyFileAtomic
    cases hpath : syncingPath dst with
    | none => exact ⟨nofun, nofun, fun _ => Or.inl rfl, fun _ _ _ => rfl⟩
    | some tmp =>
        apply (onlyTmp_copyFilePlain hpath hg (htmp tmp hpath)).bind
        rintro copied w1 ⟨honly, hg1, hcopied⟩
        cases copied with
        | err => exact safe_unlinkTmp hpath honly
        | ok =>
            obtain ⟨got, hgot, hdata⟩ := hcopied rfl
            rw [hsrc] at hgot
            cases hgot
            apply (safe_renameTmp hpath hg1 hdata (hxdev tmp dst)).bind
            rintro renamed w2 ⟨hfailed, hdone⟩
            cases renamed with
            | err => exact safe_unlinkTmp hpath (trans_of (OnlyTmp cwd dst tmp) honly (hfailed rfl))
            | ok =>
                obtain ⟨hmoved, hgone, hnew⟩ := hdone rfl
                have htouch := (honly.1.mono fun _ h => Or.inl h).trans hmoved
                refine ⟨fun _ => hnew, fun _ tmp' h => ?_, nofun, fun q hq hqtmp => ?_⟩
                · cases hpath.symm.trans h
                  exact hgone
                · apply htouch.content
                  rw [not_or]
                  exact ⟨hqtmp tmp hpath, hq⟩
  apply hwhole.post
  intro rc w' h
  exact ⟨h, (h.others _ hdst htmp).trans hsrc⟩

end AtomicCopy

/-! ## One file -/

/-- The file `a` and nothing else. -/
def onlyFileA : World := ⟨⟨[([ascii "a"], .file [7, 8])]⟩, hearing []⟩

/-- The copy to `d/` fails and leaves a directory `d` behind. -/
theorem copyFileAtomic_makes_target :
    ((copyFileAtomic 8 (ascii "a") (ascii "d/")).run (posix ⟨[], ⟨126, 1, 2, 3, 4, 5⟩⟩)
      onlyFileA).map (fun r => (r.1, onlyFileA.tree.lookup (resolve [] (ascii "d/")),
        r.2.tree.lookup (resolve [] (ascii "d/")))) = some (.err, none, some .dir) := by
  decide +kernel

theorem copyFileAtomic_all_or_nothing_ab :
    ∃ w', (copyFileAtomic 8 (ascii "a") (ascii "b")).run (posix ⟨[], ⟨126, 1, 2, 3, 4, 5⟩⟩)
        onlyFileA = some (.ok, w') ∧
      AllOrNothing [] (ascii "b") [7, 8] onlyFileA .ok w' ∧
        w'.tree.content (resolve [] (ascii "a")) = some [7, 8] := by
  have hok : ((copyFileAtomic 8 (ascii "a") (ascii "b")).run
      (posix ⟨[], ⟨126, 1, 2, 3, 4, 5⟩⟩) onlyFileA).map Prod.fst = some .ok := by decide +kernel
  obtain ⟨⟨_, w'⟩, hrun, rfl⟩ := Option.map_eq_some_iff.mp hok
  refine ⟨w', hrun, ?_⟩
  have hgrounded : onlyFileA.tree.Grounded := FileTree.grounded_of_entries (by decide)
  have htmp : ∀ tmp, syncingPath (ascii "b") = some tmp →
      resolve [] (ascii "a") ≠ resolve [] tmp := by
    intro tmp h
    have hb : syncingPath (ascii "b") = some (ascii "b.syncing") := by decide
    cases hb.symm.trans h
    decide
  have hsafe := @copyFileAtomic_all_or_nothing [] (fun _ _ => False) onlyFileA 8 (ascii "a")
    (ascii "b") [7, 8] hgrounded (by decide) (by decide) htmp fun _ _ => not_false
  exact hsafe.of_run (posix_covered ⟨[], ⟨126, 1, 2, 3, 4, 5⟩⟩) hrun

end MiniSync
