import MiniSync.Files.AtomicCopy
import MiniSync.Fuel
import MiniSync.History.Version
import MiniSync.Server.Refusals

/-!
# Uploads in a run

What an upload that reports success, with nothing going wrong in the kernel, writes to,
and where it leaves what it replaced.
-/

namespace MiniSync

open Prog

/-! ## Places -/

/-- `current/q` -/
def currentNode (cwd : TreePath) (root : Bytes) (q : TreePath) : TreePath :=
  storeRoot cwd root ++ currentName :: q

/-- `root/<area>/<stamp>/q` -/
def storedNode (cwd : TreePath) (root area stamp : Bytes) (q : TreePath) : TreePath :=
  storeRoot cwd root ++ area :: stamp :: q

/-- Some version of `q`, or some `q` in the trash, holds the content. -/
def Kept (cwd : TreePath) (root : Bytes) (tree : Tree) (q : TreePath) (c : Bytes) : Prop :=
  ∃ area stamp, (area = versionsName ∨ area = trashName) ∧
    tree.content (storedNode cwd root area stamp q) = some c

section Runs

variable {env : Env} {w w' : World} {fuel : Nat} {root rel dst tmp c : Bytes} {α : Type}
  {A : World → Prop} {Q : α → World → Prop}

/-- What is safe against the kernel holds at the end of a run. -/
theorem Prog.Safe.ran {p : Sys TreePath α} {a : α}
    (h : p.Safe (Kernel env.cwd fun _ _ => False) A Q w)
    (hexec : Exec (Prog.Graph (posix env)) p w a w') : Q a w' :=
  (h.narrow fun _ _ _ _ hG => Or.inl ⟨env.now, hG⟩).exec hexec

theorem Prog.Moves.ran {S : World → World → Prop} {p : Sys TreePath α} {a : α}
    (h : p.Moves (Kernel env.cwd fun _ _ => False) S Q w)
    (hexec : Exec (Prog.Graph (posix env)) p w a w') : S w w' ∧ Q a w' :=
  Safe.ran h hexec

theorem kernel_of_ran {c : Call TreePath} {r : Resp c}
    (h : Prog.Graph (posix env) c w r w') : Kernel env.cwd (fun _ _ => False) c w r w' :=
  Or.inl ⟨env.now, h⟩

/-- The nodes that saving a version of `rel` writes to. -/
def VersionNodes (env : Env) (root rel : Bytes) (n : TreePath) : Prop :=
  n = versionNode env.cwd root rel env.now ∨
    n = storedNode env.cwd root versionsName (timestampDirname env.now)
      (relNames (rel ++ syncingSuffix))

/-- A backup writes to the version of the present time only, and only where there is a
file to save. -/
def Overwritten (env : Env) (root rel : Bytes) (tree : Tree) (n : TreePath) : Prop :=
  (∃ c, tree.content (currentNode env.cwd root (relNames rel)) = some c) ∧
    VersionNodes env root rel n

theorem ran_isDirectory {path : Bytes} {found : Bool}
    (hexec : Exec (Prog.Graph (posix env)) (isDirectory path) w found w') :
    w' = w ∧ (found = true ↔ posixStat env.cwd w.tree path = .ok .directory) := by
  obtain ⟨r, w1, hstat, hret⟩ := exec_bind.mp hexec
  cases exec_op hstat
  cases hstat : posixStat env.cwd w.tree path with
  | error e =>
      rw [hstat] at hret
      obtain ⟨rfl, rfl⟩ := exec_ret hret
      exact ⟨rfl, by simp⟩
  | ok stat =>
      rw [hstat] at hret
      cases stat with
      | directory =>
          obtain ⟨rfl, rfl⟩ := exec_ret hret
          exact ⟨rfl, iff_of_true rfl rfl⟩
      | regular n =>
          obtain ⟨rfl, rfl⟩ := exec_ret hret
          exact ⟨rfl, by simp⟩

/-- What `stat` says where it succeeds. -/
theorem posixStat_eq_ok {cwd : TreePath} {tree : Tree} {path : Bytes} {stat : FileStat}
    (h : posixStat cwd tree path = .ok stat) :
    (stat = .directory ∧ tree.lookup (resolve cwd path) = some .dir) ∨
      ∃ c, stat = .regular c.length ∧ tree.content (resolve cwd path) = some c := by
  unfold posixStat at h
  by_cases hpath : path = []
  · rw [if_pos hpath] at h
    cases h
  rw [if_neg hpath] at h
  split at h
  · cases h
  · cases h
    exact Or.inl ⟨rfl, ‹_›⟩
  · rename_i c hfile
    split_ifs at h
    cases h
    exact Or.inr ⟨c, rfl, FileTree.content_eq_some.mpr hfile⟩

/-- What a backup in a run writes to, what becomes of the version of the present time, and
what it saves where it reports success. -/
theorem ran_backupOldVersion {rc : Rc} (hg : w.tree.Grounded)
    (hdst : currentPath root rel = some dst)
    (hexec : Exec (Prog.Graph (posix env)) (backupOldVersion fuel root rel) w rc w') :
    Spares (Overwritten env root rel w.tree) w w' ∧
      (∀ c d, w.tree.content (currentNode env.cwd root (relNames rel)) = some c →
        w.tree.content (versionNode env.cwd root rel env.now) = some d →
        w'.tree.content (versionNode env.cwd root rel env.now) = some d ∨
          w'.tree.content (versionNode env.cwd root rel env.now) = some c) ∧
      (rc = .ok → asksForDir dst = false →
        ∀ c, w.tree.content (currentNode env.cwd root (relNames rel)) = some c →
          w'.tree.content (versionNode env.cwd root rel env.now) = some c) := by
  have hrel := (currentPath_eq_some hdst).1
  have hnode : resolve env.cwd dst = currentNode env.cwd root (relNames rel) :=
    resolve_currentPath hdst
  unfold backupOldVersion at hexec
  rw [hdst] at hexec
  obtain ⟨found, w1, haccess, hfound⟩ := exec_bind.mp hexec
  cases exec_op haccess
  clear hexec haccess
  cases hstat : posixStat env.cwd w.tree dst with
  | error e =>
      rw [hstat] at hfound
      obtain ⟨rfl, rfl⟩ := exec_ret hfound
      refine ⟨refl_of (Spares _) w', fun _ _ _ hd => Or.inl hd, fun _ hask c hc => ?_⟩
      have hne : dst ≠ [] := by
        obtain ⟨-, -, rfl, -⟩ := currentPath_eq_some hdst
        simp
      unfold posixStat at hstat
      rw [if_neg hne, hnode, FileTree.content_eq_some.mp hc] at hstat
      dsimp only at hstat
      rw [if_neg (by rw [hask]; exact Bool.false_ne_true)] at hstat
      cases hstat
  | ok stat =>
      rw [hstat] at hfound
      obtain ⟨stamp, w2, hmade, hsave⟩ := exec_bind.mp hfound
      obtain ⟨rfl, hstamp⟩ := returns_makeTimestampDirname.exec hmade
      clear hfound hmade
      split at hsave
      · obtain ⟨rfl, rfl⟩ := exec_ret hsave
        exact ⟨refl_of (Spares _) w', fun _ _ _ hd => Or.inl hd, by rintro ⟨⟩⟩
      rename_i version hversion
      obtain ⟨s, hs, hpath⟩ := Option.bind_eq_some_iff.mp hversion
      rw [hstamp s hs] at hpath
      obtain ⟨isDir, w3, hasked, hexec⟩ := exec_bind.mp hsave
      obtain ⟨rfl, hdir⟩ := ran_isDirectory hasked
      cases stat with
      | directory =>
          rw [hdir.mpr hstat] at hexec
          have hmake : (ensureDirExists version).Moves (Kernel env.cwd fun _ _ => False)
              (Tidy fun _ => False) _ w3 := moves_ensureDirExists _ version
          have hspared := ((hmake.spares fun _ h => h.1).ran hexec).1
          refine ⟨hspared.mono fun _ hf => hf.elim,
            fun _ d _ hd => Or.inl ((hspared hg).2 _ d not_false hd), fun _ _ c hc => ?_⟩
          rcases posixStat_eq_ok hstat with ⟨-, hlookup⟩ | ⟨_, hfile, -⟩
          · rw [hnode, FileTree.content_eq_some.mp hc] at hlookup
            cases hlookup
          · cases hfile
      | regular n =>
          have hfound : isDir = false := by
            rw [← Bool.not_eq_true, hdir, hstat]
            intro h
            cases h
          rw [hfound] at hexec
          obtain ⟨⟨⟩, -⟩ | ⟨old, -, hold⟩ := posixStat_eq_ok hstat
          have hversionNode : resolve env.cwd version = versionNode env.cwd root rel env.now :=
            resolve_stampedPath name_versionsName (name_timestampDirname env.now) hrel hpath
          cases htmp : syncingPath version with
          | none =>
              unfold copyFileAtomic at hexec
              rw [htmp] at hexec
              obtain ⟨rfl, rfl⟩ := exec_ret hexec
              exact ⟨refl_of (Spares _) w', fun _ _ _ hd => Or.inl hd, by rintro ⟨⟩⟩
          | some tmp =>
              have htmpNode : resolve env.cwd tmp = storedNode env.cwd root versionsName
                  (timestampDirname env.now) (relNames (rel ++ syncingSuffix)) :=
                resolve_stampedPath_syncing name_versionsName (name_timestampDirname env.now) hrel
                  hpath htmp
              have htmpArea : InArea env.cwd root versionsName (resolve env.cwd tmp) := by
                rw [htmpNode]
                exact inArea_cons
              have hout : ¬ InArea env.cwd root versionsName (resolve env.cwd dst) :=
                not_inArea_current hdst (by decide)
              have hspared : (copyFileAtomic fuel dst version).Moves
                  (Kernel env.cwd fun _ _ => False) _ _ w3 := spares_copyFileAtomic htmp
              have hcopied : (copyFileAtomic fuel dst version).Moves
                  (Kernel env.cwd fun _ _ => False) _ _ w3 :=
                moves_copyFileAtomic htmp (fun h => hout (htmpArea.of_under h))
                  (resolve_stampedPath_syncing_ne name_versionsName
                    (name_timestampDirname env.now) hrel hpath htmp)
              have hcopy : (copyFileAtomic fuel dst version).Safe (Kernel env.cwd fun _ _ => False)
                  _ _ w3 := safe_copyFileAtomic_touches htmp hg (fun heq => hout (heq ▸ htmpArea))
                    not_false
              have hfailed := (hcopy.ran hexec).1
              have hsaved (hok : rc = .ok) {c : Bytes}
                  (hc : w3.tree.content (currentNode env.cwd root (relNames rel)) = some c) :
                  w'.tree.content (versionNode env.cwd root rel env.now) = some c := by
                obtain ⟨data, hdata, hsaved⟩ := (hcopied.ran hexec).2 hok
                rw [hnode, hc] at hdata
                cases hdata
                rw [← hversionNode]
                exact hsaved
              refine ⟨(hspared.ran hexec).1.mono ?_, fun c d hc hd => ?_, fun hok _ c => hsaved hok⟩
              · rintro n (rfl | rfl)
                · exact ⟨⟨old, hnode ▸ hold⟩, Or.inr htmpNode⟩
                · exact ⟨⟨old, hnode ▸ hold⟩, Or.inl hversionNode⟩
              · cases rc with
                | ok => exact Or.inr (hsaved rfl hc)
                | err =>
                    left
                    rw [← hd]
                    apply (hfailed rfl).content
                    rw [← hversionNode]
                    exact (resolve_stampedPath_syncing_ne name_versionsName
                      (name_timestampDirname env.now) hrel hpath htmp).symm

/-! ## Paths that name no file -/

/-- The temporary file next to what only a directory can be lies in that directory. -/
theorem names_append_of_mustBeDir {β : Type} [DecidableEq β] {sep dot : β} {s x : List β}
    (hx : sep ∉ x) (hlong : 1 < x.length) (hdir : PosixPath.mustBeDir sep dot s = true)
    (hdots : [dot, dot] ∉ s.splitOn sep) :
    ∃ name, PosixPath.names sep dot (s ++ x) = PosixPath.names sep dot s ++ [name] := by
  obtain ⟨init, last, -, hs, hnew⟩ := PosixPath.splitOn_append_of_notMem (s := s) hx
  unfold PosixPath.mustBeDir at hdir
  rw [hs, List.getLastD_concat, decide_eq_true_eq] at hdir
  have hlast : ¬ (last ≠ [] ∧ last ≠ [dot]) := by
    rintro ⟨hnil, hdot⟩
    simp only [List.mem_cons, hnil, hdot, List.not_mem_nil, or_false, false_or] at hdir
    rw [hs, hdir] at hdots
    exact hdots (by simp)
  have hname : last ++ x ≠ [] ∧ last ++ x ≠ [dot] := by
    constructor <;>
    · intro h
      have hlen := congrArg List.length h
      simp only [List.length_append, List.length_nil, List.length_singleton] at hlen
      omega
  refine ⟨last ++ x, ?_⟩
  unfold PosixPath.names
  rw [hs, hnew, List.filter_append, List.filter_append, List.filter_cons_of_pos,
    List.filter_cons_of_neg (by simpa using hlast), List.filter_nil, List.append_nil]
  exact decide_eq_true hname

theorem mustBeDir_below (x rel : Bytes) :
    PosixPath.mustBeDir slash dot (x ++ slash :: rel) = PosixPath.mustBeDir slash dot rel := by
  have hne : rel.splitOn slash ≠ [] := List.splitOn_ne_nil slash rel
  unfold PosixPath.mustBeDir
  rw [List.splitOn_append_cons_self, List.getLastD_eq_getLast?, List.getLastD_eq_getLast?,
    List.getLast?_append_of_ne_nil _ hne]

theorem asksForDir_currentPath (hdst : currentPath root rel = some dst) :
    asksForDir dst = PosixPath.mustBeDir slash dot rel := by
  obtain ⟨-, -, rfl, -⟩ := currentPath_eq_some hdst
  exact mustBeDir_below _ rel

/-- Where `current/rel` is a file that the path does not name, the temporary file cannot
be opened. -/
theorem not_opened_syncing (trunc : Bool) (hdst : currentPath root rel = some dst)
    (htmp : syncingPath dst = some tmp) (hask : asksForDir dst = true) (hg : w.tree.Grounded)
    (hc : w.tree.content (currentNode env.cwd root (relNames rel)) = some c) :
    ∃ e, posixOpenWrite env.cwd w.tree tmp trunc = (.error e, w.tree) := by
  have hrel := (currentPath_eq_some hdst).1
  rw [asksForDir_currentPath hdst] at hask
  obtain ⟨name, hname⟩ := names_append_of_mustBeDir (x := syncingSuffix) (by decide)
    (by decide) hask hrel.no_dotdot
  have hnode : resolve env.cwd tmp = currentNode env.cwd root (relNames rel) ++ [name] := by
    rw [resolve_syncingPath hdst htmp, relNames, hname]
    simp [currentNode, relNames]
  have hfile := FileTree.content_eq_some.mp hc
  have hnone : w.tree.lookup (resolve env.cwd tmp) = none := by
    rw [hnode]
    exact hg.lookup_of_under (by rw [hfile]; nofun) (List.prefix_append _ _) (by simp)
  have hparent : ¬ w.tree.parentIsDir (resolve env.cwd tmp) := by
    unfold FileTree.parentIsDir
    rw [hnode, List.dropLast_concat, hfile]
    nofun
  unfold posixOpenWrite
  dsimp only
  rw [hnone]
  dsimp only
  split_ifs
  · exact ⟨_, rfl⟩
  · exact ⟨_, rfl⟩
  · exact ⟨_, rfl⟩

/-! ## Uploads in a run -/

/-- `current/rel` and its temporary file. -/
def CurrentNodes (cwd : TreePath) (root rel : Bytes) (n : TreePath) : Prop :=
  n = currentNode cwd root (relNames rel) ∨
    n = currentNode cwd root (relNames (rel ++ syncingSuffix))

/-- An upload of `rel` writes to `current/rel` and to the version of the present time.  Where
`current/rel` was a file, that version stays or holds its content, and holds it if the
file did not keep it. -/
structure Replaces (env : Env) (root rel : Bytes) (w w' : World) : Prop where
  spares : Spares (fun n => CurrentNodes env.cwd root rel n ∨ Overwritten env root rel w.tree n) w w'
  stored : ∀ c d, w.tree.content (currentNode env.cwd root (relNames rel)) = some c →
    w.tree.content (versionNode env.cwd root rel env.now) = some d →
    w'.tree.content (versionNode env.cwd root rel env.now) = some d ∨
      w'.tree.content (versionNode env.cwd root rel env.now) = some c
  saved : ∀ c, w.tree.content (currentNode env.cwd root (relNames rel)) = some c →
    w'.tree.content (currentNode env.cwd root (relNames rel)) = some c ∨
      w'.tree.content (versionNode env.cwd root rel env.now) = some c

theorem stored_ne_current {cwd q q' : TreePath} {area stamp : Bytes}
    (harea : area = versionsName ∨ area = trashName) :
    storedNode cwd root area stamp q ≠ currentNode cwd root q' := by
  intro h
  have htail := List.append_cancel_left h
  rw [List.cons.injEq] at htail
  rcases harea with rfl | rfl
  · exact absurd htail.1 (by decide)
  · exact absurd htail.1 (by decide)

theorem storedNode_append {cwd q r : TreePath} {area stamp : Bytes} :
    storedNode cwd root area stamp q ++ r = storedNode cwd root area stamp (q ++ r) := by
  simp [storedNode]

theorem not_currentNodes_stored {cwd q : TreePath} {area stamp : Bytes}
    (harea : area = versionsName ∨ area = trashName) :
    ¬ CurrentNodes cwd root rel (storedNode cwd root area stamp q) := by
  rintro (h | h)
  · exact stored_ne_current harea h
  · exact stored_ne_current harea h

/-- The current file is none of what a backup writes to. -/
theorem not_overwritten_current {tree : Tree} {q : TreePath} :
    ¬ Overwritten env root rel tree (currentNode env.cwd root q) := by
  rintro ⟨-, h | h⟩
  · exact stored_ne_current (Or.inl rfl) h.symm
  · exact stored_ne_current (Or.inl rfl) h.symm

theorem syncing_ne_current {cwd : TreePath} : currentNode cwd root (relNames rel) ≠
    currentNode cwd root (relNames (rel ++ syncingSuffix)) := by
  intro h
  have htail := List.append_cancel_left h
  rw [List.cons.injEq] at htail
  exact relNames_syncing_ne rel htail.2.symm

/-- An upload put together from what comes before the backup, the backup, and the rest. -/
theorem replaces_of_parts {w1 w2 : World} {rc : Rc} (hdst : currentPath root rel = some dst)
    (hg1 : w1.tree.Grounded)
    (hbefore : w.tree.Touches
      (fun n => n = currentNode env.cwd root (relNames (rel ++ syncingSuffix))) w1.tree)
    (hbackup : Exec (Prog.Graph (posix env)) (backupOldVersion fuel root rel) w1 rc w2)
    (hafter : Spares (CurrentNodes env.cwd root rel) w2 w')
    (hsaved : ∀ c, w1.tree.content (currentNode env.cwd root (relNames rel)) = some c →
      w2.tree.content (currentNode env.cwd root (relNames rel)) = some c →
      w'.tree.content (currentNode env.cwd root (relNames rel)) = some c ∨
        (rc = .ok ∧ asksForDir dst = false)) : Replaces env root rel w w' := by
  obtain ⟨hspares, hstored, hok⟩ := ran_backupOldVersion hg1 hdst hbackup
  obtain ⟨hg2, hkept⟩ := hspares hg1
  have hsame : w1.tree.content (currentNode env.cwd root (relNames rel)) =
      w.tree.content (currentNode env.cwd root (relNames rel)) :=
    hbefore.content syncing_ne_current
  have hversion : ¬ CurrentNodes env.cwd root rel (versionNode env.cwd root rel env.now) :=
    not_currentNodes_stored (Or.inl rfl)
  refine ⟨fun _ => ⟨(hafter hg2).1, fun q c hq hc => ?_⟩, fun c d hc hd => ?_, fun c hc => ?_⟩
  · rw [not_or] at hq
    apply (hafter hg2).2 q c hq.1
    apply hkept q c
    · rintro ⟨⟨old, hold⟩, hnodes⟩
      exact hq.2 ⟨⟨old, hsame ▸ hold⟩, hnodes⟩
    · exact (hbefore.content fun h => hq.1 (Or.inr h)).trans hc
  · rw [← hsame] at hc
    have hd1 : w1.tree.content (versionNode env.cwd root rel env.now) = some d :=
      (hbefore.content fun h => hversion (Or.inr h)).trans hd
    rcases hstored c d hc hd1 with h | h
    · exact Or.inl ((hafter hg2).2 _ d hversion h)
    · exact Or.inr ((hafter hg2).2 _ c hversion h)
  · rw [← hsame] at hc
    rcases hsaved c hc (hkept _ c not_overwritten_current hc) with h | ⟨hrc, hask⟩
    · exact Or.inl h
    · exact Or.inr ((hafter hg2).2 _ c hversion (hok hrc hask c hc))

theorem currentNodes_of_paths (hdst : currentPath root rel = some dst)
    (htmp : syncingPath dst = some tmp) {n : TreePath}
    (hn : n = resolve env.cwd tmp ∨ n = resolve env.cwd dst) :
    CurrentNodes env.cwd root rel n := by
  rcases hn with rfl | rfl
  · exact Or.inr (resolve_syncingPath hdst htmp)
  · exact Or.inl (resolve_currentPath hdst)

/-- Where `current/rel` is a file that the path does not name, nothing is copied to it. -/
theorem ran_copyFileAtomic_asks {src : Bytes} {rc : Rc} (hdst : currentPath root rel = some dst)
    (hask : asksForDir dst = true) (hg : w.tree.Grounded)
    (hc : w.tree.content (currentNode env.cwd root (relNames rel)) = some c)
    (hexec : Exec (Prog.Graph (posix env)) (copyFileAtomic fuel src dst) w rc w') :
    rc = .err ∧ w'.tree.content (currentNode env.cwd root (relNames rel)) = some c := by
  unfold copyFileAtomic at hexec
  cases htmp : syncingPath dst with
  | none =>
      rw [htmp] at hexec
      obtain ⟨rfl, rfl⟩ := exec_ret hexec
      exact ⟨rfl, hc⟩
  | some tmp =>
      rw [htmp] at hexec
      obtain ⟨copied, w1, hcopy, hrest⟩ := exec_bind.mp hexec
      have hcopied : copied = .err ∧
          w1.tree.content (currentNode env.cwd root (relNames rel)) = some c := by
        obtain ⟨opened, w2, hopen, hread⟩ := exec_bind.mp hcopy
        obtain rfl := (kernel_of_ran (exec_op hopen)).openRead.1
        cases opened with
        | error e =>
            obtain ⟨rfl, rfl⟩ := exec_ret hread
            exact ⟨rfl, hc⟩
        | ok in_ =>
            obtain ⟨made, w3, hmake, hwrite⟩ := exec_bind.mp hread
            have hmoves : (ensureParentDirExists tmp).Moves (Kernel env.cwd fun _ _ => False)
                (Spares fun _ => False) _ w2 := spares_ensureParentDirExists _ tmp
            obtain ⟨hg3, hkept⟩ := (hmoves.ran hmake).1 hg
            have hc3 := hkept _ c not_false hc
            cases made with
            | err =>
                obtain ⟨_, w4, hclose, hret⟩ := exec_bind.mp hwrite
                cases exec_op hclose
                obtain ⟨rfl, rfl⟩ := exec_ret hret
                exact ⟨rfl, hc3⟩
            | ok =>
                obtain ⟨opened, w4, hopen, hwrite⟩ := exec_bind.mp hwrite
                obtain ⟨e, herr⟩ := not_opened_syncing true hdst htmp hask hg3 hc3
                have hopened := exec_op hopen
                rw [Prog.Graph, posix, posixOpen, herr] at hopened
                cases hopened
                obtain ⟨_, w5, hclose, hret⟩ := exec_bind.mp hwrite
                cases exec_op hclose
                obtain ⟨rfl, rfl⟩ := exec_ret hret
                exact ⟨rfl, hc3⟩
      obtain ⟨rfl, hc1⟩ := hcopied
      obtain ⟨removed, w2, hunlink, hret⟩ := exec_bind.mp hrest
      obtain ⟨rfl, rfl⟩ := exec_ret hret
      refine ⟨rfl, ?_⟩
      have hK := kernel_of_ran (exec_op hunlink)
      rcases hK.unlinkCases with ⟨-, rfl⟩ | ⟨-, -, hun⟩
      · exact hc1
      · have htouch : w1.tree.Touches (fun n => n = resolve env.cwd tmp) w'.tree := .unlink rfl hun
        rw [← hc1]
        apply htouch.content
        rw [resolve_syncingPath hdst htmp]
        exact syncing_ne_current

/-- The copy of the source to `current/rel`, which has to be named by the path if it is a
file. -/
theorem ran_copySource {task : SyncTask} {rc : Rc} (hdst : currentPath root rel = some dst)
    (hg : w.tree.Grounded)
    (hexec : Exec (Prog.Graph (posix env)) (copySource fuel task dst) w rc w') :
    Spares (CurrentNodes env.cwd root rel) w w' ∧
      ∀ c, w.tree.content (currentNode env.cwd root (relNames rel)) = some c →
        w'.tree.content (currentNode env.cwd root (relNames rel)) = some c ∨
          asksForDir dst = false := by
  have hmoves : (copySource fuel task dst).Moves (Kernel env.cwd fun _ _ => False) _ _ w :=
    spares_copySource task dst
  refine ⟨(hmoves.ran hexec).1.mono ?_, fun c hc => ?_⟩
  · rintro n ⟨tmp, htmp, hn⟩
    exact currentNodes_of_paths hdst htmp hn
  · by_cases hask : asksForDir dst = false
    · exact Or.inr hask
    left
    rw [Bool.not_eq_false] at hask
    obtain ⟨before, w1, hhash, hcopy⟩ := exec_bind.mp hexec
    have hquiet : (hashFileFnv1a fuel task.src_path.bytes).Moves
        (Kernel env.cwd fun _ _ => False) _ _ w := spares_hashFileFnv1a (fun _ => False) fuel _
    obtain ⟨-, rfl⟩ := hquiet.ran hhash
    obtain ⟨copied, w2, hcopied, hrest⟩ := exec_bind.mp hcopy
    obtain ⟨rfl, hkept⟩ := ran_copyFileAtomic_asks hdst hask hg hc hcopied
    obtain ⟨-, rfl⟩ := exec_ret hrest
    exact hkept

/-- The checks of the source change nothing. -/
theorem ran_withSourceFile {task : SyncTask} {next : Sys TreePath Rc} {rc : Rc}
    (hexec : Exec (Prog.Graph (posix env)) (withSourceFile task next) w rc w') :
    w' = w ∨ Exec (Prog.Graph (posix env)) next w rc w' := by
  unfold withSourceFile at hexec
  obtain ⟨regular, w1, hregular, hopens⟩ := exec_bind.mp hexec
  have hstat : (isRegularFile task.src_path.bytes).Moves (Kernel env.cwd fun _ _ => False)
      (Tidy fun _ => False) (fun _ w1 => w1 = w) w := by
    refine moves_quiet trivial fun stat => ?_
    split <;> exact Moves.ret rfl
  obtain ⟨-, rfl⟩ := hstat.ran hregular
  cases regular with
  | false => exact Or.inl (exec_ret hopens).2
  | true =>
      obtain ⟨opened, w2, hopen, hlocks⟩ := exec_bind.mp hopens
      obtain rfl := (kernel_of_ran (exec_op hopen)).openRead.1
      cases opened with
      | error e => exact Or.inl (exec_ret hlocks).2
      | ok lock_fd =>
          right
          obtain ⟨locked, w3, hlock, hunlocks⟩ := exec_bind.mp hlocks
          cases exec_op hlock
          obtain ⟨_, w4, hunlock, hcloses⟩ := exec_bind.mp hunlocks
          cases exec_op hunlock
          obtain ⟨_, w5, hclose, hnext⟩ := exec_bind.mp hcloses
          cases exec_op hclose
          exact hnext

theorem ran_syncLocalFile {task : SyncTask} {rc : Rc} (hg : w.tree.Grounded)
    (hexec : Exec (Prog.Graph (posix env)) (syncLocalFile fuel root task) w rc w') :
    w' = w ∨ Replaces env root task.rel_path.bytes w w' := by
  rw [syncLocalFile_eq] at hexec
  rcases ran_withSourceFile hexec with rfl | hupload
  · exact Or.inl rfl
  unfold localTargetPath at hupload
  cases hdst : currentPath root task.rel_path.bytes with
  | none =>
      rw [hdst] at hupload
      exact Or.inl (exec_ret hupload).2
  | some dst =>
      right
      rw [hdst] at hupload
      obtain ⟨saved, w1, hbackup, hcopy⟩ := exec_bind.mp hupload
      cases saved with
      | err =>
          obtain ⟨-, rfl⟩ := exec_ret hcopy
          exact replaces_of_parts hdst hg (.refl _ _) hbackup (refl_of (Spares _) w')
            fun _ _ hc => Or.inl hc
      | ok =>
          obtain ⟨hg1, -⟩ := (ran_backupOldVersion hg hdst hbackup).1 hg
          obtain ⟨hafter, hplain⟩ := ran_copySource hdst hg1 hcopy
          apply replaces_of_parts hdst hg (.refl _ _) hbackup hafter
          exact fun c _ hc => (hplain c hc).imp_right fun hask => ⟨rfl, hask⟩

/-! ## The handlers -/

/-- The reply changes no file. -/
theorem ran_unlockAndReply {outcome : Except Bytes Unit} {ack : UInt64} {rc : Rc}
    (hexec : Exec (Prog.Graph (posix env)) (unlockAndReply fuel outcome ack) w rc w') :
    w'.tree = w.tree := by
  have hsafe : (unlockAndReply fuel outcome ack).Safe (Kernel env.cwd fun _ _ => False) _ _ w :=
    safe_replied outcome ack
  have hreplied := hsafe.ran hexec
  cases outcome with
  | ok _ => exact hreplied.2
  | error message => exact hreplied.2

/-- A critical section, without the lock and the reply. -/
theorem ran_critical {p : Sys TreePath α} {f : α → Except Bytes Unit} {ack : UInt64} {rc : Rc}
    (hexec : Exec (Prog.Graph (posix env)) (do
      sys .lockFiles
      let outcome ← p
      unlockAndReply fuel (f outcome) ack : Sys TreePath Rc) w rc w') :
    ∃ a w1, Exec (Prog.Graph (posix env)) p w a w1 ∧ w'.tree = w1.tree := by
  obtain ⟨_, w1, hlock, hrest⟩ := exec_bind.mp hexec
  cases exec_op hlock
  obtain ⟨a, w2, hp, hreply⟩ := exec_bind.mp hrest
  exact ⟨a, w2, hp, ran_unlockAndReply hreply⟩

/-- A refusal changes no file. -/
theorem ran_refusal {message : Bytes} {rc : Rc}
    (hexec : Exec (Prog.Graph (posix env)) (do
      let _ ← sendError fuel message
      return .err : Sys TreePath Rc) w rc w') : w'.tree = w.tree := by
  obtain ⟨sent, w1, hsend, hret⟩ := exec_bind.mp hexec
  obtain ⟨-, rfl⟩ := exec_ret hret
  have hsafe : (sendError fuel message).Safe (Kernel env.cwd fun _ _ => False) _ _ w :=
    keepsTree_of_stays (Confinement.stays_sendError fuel message)
  exact hsafe.ran hsend

/-- The file of `server_handle_file_begin` is opened before it replaces anything. -/
theorem ran_receiveFile {header : SyncHeader} {r : Except Bytes Unit}
    (hpaths : uploadPaths root rel = some (dst, tmp)) (hg : w.tree.Grounded)
    (hexec : Exec (Prog.Graph (posix env)) (receiveFile fuel header tmp dst) w r w') :
    Spares (CurrentNodes env.cwd root rel) w w' ∧
      ∀ c, w.tree.content (currentNode env.cwd root (relNames rel)) = some c →
        w'.tree.content (currentNode env.cwd root (relNames rel)) = some c ∨
          asksForDir dst = false := by
  obtain ⟨hdst, htmp⟩ := uploadPaths_eq_some hpaths
  have hmoves : (receiveFile fuel header tmp dst).Moves (Kernel env.cwd fun _ _ => False) _ _ w :=
    spares_receiveFile header tmp dst
  refine ⟨(hmoves.ran hexec).1.mono fun n hn => currentNodes_of_paths hdst htmp hn, fun c hc => ?_⟩
  by_cases hask : asksForDir dst = false
  · exact Or.inr hask
  left
  rw [Bool.not_eq_false] at hask
  obtain ⟨opened, w1, hopen, hrest⟩ := exec_bind.mp hexec
  obtain ⟨e, herr⟩ := not_opened_syncing true hdst htmp hask hg hc
  have hopened := exec_op hopen
  rw [Prog.Graph, posix, posixOpen, herr] at hopened
  cases hopened
  obtain ⟨-, rfl⟩ := exec_ret hrest
  exact hc

theorem ran_fileBeginCritical {header : SyncHeader} {r : Except Bytes Unit}
    (hg : w.tree.Grounded) (hpaths : uploadPaths root rel = some (dst, tmp))
    (hexec : Exec (Prog.Graph (posix env)) (fileBeginCritical fuel header root rel dst tmp) w r
      w') : Spares (fun _ => False) w w' ∨ Replaces env root rel w w' := by
  obtain ⟨hdst, -⟩ := uploadPaths_eq_some hpaths
  rw [fileBeginCritical_eq] at hexec
  obtain ⟨made, w1, hmake, hrest⟩ := exec_bind.mp hexec
  have hmoves : (ensureParentDirExists dst).Moves (Kernel env.cwd fun _ _ => False)
      (Tidy fun _ => False) _ w := moves_ensureParentDirExists _ dst
  have hspares : (ensureParentDirExists dst).Moves (Kernel env.cwd fun _ _ => False)
      (Spares fun _ => False) _ w := spares_ensureParentDirExists _ dst
  have hspared := (hspares.ran hmake).1
  cases made with
  | err =>
      obtain ⟨-, rfl⟩ := exec_ret hrest
      exact Or.inl hspared
  | ok =>
      right
      have htouch : w.tree.Touches
          (fun n => n = currentNode env.cwd root (relNames (rel ++ syncingSuffix))) w1.tree :=
        (hmoves.ran hmake).1.1.mono fun _ hf => hf.elim
      obtain ⟨hg1, -⟩ := hspared hg
      obtain ⟨saved, w2, hbackup, hreceive⟩ := exec_bind.mp hrest
      cases saved with
      | err =>
          obtain ⟨-, rfl⟩ := exec_ret hreceive
          exact replaces_of_parts hdst hg1 htouch hbackup (refl_of (Spares _) w')
            fun _ _ hc => Or.inl hc
      | ok =>
          obtain ⟨hg2, -⟩ := (ran_backupOldVersion hg1 hdst hbackup).1 hg1
          obtain ⟨hafter, hplain⟩ := ran_receiveFile hpaths hg2 hreceive
          apply replaces_of_parts hdst hg1 htouch hbackup hafter
          exact fun c _ hc => (hplain c hc).imp_right fun hask => ⟨rfl, hask⟩

theorem Replaces.tree_eq {w1 : World} (h : Replaces env root rel w w1) (htree : w'.tree = w1.tree) :
    Replaces env root rel w w' := by
  refine ⟨fun hg => ?_, fun c d hc hd => ?_, fun c hc => ?_⟩
  · rw [htree]
    exact h.spares hg
  · rw [htree]
    exact h.stored c d hc hd
  · rw [htree]
    exact h.saved c hc

theorem Spares.tree_eq {X : TreePath → Prop} {w1 : World} (h : Spares X w w1)
    (htree : w'.tree = w1.tree) : Spares X w w' := by
  intro hg
  rw [htree]
  exact h hg

theorem ran_serverHandleFileBegin {header : SyncHeader} {rc : Rc} (hg : w.tree.Grounded)
    (hexec : Exec (Prog.Graph (posix env)) (serverHandleFileBegin fuel header root rel) w rc w') :
    Spares (fun _ => False) w w' ∨ Replaces env root rel w w' := by
  unfold serverHandleFileBegin at hexec
  cases hpaths : uploadPaths root rel with
  | none =>
      rw [hpaths] at hexec
      exact Or.inl ((refl_of (Spares _) w).tree_eq (ran_refusal hexec))
  | some paths =>
      obtain ⟨dst, tmp⟩ := paths
      rw [hpaths] at hexec
      dsimp only at hexec
      split_ifs at hexec with hdir
      · obtain ⟨made, w1, hmake, htree⟩ := ran_critical hexec
        have hmoves : (ensureDirExists dst).Moves (Kernel env.cwd fun _ _ => False)
            (Tidy fun _ => False) _ w := moves_ensureDirExists _ dst
        have hspared := ((hmoves.spares fun _ h => h.1).ran hmake).1
        exact Or.inl (hspared.tree_eq htree)
      · obtain ⟨outcome, w1, hcritical, htree⟩ := ran_critical (f := id) hexec
        rcases ran_fileBeginCritical hg hpaths hcritical with hspared | hreplaced
        · exact Or.inl (hspared.tree_eq htree)
        · exact Or.inr (hreplaced.tree_eq htree)

end Runs

end MiniSync
