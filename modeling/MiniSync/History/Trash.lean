import MiniSync.FaultFree.Backup
import MiniSync.Transfer.Local

/-!
# Deleting a directory tree

`move_to_trash` for the entries of a tree one after another, without faults.  A
deletion goes through exactly where the stamped place in the trash has room for the
entry, and all entries are gone in the end exactly where every deletion goes through.
-/

namespace MiniSync

open Prog

/-! ## Places in the trash -/

/-- `root/.trash` -/
def trashBase (root : Bytes) : Bytes := joinBase root ++ slash :: trashName

/-- The place of `rel` below `.trash` at the time `now`. -/
def trashRel (now : Tm) (rel : Bytes) : Bytes := timestampDirname now ++ slash :: rel

/-- The node of an entry of `current`. -/
def entryNode (cwd : TreePath) (root rel : Bytes) : TreePath :=
  storeRoot cwd root ++ currentName :: relNames rel

/-- The node of the place in the trash. -/
def trashNode (cwd : TreePath) (root : Bytes) (now : Tm) (rel : Bytes) : TreePath :=
  storeRoot cwd root ++ trashName :: timestampDirname now :: relNames rel

/-- The trash has room for the node that is to be deleted: its stamped path fits, no
file is on the way there, and what is already there makes way for the node. -/
structure HasRoom (env : Env) (tree : Tree) (root rel : Bytes) (node : Node Bytes) : Prop where
  stamp_short : (timestampDirname env.now).length < 64
  fits : (trashBase root ++ slash :: trashRel env.now rel).length < maxPathLen
  free : ∀ q c, WayTo env.cwd (trashBase root) (trashRel env.now rel) q →
    tree.lookup q ≠ some (.file c)
  room : tree.Room node.isDir (trashNode env.cwd root env.now rel)

/-- The deletion of `rel` goes through: its path is accepted and fits, and what exists
there has room in the trash. -/
def Goes (env : Env) (tree : Tree) (root rel : Bytes) : Prop :=
  (currentPath root rel).isSome ∧
    ∀ node, tree.lookup (entryNode env.cwd root rel) = some node → HasRoom env tree root rel node

/-- `.trash` and what leads to it are directories, and the path of the root does not go
through the store. -/
structure Standing (cwd : TreePath) (tree : Tree) (root : Bytes) : Prop where
  dirs : ∀ d, d ≠ [] → Leads d (trashBase root) → tree.IsDir (resolve cwd d)
  outside : ∀ d, Leads d (trashBase root) → storeRoot cwd root <+: resolve cwd d →
    resolve cwd d = storeRoot cwd root ∨ resolve cwd d = storeRoot cwd root ++ [trashName]

/-- The path names an entry of a directory. -/
abbrev NamesEntry (rel : Bytes) : Prop := PosixPath.mustBeDir slash dot rel = false

section Trash

variable {env : Env} {w w' : World} {fuel : Nat} {root rel src : Bytes} {node : Node Bytes}

theorem filePath_of_currentPath (hrel : NamesEntry rel) (h : currentPath root rel = some src) :
    FilePath rel := by
  unfold currentPath at h
  split_ifs at h with hsane
  exact ⟨Rc.ok_of_ne_err hsane, hrel⟩

theorem endsInName_trashRel (now : Tm) (hrel : FilePath rel) : EndsInName (trashRel now rel) := by
  have hstamp := component_timestampDirname now
  obtain ⟨name, hname, hdot, rfl | ⟨u, rfl, hune, hulast, hudots⟩⟩ := hrel.split
  · refine ⟨rel, hname, hdot, Or.inr ⟨timestampDirname now, rfl, hstamp.ne_nil, ?_, ?_⟩⟩
    · exact fun h => hstamp.no_slash (List.mem_of_getLast? h)
    · exact hstamp.splitOn_notMem
  · refine ⟨name, hname, hdot, Or.inr ⟨timestampDirname now ++ slash :: u, ?_, ?_, ?_, ?_⟩⟩
    · simp [trashRel]
    · simp
    · rw [List.getLast?_append_of_ne_nil _ (by simp), List.getLast?_cons]
      obtain ⟨v, c, rfl⟩ := (List.eq_nil_or_concat u).resolve_left hune
      simpa using hulast
    · exact dotdot_splitOn_append hstamp.splitOn_notMem hudots

theorem resolve_trashBase (cwd : TreePath) (root : Bytes) :
    resolve cwd (trashBase root) = storeRoot cwd root ++ [trashName] := by
  rw [trashBase, resolve_append component_trashName.splitOn_notMem,
    relNames_component component_trashName (by decide)]
  rfl

theorem relNames_trashRel (now : Tm) (rel : Bytes) :
    relNames (trashRel now rel) = timestampDirname now :: relNames rel := by
  have hstamp := name_timestampDirname now
  rw [trashRel, relNames_append, relNames_component hstamp.toComponent hstamp.ne_dot]
  rfl

theorem trashNode_eq (cwd : TreePath) (root : Bytes) (now : Tm) (rel : Bytes) :
    trashNode cwd root now rel =
      resolve cwd (trashBase root) ++ relNames (trashRel now rel) := by
  rw [resolve_trashBase, relNames_trashRel]
  simp [trashNode]

/-- The way to a place in the trash lies in the trash and ends before the place. -/
theorem not_wayTo_trash {cwd : TreePath} {now : Tm} {q : TreePath} (hrel : FilePath rel)
    (h : WayTo cwd (trashBase root) (trashRel now rel) q) :
    InArea cwd root trashName q ∧ ¬ trashNode cwd root now rel <+: q := by
  obtain ⟨r, hr, rfl⟩ := h
  constructor
  · rw [resolve_trashBase]
    exact List.prefix_append _ _
  · intro hle
    obtain ⟨name, hname⟩ := (endsInName_trashRel now hrel).relNames_eq
    rw [trashNode_eq, List.prefix_append_right_inj, hname] at hle
    have hshort := hr.length_le
    have hlong := hle.length_le
    rw [List.length_append, List.length_singleton] at hlong
    omega

theorem wayTo_trash_parent {cwd : TreePath} {now : Tm} (hrel : FilePath rel) :
    WayTo cwd (trashBase root) (trashRel now rel) (trashNode cwd root now rel).dropLast := by
  obtain ⟨name, hname⟩ := (endsInName_trashRel now hrel).relNames_eq
  rw [trashNode_eq, hname, ← List.append_assoc, List.dropLast_concat]
  exact onWay_end _ _

theorem wayTo_trash_above {cwd : TreePath} {now : Tm} {q : TreePath} (hrel : FilePath rel)
    (h : WayTo cwd (trashBase root) (trashRel now rel) q) :
    q <+: (trashNode cwd root now rel).dropLast := by
  obtain ⟨r, hr, rfl⟩ := h
  obtain ⟨name, hname⟩ := (endsInName_trashRel now hrel).relNames_eq
  rw [trashNode_eq, hname, ← List.append_assoc, List.dropLast_concat,
    List.prefix_append_right_inj]
  exact hr

/-- No place in the trash is above or below an entry of `current`. -/
theorem entry_apart_trash (cwd : TreePath) (root rel : Bytes) (now : Tm) :
    ¬ entryNode cwd root rel <+: trashNode cwd root now rel ∧
      ¬ trashNode cwd root now rel <+: entryNode cwd root rel := by
  have hne : currentName ≠ trashName := by decide
  unfold entryNode trashNode
  rw [List.prefix_append_right_inj, List.prefix_append_right_inj, List.cons_prefix_cons,
    List.cons_prefix_cons]
  exact ⟨fun h => hne h.1, fun h => hne h.1.symm⟩

/-! ## One deletion -/

/-- The entry is gone, nothing has come to `current`, and the trash still stands. -/
structure Trashed (cwd : TreePath) (root rel : Bytes) (w w' : World) : Prop where
  gone : w'.tree.lookup (entryNode cwd root rel) = none
  absent : ∀ q, InArea cwd root currentName q → w.tree.lookup q = none → w'.tree.lookup q = none
  stands : Standing cwd w'.tree root

/-- What leads to the trash is neither in the trash nor below `current`. -/
theorem Standing.not_moved {cwd : TreePath} {tree : Tree} {now : Tm} {d : Bytes}
    (h : Standing cwd tree root) (hrel : FilePath rel) (hd : Leads d (trashBase root)) :
    ¬ entryNode cwd root rel <+: resolve cwd d ∧
      ¬ trashNode cwd root now rel <+: resolve cwd d := by
  have hlen : ∀ rest : TreePath, 2 ≤ rest.length → ¬ storeRoot cwd root ++ rest <+: resolve cwd d := by
    intro rest hrest hle
    have hshort := hle.length_le
    rw [List.length_append] at hshort
    rcases h.outside d hd ((List.prefix_append _ _).trans hle) with heq | heq
    · rw [heq] at hshort
      omega
    · rw [heq, List.length_append, List.length_singleton] at hshort
      omega
  obtain ⟨name, hname⟩ := hrel.relNames_eq
  constructor
  · apply hlen
    rw [hname]
    simp
  · exact hlen _ (by simp)

/-- A deletion for which the trash has room. -/
theorem returns_moveToTrash_of_goes (hstand : Standing env.cwd w.tree root) (hrel : NamesEntry rel)
    (h : Goes env w.tree root rel) :
    (moveToTrash fuel root rel).Returns (posix env)
      (fun rc w' => rc = .ok ∧ Trashed env.cwd root rel w w') w := by
  obtain ⟨src, hsrc⟩ := Option.isSome_iff_exists.mp h.1
  have hfile := filePath_of_currentPath hrel hsrc
  have hnode : resolve env.cwd src = entryNode env.cwd root rel := resolve_currentPath hsrc
  obtain ⟨-, -, hshape, -⟩ := currentPath_eq_some hsrc
  have hplain : Plain src := hshape ▸ hfile.plain
  unfold moveToTrash
  rw [hsrc]
  refine returns_op_bind.mpr ?_
  rw [posix_access hplain]
  cases hlookup : w.tree.lookup (resolve env.cwd src) with
  | none =>
      rw [hnode] at hlookup
      exact .ret ⟨rfl, hlookup, fun _ _ h => h, hstand⟩
  | some node =>
      have hroom := h.2 node (hnode ▸ hlookup)
      have hpath : stampedPath trashName root (timestampDirname env.now) rel =
          some (trashBase root ++ slash :: trashRel env.now rel) :=
        (stampedPath_iff component_trashName (component_timestampDirname env.now)
          hfile.relative).mpr ⟨rfl, hroom.fits⟩
      have hdst : resolve env.cwd (trashBase root ++ slash :: trashRel env.now rel) =
          trashNode env.cwd root env.now rel :=
        resolve_stampedPath name_trashName (name_timestampDirname env.now) hfile.relative hpath
      simp only [Option.isSome_some, Bool.not_true, Bool.false_eq_true, if_false]
      have hstamp : (makeTimestampDirname : Sys TreePath (Option Bytes)).Returns (posix env)
          (fun stamp w' => w' = w ∧ stamp = some (timestampDirname env.now)) w :=
        returns_op_bind.mpr (.ret ⟨rfl, if_pos hroom.stamp_short⟩)
      apply hstamp.bind
      rintro _ w ⟨rfl, rfl⟩
      rw [Option.bind_some, hpath]
      have hends := endsInName_trashRel env.now hfile
      have hlast : (trashBase root).getLast? ≠ some slash := by
        rw [trashBase, List.getLast?_append_of_ne_nil _ (by simp)]
        decide
      apply (returns_ensureParentDirExists (by simp [trashBase]) hlast hends hroom.fits
        ⟨hstand.dirs, hroom.free⟩).bind
      rintro _ w1 ⟨rfl, hmade⟩
      have hentry : w1.tree.lookup (resolve env.cwd src) = some node := by
        rw [hmade.rest _ fun hway => ?_, hlookup]
        exact not_inArea_current hsrc (by decide) (not_wayTo_trash hfile hway).1
      have hapart := entry_apart_trash env.cwd root rel env.now
      rw [← hnode, ← hdst] at hapart
      have hroom1 : w1.tree.Room node.isDir
          (resolve env.cwd (trashBase root ++ slash :: trashRel env.now rel)) := by
        rw [hdst]
        refine hroom.room.congr fun q hq => hmade.rest q fun hway => ?_
        exact (not_wayTo_trash hfile hway).2 hq
      have hparent : w1.tree.parentIsDir
          (resolve env.cwd (trashBase root ++ slash :: trashRel env.now rel)) := by
        rw [hdst]
        exact hmade.dirs _ (wayTo_trash_parent hfile)
      refine returns_op_bind.mpr ?_
      rw [posix_rename_apart hplain hends.plain hentry hapart.1 hapart.2,
        FileTree.renameOnto_of_room hroom1 hparent]
      have hmoved : ∀ q, (w1.tree.move (resolve env.cwd src)
          (resolve env.cwd (trashBase root ++ slash :: trashRel env.now rel))).lookup q = _ :=
        fun q => FileTree.lookup_move hapart.1 hapart.2
      refine .ret ⟨rfl, ?_, ?_, ?_⟩
      · rw [← hnode]
        exact (hmoved _).trans ((if_neg hapart.2).trans (if_pos List.prefix_rfl))
      · intro q hq hnone
        have hout : ¬ InArea env.cwd root trashName q := by
          obtain ⟨rest, rfl⟩ := hq
          rw [List.append_assoc]
          exact not_inArea (by decide)
        have hqdst : ¬ trashNode env.cwd root env.now rel <+: q :=
          fun hle => hout (InArea.of_under inArea_cons hle)
        refine (hmoved q).trans ?_
        rw [hdst, if_neg hqdst]
        split_ifs
        · rfl
        · rw [hmade.rest q fun hway => hout (not_wayTo_trash hfile hway).1, hnone]
      · refine ⟨fun d hd hleads => ?_, hstand.outside⟩
        have hstay : ¬ entryNode env.cwd root rel <+: resolve env.cwd d ∧
            ¬ trashNode env.cwd root env.now rel <+: resolve env.cwd d :=
          hstand.not_moved hfile hleads
        refine (hmoved _).trans ?_
        rw [hdst, hnode, if_neg hstay.2, if_neg hstay.1]
        by_cases hway : WayTo env.cwd (trashBase root) (trashRel env.now rel) (resolve env.cwd d)
        · exact hmade.dirs _ hway
        · exact (hmade.rest _ hway).trans (hstand.dirs d hd hleads)

/-- A deletion that reports success had room, or nothing to delete. -/
theorem returns_moveToTrash_any (hg : w.tree.Grounded) (hrel : NamesEntry rel) :
    (moveToTrash fuel root rel).Returns (posix env)
      (fun rc _ => rc = .ok → Goes env w.tree root rel) w := by
  unfold moveToTrash
  cases hsrc : currentPath root rel with
  | none => exact .ret nofun
  | some src =>
      have hfile := filePath_of_currentPath hrel hsrc
      have hnode : resolve env.cwd src = entryNode env.cwd root rel := resolve_currentPath hsrc
      obtain ⟨-, -, hshape, -⟩ := currentPath_eq_some hsrc
      have hplain : Plain src := hshape ▸ hfile.plain
      have hgoes : (∀ node, w.tree.lookup (resolve env.cwd src) = some node →
          HasRoom env w.tree root rel node) → Goes env w.tree root rel := by
        intro h
        exact ⟨Option.isSome_iff_exists.mpr ⟨src, hsrc⟩, hnode ▸ h⟩
      refine returns_op_bind.mpr ?_
      rw [posix_access hplain]
      cases hlookup : w.tree.lookup (resolve env.cwd src) with
      | none => exact .ret fun _ => hgoes (by rw [hlookup]; nofun)
      | some node =>
          simp only [Option.isSome_some, Bool.not_true, Bool.false_eq_true, if_false]
          have hstamp : (makeTimestampDirname : Sys TreePath (Option Bytes)).Returns (posix env)
              (fun stamp w' => w' = w ∧ stamp = if (timestampDirname env.now).length < 64
                then some (timestampDirname env.now) else none) w :=
            returns_op_bind.mpr (.ret ⟨rfl, rfl⟩)
          apply hstamp.bind
          rintro _ w ⟨rfl, rfl⟩
          by_cases hshort : (timestampDirname env.now).length < 64
          swap
          · rw [if_neg hshort]
            exact .ret nofun
          rw [if_pos hshort, Option.bind_some]
          cases hpath : stampedPath trashName root (timestampDirname env.now) rel with
          | none => exact .ret nofun
          | some dst =>
              have hdst : resolve env.cwd dst = trashNode env.cwd root env.now rel :=
                resolve_stampedPath name_trashName (name_timestampDirname env.now) hfile.relative
                  hpath
              obtain ⟨hdstShape, hfits⟩ := (stampedPath_iff component_trashName
                (component_timestampDirname env.now) hfile.relative).mp hpath
              have hplainDst : Plain dst := by
                rw [hdstShape]
                exact (endsInName_trashRel env.now hfile).plain
              have hapart := entry_apart_trash env.cwd root rel env.now
              rw [← hnode, ← hdst] at hapart
              apply ((returns_ensureParent_any dst).grounded hg).bind
              rintro made w1 ⟨htouches, hg1⟩
              cases made with
              | err => exact .ret nofun
              | ok =>
                  have hentry : w1.tree.lookup (resolve env.cwd src) = some node := by
                    rw [htouches.lookup_of_ne_none not_false (by rw [hlookup]; nofun), hlookup]
                  refine returns_op_bind.mpr ?_
                  rw [posix_rename_apart hplain hplainDst hentry hapart.1 hapart.2]
                  cases honto : w1.tree.renameOnto node.isDir (resolve env.cwd src)
                      (resolve env.cwd dst) with
                  | error e =>
                      dsimp only
                      split
                      · rename_i heq
                        cases heq
                      · rename_i heq
                        rw [Except.error.inj heq] at honto
                        exact absurd honto FileTree.renameOnto_ne_xdev
                      · exact .ret nofun
                  | ok tree =>
                      refine .ret fun _ => hgoes fun node' hnode' => ?_
                      cases Option.some.inj (hlookup.symm.trans hnode')
                      refine ⟨hshort, by rwa [hdstShape] at hfits, fun q c hway hfileAt => ?_, ?_⟩
                      · have hparent := hg1.parentIsDir_of_renameOnto honto
                        rw [hdst] at hparent
                        have hstill : w1.tree.lookup q = some (.file c) := by
                          rw [htouches.lookup_of_ne_none not_false (by rw [hfileAt]; nofun),
                            hfileAt]
                        exact hg1.not_file_above hparent (wayTo_trash_above hfile hway) hstill
                      · rw [← hdst]
                        exact htouches.room (FileTree.room_of_renameOnto honto)

end Trash

/-! ## Deleting one entry after another -/

/-- A call of `move_to_trash` at some time. -/
structure Deletion where
  now : Tm
  rel_path : Bytes

/-- `move_to_trash` for each deletion in turn, with what each returns. -/
def deleteEach (fuel : Nat) (cwd : TreePath) (root : Bytes) :
    List Deletion → World → Option (List Rc × World)
  | [], w => some ([], w)
  | d :: ds, w => do
      let (rc, w') ← (moveToTrash fuel root d.rel_path).run (posix ⟨cwd, d.now⟩) w
      let (rcs, final) ← deleteEach fuel cwd root ds w'
      return (rc :: rcs, final)

/-- Every deletion goes through in the state that the earlier ones have left. -/
def EachGoes (fuel : Nat) (cwd : TreePath) (root : Bytes) : List Deletion → World → Prop
  | [], _ => True
  | d :: ds, w =>
      Goes ⟨cwd, d.now⟩ w.tree root d.rel_path ∧
        ∀ rc w', (moveToTrash fuel root d.rel_path).run (posix ⟨cwd, d.now⟩) w = some (rc, w') →
          EachGoes fuel cwd root ds w'

section Teardown

variable {fuel : Nat} {cwd : TreePath} {root : Bytes} {w : World} {ds : List Deletion}

theorem deleteEach_cons {d : Deletion} {rc : Rc} {rcs : List Rc} {w' final : World}
    (hrun : (moveToTrash fuel root d.rel_path).run (posix ⟨cwd, d.now⟩) w = some (rc, w'))
    (hrest : deleteEach fuel cwd root ds w' = some (rcs, final)) :
    deleteEach fuel cwd root (d :: ds) w = some (rc :: rcs, final) := by
  unfold deleteEach
  rw [hrun]
  dsimp only [Option.bind_eq_bind, Option.bind_some]
  rw [hrest]
  rfl

/-- Deletions return, and where all report success each has gone through. -/
theorem deleteEach_returns (hg : w.tree.Grounded) (hnames : ∀ d ∈ ds, NamesEntry d.rel_path) :
    ∃ rcs w', deleteEach fuel cwd root ds w = some (rcs, w') ∧
      ((∀ rc ∈ rcs, rc = .ok) → EachGoes fuel cwd root ds w) := by
  induction ds generalizing w with
  | nil => exact ⟨[], w, rfl, fun _ => trivial⟩
  | cons d ds ih =>
      obtain ⟨hname, hnames⟩ := List.forall_mem_cons.mp hnames
      have hstep : (moveToTrash fuel root d.rel_path).Returns (posix ⟨cwd, d.now⟩)
          (fun rc _ => rc = .ok → Goes ⟨cwd, d.now⟩ w.tree root d.rel_path) w :=
        returns_moveToTrash_any hg hname
      obtain ⟨rc, w1, hrun, hgoes, hg1⟩ := hstep.grounded hg
      obtain ⟨rcs, w', hrest, heach⟩ := ih hg1 hnames
      refine ⟨rc :: rcs, w', deleteEach_cons hrun hrest, fun hok => ?_⟩
      obtain ⟨hrc, hrcs⟩ := List.forall_mem_cons.mp hok
      refine ⟨hgoes hrc, fun rc2 w2 hrun2 => ?_⟩
      cases Option.some.inj (hrun.symm.trans hrun2)
      exact heach hrcs

/-- Where each deletion goes through all report success, the entries are gone, and
nothing has come to `current`. -/
theorem deleteEach_of_goes (hstand : Standing cwd w.tree root)
    (hnames : ∀ d ∈ ds, NamesEntry d.rel_path) (hgoes : EachGoes fuel cwd root ds w) :
    ∃ rcs w', deleteEach fuel cwd root ds w = some (rcs, w') ∧ (∀ rc ∈ rcs, rc = .ok) ∧
      (∀ d ∈ ds, w'.tree.lookup (entryNode cwd root d.rel_path) = none) ∧
      ∀ q, InArea cwd root currentName q → w.tree.lookup q = none → w'.tree.lookup q = none := by
  induction ds generalizing w with
  | nil => exact ⟨[], w, rfl, nofun, nofun, fun _ _ h => h⟩
  | cons d ds ih =>
      obtain ⟨hname, hnames⟩ := List.forall_mem_cons.mp hnames
      obtain ⟨hgo, hnext⟩ := hgoes
      obtain ⟨rc, w1, hrun, hok, htrashed⟩ := returns_moveToTrash_of_goes hstand hname hgo
      obtain ⟨rcs, w', hrest, hoks, hgone, habsent⟩ := ih htrashed.stands hnames (hnext _ _ hrun)
      refine ⟨rc :: rcs, w', deleteEach_cons hrun hrest, List.forall_mem_cons.mpr ⟨hok, hoks⟩,
        List.forall_mem_cons.mpr ⟨habsent _ inArea_cons htrashed.gone, hgone⟩, ?_⟩
      intro q hq hnone
      exact habsent q hq (htrashed.absent q hq hnone)

end Teardown

/-- The deletions, in some order, of all entries of the tree at `top` in `current`. -/
structure Teardown (cwd : TreePath) (root : Bytes) (tree : Tree) (top : TreePath)
    (ds : List Deletion) : Prop where
  inside : InArea cwd root currentName top
  names : ∀ d ∈ ds, NamesEntry d.rel_path
  all : ∀ q, top <+: q → tree.lookup q ≠ none → ∃ d ∈ ds, entryNode cwd root d.rel_path = q

/-- All deletions of a teardown report success and nothing of the tree is left, if and
only if each of them finds room in the trash. -/
theorem teardown_succeeds_iff {fuel : Nat} {cwd top : TreePath} {root : Bytes} {w : World}
    {ds : List Deletion} (hg : w.tree.Grounded) (hstand : Standing cwd w.tree root)
    (hdown : Teardown cwd root w.tree top ds) :
    ∃ rcs w', deleteEach fuel cwd root ds w = some (rcs, w') ∧
      (((∀ rc ∈ rcs, rc = .ok) ∧ ∀ q, top <+: q → w'.tree.lookup q = none) ↔
        EachGoes fuel cwd root ds w) := by
  obtain ⟨rcs, w', hrun, hforth⟩ : ∃ rcs w', deleteEach fuel cwd root ds w = some (rcs, w') ∧
      ((∀ rc ∈ rcs, rc = .ok) → EachGoes fuel cwd root ds w) :=
    deleteEach_returns hg hdown.names
  refine ⟨rcs, w', hrun, fun h => hforth h.1, fun hgoes => ?_⟩
  obtain ⟨rcs', final, hrun', hoks, hgone, habsent⟩ :=
    deleteEach_of_goes hstand hdown.names hgoes
  cases Option.some.inj (hrun.symm.trans hrun')
  refine ⟨hoks, fun q hq => ?_⟩
  by_cases hnone : w.tree.lookup q = none
  · exact habsent q (hdown.inside.of_under hq) hnone
  · obtain ⟨d, hd, rfl⟩ := hdown.all q hq hnone
    exact hgone d hd

/-! ## A directory and its file in one second -/

/-- A store with the file `f` in the directory `d`. -/
def fileInDir : World :=
  ⟨⟨[([ascii "s"], .dir), ([ascii "s", trashName], .dir), ([ascii "s", currentName], .dir),
    ([ascii "s", currentName, ascii "d"], .dir),
    ([ascii "s", currentName, ascii "d", ascii "f"], .file [7])]⟩, ⟨fun _ => [], 0, []⟩⟩

/-- The file and then the directory, at one time. -/
def fileThenDir : List Deletion :=
  [⟨⟨126, 1, 2, 3, 4, 5⟩, ascii "d/f"⟩, ⟨⟨126, 1, 2, 3, 4, 5⟩, ascii "d"⟩]

theorem standing_fileInDir : Standing [] fileInDir.tree (ascii "s") := by
  have hleads : ∀ d, Leads d (trashBase (ascii "s")) → d = [] ∨ d = ascii "s" ∨
      d = trashBase (ascii "s") := by
    intro d hd
    have hbase : trashBase (ascii "s") = ascii "s" ++ slash :: trashName := by decide
    rw [hbase] at hd ⊢
    rcases leads_join component_trashName.no_slash hd with rfl | ⟨rest, hrest, -⟩
    · exact Or.inr (Or.inr rfl)
    · have hs : ascii "s" = [115] := by decide
      rw [hs] at hrest ⊢
      cases d with
      | nil => exact Or.inl rfl
      | cons c cs =>
          rw [List.cons_append, List.cons.injEq] at hrest
          have hcs := (List.append_eq_nil_iff.mp hrest.2.symm).1
          exact Or.inr (Or.inl (by rw [hrest.1, hcs]))
  constructor
  · intro d hd hlead
    rcases hleads d hlead with rfl | rfl | rfl
    · exact absurd rfl hd
    · rfl
    · rfl
  · intro d hlead hbelow
    rcases hleads d hlead with rfl | rfl | rfl
    · exact absurd (List.prefix_nil.mp hbelow) (by decide)
    · exact Or.inl (by decide)
    · exact Or.inr (by decide)

theorem teardown_fileInDir : Teardown [] (ascii "s") fileInDir.tree
    [ascii "s", currentName, ascii "d"] fileThenDir := by
  refine ⟨⟨[ascii "d"], by decide⟩, by decide, fun q hq hsome => ?_⟩
  have hroot : q ≠ [] := by
    rintro rfl
    exact absurd (List.prefix_nil.mp hq) nofun
  have hentry : ∀ e ∈ fileInDir.tree.entries, [ascii "s", currentName, ascii "d"] <+: e.1 →
      ∃ d ∈ fileThenDir, entryNode [] (ascii "s") d.rel_path = e.1 := by decide
  obtain ⟨e, he, rfl⟩ := (FileTree.lookup_ne_none_iff hroot).mp hsome
  exact hentry e he hq

/-- The directory stays: its place in the trash holds the file that went before it. -/
theorem teardown_fails_in_one_second :
    Teardown [] (ascii "s") fileInDir.tree [ascii "s", currentName, ascii "d"] fileThenDir ∧
      ∃ w', deleteEach 8 [] (ascii "s") fileThenDir fileInDir = some ([.ok, .err], w') ∧
        w'.tree.lookup [ascii "s", currentName, ascii "d"] = some .dir := by
  refine ⟨teardown_fileInDir, ?_⟩
  have hrun : (deleteEach 8 [] (ascii "s") fileThenDir fileInDir).map (fun r =>
      (r.1, r.2.tree.lookup [ascii "s", currentName, ascii "d"])) =
      some ([.ok, .err], some .dir) := by
    decide +kernel
  obtain ⟨⟨rcs, w'⟩, hrun, heq⟩ := Option.map_eq_some_iff.mp hrun
  cases (Prod.mk.inj heq).1
  exact ⟨w', hrun, (Prod.mk.inj heq).2⟩

theorem teardown_succeeds_iff_fileInDir :
    ∃ rcs w', deleteEach 8 [] (ascii "s") fileThenDir fileInDir = some (rcs, w') ∧
      (((∀ rc ∈ rcs, rc = .ok) ∧ ∀ q, [ascii "s", currentName, ascii "d"] <+: q →
        w'.tree.lookup q = none) ↔ EachGoes 8 [] (ascii "s") fileThenDir fileInDir) :=
  teardown_succeeds_iff (FileTree.grounded_of_entries (by decide)) standing_fileInDir
    teardown_fileInDir

end MiniSync
