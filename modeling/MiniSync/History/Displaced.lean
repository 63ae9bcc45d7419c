import MiniSync.History.BlockStream
import MiniSync.History.Deletes
import MiniSync.StoreRun

/-!
# Nothing that is displaced is lost

A run of uploads and deletes of one store, every call being answered as POSIX has it, and
the operations succeeding or not.  What an operation takes out of a file of `current` is in
`.versions` or in `.trash` from then on, if no place there is needed for two different
contents of one path, that is, in one second.  Temporary files are no such files: an upload
truncates the one of its path, and moves it away.
-/

namespace MiniSync

open Prog

/-! ## Operations -/

inductive Operation
  | upload (u : Uploader)
  | moveToTrash (rel_path : Bytes)
  | serverHandleFileDelete (rel_path : Bytes)

namespace Operation

def prog (fuel : Nat) (root : Bytes) : Operation → Sys TreePath Rc
  | upload u => u.prog fuel root
  | moveToTrash rel_path => MiniSync.moveToTrash fuel root rel_path
  | serverHandleFileDelete rel_path => MiniSync.serverHandleFileDelete fuel root rel_path

def rel_path : Operation → Bytes
  | upload u => u.rel_path
  | moveToTrash rel_path => rel_path
  | serverHandleFileDelete rel_path => rel_path

/-- Where the operation puts the file that it takes out of `current`. -/
def place (env : Env) (root : Bytes) : Operation → TreePath
  | upload u => versionNode env.cwd root u.rel_path env.now
  | moveToTrash rel_path => trashNode env.cwd root env.now rel_path
  | serverHandleFileDelete rel_path => trashNode env.cwd root env.now rel_path

/-- The streams, which do not look at the result of the backup. -/
def IsStream : Operation → Prop
  | upload (.handler _ (.blockStream _)) => True
  | _ => False

end Operation

/-- There is a place for the file that the operation takes out of `current`: it holds no
other content, and a stream can save a version. -/
structure HasPlace (env : Env) (root : Bytes) (op : Operation) (tree : Tree) : Prop where
  same : ∀ c d, tree.content (currentNode env.cwd root (relNames op.rel_path)) = some c →
    tree.content (op.place env root) = some d → d = c
  savable : op.IsStream → CanSave env tree root op.rel_path

/-- The names end in the name of a temporary file. -/
def Temporary (q : TreePath) : Prop := ∃ init name, q = init ++ [name ++ syncingSuffix]

theorem temporary_relNames (rel : Bytes) : Temporary (relNames (rel ++ syncingSuffix)) := by
  obtain ⟨init, last, hnames, -⟩ :=
    @PosixPath.names_append_suffix _ _ slash dot rel syncingSuffix (by decide) (by decide)
  exact ⟨init, last, hnames⟩

/-- `current/q` held `c`, and does not hold it any more. -/
def Displaces (cwd : TreePath) (root : Bytes) (w w' : World) (q : TreePath) (c : Bytes) : Prop :=
  w.tree.content (currentNode cwd root q) = some c ∧
    w'.tree.content (currentNode cwd root q) ≠ some c

section Steps

variable {env : Env} {w w' : World} {fuel : Nat} {root rel c : Bytes} {rc : Rc} {q : TreePath}

/-- The three things an operation can do to the store. -/
inductive Outcome (env : Env) (root : Bytes) (op : Operation) (w w' : World) : Prop
  | spares (h : Spares (fun _ => False) w w')
  | replaces (hplace : op.place env root = versionNode env.cwd root op.rel_path env.now)
      (h : Replaces env root op.rel_path w w')
  | trashes (hplace : op.place env root = trashNode env.cwd root env.now op.rel_path)
      (h : Trashes env root op.rel_path w w')

theorem ran_operation {op : Operation} (hg : w.tree.Grounded)
    (hplace : HasPlace env root op w.tree)
    (hexec : Exec (Prog.Graph (posix env)) (op.prog fuel root) w rc w') :
    Outcome env root op w w' := by
  cases op with
  | upload u =>
      cases u with
      | syncLocalFile task =>
          rcases ran_syncLocalFile hg hexec with rfl | hreplaced
          · exact .spares (refl_of (Spares _) w')
          · exact .replaces rfl hreplaced
      | handler rel_path u =>
          cases u with
          | fileBegin header =>
              rcases ran_serverHandleFileBegin hg hexec with hspared | hreplaced
              · exact .spares hspared
              · exact .replaces rfl hreplaced
          | blockStream first_block =>
              rcases ran_handleLargeBlockStream hg (hplace.savable trivial) hexec with
                hspared | hreplaced
              · exact .spares hspared
              · exact .replaces rfl hreplaced
  | moveToTrash rel_path =>
      rcases ran_moveToTrash hg hexec with hspared | htrashed
      · exact .spares hspared
      · exact .trashes rfl htrashed
  | serverHandleFileDelete rel_path =>
      rcases ran_serverHandleFileDelete hg hexec with hspared | htrashed
      · exact .spares hspared
      · exact .trashes rfl htrashed

theorem Outcome.grounded {op : Operation} (h : Outcome env root op w w')
    (hg : w.tree.Grounded) : w'.tree.Grounded := by
  cases h with
  | spares h => exact (h hg).1
  | replaces _ h => exact (h.spares hg).1
  | trashes _ h => exact h.grounded

theorem storedNode_inj {cwd q q' : TreePath} {area area' stamp stamp' : Bytes}
    (h : storedNode cwd root area stamp q = storedNode cwd root area' stamp' q') :
    area = area' ∧ stamp = stamp' ∧ q = q' := by
  have htail := List.append_cancel_left h
  simp only [List.cons.injEq] at htail
  exact htail

/-- An entry of `current` lies above no stored file. -/
theorem not_current_prefix_stored {cwd q q' : TreePath} {area stamp : Bytes}
    (harea : area = versionsName ∨ area = trashName) :
    ¬ currentNode cwd root q <+: storedNode cwd root area stamp q' := by
  rintro ⟨r, hr⟩
  apply @stored_ne_current root cwd q' (q ++ r) area stamp harea
  rw [← hr]
  simp [currentNode]

/-- What is kept stays kept. -/
theorem Outcome.kept {op : Operation} (h : Outcome env root op w w') (hg : w.tree.Grounded)
    (hplace : HasPlace env root op w.tree) (hq : ¬ Temporary q)
    (hkept : Kept env.cwd root w.tree q c) : Kept env.cwd root w'.tree q c := by
  obtain ⟨area, stamp, harea, hc⟩ := hkept
  refine ⟨area, stamp, harea, ?_⟩
  cases h with
  | spares h => exact (h hg).2 _ c not_false hc
  | replaces hp h =>
      by_cases hover : Overwritten env root op.rel_path w.tree (storedNode env.cwd root area stamp q)
      · obtain ⟨⟨old, hold⟩, hversion | htmp⟩ := hover
        · have hnode : storedNode env.cwd root area stamp q =
              versionNode env.cwd root op.rel_path env.now := hversion
          rw [hnode] at hc ⊢
          have heq : c = old := hplace.same old c hold (by rw [hp]; exact hc)
          rcases h.stored old c hold hc with hstay | hnew
          · exact hstay
          · rw [heq]
            exact hnew
        · exact absurd ((storedNode_inj htmp).2.2 ▸ temporary_relNames op.rel_path) hq
      · apply (h.spares hg).2 _ c _ hc
        rintro (hcurrent | hover')
        · exact not_currentNodes_stored harea hcurrent
        · exact hover hover'
  | trashes hp h =>
      rcases h.rest _ c (not_current_prefix_stored harea) hc with hstay | ⟨hnode, d, hd⟩
      · exact hstay
      · rw [hnode] at hc ⊢
        have heq : c = d := hplace.same d c hd (by rw [hp]; exact hc)
        have hmoved := h.moved [] d (by rw [List.append_nil]; exact hd)
        rw [List.append_nil] at hmoved
        rw [heq]
        exact hmoved

/-- What is displaced is kept. -/
theorem Outcome.displaced {op : Operation} (h : Outcome env root op w w')
    (hg : w.tree.Grounded) (hq : ¬ Temporary q) (hd : Displaces env.cwd root w w' q c) :
    Kept env.cwd root w'.tree q c := by
  obtain ⟨hbefore, hafter⟩ := hd
  cases h with
  | spares h => exact absurd ((h hg).2 _ c not_false hbefore) hafter
  | replaces hp h =>
      by_cases hnode : currentNode env.cwd root q = currentNode env.cwd root (relNames op.rel_path)
      · have hqrel : q = relNames op.rel_path :=
          (List.cons.inj (List.append_cancel_left hnode)).2
        rw [hnode] at hbefore hafter
        rcases h.saved c hbefore with hstay | hsaved
        · exact absurd hstay hafter
        · refine ⟨versionsName, timestampDirname env.now, Or.inl rfl, ?_⟩
          rw [hqrel]
          exact hsaved
      · exfalso
        apply hafter
        apply (h.spares hg).2 _ c _ hbefore
        rintro ((heq | htmp) | hover)
        · exact hnode heq
        · exact hq ((List.cons.inj (List.append_cancel_left htmp)).2 ▸ temporary_relNames op.rel_path)
        · exact not_overwritten_current hover
  | trashes hp h =>
      by_cases hbelow : currentNode env.cwd root (relNames op.rel_path) <+: currentNode env.cwd root q
      · obtain ⟨r, hr⟩ := hbelow
        have hqr : q = relNames op.rel_path ++ r := by
          have htail := List.append_cancel_left (hr.symm.trans (List.append_assoc _ _ r))
          exact (List.cons.inj htail).2
        rw [← hr] at hbefore
        refine ⟨trashName, timestampDirname env.now, Or.inr rfl, ?_⟩
        rw [hqr, ← storedNode_append]
        exact h.moved r c hbefore
      · exfalso
        apply hafter
        rcases h.rest _ c hbelow hbefore with hstay | ⟨heq, -⟩
        · exact hstay
        · exact absurd heq.symm (stored_ne_current (Or.inr rfl))

end Steps

/-! ## Runs -/

/-- An operation, when it ran, and the worlds before and after it. -/
structure Event where
  now : Tm
  op : Operation
  before : World
  after : World

/-- The operation runs to its end, its calls being answered as POSIX has it, with a place
for what it takes out of `current`. -/
structure Event.Happens (cwd : TreePath) (root : Bytes) (e : Event) : Prop where
  ran : ∃ fuel rc, (e.op.prog fuel root).run (posix ⟨cwd, e.now⟩) e.before = some (rc, e.after)
  place : HasPlace ⟨cwd, e.now⟩ root e.op e.before.tree

/-- A run of operations from `w` to `w'`. -/
abbrev IsRun (cwd : TreePath) (root : Bytes) : World → List Event → World → Prop :=
  IsStoreRun cwd root Event.before Event.after (Event.Happens cwd root)

section Runs

variable {cwd : TreePath} {root : Bytes} {w w' : World} {q : TreePath} {c : Bytes}

theorem Meanwhile.kept (h : Meanwhile cwd root w w') (hkept : Kept cwd root w.tree q c) :
    Kept cwd root w'.tree q c := by
  obtain ⟨area, stamp, harea, hc⟩ := hkept
  refine ⟨area, stamp, harea, ?_⟩
  rw [← hc]
  exact FileTree.content_congr (h.store _ (List.prefix_append _ _))

theorem Event.Happens.outcome {e : Event} (h : e.Happens cwd root) (hg : e.before.tree.Grounded) :
    Outcome ⟨cwd, e.now⟩ root e.op e.before e.after := by
  obtain ⟨fuel, rc, hrun⟩ := h.ran
  exact ran_operation hg h.place (exec_graph_iff.mpr hrun)

/-- What is kept stays kept to the end of a run. -/
theorem IsStoreRun.kept {es : List Event} (h : IsRun cwd root w es w') (hq : ¬ Temporary q)
    (hkept : Kept cwd root w.tree q c) : Kept cwd root w'.tree q c := by
  -- induction on the operations that are still to come
  induction es generalizing w with
  | nil => exact Meanwhile.kept h hkept
  | cons e es ih =>
      obtain ⟨hmeanwhile, hhappens, hrest⟩ := h
      have hg := hmeanwhile.grounded
      apply ih hrest
      exact (hhappens.outcome hg).kept hg hhappens.place hq (hmeanwhile.kept hkept)

/-- Every content that an operation of a run takes out of a file of `current` is in
`.versions` or in `.trash` at the end, as a version of that file or as that file; temporary
files are excepted. -/
theorem displaced_is_kept {es : List Event} (h : IsRun cwd root w es w') {e : Event}
    (he : e ∈ es) (hq : ¬ Temporary q) (hd : Displaces cwd root e.before e.after q c) :
    Kept cwd root w'.tree q c := by
  induction es generalizing w with
  | nil => cases he
  | cons e' es ih =>
      obtain ⟨hmeanwhile, hhappens, hrest⟩ := h
      rcases List.mem_cons.mp he with rfl | hlater
      · have hg := hmeanwhile.grounded
        exact hrest.kept hq ((hhappens.outcome hg).displaced hg hq hd)
      · exact ih hrest hlater

end Runs

/-! ## A file that is replaced and deleted -/

/-- The store holds `[9]` as `a`, and the user `[1]`. -/
def staleA : World := ⟨(storeWith [(ascii "a", [9])]).put [ascii "a"] (.file [1]), hearing []⟩

def copyA : Operation :=
  .upload (.syncLocalFile { initSyncTask with src_path := nameA, rel_path := nameA })

/-- The world that an operation leaves. -/
def Operation.leaves (op : Operation) (now : Tm) (w : World) : World :=
  (((op.prog 8 (ascii "s")).run (posix ⟨[], now⟩) w).map Prod.snd).getD w

def copiedA : World := copyA.leaves ⟨126, 1, 2, 3, 4, 5⟩ staleA

def trashedA : World :=
  (Operation.moveToTrash (ascii "a")).leaves ⟨126, 1, 2, 3, 4, 6⟩ copiedA

theorem Operation.ran_leaves {op : Operation} {now : Tm} {w : World}
    (h : ((op.prog 8 (ascii "s")).run (posix ⟨[], now⟩) w).isSome = true) :
    ∃ fuel rc, (op.prog fuel (ascii "s")).run (posix ⟨[], now⟩) w =
      some (rc, op.leaves now w) := by
  obtain ⟨⟨rc, w'⟩, hrun⟩ := Option.isSome_iff_exists.mp h
  refine ⟨8, rc, ?_⟩
  rw [Operation.leaves, hrun]
  rfl

theorem isRun_staleA : IsRun [] (ascii "s") staleA
    [⟨⟨126, 1, 2, 3, 4, 5⟩, copyA, staleA, copiedA⟩,
      ⟨⟨126, 1, 2, 3, 4, 6⟩, .moveToTrash (ascii "a"), copiedA, trashedA⟩] trashedA := by
  have hg0 : staleA.tree.Grounded := FileTree.grounded_of_entries (by decide)
  have hplace1 : HasPlace ⟨[], ⟨126, 1, 2, 3, 4, 5⟩⟩ (ascii "s") copyA staleA.tree := by
    refine ⟨fun c d _ hd => ?_, fun h => h.elim⟩
    have hnone : staleA.tree.content (copyA.place ⟨[], ⟨126, 1, 2, 3, 4, 5⟩⟩ (ascii "s")) = none := by
      decide +kernel
    rw [hnone] at hd
    cases hd
  have hplace2 : HasPlace ⟨[], ⟨126, 1, 2, 3, 4, 6⟩⟩ (ascii "s") (.moveToTrash (ascii "a"))
      copiedA.tree := by
    refine ⟨fun c d _ hd => ?_, fun h => h.elim⟩
    have hnone : copiedA.tree.content ((Operation.moveToTrash (ascii "a")).place
        ⟨[], ⟨126, 1, 2, 3, 4, 6⟩⟩ (ascii "s")) = none := by
      decide +kernel
    rw [hnone] at hd
    cases hd
  have hhappens1 : Event.Happens [] (ascii "s") ⟨⟨126, 1, 2, 3, 4, 5⟩, copyA, staleA, copiedA⟩ :=
    ⟨Operation.ran_leaves (by decide +kernel), hplace1⟩
  have hhappens2 : Event.Happens [] (ascii "s")
      ⟨⟨126, 1, 2, 3, 4, 6⟩, .moveToTrash (ascii "a"), copiedA, trashedA⟩ :=
    ⟨Operation.ran_leaves (by decide +kernel), hplace2⟩
  have hg1 : copiedA.tree.Grounded := (hhappens1.outcome hg0).grounded hg0
  have hg2 : trashedA.tree.Grounded := (hhappens2.outcome hg1).grounded hg1
  exact ⟨⟨hg0, fun _ _ => rfl⟩, hhappens1, ⟨hg1, fun _ _ => rfl⟩, hhappens2,
    ⟨hg2, fun _ _ => rfl⟩⟩

theorem displaced_staleA : Kept [] (ascii "s") trashedA.tree [ascii "a"] [9] := by
  have hq : ¬ Temporary [ascii "a"] := by
    rintro ⟨init, name, hname⟩
    have hlast := congrArg (fun q => (q.getLastD []).length) hname
    have hlong : syncingSuffix.length = 8 := by decide
    have hone : (([ascii "a"] : TreePath).getLastD []).length = 1 := by decide
    rw [hone, List.getLastD_concat, List.length_append] at hlast
    omega
  exact displaced_is_kept isRun_staleA List.mem_cons_self hq ⟨by decide, by decide +kernel⟩

end MiniSync
