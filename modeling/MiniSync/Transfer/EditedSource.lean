import MiniSync.Agreement.FileBegin
import MiniSync.Files.AtomicCopy
import MiniSync.Fuel
import MiniSync.Transfer.Local
import MiniSync.UploadFrame

/-!
# A source that is edited while it is copied

`sync_local_file` reads the source twice, for its hash and for the copy, and the user
may rewrite the file between any two reads.  The copy replaces the file of the store
before the hashes are compared.
-/

namespace MiniSync

open Prog

/-! ## Reads of a changing file -/

/-- The world, and how often the source has been read. -/
structure Edited where
  world : World
  reads : Nat

/-- The user has rewritten the source. -/
def World.rewrite (w : World) (source : TreePath) (data : Bytes) : World :=
  { w with tree := w.tree.put source (.file data) }

/-- POSIX, with a source that holds `history k` when it is read for the `k`-th time. -/
def edited (env : Env) (source : TreePath) (history : Nat → Bytes) :
    (c : Call TreePath) → Edited → Resp c × Edited
  | .read fd pos count, s =>
      if fd = source then
        let w := s.world.rewrite source (history s.reads)
        (posixRead w.tree fd pos count, ⟨w, s.reads + 1⟩)
      else (posixRead s.world.tree fd pos count, s)
  | c, s =>
      let r := posix env c s.world
      (r.1, { s with world := r.2 })

/-- Reading on from `pos`, with the `k`-th read next, gives `data` until the end of the
file is met; then the `k'`-th read is next. -/
inductive ReadThrough (history : Nat → Bytes) : Nat → Nat → Bytes → Nat → Prop
  | done {k pos : Nat} : ((history k).drop pos).take ioBufSize = [] →
      ReadThrough history k pos [] (k + 1)
  | more {k pos k' : Nat} {buf rest : Bytes} : buf = ((history k).drop pos).take ioBufSize →
      buf ≠ [] → ReadThrough history (k + 1) (pos + buf.length) rest k' →
      ReadThrough history k pos (buf ++ rest) k'

/-- The call is no read of the source. -/
def NotSource (source : TreePath) : Call TreePath → Prop
  | .read fd _ _ => fd ≠ source
  | _ => True

section EditedSource

variable {env : Env} {source : TreePath} {history : Nat → Bytes} {w w' : World} {s s' : Edited}
  {fuel k k' k₁ k₂ pos : Nat} {root rel src dst data taken copied b : Bytes}

theorem ReadThrough.unique {d d' : Bytes} (h : ReadThrough history k pos d k₁)
    (h' : ReadThrough history k pos d' k₂) : d = d' ∧ k₁ = k₂ := by
  induction h generalizing d' k₂ with
  | done hnil =>
      cases h' with
      | done => exact ⟨rfl, rfl⟩
      | more hbuf hne => exact absurd (hbuf.trans hnil) hne
  | more hbuf hne _ ih =>
      cases h' with
      | done hnil => exact absurd (hbuf.trans hnil) hne
      | more hbuf' _ hrest =>
          have hsame := hbuf.trans hbuf'.symm
          subst hsame
          obtain ⟨rfl, rfl⟩ := ih hrest
          exact ⟨rfl, rfl⟩

/-- Calls that do not read the source are answered as without the edits. -/
theorem edited_of_notSource {c : Call TreePath} (h : NotSource source c) (w : World) (k : Nat) :
    edited env source history c ⟨w, k⟩ = ((posix env c w).1, ⟨(posix env c w).2, k⟩) := by
  cases c with
  | read fd pos count => exact if_neg h
  | _ => rfl

theorem run_edited {α : Type} {p : Sys TreePath α}
    (h : p.Calls (Graph (posix env)) (NotSource source) w) :
    p.run (edited env source history) ⟨w, k⟩ =
      (p.run (posix env) w).map fun r => (r.1, ⟨r.2, k⟩) :=
  Calls.run_eq (f := fun w => Edited.mk w k) h fun _ w hc => edited_of_notSource hc w k

/-- What holds without the edits holds of a program that does not read the source. -/
theorem safe_unread {α : Type} {p : Sys TreePath α} {Q : α → World → Prop}
    (hcalls : p.Calls (Graph (posix env)) (NotSource source) w)
    (hQ : ∀ a w', p.run (posix env) w = some (a, w') → Q a w') :
    p.Safe (Graph (edited env source history)) (fun _ => True)
      (fun a s' => s'.reads = k ∧ Q a s'.world) ⟨w, k⟩ := by
  apply safe_of_exec
  intro a s' hexec
  have hrun := exec_graph_iff.mp hexec
  rw [run_edited hcalls, Option.map_eq_some_iff] at hrun
  obtain ⟨⟨a', w'⟩, hposix, heq⟩ := hrun
  cases heq
  exact ⟨rfl, hQ _ _ hposix⟩

/-- No call fails that the state does not force to. -/
abbrev NoFaults (cwd : TreePath) := Kernel cwd fun _ _ => False

theorem safe_unread_of_safe {α : Type} {p : Sys TreePath α} {A : World → Prop}
    {Q : α → World → Prop} (hcalls : p.Calls (Graph (posix env)) (NotSource source) w)
    (hg : w.tree.Grounded) (h : p.Safe (NoFaults env.cwd) A Q w) :
    p.Safe (Graph (edited env source history)) (fun _ => True)
      (fun a s' => s'.reads = k ∧ Q a s'.world ∧ s'.world.tree.Grounded) ⟨w, k⟩ := by
  have hgrounded : p.Safe (NoFaults env.cwd) (fun w => w.tree.Grounded) _ w :=
    (all_true p).safe (fun _ _ _ _ _ hs hK => hK.grounded hs) hg
  apply safe_unread (Q := fun a w' => Q a w' ∧ w'.tree.Grounded) hcalls
  intro a w' hrun
  exact ⟨h.of_run (posix_covered env) hrun, (hgrounded.of_run (posix_covered env) hrun).2⟩

/-- The same where the program returns, given enough fuel. -/
theorem safe_unread_of_returns {α : Type} {P : Nat → Sys TreePath α} {Q : α → World → Prop}
    (hP : Fuelled P) (hcalls : (P fuel).Calls (Graph (posix env)) (NotSource source) w)
    (h : ∃ n, (P n).Returns (posix env) Q w) :
    (P fuel).Safe (Graph (edited env source history)) (fun _ => True)
      (fun a s' => s'.reads = k ∧ Q a s'.world) ⟨w, k⟩ := by
  apply safe_unread hcalls
  intro a w' hrun
  obtain ⟨n, a', w'', hrun', hQ⟩ := h
  obtain ⟨rfl, rfl⟩ := Ends.unique hP ⟨fuel, hrun⟩ ⟨n, hrun'⟩
  exact hQ

/-! ## Programs that do not read the source -/

theorem openRead_graph {path : Bytes} {r : Resp (.openFile path .readOnly)}
    (h : Graph (posix env) (.openFile path .readOnly) w r w') :
    w' = w ∧ ∀ fd, r = .ok fd → fd = resolve env.cwd path := by
  have hK : NoFaults env.cwd (.openFile path .readOnly) w r w' := Or.inl ⟨env.now, h⟩
  exact hK.openRead

theorem calls_ensureParentDirExists (path : Bytes) :
    (ensureParentDirExists path).Calls (Graph (posix env)) (NotSource source) w :=
  (all_ensureParentDirExists path fun _ => trivial).calls

theorem calls_copyFilePlain (hsrc : resolve env.cwd src ≠ source) :
    (copyFilePlain fuel src dst).Calls (Graph (posix env)) (NotSource source) w := by
  refine Calls.op_bind trivial fun r w₁ hK => ?_
  cases r with
  | error e => trivial
  | ok in_ =>
      rw [(openRead_graph hK).2 in_ rfl]
      apply (calls_ensureParentDirExists dst).bind_any
      intro made w₂
      cases made with
      | err => exact Calls.op_bind trivial fun _ _ _ => trivial
      | ok =>
          refine Calls.op_bind trivial fun r w₃ _ => ?_
          cases r with
          | error e => exact Calls.op_bind trivial fun _ _ _ => trivial
          | ok out =>
              have hloop : (copyLoop (resolve env.cwd src) out fuel 0).All (NotSource source) _ :=
                all_copyLoop (fun _ _ => hsrc) (fun _ _ => trivial) fuel 0
              apply hloop.calls.bind_any
              intro copied w₄
              refine Calls.op_bind trivial fun synced _ _ => ?_
              refine Calls.op_bind trivial fun _ _ _ => ?_
              exact Calls.op_bind trivial fun _ _ _ => trivial

theorem rename_graph {old new : Bytes} {r : Resp (.rename old new)}
    (h : Graph (posix env) (.rename old new) w r w') : r ≠ .error .xdev := by
  rintro rfl
  have hne := posixRename_ne_xdev env.cwd w.tree old new
  exact hne (Prod.ext_iff.mp h).1

theorem calls_safeRenameOrCopyUnlink {old new : Bytes} :
    (safeRenameOrCopyUnlink fuel old new).Calls (Graph (posix env)) (NotSource source) w := by
  apply (calls_ensureParentDirExists new).bind_any
  intro made w₁
  cases made with
  | err => trivial
  | ok =>
      refine Calls.op_bind trivial fun r w₂ hK => ?_
      have hne := rename_graph hK
      split
      · trivial
      · exact absurd rfl hne
      · trivial

theorem calls_copyFileAtomic (hsrc : resolve env.cwd src ≠ source) :
    (copyFileAtomic fuel src dst).Calls (Graph (posix env)) (NotSource source) w := by
  unfold copyFileAtomic
  split
  · trivial
  · apply (calls_copyFilePlain hsrc).bind_any
    intro copied w₁
    cases copied with
    | err => exact Calls.op_bind trivial fun _ _ _ => trivial
    | ok =>
        apply calls_safeRenameOrCopyUnlink.bind_any
        intro renamed w₂
        cases renamed with
        | err => exact Calls.op_bind trivial fun _ _ _ => trivial
        | ok => trivial

theorem calls_backupOldVersion (hdst : currentPath root rel = some dst)
    (hne : resolve env.cwd dst ≠ source) :
    (backupOldVersion fuel root rel).Calls (Graph (posix env)) (NotSource source) w := by
  unfold backupOldVersion
  rw [hdst]
  refine Calls.op_bind trivial fun found w₁ _ => ?_
  split
  · trivial
  · apply (all_makeTimestampDirname (P := NotSource source) trivial).calls.bind_any
    intro stamp w₂
    split
    · trivial
    · apply (all_isDirectory (P := NotSource source) trivial).calls.bind_any
      intro isDir w₃
      split
      · exact (all_ensureDirExists fun _ _ => trivial).calls
      · exact calls_copyFileAtomic hne

theorem all_hashFdLoop {P : Call TreePath → Prop} {fd : TreePath}
    (hread : ∀ pos count, P (.read fd pos count)) (fuel pos : Nat) (len : Option Nat)
    (hash : UInt64) : (hashFdLoop fd fuel pos len hash).All P fun _ => True := by
  induction fuel generalizing pos len hash with
  | zero => trivial
  | succ fuel ih =>
      rw [hashFdLoop]
      split_ifs
      · trivial
      · refine All.op_bind (hread pos _) fun r => ?_
        split
        · exact ih _ _ _
        · trivial
        · split_ifs
          · trivial
          · exact ih _ _ _

theorem calls_hashFileFnv1a {path : Bytes} (hne : resolve env.cwd path ≠ source) :
    (hashFileFnv1a fuel path).Calls (Graph (posix env)) (NotSource source) w := by
  refine Calls.op_bind trivial fun r w₁ hK => ?_
  cases r with
  | error e => trivial
  | ok fd =>
      rw [(openRead_graph hK).2 fd rfl]
      have hloop : (hashFdLoop (resolve env.cwd path) fuel 0 none fnv1a64OffsetBasis).All
          (NotSource source) _ := all_hashFdLoop (fun _ _ => hne) fuel 0 none _
      exact Calls.bind_any hloop.calls fun _ _ => Calls.op_bind trivial fun _ _ _ => trivial

/-! ## Programs that read the source -/

/-- The source is a regular file. -/
structure Sourced (source : TreePath) (w : World) : Prop where
  grounded : w.tree.Grounded
  file : ∃ data, w.tree.content source = some data

theorem Sourced.ne_root (h : Sourced source w) : source ≠ [] := by
  rintro rfl
  obtain ⟨data, hdata⟩ := h.file
  cases hdata

theorem Sourced.rewrite (h : Sourced source w) (data : Bytes) :
    Sourced source (w.rewrite source data) := by
  obtain ⟨old, hold⟩ := h.file
  have hlookup := FileTree.content_eq_some.mp hold
  refine ⟨h.grounded.put_file h.ne_root ?_ ?_, data, ?_⟩
  · exact h.grounded _ h.ne_root (by rw [hlookup]; simp)
  · rw [hlookup]
    simp
  · rw [FileTree.content_eq_some, World.rewrite, FileTree.lookup_put h.ne_root, if_pos rfl]

theorem lookup_rewrite (hsource : source ≠ []) {q : TreePath} (hq : q ≠ source) :
    (w.rewrite source data).tree.lookup q = w.tree.lookup q := by
  rw [World.rewrite, FileTree.lookup_put hsource, if_neg hq]

/-- A read of the source gives what it holds then. -/
theorem edited_read (hsource : source ≠ []) (pos count : Nat) :
    edited env source history (.read source pos count) ⟨w, k⟩ =
      (.ok (((history k).drop pos).take count), ⟨w.rewrite source (history k), k + 1⟩) := by
  have hlookup : (w.rewrite source (history k)).tree.lookup source = some (.file (history k)) := by
    rw [World.rewrite, FileTree.lookup_put hsource, if_pos rfl]
  simp [edited, posixRead, hlookup]

/-- Only the source has changed, and it is still a file. -/
structure OnlySource (source : TreePath) (w w' : World) : Prop where
  sourced : Sourced source w'
  rest : ∀ q, q ≠ source → w'.tree.lookup q = w.tree.lookup q

theorem OnlySource.of_rewrite (h : Sourced source w)
    (hrest : OnlySource source (w.rewrite source data) w') : OnlySource source w w' :=
  ⟨hrest.sourced, fun q hq => (hrest.rest q hq).trans (lookup_rewrite h.ne_root hq)⟩

theorem safe_hashSourceLoop (hsourced : Sourced source w) (hash : UInt64) :
    (hashFdLoop source fuel pos none hash).Safe (Graph (edited env source history))
      (fun _ => True)
      (fun h s' => OnlySource source w s'.world ∧
        ∃ data, ReadThrough history k pos data s'.reads ∧ h = data.foldl fnv1aStep hash)
      ⟨w, k⟩ := by
  induction fuel generalizing pos k w hash with
  | zero => trivial
  | succ fuel ih =>
      rw [hashFdLoop, if_neg (by simp)]
      apply Safe.op_bind
      intro r s' hstep
      rw [Prog.Graph, edited_read hsourced.ne_root] at hstep
      obtain ⟨rfl, rfl⟩ := Prod.mk.inj hstep
      refine ⟨trivial, ?_⟩
      simp only [Option.getD_none, min_self, Option.map_none]
      split_ifs with hnil
      · exact ⟨.of_rewrite hsourced ⟨hsourced.rewrite _, fun _ _ => rfl⟩, [], .done hnil, rfl⟩
      · apply (ih (hsourced.rewrite (history k)) _).post
        rintro h s' ⟨honly, data, hread, rfl⟩
        exact ⟨.of_rewrite hsourced honly, _, .more rfl hnil hread, by rw [List.foldl_append]⟩

/-- The path of the source. -/
structure SourcePath (cwd source : TreePath) (src : Bytes) : Prop where
  resolves : resolve cwd src = source
  ne_nil : src ≠ []
  names_file : asksForDir src = false

theorem SourcePath.opens (h : SourcePath env.cwd source src) (hsourced : Sourced source w)
    (s' : Edited) (r : Resp (.openFile src .readOnly))
    (hstep : Graph (edited env source history) (.openFile src .readOnly) ⟨w, k⟩ r s') :
    s' = ⟨w, k⟩ ∧ r = .ok source := by
  obtain ⟨rfl, hnil, hfile⟩ := h
  obtain ⟨data, hdata⟩ := hsourced.file
  have hopen := @posix_openRead env w src data ⟨hnil, hfile, hdata⟩
  have hsame := @edited_of_notSource env (resolve env.cwd src) history
    (.openFile src .readOnly) trivial w k
  rw [Prog.Graph, hsame, hopen] at hstep
  obtain ⟨rfl, rfl⟩ := Prod.mk.inj hstep
  exact ⟨rfl, rfl⟩

/-- The first hash is that of what the reads have given. -/
theorem safe_hashSource (hpath : SourcePath env.cwd source src) (hsourced : Sourced source w) :
    (hashFileFnv1a fuel src).Safe (Graph (edited env source history)) (fun _ => True)
      (fun h s' => OnlySource source w s'.world ∧
        ∃ data, ReadThrough history k 0 data s'.reads ∧ h = hashBufferFnv1a data)
      ⟨w, k⟩ := by
  apply Safe.op_bind
  intro r s' hstep
  obtain ⟨rfl, rfl⟩ := hpath.opens hsourced s' r hstep
  refine ⟨trivial, ?_⟩
  have hloop : (hashFdRange fuel source 0 none).Safe (Graph (edited env source history))
      (fun _ => True) _ ⟨w, k⟩ := safe_hashSourceLoop hsourced fnv1a64OffsetBasis
  apply hloop.bind
  rintro hash s' hhash
  apply Safe.op_bind
  rintro r s'' hclose
  cases hclose
  exact ⟨trivial, hhash⟩

/-- The copy holds what the reads have given. -/
theorem safe_copySourceLoop {out : TreePath} {done : Bytes} (hsourced : Sourced source w)
    (hne : out ≠ source) (hout : w.tree.content out = some done) :
    (copyLoop source out fuel done.length).Safe (Graph (edited env source history))
      (fun _ => True)
      (fun rc s' => rc = .ok ∧ Sourced source s'.world ∧ s'.world.conn = w.conn ∧
        (∀ q, q ≠ source → q ≠ out → s'.world.tree.lookup q = w.tree.lookup q) ∧
        ∃ data, ReadThrough history k done.length data s'.reads ∧
          s'.world.tree.content out = some (done ++ data))
      ⟨w, k⟩ := by
  induction fuel generalizing done k w with
  | zero => trivial
  | succ fuel ih =>
      rw [copyLoop]
      apply Safe.op_bind
      intro r s' hstep
      rw [Prog.Graph, edited_read hsourced.ne_root] at hstep
      obtain ⟨rfl, rfl⟩ := Prod.mk.inj hstep
      refine ⟨trivial, ?_⟩
      have hroot := hsourced.ne_root
      have hsourced1 := hsourced.rewrite (history k)
      have hout1 : (w.rewrite source (history k)).tree.content out = some done := by
        rw [← hout]
        exact FileTree.content_congr (lookup_rewrite hroot hne)
      simp only
      split_ifs with hnil
      · refine ⟨rfl, hsourced1, rfl, fun q hq _ => lookup_rewrite hroot hq, [], .done hnil, ?_⟩
        rw [List.append_nil]
        exact hout1
      generalize hbuf : ((history k).drop done.length).take ioBufSize = buf at hnil ⊢
      have hcalls : (writeLoop out fuel done.length buf).All (NotSource source) _ :=
        all_writeLoop (fun _ _ => trivial) fuel done.length buf
      have hwrite : (writeLoop out fuel done.length buf).Safe (Graph (edited env source history))
          (fun _ => True) _ ⟨w.rewrite source (history k), k + 1⟩ :=
        safe_unread_of_returns (fuelled_writeLoop out done.length buf) hcalls.calls
          ⟨2, (returns_writeLoop le_rfl hout1).grounded hsourced1.grounded⟩
      apply hwrite.bind
      rintro rc ⟨w2, k2⟩ ⟨rfl, ⟨rfl, hwrote⟩, hg2⟩
      have hsame : ∀ q, q ≠ source → q ≠ out → w2.tree.lookup q = w.tree.lookup q :=
        fun q hq hqout => (hwrote.rest q hqout not_false).trans (lookup_rewrite hroot hq)
      have hsourced2 : Sourced source w2 := by
        obtain ⟨data, hdata⟩ := hsourced1.file
        refine ⟨hg2, data, ?_⟩
        rw [← hdata]
        exact FileTree.content_congr (hwrote.rest source hne.symm not_false)
      have hlen : done.length + buf.length = (done ++ buf).length := List.length_append.symm
      simp only
      rw [hlen]
      apply (ih hsourced2 hwrote.content).post
      rintro rc s' ⟨rfl, hsourced', hconn, hrest, data, hread, hdata⟩
      refine ⟨rfl, hsourced', hconn.trans hwrote.conn,
        fun q hq hqout => (hrest q hq hqout).trans (hsame q hq hqout), buf ++ data, ?_, ?_⟩
      · rw [← hlen] at hread
        exact .more hbuf.symm hnil hread
      · rw [hdata, List.append_assoc]

/-! ## The copy, whatever is in its way -/

/-- A call that does not read the source. -/
theorem step_unread {c : Call TreePath} {r : Resp c} (hc : NotSource source c)
    (h : Graph (edited env source history) c ⟨w, k⟩ r s') :
    s'.reads = k ∧ posix env c w = (r, s'.world) := by
  rw [Prog.Graph, edited_of_notSource hc] at h
  obtain ⟨rfl, rfl⟩ := Prod.mk.inj h
  exact ⟨rfl, rfl⟩

theorem noFaults_of_posix {c : Call TreePath} {r : Resp c} (h : posix env c w = (r, w')) :
    NoFaults env.cwd c w r w' := Or.inl ⟨env.now, h⟩

theorem Sourced.of_touches {X : TreePath → Prop} (h : Sourced source w) (hg : w'.tree.Grounded)
    (htouch : w.tree.Touches X w'.tree) (hX : ¬ X source) : Sourced source w' := by
  obtain ⟨data, hdata⟩ := h.file
  exact ⟨hg, data, (htouch.content hX).trans hdata⟩

/-- Making directories leaves all files as they are. -/
theorem safe_parentDir_unread (hsourced : Sourced source w) (path : Bytes) :
    (ensureParentDirExists path).Safe (Graph (edited env source history)) (fun _ => True)
      (fun _ s' => s'.reads = k ∧ Sourced source s'.world ∧
        w.tree.Touches (fun _ => False) s'.world.tree) ⟨w, k⟩ := by
  have hmake : (ensureParentDirExists path).Moves (NoFaults env.cwd) (Tidy fun _ => False) _ w :=
    moves_ensureParentDirExists (fun _ => False) path
  apply (safe_unread_of_safe (calls_ensureParentDirExists path) hsourced.grounded
    hmake.moved).post
  rintro made s' ⟨hreads, ⟨htidy, -⟩, hg⟩
  exact ⟨hreads, hsourced.of_touches hg htidy.1 not_false, htidy.1⟩

/-- The temporary file holds what the reads have given, and no other file has changed. -/
theorem safe_copyFilePlain_source (hpath : SourcePath env.cwd source src)
    (hsourced : Sourced source w) (hne : resolve env.cwd dst ≠ source) :
    (copyFilePlain fuel src dst).Safe (Graph (edited env source history)) (fun _ => True)
      (fun rc s' => Sourced source s'.world ∧
        w.tree.Touches (fun q => q = source ∨ q = resolve env.cwd dst) s'.world.tree ∧
        (rc = .ok → ∃ data, ReadThrough history k 0 data s'.reads ∧
          s'.world.tree.content (resolve env.cwd dst) = some data)) ⟨w, k⟩ := by
  apply Safe.op_bind
  intro r s' hstep
  obtain ⟨rfl, rfl⟩ := hpath.opens hsourced s' r hstep
  refine ⟨trivial, ?_⟩
  apply (safe_parentDir_unread hsourced dst).bind
  rintro made ⟨w1, k1⟩ ⟨rfl, hsourced1, hmade⟩
  have htouch1 := hmade.mono (Y := fun q => q = source ∨ q = resolve env.cwd dst)
    fun _ h => h.elim
  cases made with
  | err =>
      apply Safe.op_bind
      rintro r s' hclose
      cases hclose
      exact ⟨trivial, hsourced1, htouch1, by rintro ⟨⟩⟩
  | ok =>
      apply Safe.op_bind
      rintro r ⟨w2, k2⟩ hstep
      have hopen : NotSource source (.openFile dst (.writeCreateTrunc 0o644)) := trivial
      obtain ⟨rfl, hposix⟩ := step_unread hopen hstep
      have hK := noFaults_of_posix hposix
      refine ⟨trivial, ?_⟩
      rcases hK.openTrunc with ⟨⟨e, rfl⟩, rfl⟩ | ⟨rfl, hroot, hdir, htree, -⟩
      · apply Safe.op_bind
        rintro r s' hclose
        cases hclose
        exact ⟨trivial, hsourced1, htouch1, by rintro ⟨⟩⟩
      have hput : w1.tree.Touches (fun q => q = resolve env.cwd dst) w2.tree := by
        rw [htree]
        exact .put hroot rfl
      have hsourced2 : Sourced source w2 :=
        hsourced1.of_touches ((hK.settled not_false) hsourced1.grounded).1 hput hne.symm
      have hempty : w2.tree.content (resolve env.cwd dst) = some [] := by
        rw [FileTree.content_eq_some, htree, FileTree.lookup_put hroot, if_pos rfl]
      have hloop : (copyLoop source (resolve env.cwd dst) fuel 0).Safe
          (Graph (edited env source history)) (fun _ => True) _ ⟨w2, k2⟩ :=
        safe_copySourceLoop hsourced2 hne hempty
      apply hloop.bind
      rintro copied ⟨w3, k3⟩ ⟨rfl, hsourced3, -, hrest, data, hread, hdata⟩
      have htouch : w.tree.Touches (fun q => q = source ∨ q = resolve env.cwd dst) w3.tree := by
        apply (htouch1.trans (hput.mono fun _ h => Or.inr h)).trans
        intro q hq
        rw [not_or] at hq
        exact Or.inl (hrest q hq.1 hq.2)
      apply Safe.op_bind
      rintro synced s' hsync
      cases hsync
      refine ⟨trivial, ?_⟩
      apply Safe.op_bind
      rintro r s' hclose
      cases hclose
      refine ⟨trivial, ?_⟩
      apply Safe.op_bind
      rintro r s' hclose
      cases hclose
      exact ⟨trivial, hsourced3, htouch, fun _ => ⟨data, hread, hdata⟩⟩

theorem safe_unlink_source {tmp : Bytes} (hsourced : Sourced source w)
    (hne : resolve env.cwd tmp ≠ source) :
    (do
      let _ ← sys (.unlink tmp)
      return .err : Sys TreePath Rc).Safe (Graph (edited env source history)) (fun _ => True)
        (fun rc s' => rc = .err ∧ Sourced source s'.world ∧
          w.tree.Touches (fun q => q = resolve env.cwd tmp) s'.world.tree) ⟨w, k⟩ := by
  apply Safe.op_bind
  intro r s' hstep
  have hunlink : NotSource source (.unlink tmp) := trivial
  have hK := noFaults_of_posix (step_unread hunlink hstep).2
  have htouch : w.tree.Touches (fun q => q = resolve env.cwd tmp) s'.world.tree := by
    rcases hK.unlinkCases with ⟨-, hsame⟩ | ⟨-, -, hgone⟩
    · rw [hsame]
      exact .refl _ _
    · exact .unlink rfl hgone
  exact ⟨trivial, rfl,
    hsourced.of_touches (hK.grounded hsourced.grounded) htouch hne.symm, htouch⟩

/-- What a copy of the source leaves at its target. -/
def CopiedOrKept (history : Nat → Bytes) (k : Nat) (old new : Option Bytes) : Prop :=
  new = old ∨ ∃ data k', ReadThrough history k 0 data k' ∧ new = some data

/-- The target is replaced by what the reads have given, or not at all. -/
theorem safe_copyFileAtomic_source (hpath : SourcePath env.cwd source src)
    (hsourced : Sourced source w) (hdst : resolve env.cwd dst ≠ source)
    (htmp : ∀ tmp, syncingPath dst = some tmp → resolve env.cwd tmp ≠ source) :
    (copyFileAtomic fuel src dst).Safe (Graph (edited env source history)) (fun _ => True)
      (fun _ s' => Sourced source s'.world ∧
        CopiedOrKept history k (w.tree.content (resolve env.cwd dst))
          (s'.world.tree.content (resolve env.cwd dst))) ⟨w, k⟩ := by
  unfold copyFileAtomic
  split
  · exact ⟨hsourced, .inl rfl⟩
  rename_i tmp hsyncing
  have hne : resolve env.cwd tmp ≠ resolve env.cwd dst := resolve_syncing_ne hsyncing
  apply (safe_copyFilePlain_source hpath hsourced (htmp tmp hsyncing)).bind
  rintro copied ⟨w1, k1⟩ ⟨hsourced1, htouch, hcopied⟩
  have hkept1 : w1.tree.content (resolve env.cwd dst) = w.tree.content (resolve env.cwd dst) := by
    apply htouch.content
    rw [not_or]
    exact ⟨hdst, hne.symm⟩
  cases copied with
  | err =>
      apply (safe_unlink_source hsourced1 (htmp tmp hsyncing)).post
      rintro rc s' ⟨-, hsourced', hgone⟩
      exact ⟨hsourced', .inl ((hgone.content hne.symm).trans hkept1)⟩
  | ok =>
      obtain ⟨data, hread, hdata⟩ := hcopied rfl
      have hrename : (safeRenameOrCopyUnlink fuel tmp dst).Safe (NoFaults env.cwd)
          (fun _ => True) _ w1 := safe_renameTmp hsyncing hsourced1.grounded hdata not_false
      apply (safe_unread_of_safe calls_safeRenameOrCopyUnlink hsourced1.grounded hrename).bind
      rintro renamed ⟨w2, k2⟩ ⟨-, ⟨hfailed, hdone⟩, hg2⟩
      cases renamed with
      | err =>
          have htouch2 := (hfailed rfl).1
          have hsourced2 := hsourced1.of_touches hg2 htouch2 (htmp tmp hsyncing).symm
          apply (safe_unlink_source hsourced2 (htmp tmp hsyncing)).post
          rintro rc s' ⟨-, hsourced', hgone⟩
          refine ⟨hsourced', .inl ?_⟩
          exact (hgone.content hne.symm).trans ((htouch2.content hne.symm).trans hkept1)
      | ok =>
          obtain ⟨htouch2, -, hnew⟩ := hdone rfl
          refine ⟨hsourced1.of_touches hg2 htouch2 ?_, .inr ⟨data, _, hread, hnew⟩⟩
          rw [not_or]
          exact ⟨(htmp tmp hsyncing).symm, hdst.symm⟩

end EditedSource

end MiniSync
