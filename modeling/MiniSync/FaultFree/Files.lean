import MiniSync.FaultFree.Directories

/-!
# Writing, copying and renaming files without faults

Where a file can be created, `copy_file_plain`, `safe_rename_or_copy_unlink` and
`copy_file_atomic` succeed, and this is all they do.
-/

namespace MiniSync

open Prog

section Files

variable {env : Env} {w w' : World} {fuel : Nat} {src b rel data : Bytes}

/-! ## Paths of files -/

/-- The path can name a regular file. -/
structure Plain (path : Bytes) : Prop where
  ne_nil : path ≠ []
  names_file : asksForDir path = false
  named : endsInDot path = false

theorem plain_append {x name : Bytes} (hname : Component name) (hdot : name ≠ [dot]) :
    Plain (x ++ slash :: name) := by
  have hsplit : (x ++ slash :: name).splitOn slash = x.splitOn slash ++ [name] := by
    rw [List.splitOn_append_cons_self, List.splitOn_eq_singleton hname.no_slash]
  have hout : ¬ name ∈ [[], [dot], [dot, dot]] := by
    simp only [List.mem_cons, List.not_mem_nil, or_false, not_or]
    exact ⟨hname.ne_nil, hdot, hname.ne_dotdot⟩
  refine ⟨by simp, ?_, ?_⟩
  · unfold asksForDir PosixPath.mustBeDir
    rw [hsplit, List.getLastD_concat, decide_eq_false_iff_not]
    exact hout
  · unfold endsInDot PosixPath.lastIsDot PosixPath.lastName
    rw [hsplit, List.filter_append, List.filter_cons_of_pos (by simpa using hname.ne_nil),
      List.filter_nil, List.getLastD_concat, decide_eq_false_iff_not]
    exact hout

theorem EndsInName.plain (h : EndsInName rel) : Plain (b ++ slash :: rel) := by
  obtain ⟨name, hname, hdot, rfl | ⟨u, rfl, -⟩⟩ := h
  · exact plain_append hname hdot
  · have hshape : b ++ slash :: (u ++ slash :: name) = (b ++ slash :: u) ++ slash :: name := by simp
    rw [hshape]
    exact plain_append hname hdot

theorem FilePath.plain (h : FilePath rel) : Plain (b ++ slash :: rel) := h.split.plain

/-- The names of a path end with the name of its node. -/
theorem EndsInName.relNames_eq (h : EndsInName rel) :
    ∃ name, relNames rel = (relNames rel).dropLast ++ [name] := by
  obtain ⟨name, hname, hdot, rfl | ⟨u, rfl, -⟩⟩ := h
  · exact ⟨rel, by rw [relNames_component hname hdot]; rfl⟩
  · exact ⟨name, by rw [relNames_append, relNames_component hname hdot, List.dropLast_concat]⟩

theorem FilePath.relNames_eq (h : FilePath rel) :
    ∃ name, relNames rel = (relNames rel).dropLast ++ [name] := h.split.relNames_eq

/-- The directories on the way to `b/rel`. -/
def WayTo (cwd : TreePath) (b rel : Bytes) : TreePath → Prop :=
  OnWay (resolve cwd b) (relNames rel).dropLast

/-- A regular file can be made at `b/rel`, or is there already. -/
structure Creatable (cwd : TreePath) (tree : Tree) (b rel : Bytes) : Prop where
  base_ne : b ≠ []
  base_last : b.getLast? ≠ some slash
  file : FilePath rel
  fits : (b ++ slash :: rel).length < maxPathLen
  passable : Passable cwd tree b (relNames rel).dropLast
  notDir : tree.lookup (resolve cwd (b ++ slash :: rel)) ≠ some .dir

namespace Creatable

variable {cwd : TreePath} {tree tree' : Tree}

theorem resolve_eq (h : Creatable cwd tree b rel) :
    resolve cwd (b ++ slash :: rel) = resolve cwd b ++ relNames rel :=
  resolve_below h.base_ne h.file.relative.no_dotdot

theorem not_wayTo (h : Creatable cwd tree b rel) :
    ¬ WayTo cwd b rel (resolve cwd (b ++ slash :: rel)) := by
  obtain ⟨name, hname⟩ := h.file.relNames_eq
  rw [h.resolve_eq, hname]
  exact not_onWay_concat name

theorem wayTo_parent (h : Creatable cwd tree b rel) :
    WayTo cwd b rel (resolve cwd (b ++ slash :: rel)).dropLast := by
  obtain ⟨name, hname⟩ := h.file.relNames_eq
  rw [h.resolve_eq, hname, ← List.append_assoc, List.dropLast_concat]
  exact onWay_end _ _

theorem wayTo_prefix (h : Creatable cwd tree b rel) {q : TreePath} (hq : WayTo cwd b rel q) :
    q <+: resolve cwd (b ++ slash :: rel) := by
  obtain ⟨r, hr, rfl⟩ := hq
  rw [h.resolve_eq, List.prefix_append_right_inj]
  exact hr.trans (List.dropLast_prefix _)

/-- Files are not on the way. -/
theorem not_wayTo_of_content (h : Creatable cwd tree b rel) {p : TreePath} {c : Bytes}
    (hp : tree.content p = some c) : ¬ WayTo cwd b rel p :=
  fun hway => h.passable.free p c hway (FileTree.content_eq_some.mp hp)

theorem ne_root (h : Creatable cwd tree b rel) : resolve cwd (b ++ slash :: rel) ≠ [] := by
  intro hroot
  apply h.notDir
  rw [hroot]
  rfl

/-- It still can be, where directories have stayed and no file has come into the way. -/
theorem of_lookup (h : Creatable cwd tree b rel)
    (hdirs : ∀ d, d ≠ [] → Leads d b → tree.IsDir (resolve cwd d) → tree'.IsDir (resolve cwd d))
    (hway : ∀ q c, WayTo cwd b rel q → tree'.lookup q ≠ some (.file c))
    (hnode : tree'.lookup (resolve cwd (b ++ slash :: rel)) ≠ some .dir) :
    Creatable cwd tree' b rel :=
  ⟨h.base_ne, h.base_last, h.file, h.fits,
    ⟨fun d hd hl => hdirs d hd hl (h.passable.leads d hd hl), hway⟩, hnode⟩

end Creatable

/-! ## Placing a file -/

/-- A file has been written at `p`, the directories on a way to it have been made,
and nothing else has happened. -/
structure Placed (way : TreePath → Prop) (p : TreePath) (data : Bytes) (w w' : World) : Prop where
  conn : w'.conn = w.conn
  file : w'.tree.lookup p = some (.file data)
  dirs : ∀ q, way q → w'.tree.IsDir q
  rest : ∀ q, q ≠ p → ¬ way q → w'.tree.lookup q = w.tree.lookup q

/-- The same without directories. -/
abbrev Wrote (p : TreePath) (data : Bytes) (w w' : World) : Prop :=
  Placed (fun _ => False) p data w w'

theorem wrote_put {p : TreePath} (hp : p ≠ []) :
    Wrote p data w { w with tree := w.tree.put p (.file data) } := by
  refine ⟨rfl, ?_, nofun, fun q hq _ => ?_⟩
  · rw [FileTree.lookup_put hp, if_pos rfl]
  · rw [FileTree.lookup_put hp, if_neg hq]

theorem Wrote.content {p : TreePath} (h : Wrote p data w w') : w'.tree.content p = some data :=
  FileTree.content_eq_some.mpr h.file

theorem Wrote.trans {p : TreePath} {w'' : World} {data' : Bytes} (h : Wrote p data w w')
    (h' : Wrote p data' w' w'') : Wrote p data' w w'' :=
  ⟨h'.conn.trans h.conn, h'.file, nofun,
    fun q hq hway => (h'.rest q hq hway).trans (h.rest q hq hway)⟩

theorem Made.wrote {way : TreePath → Prop} {p : TreePath} {w'' : World} (h : Made way w w')
    (h' : Wrote p data w' w'') (hp : ¬ way p) : Placed way p data w w'' := by
  refine ⟨h'.conn.trans h.conn, h'.file, fun q hq => ?_, fun q hq hway => ?_⟩
  · have hqp : q ≠ p := by
      rintro rfl
      exact hp hq
    exact (h'.rest q hqp not_false).trans (h.dirs q hq)
  · exact (h'.rest q hq not_false).trans (h.rest q hway)

/-- Writing another file in the same directory keeps a file creatable. -/
theorem Creatable.of_placed {cwd : TreePath} {p : TreePath} (h : Creatable cwd w.tree b rel)
    (hplaced : Placed (WayTo cwd b rel) p data w w')
    (hne : p ≠ resolve cwd (b ++ slash :: rel)) (hp : w.tree.lookup p ≠ some .dir) :
    Creatable cwd w'.tree b rel := by
  apply h.of_lookup
  · intro d _ _ hdir
    by_cases hway : WayTo cwd b rel (resolve cwd d)
    · exact hplaced.dirs _ hway
    · have hdp : resolve cwd d ≠ p := by
        rintro rfl
        exact hp hdir
      exact (hplaced.rest _ hdp hway).trans hdir
  · intro q c hq hfile
    have hdir : w'.tree.lookup q = some .dir := hplaced.dirs q hq
    rw [hdir] at hfile
    cases hfile
  · rw [hplaced.rest _ hne.symm h.not_wayTo]
    exact h.notDir

/-! ## Single calls -/

theorem posix_pwrite {fd : TreePath} {c buf : Bytes} (h : w.tree.content fd = some c) (pos : Nat) :
    posix env (.pwrite fd buf pos) w = (.ok buf.length,
      { w with tree := w.tree.put fd (.file (ByteString.splice 0 c pos buf)) }) := by
  have hlookup := FileTree.content_eq_some.mp h
  have hpos : ¬ (pos : Int) < 0 := by omega
  simp [posix, posixWrite, hlookup, hpos]

theorem posix_openCreate {path : Bytes} (trunc : Bool) (hpath : Plain path)
    (hdir : w.tree.lookup (resolve env.cwd path) ≠ some .dir)
    (hparent : w.tree.IsDir (resolve env.cwd path).dropLast) :
    posixOpenWrite env.cwd w.tree path trunc = (.ok (resolve env.cwd path),
      w.tree.put (resolve env.cwd path)
        (.file (if trunc then [] else (w.tree.content (resolve env.cwd path)).getD []))) := by
  have hok : w.tree.parentIsDir (resolve env.cwd path) := hparent
  unfold posixOpenWrite FileTree.content
  cases hlookup : w.tree.lookup (resolve env.cwd path) with
  | none => simp [hlookup, hpath.ne_nil, hpath.names_file, hok]
  | some node =>
      cases node with
      | dir => exact absurd hlookup hdir
      | file c => simp [hlookup, hpath.ne_nil, hpath.names_file]

theorem posix_openKeep {path : Bytes} {mode : UInt32} (hpath : Plain path)
    (hdir : w.tree.lookup (resolve env.cwd path) ≠ some .dir)
    (hparent : w.tree.IsDir (resolve env.cwd path).dropLast) :
    posix env (.openFile path (.writeCreate mode)) w = (.ok (resolve env.cwd path),
      ⟨w.tree.put (resolve env.cwd path)
        (.file ((w.tree.content (resolve env.cwd path)).getD [])), w.conn⟩) := by
  have hopen := posix_openCreate false hpath hdir hparent
  simp only [posix, posixOpen]
  rw [hopen]
  rfl

theorem posix_malloc (size : Nat) : posix env (.malloc size) w = (true, w) := rfl

theorem posix_stat {path : Bytes} (hpath : Plain path) :
    posixStat env.cwd w.tree path = (match w.tree.lookup (resolve env.cwd path) with
      | none => .error .noent
      | some .dir => .ok .directory
      | some (.file data) => .ok (.regular data.length)) := by
  unfold posixStat
  rw [if_neg hpath.ne_nil]
  cases w.tree.lookup (resolve env.cwd path) with
  | none => rfl
  | some node =>
      cases node with
      | dir => rfl
      | file data => simp [hpath.names_file]

theorem posix_access {path : Bytes} (hpath : Plain path) :
    posix env (.access path) w = ((w.tree.lookup (resolve env.cwd path)).isSome, w) := by
  simp only [posix, posix_stat hpath]
  cases w.tree.lookup (resolve env.cwd path) with
  | none => rfl
  | some node => cases node <;> rfl

/-- A directory is one, and a file is none. -/
theorem returns_isDirectory {path : Bytes} {node : Node Bytes} (hpath : Plain path)
    (hnode : w.tree.lookup (resolve env.cwd path) = some node) :
    (isDirectory path).Returns (posix env) (fun r w' => w' = w ∧ r = node.isDir) w := by
  refine returns_op_bind.mpr ?_
  simp only [posix, posix_stat hpath, hnode]
  cases node with
  | dir => exact .ret ⟨rfl, rfl⟩
  | file data => exact .ret ⟨rfl, rfl⟩

/-! ## Copying -/

theorem returns_writeLoop {out : TreePath} {c left : Bytes} (hfuel : 2 ≤ fuel)
    (hout : w.tree.content out = some c) :
    (writeLoop out fuel c.length left).Returns (posix env)
      (fun rc w' => rc = .ok ∧ Wrote out (c ++ left) w w') w := by
  obtain ⟨fuel, rfl⟩ := Nat.exists_eq_add_of_le' hfuel
  have hroot : out ≠ [] := by
    rintro rfl
    cases hout
  rw [writeLoop]
  split_ifs with hleft
  · refine .ret ⟨rfl, rfl, ?_, fun _ h => h.elim, fun _ _ _ => rfl⟩
    rw [hleft, List.append_nil]
    exact FileTree.content_eq_some.mp hout
  · refine returns_op_bind.mpr ?_
    rw [posix_pwrite hout]
    simp only
    rw [List.drop_length, writeLoop, if_pos rfl, ByteString.splice_end]
    exact .ret ⟨rfl, wrote_put hroot⟩

theorem returns_copyLoop {in_ out : TreePath} {pos : Nat} (hne : in_ ≠ out)
    (hin : w.tree.content in_ = some data) (hout : w.tree.content out = some (data.take pos))
    (hpos : pos ≤ data.length) (hfuel : data.length - pos + 3 ≤ fuel) :
    (copyLoop in_ out fuel pos).Returns (posix env)
      (fun rc w' => rc = .ok ∧ Wrote out data w w') w := by
  induction fuel generalizing pos w with
  | zero => omega
  | succ fuel ih =>
      rw [copyLoop]
      refine returns_op_bind.mpr ?_
      rw [posix_read hin]
      simp only
      split_ifs with hnil
      · refine .ret ⟨rfl, rfl, ?_, fun _ h => h.elim, fun _ _ _ => rfl⟩
        rcases List.take_eq_nil_iff.mp hnil with h | h
        · exact absurd h (by decide)
        · rw [List.drop_eq_nil_iff] at h
          rw [List.take_of_length_le h] at hout
          exact FileTree.content_eq_some.mp hout
      · have hlen : 0 < ((data.drop pos).take ioBufSize).length := List.length_pos_of_ne_nil hnil
        have htake : (data.take pos).length = pos := by
          rw [List.length_take, Nat.min_eq_left hpos]
        have hwrite := @returns_writeLoop env w fuel out _ ((data.drop pos).take ioBufSize)
          (by omega : 2 ≤ fuel) hout
        rw [htake] at hwrite
        apply hwrite.bind
        rintro rc w1 ⟨rfl, hwrote⟩
        have hnext : data.take pos ++ (data.drop pos).take ioBufSize =
            data.take (pos + ((data.drop pos).take ioBufSize).length) := by
          rw [List.take_add, List.length_take, ← List.take_take, List.take_length]
        have hin1 : w1.tree.content in_ = some data := by
          rw [← hin]
          exact FileTree.content_congr (hwrote.rest in_ hne not_false)
        rw [hnext] at hwrote
        simp only
        apply (ih hin1 hwrote.content _ _).post
        · rintro rc' w2 ⟨hrc, hwrote'⟩
          exact ⟨hrc, hwrote.trans hwrote'⟩
        · rw [List.length_take, List.length_drop]
          omega
        · rw [List.length_take, List.length_drop] at hlen ⊢
          omega

theorem posix_openTrunc {path : Bytes} {mode : UInt32} (hpath : Plain path)
    (hdir : w.tree.lookup (resolve env.cwd path) ≠ some .dir)
    (hparent : w.tree.IsDir (resolve env.cwd path).dropLast) :
    posix env (.openFile path (.writeCreateTrunc mode)) w = (.ok (resolve env.cwd path),
      { w with tree := w.tree.put (resolve env.cwd path) (.file []) }) := by
  have hopen := posix_openCreate true hpath hdir hparent
  simp only [posix, posixOpen]
  rw [hopen]
  rfl

/-- Making the parent of a creatable file keeps it creatable. -/
theorem Creatable.made (h : Creatable env.cwd w.tree b rel)
    (hmade : Made (WayTo env.cwd b rel) w w') : Creatable env.cwd w'.tree b rel := by
  apply h.of_lookup
  · intro d _ _ hdir
    by_cases hway : WayTo env.cwd b rel (resolve env.cwd d)
    · exact hmade.dirs _ hway
    · exact (hmade.rest _ hway).trans hdir
  · intro q c hway hfile
    have hdir : w'.tree.lookup q = some .dir := hmade.dirs q hway
    rw [hdir] at hfile
    cases hfile
  · rw [hmade.rest _ h.not_wayTo]
    exact h.notDir

theorem returns_ensureParent (h : Creatable env.cwd w.tree b rel) :
    (ensureParentDirExists (b ++ slash :: rel)).Returns (posix env)
      (fun rc w' => rc = .ok ∧ Made (WayTo env.cwd b rel) w w') w :=
  returns_ensureParentDirExists h.base_ne h.base_last h.file.split h.fits h.passable

theorem returns_copyFilePlain (hsrc : Readable env.cwd w.tree src data)
    (hdst : Creatable env.cwd w.tree b rel)
    (hne : resolve env.cwd src ≠ resolve env.cwd (b ++ slash :: rel))
    (hfuel : data.length + 3 ≤ fuel) :
    (copyFilePlain fuel src (b ++ slash :: rel)).Returns (posix env)
      (fun rc w' => rc = .ok ∧
        Placed (WayTo env.cwd b rel) (resolve env.cwd (b ++ slash :: rel)) data w w') w := by
  refine returns_op_bind.mpr ?_
  rw [posix_openRead hsrc]
  apply (returns_ensureParent hdst).bind
  rintro _ w1 ⟨rfl, hmade⟩
  have hdst1 := hdst.made hmade
  have hparent := hmade.dirs _ hdst.wayTo_parent
  refine returns_op_bind.mpr ?_
  rw [posix_openTrunc hdst.file.plain hdst1.notDir hparent]
  have hempty : Wrote (resolve env.cwd (b ++ slash :: rel)) [] w1 _ := wrote_put hdst.ne_root
  have hin : w1.tree.content (resolve env.cwd src) = some data := by
    rw [← hsrc.content]
    exact FileTree.content_congr (hmade.rest _ (hdst.not_wayTo_of_content hsrc.content))
  have hin' := (FileTree.content_congr (hempty.rest _ hne not_false)).trans hin
  have hstart : FileTree.content _ _ = some (data.take 0) := hempty.content
  apply (returns_copyLoop hne hin' hstart (Nat.zero_le _) (by omega)).bind
  rintro _ w2 ⟨rfl, hwrote⟩
  refine returns_op_bind.mpr (returns_op_bind.mpr (returns_op_bind.mpr (.ret ⟨rfl, ?_⟩)))
  exact hmade.wrote (hempty.trans hwrote) hdst.not_wayTo

/-! ## Renaming -/

/-- Renaming a node that exists, between places of which neither is below the other. -/
theorem posix_rename_apart {dst : Bytes} {node : Node Bytes} (hs : Plain src) (hd : Plain dst)
    (hsrc : w.tree.lookup (resolve env.cwd src) = some node)
    (hsd : ¬ resolve env.cwd src <+: resolve env.cwd dst)
    (hds : ¬ resolve env.cwd dst <+: resolve env.cwd src) :
    posix env (.rename src dst) w =
      (match w.tree.renameOnto node.isDir (resolve env.cwd src) (resolve env.cwd dst) with
        | .ok tree => (.ok (), { w with tree := tree })
        | .error e => (.error e, w)) := by
  have hne : resolve env.cwd src ≠ resolve env.cwd dst := by
    intro h
    rw [h] at hsd
    exact hsd List.prefix_rfl
  have hrename : w.tree.rename (resolve env.cwd src) (resolve env.cwd dst)
      (asksForDir src || asksForDir dst) =
      w.tree.renameOnto node.isDir (resolve env.cwd src) (resolve env.cwd dst) := by
    unfold FileTree.rename
    rw [hsrc]
    simp [hs.names_file, hd.names_file, hne, hsd, hds]
  unfold posix posixRename
  simp only [hs.ne_nil, hd.ne_nil, hs.named, hd.named, hrename, or_self, Bool.false_eq_true,
    if_false]
  cases w.tree.renameOnto node.isDir (resolve env.cwd src) (resolve env.cwd dst) <;> rfl

theorem posix_rename {dst : Bytes} (hs : Plain src) (hd : Plain dst)
    (hsrc : w.tree.content (resolve env.cwd src) = some data)
    (hsd : ¬ resolve env.cwd src <+: resolve env.cwd dst)
    (hds : ¬ resolve env.cwd dst <+: resolve env.cwd src)
    (hdir : w.tree.lookup (resolve env.cwd dst) ≠ some .dir)
    (hparent : w.tree.IsDir (resolve env.cwd dst).dropLast) :
    posix env (.rename src dst) w = (.ok (),
      { w with tree := w.tree.move (resolve env.cwd src) (resolve env.cwd dst) }) := by
  have hroom : w.tree.Room false (resolve env.cwd dst) := by
    unfold FileTree.Room
    cases hnode : w.tree.lookup (resolve env.cwd dst) with
    | none => trivial
    | some node =>
        cases node with
        | dir => exact absurd hnode hdir
        | file c => rfl
  rw [posix_rename_apart hs hd (FileTree.content_eq_some.mp hsrc) hsd hds, Node.isDir,
    FileTree.renameOnto_of_room hroom hparent]

/-- A file has been moved from `p` to `q`, the directories on a way to `q` have
been made, and nothing else has happened. -/
structure Moved (way : TreePath → Prop) (p q : TreePath) (data : Bytes) (w w' : World) : Prop where
  conn : w'.conn = w.conn
  file : w'.tree.lookup q = some (.file data)
  gone : w'.tree.lookup p = none
  dirs : ∀ r, way r → w'.tree.IsDir r
  rest : ∀ r, ¬ Under p r → ¬ Under q r → ¬ way r → w'.tree.lookup r = w.tree.lookup r

theorem returns_safeRenameOrCopyUnlink (hs : Plain src)
    (hsrc : w.tree.content (resolve env.cwd src) = some data)
    (hdst : Creatable env.cwd w.tree b rel)
    (hsd : ¬ resolve env.cwd src <+: resolve env.cwd (b ++ slash :: rel))
    (hds : ¬ resolve env.cwd (b ++ slash :: rel) <+: resolve env.cwd src) :
    (safeRenameOrCopyUnlink fuel src (b ++ slash :: rel)).Returns (posix env)
      (fun rc w' => rc = .ok ∧ Moved (WayTo env.cwd b rel) (resolve env.cwd src)
        (resolve env.cwd (b ++ slash :: rel)) data w w') w := by
  apply (returns_ensureParent hdst).bind
  rintro _ w1 ⟨rfl, hmade⟩
  have hsrc1 : w1.tree.content (resolve env.cwd src) = some data := by
    rw [← hsrc]
    exact FileTree.content_congr (hmade.rest _ (hdst.not_wayTo_of_content hsrc))
  refine returns_op_bind.mpr ?_
  rw [posix_rename hs hdst.file.plain hsrc1 hsd hds (hdst.made hmade).notDir
    (hmade.dirs _ hdst.wayTo_parent)]
  refine .ret ⟨rfl, hmade.conn, ?_, ?_, ?_, ?_⟩
  · rw [FileTree.lookup_move hsd hds, if_pos List.prefix_rfl, List.drop_length, List.append_nil]
    exact FileTree.content_eq_some.mp hsrc1
  · rw [FileTree.lookup_move hsd hds, if_neg hds, if_pos List.prefix_rfl]
  · intro r hway
    have hprefix := hdst.wayTo_prefix hway
    have hq : ¬ resolve env.cwd (b ++ slash :: rel) <+: r := by
      intro h
      have heq := hprefix.eq_of_length_le h.length_le
      rw [heq] at hway
      exact hdst.not_wayTo hway
    have hp : ¬ resolve env.cwd src <+: r := fun h => hsd (h.trans hprefix)
    unfold FileTree.IsDir
    rw [FileTree.lookup_move hsd hds, if_neg hq, if_neg hp]
    exact hmade.dirs r hway
  · intro r hp hq hway
    rw [FileTree.lookup_move hsd hds]
    exact (if_neg hq).trans ((if_neg hp).trans (hmade.rest r hway))

/-! ## The temporary file -/

/-- A file path and the temporary file next to it are in one directory. -/
theorem FilePath.relNames_syncing (h : FilePath rel) :
    ∃ name, relNames rel = (relNames rel).dropLast ++ [name] ∧
      relNames (rel ++ syncingSuffix) = (relNames rel).dropLast ++ [name ++ syncingSuffix] := by
  obtain ⟨name, hname, hdot, rfl | ⟨u, rfl, -⟩⟩ := h.split
  · have hnew := hname.syncing
    refine ⟨rel, ?_, ?_⟩
    · rw [relNames_component hname hdot]
      rfl
    · rw [relNames_component hname hdot, relNames_component hnew.1 hnew.2]
      rfl
  · have hnew := hname.syncing
    have hshape : u ++ slash :: name ++ syncingSuffix = u ++ slash :: (name ++ syncingSuffix) := by
      simp
    refine ⟨name, ?_, ?_⟩
    · rw [relNames_append, relNames_component hname hdot, List.dropLast_concat]
    · rw [hshape, relNames_append, relNames_append, relNames_component hname hdot,
        relNames_component hnew.1 hnew.2, List.dropLast_concat]

theorem FilePath.wayTo_syncing {cwd : TreePath} (h : FilePath rel) :
    WayTo cwd b (rel ++ syncingSuffix) = WayTo cwd b rel := by
  obtain ⟨name, -, htmp⟩ := h.relNames_syncing
  unfold WayTo
  rw [htmp, List.dropLast_concat]

/-- Neither of a file and its temporary file lies below the other. -/
theorem FilePath.syncing_apart (h : FilePath rel) (cwd : TreePath) (hb : b ≠ []) :
    ¬ Under (resolve cwd (b ++ slash :: (rel ++ syncingSuffix)))
        (resolve cwd (b ++ slash :: rel)) ∧
      ¬ Under (resolve cwd (b ++ slash :: rel))
        (resolve cwd (b ++ slash :: (rel ++ syncingSuffix))) := by
  obtain ⟨name, hrel, htmp⟩ := h.relNames_syncing
  have hne : name ++ syncingSuffix ≠ name := by
    intro heq
    have hlen := congrArg List.length heq
    have h8 : syncingSuffix.length = 8 := by decide
    rw [List.length_append] at hlen
    omega
  rw [resolve_below hb h.relative.no_dotdot, resolve_below hb h.syncing.relative.no_dotdot, hrel,
    htmp, ← List.append_assoc, ← List.append_assoc]
  have hlen : ∀ a c : Bytes, Under (resolve cwd b ++ (relNames rel).dropLast ++ [a])
      (resolve cwd b ++ (relNames rel).dropLast ++ [c]) → a = c := by
    rintro a c ⟨more, hmore⟩
    rw [List.append_assoc, List.append_cancel_left_eq, List.singleton_append,
      List.cons.injEq] at hmore
    exact hmore.1
  exact ⟨fun hunder => hne (hlen _ _ hunder), fun hunder => hne (hlen _ _ hunder).symm⟩

/-- Both a file and its temporary file can be made. -/
structure Replaceable (cwd : TreePath) (tree : Tree) (b rel : Bytes) : Prop
    extends Creatable cwd tree b rel where
  tmp_fits : (b ++ slash :: (rel ++ syncingSuffix)).length < maxPathLen
  tmp_notDir : tree.lookup (resolve cwd (b ++ slash :: (rel ++ syncingSuffix))) ≠ some .dir

theorem Replaceable.tmp {cwd : TreePath} {tree : Tree} (h : Replaceable cwd tree b rel) :
    Creatable cwd tree b (rel ++ syncingSuffix) := by
  obtain ⟨name, -, htmp⟩ := h.file.relNames_syncing
  refine ⟨h.base_ne, h.base_last, h.file.syncing, h.tmp_fits, ?_, h.tmp_notDir⟩
  rw [htmp, List.dropLast_concat]
  exact h.passable

/-- They still can, where no directory has gone and none has taken their place. -/
theorem Replaceable.of_dirsStay {cwd : TreePath} {tree tree' : Tree}
    (h : Replaceable cwd tree b rel) (hstay : tree.DirsStay tree')
    (hway : ∀ q, WayTo cwd b rel q → tree'.IsDir q)
    (hdst : tree'.lookup (resolve cwd (b ++ slash :: rel)) ≠ some .dir)
    (htmp : tree'.lookup (resolve cwd (b ++ slash :: (rel ++ syncingSuffix))) ≠ some .dir) :
    Replaceable cwd tree' b rel := by
  have hcreatable : Creatable cwd tree' b rel := by
    apply h.of_lookup fun d _ _ => hstay (resolve cwd d)
    · intro q c hq hfile
      have hdir : tree'.lookup q = some .dir := hway q hq
      rw [hdir] at hfile
      cases hfile
    · exact hdst
  exact ⟨hcreatable, h.tmp_fits, htmp⟩

theorem syncingPath_below (h : Replaceable env.cwd w.tree b rel) :
    syncingPath (b ++ slash :: rel) = some (b ++ slash :: (rel ++ syncingSuffix)) := by
  rw [syncingPath_eq_some]
  refine ⟨by simp, h.tmp_fits⟩

/-- `copy_file_atomic` replaces the file and removes the temporary one. -/
theorem returns_copyFileAtomic (hsrc : Readable env.cwd w.tree src data)
    (hdst : Replaceable env.cwd w.tree b rel)
    (hne : resolve env.cwd src ≠ resolve env.cwd (b ++ slash :: (rel ++ syncingSuffix)))
    (hfuel : data.length + 3 ≤ fuel) :
    (copyFileAtomic fuel src (b ++ slash :: rel)).Returns (posix env)
      (fun rc w' => rc = .ok ∧
        Moved (WayTo env.cwd b rel) (resolve env.cwd (b ++ slash :: (rel ++ syncingSuffix)))
          (resolve env.cwd (b ++ slash :: rel)) data w w') w := by
  obtain ⟨hapart, hapart'⟩ := hdst.file.syncing_apart env.cwd hdst.base_ne
  unfold copyFileAtomic
  rw [syncingPath_below hdst]
  apply (returns_copyFilePlain hsrc hdst.tmp hne hfuel).bind
  rintro _ w1 ⟨rfl, hplaced⟩
  rw [hdst.file.wayTo_syncing] at hplaced
  have hdst1 : Creatable env.cwd w1.tree b rel := by
    refine hdst.of_placed hplaced ?_ hdst.tmp_notDir
    intro h
    rw [h] at hapart
    exact hapart List.prefix_rfl
  have hcontent := FileTree.content_eq_some.mpr hplaced.file
  apply (returns_safeRenameOrCopyUnlink hdst.tmp.file.plain hcontent hdst1 hapart hapart').bind
  rintro _ w2 ⟨rfl, hmoved⟩
  refine .ret ⟨rfl, hmoved.conn.trans hplaced.conn, hmoved.file, hmoved.gone, hmoved.dirs, ?_⟩
  intro r hp hq hway
  have hr : r ≠ resolve env.cwd (b ++ slash :: (rel ++ syncingSuffix)) := by
    rintro rfl
    exact hp List.prefix_rfl
  exact (hmoved.rest r hp hq hway).trans (hplaced.rest r hr hway)

end Files

end MiniSync
