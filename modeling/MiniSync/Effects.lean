import MiniSync.KernelCases
import MiniSync.Store

/-!
# What the file utilities do to the tree

Each function is described by the set of nodes outside which it only makes
directories, and by what it leaves behind where it succeeds.  The kernel may let
any call fail.
-/

namespace MiniSync

open Prog

/-- Outside `X` only directories are made, and the connection is not used. -/
def Tidy (X : TreePath → Prop) (w w' : World) : Prop :=
  w.tree.Touches X w'.tree ∧ w'.conn = w.conn

instance (X : TreePath → Prop) : IsPreorder World (Tidy X) where
  refl _ := ⟨.refl X _, rfl⟩
  trans _ _ _ h h' := ⟨h.1.trans h'.1, h'.2.trans h.2⟩

theorem Tidy.mono {X Y : TreePath → Prop} {w w' : World} (h : Tidy X w w')
    (hXY : ∀ q, X q → Y q) : Tidy Y w w' := ⟨h.1.mono hXY, h.2⟩

theorem Tidy.content {X : TreePath → Prop} {w w' : World} {p : TreePath} (h : Tidy X w w')
    (hp : ¬ X p) : w'.tree.content p = w.tree.content p := h.1.content hp

/-- Nodes at or below `p`. -/
def Under (p : TreePath) (q : TreePath) : Prop := p <+: q

section Effects

variable {cwd : TreePath} {mayFail : Call TreePath → Errno → Prop} {w : World}

/-- A call that changes nothing can be skipped, whatever it returns. -/
theorem moves_quiet {β : Type} {c : Call TreePath} {f : Resp c → Sys TreePath β}
    {S : World → World → Prop} [IsPreorder World S] {Q : β → World → Prop} (hc : c.Quiet)
    (h : ∀ r, (f r).Moves (Kernel cwd mayFail) S Q w) :
    (op c >>= f).Moves (Kernel cwd mayFail) S Q w := by
  apply Moves.op_bind
  intro r w' hK
  have hquiet := hK.quiet hc
  subst hquiet
  exact ⟨refl_of S w', h r⟩

/-! ## Directories -/

theorem Kernel.tidy_mkdir {X : TreePath → Prop} {path : Bytes} {r : Resp (.mkdir path)}
    {w' : World} (h : Kernel cwd mayFail (.mkdir path) w r w') : Tidy X w w' := by
  rcases h.mkdirCases with ⟨-, rfl⟩ | ⟨-, hconn, hmk⟩
  · exact refl_of (Tidy X) w'
  · exact ⟨.mkdir hmk, hconn⟩

theorem moves_ensureDirExists (X : TreePath → Prop) (dir : Bytes) :
    (ensureDirExists dir).Moves (Kernel cwd mayFail) (Tidy X) (fun _ _ => True) w := by
  apply All.moves (all_ensureDirExists (P := fun c => ∃ d, c = .mkdir d) fun d _ => ⟨d, rfl⟩)
  rintro c s r s' ⟨d, rfl⟩ h
  exact h.tidy_mkdir

theorem moves_ensureParentDirExists (X : TreePath → Prop) (path : Bytes) :
    (ensureParentDirExists path).Moves (Kernel cwd mayFail) (Tidy X) (fun _ _ => True) w := by
  apply All.moves (all_ensureParentDirExists (P := fun c => ∃ d, c = .mkdir d) path
    fun d => ⟨d, rfl⟩)
  rintro c s r s' ⟨d, rfl⟩ h
  exact h.tidy_mkdir

/-! ## Hashing -/

theorem moves_hashFdLoop (X : TreePath → Prop) (fd : TreePath) (fuel pos : Nat) (hash : UInt64) :
    (hashFdLoop fd fuel pos none hash).Moves (Kernel cwd mayFail) (Tidy X)
      (fun h w' => w' = w ∧ (h = 0 ∨ ∃ data, w.tree.content fd = some data ∧
        h = (data.drop pos).foldl fnv1aStep hash)) w := by
  induction fuel generalizing pos hash with
  | zero => exact Moves.spin
  | succ fuel ih =>
      rw [hashFdLoop, if_neg (by simp)]
      apply Moves.op_bind
      intro r w' hK
      obtain ⟨rfl, hr⟩ := hK.readCases
      refine ⟨refl_of (Tidy X) w', ?_⟩
      rcases hr with ⟨e, rfl⟩ | ⟨data, n, hdata, hn, rfl⟩
      · split
        · exact ih pos hash
        · exact Moves.ret ⟨rfl, Or.inl rfl⟩
        · rename_i heq
          cases heq
      · have hpos : 0 < n := by
          rcases hn with rfl | hn
          · decide
          · exact hn
        simp only
        split_ifs with hnil
        · refine Moves.ret ⟨rfl, Or.inr ⟨data, hdata, ?_⟩⟩
          have hdrop : data.drop pos = [] := by
            rcases List.take_eq_nil_iff.mp hnil with h | h
            · omega
            · exact h
          rw [hdrop]
          rfl
        · apply (ih _ _).post
          rintro h w'' - ⟨rfl, h0 | ⟨data', hdata', hh⟩⟩
          · exact ⟨rfl, Or.inl h0⟩
          · refine ⟨rfl, Or.inr ⟨data, hdata, ?_⟩⟩
            rw [hdata] at hdata'
            cases hdata'
            rw [hh, ← List.foldl_append, ← List.drop_drop,
              List.prefix_iff_eq_append.mp (List.take_prefix n (data.drop pos))]

/-- A hash is that of the whole file, or 0 where the file could not be read. -/
theorem moves_hashFileFnv1a (X : TreePath → Prop) (fuel : Nat) (path : Bytes) :
    (hashFileFnv1a fuel path).Moves (Kernel cwd mayFail) (Tidy X)
      (fun h w' => w' = w ∧ (h = 0 ∨ ∃ data, w.tree.content (resolve cwd path) = some data ∧
        h = hashBufferFnv1a data)) w := by
  apply Moves.op_bind
  intro r w' hK
  obtain ⟨rfl, hfd⟩ := hK.openRead
  refine ⟨refl_of (Tidy X) w', ?_⟩
  cases r with
  | error e => exact Moves.ret ⟨rfl, Or.inl rfl⟩
  | ok fd =>
      rw [hfd fd rfl]
      apply (moves_hashFdLoop X (resolve cwd path) fuel 0 fnv1a64OffsetBasis).bind
      rintro h w'' - ⟨rfl, hh⟩
      exact moves_quiet trivial fun _ => Moves.ret ⟨rfl, hh⟩

/-! ## Copying -/

/-- The file at `p` is appended to. -/
theorem moves_writeLoop {out : TreePath} {c left : Bytes} {fuel : Nat}
    (hout : w.tree.content out = some c) :
    (writeLoop out fuel c.length left).Moves (Kernel cwd mayFail) (Tidy (· = out))
      (fun rc w' => rc = .ok → w'.tree.content out = some (c ++ left)) w := by
  induction fuel generalizing c left w with
  | zero => exact Moves.spin
  | succ fuel ih =>
      rw [writeLoop]
      split_ifs with hleft
      · refine Moves.ret fun _ => ?_
        rw [hout, hleft, List.append_nil]
      · apply Moves.op_bind
        intro r w' hK
        rcases hK.pwriteCases with ⟨⟨e, rfl⟩, rfl⟩ | ⟨data, n, -, hn, rfl, hdata, hconn, htree⟩
        · refine ⟨refl_of (Tidy (· = out)) w', ?_⟩
          split
          · exact ih hout
          · exact Moves.ret (by rintro ⟨⟩)
          · rename_i heq
            cases heq
        · rw [hout] at hdata
          cases hdata
          have hne : out ≠ [] := by
            rintro rfl
            cases hout
          have hnew : w'.tree.content out = some (c ++ left.take n) := by
            rw [htree, FileTree.content_eq_some, FileTree.lookup_put hne, if_pos rfl,
              Int.toNat_natCast, ByteString.splice_end]
          refine ⟨⟨htree ▸ .put hne rfl, hconn⟩, ?_⟩
          have hlen : c.length + n = (c ++ left.take n).length := by
            rw [List.length_append, List.length_take, Nat.min_eq_left hn]
          simp only [hlen]
          apply (ih hnew).post
          intro rc w'' _ hok hrc
          rw [hok hrc, List.append_assoc, List.take_append_drop]

theorem moves_copyLoop {in_ out : TreePath} {c : Bytes} {fuel : Nat} (hne : in_ ≠ out)
    (hout : w.tree.content out = some c)
    (hin : ∀ data, w.tree.content in_ = some data → c <+: data) :
    (copyLoop in_ out fuel c.length).Moves (Kernel cwd mayFail) (Tidy (· = out))
      (fun rc w' => rc = .ok → ∃ data, w.tree.content in_ = some data ∧
        w'.tree.content out = some data) w := by
  induction fuel generalizing c w with
  | zero => exact Moves.spin
  | succ fuel ih =>
      rw [copyLoop]
      apply Moves.op_bind
      intro r w' hK
      obtain ⟨rfl, hr⟩ := hK.readCases
      refine ⟨refl_of (Tidy (· = out)) w', ?_⟩
      rcases hr with ⟨e, rfl⟩ | ⟨data, n, hdata, hn, rfl⟩
      · split
        · exact ih hout hin
        · exact Moves.ret (by rintro ⟨⟩)
        · rename_i heq
          cases heq
      · have hpos : 0 < n := by
          rcases hn with rfl | hn
          · decide
          · exact hn
        obtain ⟨rest, rfl⟩ := hin data hdata
        simp only [List.drop_left]
        split_ifs with hnil
        · refine Moves.ret fun _ => ⟨c ++ rest, hdata, ?_⟩
          have hrest : rest = [] := by
            rcases List.take_eq_nil_iff.mp hnil with h | h
            · omega
            · exact h
          rw [hout, hrest, List.append_nil]
        · apply (moves_writeLoop hout).bind
          intro rc w'' htidy hwritten
          cases rc with
          | err => exact Moves.ret (by rintro ⟨⟩)
          | ok =>
              have hsame : w''.tree.content in_ = w'.tree.content in_ := htidy.content hne
              have hnew := hwritten rfl
              have hlen : c.length + (rest.take n).length = (c ++ rest.take n).length := by
                rw [List.length_append]
              simp only [hlen]
              apply (ih hnew ?_).post
              · intro rc w3 _ hok hrc
                obtain ⟨data', hdata', hout'⟩ := hok hrc
                exact ⟨data', by rw [← hsame, hdata'], hout'⟩
              · intro data' hdata'
                rw [hsame, hdata] at hdata'
                cases hdata'
                rw [List.prefix_append_right_inj]
                exact List.take_prefix n rest

theorem moves_copyFilePlain {fuel : Nat} {src dst : Bytes}
    (hne : resolve cwd src ≠ resolve cwd dst) :
    (copyFilePlain fuel src dst).Moves (Kernel cwd mayFail) (Tidy (· = resolve cwd dst))
      (fun rc w' => rc = .ok → ∃ data, w.tree.content (resolve cwd src) = some data ∧
        w'.tree.content (resolve cwd dst) = some data) w := by
  have hrefl := refl_of (Tidy (· = resolve cwd dst))
  apply Moves.op_bind
  intro r w1 hK1
  obtain ⟨rfl, hfd⟩ := hK1.openRead
  refine ⟨hrefl w1, ?_⟩
  cases r with
  | error e => exact Moves.ret nofun
  | ok in_ =>
      rw [hfd in_ rfl]
      apply (moves_ensureParentDirExists _ dst).bind
      intro made w2 htidy2 _
      cases made with
      | err =>
          exact moves_quiet trivial fun _ => Moves.ret nofun
      | ok =>
          apply Moves.op_bind
          intro opened w3 hK3
          rcases hK3.openTrunc with ⟨⟨e, rfl⟩, rfl⟩ | ⟨rfl, hroot, -, htree, hconn⟩
          · refine ⟨hrefl w3, ?_⟩
            exact moves_quiet trivial fun _ => Moves.ret nofun
          · have htidy3 : Tidy (· = resolve cwd dst) w2 w3 := ⟨htree ▸ .put hroot rfl, hconn⟩
            refine ⟨htidy3, ?_⟩
            have hsame : w3.tree.content (resolve cwd src) = w1.tree.content (resolve cwd src) :=
              (trans_of (Tidy _) htidy2 htidy3).content hne
            have hempty : w3.tree.content (resolve cwd dst) = some [] := by
              rw [htree, FileTree.content_eq_some, FileTree.lookup_put hroot, if_pos rfl]
            apply (moves_copyLoop hne hempty fun data _ => List.nil_prefix).bind
            intro copied w4 _ hcopied
            refine moves_quiet trivial fun synced => ?_
            refine moves_quiet trivial fun _ => ?_
            refine moves_quiet trivial fun _ => Moves.ret fun h => ?_
            split_ifs at h
            obtain ⟨data, hdata, hout⟩ := hcopied h
            exact ⟨data, by rw [← hsame, hdata], hout⟩

/-- The same within any set that has `dst` in it. -/
theorem tidy_copyFilePlain {X : TreePath → Prop} {fuel : Nat} {src dst : Bytes}
    (hne : resolve cwd src ≠ resolve cwd dst) (hX : ∀ q, q = resolve cwd dst → X q) :
    (copyFilePlain fuel src dst).Moves (Kernel cwd mayFail) (Tidy X)
      (fun rc w' => rc = .ok → ∃ data, w.tree.content (resolve cwd src) = some data ∧
        w'.tree.content (resolve cwd dst) = some data) w :=
  (moves_copyFilePlain hne).mono (fun _ _ h => h.mono hX) fun _ _ _ h => h

/-! ## Renaming -/

/-- What `safe_rename_or_copy_unlink` achieves on a file. -/
structure Renamed (cwd : TreePath) (mayFail : Call TreePath → Errno → Prop) (src dst : Bytes)
    (w : World) (rc : Rc) (w' : World) : Prop where
  /-- The content has moved. -/
  moved : rc = .ok → ∀ data, w.tree.content (resolve cwd src) = some data →
    w'.tree.content (resolve cwd dst) = some data
  gone : rc = .ok → w'.tree.content (resolve cwd src) = none
  /-- On one file system a failure changes nothing. -/
  kept : rc = .err → ¬ mayFail (.rename src dst) .xdev →
    w.tree.Touches (fun _ => False) w'.tree

theorem moves_safeRenameOrCopyUnlink {fuel : Nat} {src dst : Bytes}
    (hne : resolve cwd src ≠ resolve cwd dst) :
    (safeRenameOrCopyUnlink fuel src dst).Moves (Kernel cwd mayFail)
      (Tidy fun q => Under (resolve cwd src) q ∨ Under (resolve cwd dst) q)
      (Renamed cwd mayFail src dst w) w := by
  have hrefl := refl_of (Tidy fun q => Under (resolve cwd src) q ∨ Under (resolve cwd dst) q)
  have hsub : ∀ q, False → Under (resolve cwd src) q ∨ Under (resolve cwd dst) q :=
    fun _ h => h.elim
  apply ((moves_ensureParentDirExists (fun _ => False) dst).mono (fun _ _ h => h.mono hsub)
    (fun _ _ h _ => h)).bind
  intro made w1 _ hmade
  cases made with
  | err =>
      exact Moves.ret ⟨nofun, nofun, fun _ _ => hmade.1⟩
  | ok =>
      apply Moves.op_bind
      intro r w2 hK2
      rcases hK2.renameCases with ⟨⟨e, rfl, hxdev⟩, rfl⟩ | ⟨rfl, hconn, hren⟩
      · refine ⟨hrefl w2, ?_⟩
        split
        · rename_i heq
          cases heq
        · -- across file systems: copy, then unlink
          rename_i heq
          have hmay := hxdev (Except.error.inj heq)
          apply (tidy_copyFilePlain hne fun q hq => Or.inr (hq ▸ List.prefix_rfl)).bind
          intro copied w3 _ hcopied
          cases copied with
          | err => exact Moves.ret ⟨nofun, nofun, fun _ hno => absurd hmay hno⟩
          | ok =>
              obtain ⟨data, hdata, hout⟩ := hcopied rfl
              apply Moves.op_bind
              intro r' w4 hK4
              rcases hK4.unlinkCases with ⟨⟨e, rfl⟩, rfl⟩ | ⟨rfl, hconn4, hunlink⟩
              · exact ⟨hrefl w4, Moves.ret ⟨nofun, nofun, fun _ hno => absurd hmay hno⟩⟩
              · have htidy4 : Tidy (· = resolve cwd src) w3 w4 := ⟨.unlink rfl hunlink, hconn4⟩
                refine ⟨htidy4.mono fun q hq => Or.inl (hq ▸ List.prefix_rfl), Moves.ret ?_⟩
                refine ⟨fun _ data' hdata' => ?_, fun _ => ?_, nofun⟩
                · rw [← hmade.content not_false, hdata] at hdata'
                  cases hdata'
                  rw [htidy4.content (Ne.symm hne), hout]
                · unfold FileTree.content
                  rw [FileTree.lookup_unlink hunlink]
        · exact Moves.ret ⟨nofun, nofun, fun _ _ => hmade.1⟩
      · have htidy2 : Tidy (fun q => Under (resolve cwd src) q ∨ Under (resolve cwd dst) q) w1 w2 :=
          ⟨.rename (fun q hq => Or.inl hq) (fun q hq => Or.inr hq) hren, hconn⟩
        refine ⟨htidy2, Moves.ret ⟨fun _ data hdata => ?_, fun _ => ?_, nofun⟩⟩
        · rw [← hmade.content not_false] at hdata
          rw [← hdata]
          unfold FileTree.content
          rw [FileTree.lookup_rename_dst hren]
        · unfold FileTree.content
          rw [FileTree.lookup_rename_src hren hne]

theorem moves_copyFileAtomic {fuel : Nat} {src dst tmp : Bytes}
    (htmp : syncingPath dst = some tmp) (hsrc : ¬ Under (resolve cwd tmp) (resolve cwd src))
    (hne : resolve cwd tmp ≠ resolve cwd dst) :
    (copyFileAtomic fuel src dst).Moves (Kernel cwd mayFail)
      (Tidy fun q => Under (resolve cwd tmp) q ∨ Under (resolve cwd dst) q)
      (fun rc w' => rc = .ok → ∃ data, w.tree.content (resolve cwd src) = some data ∧
        w'.tree.content (resolve cwd dst) = some data) w := by
  have hrefl := refl_of (Tidy fun q => Under (resolve cwd tmp) q ∨ Under (resolve cwd dst) q)
  have hclean (w : World) : (do
      let _ ← sys (.unlink tmp)
      return .err : Sys TreePath Rc).Moves (Kernel cwd mayFail)
        (Tidy fun q => Under (resolve cwd tmp) q ∨ Under (resolve cwd dst) q)
        (fun rc _ => rc = .err) w := by
    apply Moves.op_bind
    intro r w' hK
    refine ⟨?_, Moves.ret rfl⟩
    rcases hK.unlinkCases with ⟨-, rfl⟩ | ⟨-, hconn, hunlink⟩
    · exact hrefl w'
    · exact ⟨.unlink (Or.inl List.prefix_rfl) hunlink, hconn⟩
  unfold copyFileAtomic
  simp only [htmp]
  apply (tidy_copyFilePlain (fun h => hsrc (h ▸ List.prefix_rfl))
    fun q hq => Or.inl (hq ▸ List.prefix_rfl)).bind
  intro copied w1 _ hcopied
  cases copied with
  | err => exact (hclean w1).post fun rc _ _ h hok => absurd (h.symm.trans hok) (by rintro ⟨⟩)
  | ok =>
      obtain ⟨data, hdata, hout⟩ := hcopied rfl
      apply (moves_safeRenameOrCopyUnlink hne).bind
      intro renamed w2 _ hrenamed
      cases renamed with
      | err => exact (hclean w2).post fun rc _ _ h hok => absurd (h.symm.trans hok) (by rintro ⟨⟩)
      | ok => exact Moves.ret fun _ => ⟨data, hdata, hrenamed.moved rfl data hout⟩

theorem moves_setFileMetadata (X : TreePath → Prop) (path : Bytes) (mode : UInt32)
    (mtime : Int64) :
    (setFileMetadata path mode mtime).Moves (Kernel cwd mayFail) (Tidy X)
      (fun _ w' => w' = w) w :=
  moves_quiet trivial fun _ => moves_quiet trivial fun _ => Moves.ret rfl

/-! ## Versions and trash -/

/-- Nodes at or below an area of the store. -/
def InArea (cwd : TreePath) (root area : Bytes) (q : TreePath) : Prop :=
  Under (storeRoot cwd root ++ [area]) q

theorem moves_isDirectory (X : TreePath → Prop) (path : Bytes) :
    (isDirectory path).Moves (Kernel cwd mayFail) (Tidy X) (fun _ w' => w' = w) w := by
  refine moves_quiet trivial fun r => ?_
  split <;> exact Moves.ret rfl

theorem moves_makeTimestampDirname (X : TreePath → Prop) :
    makeTimestampDirname.Moves (Kernel cwd mayFail) (Tidy X)
      (fun stamp w' => w' = w ∧ ∀ s, stamp = some s → ∃ tm, s = timestampDirname tm) w := by
  refine moves_quiet trivial fun tm => Moves.ret ⟨rfl, fun s hs => ?_⟩
  rw [Option.ite_none_right_eq_some] at hs
  exact ⟨tm, (Option.some.inj hs.2).symm⟩

/-- A node of one area is not in another. -/
theorem not_inArea {root area name : Bytes} {rest : TreePath} (hne : name ≠ area) :
    ¬ InArea cwd root area (storeRoot cwd root ++ name :: rest) := by
  rintro ⟨more, hmore⟩
  rw [List.append_assoc, List.append_cancel_left_eq, List.singleton_append,
    List.cons.injEq] at hmore
  exact hne hmore.1.symm

/-- What is under a node of an area is in the area. -/
theorem InArea.of_under {root area : Bytes} {p q : TreePath} (hp : InArea cwd root area p)
    (h : Under p q) : InArea cwd root area q :=
  List.IsPrefix.trans hp h

theorem inArea_cons {root area : Bytes} {rest : TreePath} :
    InArea cwd root area (storeRoot cwd root ++ area :: rest) := ⟨rest, by simp⟩

theorem not_inArea_current {root rel_path src area : Bytes}
    (hsrc : currentPath root rel_path = some src) (harea : currentName ≠ area) :
    ¬ InArea cwd root area (resolve cwd src) := by
  rw [resolve_currentPath hsrc]
  exact not_inArea harea

/-- A backup touches `.versions` only. -/
theorem moves_backupOldVersion {fuel : Nat} {root rel_path src : Bytes}
    (hsrc : currentPath root rel_path = some src) :
    (backupOldVersion fuel root rel_path).Moves (Kernel cwd mayFail)
      (Tidy (InArea cwd root versionsName)) (fun _ _ => True) w := by
  have hrel := (currentPath_eq_some hsrc).1
  unfold backupOldVersion
  simp only [hsrc]
  refine moves_quiet trivial fun found => ?_
  split_ifs
  · exact Moves.ret trivial
  · apply (moves_makeTimestampDirname _).bind
    rintro stamp w1 - ⟨rfl, hstamp⟩
    split
    · exact Moves.ret trivial
    · rename_i dst hdst
      obtain ⟨s, hs, hpath⟩ := Option.bind_eq_some_iff.mp hdst
      obtain ⟨tm, rfl⟩ := hstamp s hs
      apply (moves_isDirectory _ _).bind
      rintro isDir w2 - rfl
      split_ifs
      · exact moves_ensureDirExists _ _
      · cases htmp : syncingPath dst with
        | none =>
            unfold copyFileAtomic
            simp only [htmp]
            exact Moves.ret trivial
        | some tmp =>
            have hdstArea : InArea cwd root versionsName (resolve cwd dst) := by
              rw [resolve_stampedPath name_versionsName (name_timestampDirname tm) hrel hpath]
              exact inArea_cons
            have htmpArea : InArea cwd root versionsName (resolve cwd tmp) := by
              rw [resolve_stampedPath_syncing name_versionsName (name_timestampDirname tm) hrel
                hpath htmp]
              exact inArea_cons
            have hout : ¬ InArea cwd root versionsName (resolve cwd src) :=
              not_inArea_current hsrc (by decide)
            have hne : resolve cwd tmp ≠ resolve cwd dst :=
              resolve_stampedPath_syncing_ne name_versionsName (name_timestampDirname tm) hrel
                hpath htmp
            apply (moves_copyFileAtomic htmp (fun h => hout (htmpArea.of_under h)) hne).mono
            · exact fun _ _ h => h.mono fun q hq => hq.elim htmpArea.of_under hdstArea.of_under
            · exact fun _ _ _ _ => trivial

end Effects

end MiniSync
