import MiniSync.FaultFree
import MiniSync.Store

/-!
# Making directories without faults

`ensure_parent_dir_exists` below a directory that exists: every directory on the
way to the file is there afterwards, and nothing else has changed.
-/

namespace MiniSync

open Prog

section Directories

variable {env : Env} {w : World} {fuel : Nat}

/-! ## Ways -/

/-- The nodes on the way from `base` down `names`. -/
def OnWay (base names q : TreePath) : Prop := ∃ r, r <+: names ∧ q = base ++ r

theorem OnWay.mono {base names names' q : TreePath} (h : OnWay base names q)
    (hnames : names <+: names') : OnWay base names' q := by
  obtain ⟨r, hr, rfl⟩ := h
  exact ⟨r, hr.trans hnames, rfl⟩

/-- The directories on a way have been made, and nothing else has happened. -/
structure Made (way : TreePath → Prop) (w w' : World) : Prop where
  conn : w'.conn = w.conn
  dirs : ∀ q, way q → w'.tree.IsDir q
  rest : ∀ q, ¬ way q → w'.tree.lookup q = w.tree.lookup q

/-- What leads to the directory `b` exists, and below `b` no file is in the way. -/
structure Passable (cwd : TreePath) (tree : Tree) (b : Bytes) (names : TreePath) : Prop where
  leads : ∀ d, d ≠ [] → Leads d b → tree.IsDir (resolve cwd d)
  free : ∀ q c, OnWay (resolve cwd b) names q → tree.lookup q ≠ some (.file c)

theorem Passable.mono {cwd : TreePath} {tree : Tree} {b : Bytes} {names names' : TreePath}
    (h : Passable cwd tree b names') (hnames : names <+: names') : Passable cwd tree b names :=
  ⟨h.leads, fun q c hq => h.free q c (hq.mono hnames)⟩

theorem posix_mkdir_of_dir {d : Bytes} (hd : d ≠ []) (h : w.tree.IsDir (resolve env.cwd d)) :
    posix env (.mkdir d) w = (.error .exist, w) := by
  have hlookup : w.tree.lookup (resolve env.cwd d) = some .dir := h
  unfold posix posixMkdir FileTree.mkdir
  by_cases hdot : endsInDot d = true
  · simp [hd, hdot, hlookup]
  · simp [hd, hdot, hlookup]

theorem posix_mkdir_of_none {d : Bytes} (hd : d ≠ []) (hdot : endsInDot d = false)
    (hnone : w.tree.lookup (resolve env.cwd d) = none)
    (hparent : w.tree.IsDir (resolve env.cwd d).dropLast) :
    posix env (.mkdir d) w =
      (.ok (), { w with tree := w.tree.put (resolve env.cwd d) .dir }) := by
  have hok : w.tree.parentIsDir (resolve env.cwd d) := hparent
  unfold posix posixMkdir FileTree.mkdir
  simp [hd, hdot, hnone, hok]

/-- One directory, where it exists or can be made. -/
theorem returns_mkdirEach_singleton {d : Bytes} (hd : d ≠ [])
    (h : w.tree.IsDir (resolve env.cwd d) ∨ (endsInDot d = false ∧
      w.tree.lookup (resolve env.cwd d) = none ∧ w.tree.IsDir (resolve env.cwd d).dropLast)) :
    (mkdirEach [d]).Returns (posix env)
      (fun rc w' => rc = .ok ∧ Made (· = resolve env.cwd d) w w') w := by
  refine returns_op_bind.mpr ?_
  rcases h with hdir | ⟨hdot, hnone, hparent⟩
  · rw [posix_mkdir_of_dir hd hdir]
    exact .ret ⟨rfl, rfl, fun q hq => hq ▸ hdir, fun _ _ => rfl⟩
  · rw [posix_mkdir_of_none hd hdot hnone hparent]
    have hroot : resolve env.cwd d ≠ [] := by
      intro h
      rw [h] at hnone
      cases hnone
    refine .ret ⟨rfl, rfl, fun q hq => ?_, fun q hq => ?_⟩
    · unfold FileTree.IsDir
      rw [FileTree.lookup_put hroot, if_pos hq]
    · rw [FileTree.lookup_put hroot, if_neg hq]

theorem mkdirEach_append (ds es : List Bytes) :
    (mkdirEach (ds ++ es) : Sys TreePath Rc) = (do
      match ← mkdirEach ds with
      | .ok => mkdirEach es
      | .err => return .err) := by
  induction ds with
  | nil => rfl
  | cons d ds ih =>
      rw [List.cons_append, mkdirEach, mkdirEach, bind_assoc]
      congr 1
      funext r
      split
      · exact ih
      · exact ih
      · rfl

theorem returns_mkdirEach_append {ds es : List Bytes} {P : World → Prop} {Q : Rc → World → Prop}
    (hds : (mkdirEach ds).Returns (posix env) (fun rc w' => rc = .ok ∧ P w') w)
    (hes : ∀ w', P w' → (mkdirEach es).Returns (posix env) Q w') :
    (mkdirEach (ds ++ es)).Returns (posix env) Q w := by
  rw [mkdirEach_append]
  apply hds.bind
  rintro _ w' ⟨rfl, hP⟩
  exact hes w' hP

/-- Directories that exist already. -/
theorem returns_mkdirEach_of_dirs {ds : List Bytes}
    (h : ∀ d ∈ ds, d ≠ [] ∧ w.tree.IsDir (resolve env.cwd d)) :
    (mkdirEach ds).Returns (posix env) (fun rc w' => rc = .ok ∧ w' = w) w := by
  induction ds with
  | nil => exact .ret ⟨rfl, rfl⟩
  | cons d ds ih =>
      obtain ⟨hd, hdir⟩ := h d List.mem_cons_self
      refine returns_op_bind.mpr ?_
      rw [posix_mkdir_of_dir hd hdir]
      exact ih fun e he => h e (List.mem_cons_of_mem d he)

/-- `b` and what leads to it. -/
theorem returns_mkdirEach_base {b : Bytes} {names : TreePath} (hb : b ≠ [])
    (h : Passable env.cwd w.tree b names) :
    (mkdirEach (slashPrefixes b ++ [b])).Returns (posix env) (fun rc w' => rc = .ok ∧ w' = w) w := by
  apply returns_mkdirEach_of_dirs
  intro d hd
  rcases List.mem_append.mp hd with hd | hd
  · have hleads := leads_of_mem_slashPrefixes hd
    have hne := (mem_slashPrefixes.mp hd).1
    exact ⟨hne, h.leads d hne hleads⟩
  · rw [List.mem_singleton] at hd
    subst hd
    exact ⟨hb, h.leads d hb ⟨[], by simp, Or.inl rfl⟩⟩

theorem onWay_concat {base names q : TreePath} {name : Bytes} :
    OnWay base (names ++ [name]) q ↔ OnWay base names q ∨ q = base ++ (names ++ [name]) := by
  constructor
  · rintro ⟨r, hr, rfl⟩
    rcases List.prefix_concat_iff.mp hr with rfl | hr
    · exact Or.inr rfl
    · exact Or.inl ⟨r, hr, rfl⟩
  · rintro (⟨r, hr, rfl⟩ | rfl)
    · exact ⟨r, hr.trans (List.prefix_append _ _), rfl⟩
    · exact ⟨_, List.prefix_rfl, rfl⟩

theorem not_onWay_concat {base names : TreePath} (name : Bytes) :
    ¬ OnWay base names (base ++ (names ++ [name])) := by
  rintro ⟨r, hr, heq⟩
  have hlen := hr.length_le
  rw [← List.append_cancel_left heq, List.length_append, List.length_singleton] at hlen
  omega

theorem onWay_end (base names : TreePath) : OnWay base names (base ++ names) :=
  ⟨names, List.prefix_rfl, rfl⟩

theorem made_refl_of_dir {base : TreePath} (h : w.tree.IsDir base) : Made (OnWay base []) w w := by
  refine ⟨rfl, ?_, fun _ _ => rfl⟩
  rintro q ⟨r, hr, rfl⟩
  rw [List.prefix_nil.mp hr, List.append_nil]
  exact h

theorem endsInDot_eq_false {path name : Bytes} (hname : Component name) (hdot : name ≠ [dot])
    (h : path = name ∨ ∃ u, path = u ++ slash :: name) : endsInDot path = false := by
  have hlast : PosixPath.lastName slash path = name := by
    unfold PosixPath.lastName
    rcases h with rfl | ⟨u, rfl⟩
    · rw [List.splitOn_eq_singleton hname.no_slash,
        List.filter_cons_of_pos (by simpa using hname.ne_nil)]
      rfl
    · rw [List.splitOn_append_cons_self, List.splitOn_eq_singleton hname.no_slash,
        List.filter_append, List.filter_cons_of_pos (by simpa using hname.ne_nil)]
      simp
  unfold endsInDot PosixPath.lastIsDot
  rw [hlast, decide_eq_false_iff_not]
  simp only [List.mem_cons, List.not_mem_nil, or_false, not_or]
  exact ⟨hname.ne_nil, hdot, hname.ne_dotdot⟩

/-- The last directory of a way. -/
theorem returns_mkdirEach_last {base names : TreePath} {x name : Bytes} {w₀ : World}
    (hname : slash ∉ name) (hdots : name ≠ dotdot)
    (hnode : resolve env.cwd (x ++ slash :: name) = base ++ (names ++ relNames name))
    (hmade : Made (OnWay base names) w₀ w)
    (hfree : ∀ q c, OnWay base (names ++ relNames name) q → w₀.tree.lookup q ≠ some (.file c)) :
    (mkdirEach [x ++ slash :: name]).Returns (posix env)
      (fun rc w' => rc = .ok ∧ Made (OnWay base (names ++ relNames name)) w₀ w') w := by
  have hne : x ++ slash :: name ≠ [] := by simp
  have hdir : w.tree.IsDir (base ++ names) := hmade.dirs _ (onWay_end base names)
  by_cases hstay : name = [] ∨ name = [dot]
  · have hnil : relNames name = [] := by
      unfold relNames PosixPath.names
      have hout : ¬ (name ≠ [] ∧ name ≠ [dot]) := by tauto
      rw [List.splitOn_eq_singleton hname, List.filter_cons_of_neg (by simpa using hout),
        List.filter_nil]
    rw [hnil, List.append_nil] at hnode ⊢
    apply (returns_mkdirEach_singleton hne (Or.inl (hnode ▸ hdir))).post
    rintro rc w' ⟨hrc, hstep⟩
    refine ⟨hrc, hstep.conn.trans hmade.conn, fun q hq => ?_, fun q hq => ?_⟩
    · by_cases hq' : q = resolve env.cwd (x ++ slash :: name)
      · exact hstep.dirs q hq'
      · exact (hstep.rest q hq').trans (hmade.dirs q hq)
    · rw [hstep.rest q, hmade.rest q hq]
      rintro rfl
      exact hq (hnode ▸ onWay_end base names)
  · rw [not_or] at hstay
    have hcomp : Component name := ⟨hname, hstay.1, hdots⟩
    rw [relNames_component hcomp hstay.2] at hnode hfree ⊢
    have hdot : endsInDot (x ++ slash :: name) = false :=
      endsInDot_eq_false hcomp hstay.2 (Or.inr ⟨x, rfl⟩)
    have hsame := hmade.rest _ (not_onWay_concat name)
    have hok : w.tree.IsDir (resolve env.cwd (x ++ slash :: name)) ∨
        (endsInDot (x ++ slash :: name) = false ∧
          w.tree.lookup (resolve env.cwd (x ++ slash :: name)) = none ∧
          w.tree.IsDir (resolve env.cwd (x ++ slash :: name)).dropLast) := by
      have hparent : (base ++ (names ++ [name])).dropLast = base ++ names := by
        rw [← List.append_assoc, List.dropLast_concat]
      rw [hnode, hparent]
      cases hlookup : w₀.tree.lookup (base ++ (names ++ [name])) with
      | none => exact Or.inr ⟨hdot, hsame.trans hlookup, hdir⟩
      | some node =>
          cases node with
          | dir => exact Or.inl (hsame.trans hlookup)
          | file c => exact absurd hlookup (hfree _ c (onWay_end _ _))
    apply (returns_mkdirEach_singleton hne hok).post
    rintro rc w' ⟨hrc, hstep⟩
    rw [hnode] at hstep
    refine ⟨hrc, hstep.conn.trans hmade.conn, fun q hq => ?_, fun q hq => ?_⟩
    · by_cases hq' : q = base ++ (names ++ [name])
      · exact hstep.dirs q hq'
      · have hway := (onWay_concat.mp hq).resolve_right hq'
        exact (hstep.rest q hq').trans (hmade.dirs q hway)
    · rw [onWay_concat, not_or] at hq
      rw [hstep.rest q hq.2, hmade.rest q hq.1]

/-- A path of directories below `b`. -/
theorem returns_mkdirEach_below {b rest : Bytes} (hb : b ≠ [])
    (hrest : dotdot ∉ rest.splitOn slash) (h : Passable env.cwd w.tree b (relNames rest)) :
    (mkdirEach (slashPrefixes (b ++ slash :: rest) ++ [b ++ slash :: rest])).Returns (posix env)
      (fun rc w' => rc = .ok ∧ Made (OnWay (resolve env.cwd b) (relNames rest)) w w') w := by
  -- induction on the length of `rest`, which loses its last piece
  induction hlen : rest.length using Nat.strong_induction_on generalizing rest with
  | _ n ih =>
  have hbase : w.tree.IsDir (resolve env.cwd b) := h.leads b hb ⟨[], by simp, Or.inl rfl⟩
  have hnode := @resolve_below env.cwd b rest hb hrest
  obtain ⟨name, hname, rfl | ⟨u, rfl⟩⟩ := PosixPath.exists_last_piece slash rest
  · have hdots : rest ≠ dotdot := by
      rintro rfl
      exact hrest (by decide)
    rw [slashPrefixes_append hb hname]
    apply returns_mkdirEach_append (returns_mkdirEach_base hb h)
    rintro w' rfl
    exact returns_mkdirEach_last hname hdots hnode (made_refl_of_dir hbase) h.free
  · have hsplit : u.splitOn slash ++ [name] = (u ++ slash :: name).splitOn slash := by
      rw [List.splitOn_append_cons_self, List.splitOn_eq_singleton hname]
    rw [← hsplit, List.mem_append, List.mem_singleton, not_or] at hrest
    have hshape : b ++ slash :: (u ++ slash :: name) = (b ++ slash :: u) ++ slash :: name := by simp
    rw [relNames_append] at h hnode ⊢
    rw [hshape, slashPrefixes_append (by simp) hname]
    have hinit := ih u.length (by rw [← hlen, List.length_append, List.length_cons]; omega) hrest.1
      (h.mono (List.prefix_append _ _)) rfl
    apply returns_mkdirEach_append hinit
    intro w' hmade
    exact returns_mkdirEach_last hname (fun h => hrest.2 h.symm) (hshape ▸ hnode) hmade h.free

/-- The names of a file path, and those of its directory. -/
theorem dropLast_relNames {rel u name : Bytes} (hname : Component name) (hdot : name ≠ [dot])
    (h : rel = u ++ slash :: name) : (relNames rel).dropLast = relNames u := by
  rw [h, relNames_append, relNames_component hname hdot, List.dropLast_concat]

/-- The parent of a file path below `b`. -/
theorem returns_ensureParentDirExists {b rel : Bytes} (hb : b ≠ [])
    (hlast : b.getLast? ≠ some slash) (hrel : EndsInName rel)
    (hlen : (b ++ slash :: rel).length < maxPathLen)
    (h : Passable env.cwd w.tree b (relNames rel).dropLast) :
    (ensureParentDirExists (b ++ slash :: rel)).Returns (posix env)
      (fun rc w' => rc = .ok ∧
        Made (OnWay (resolve env.cwd b) (relNames rel).dropLast) w w') w := by
  have hparent : ∀ parent name, b ++ slash :: rel = parent ++ slash :: name → slash ∉ name →
      parent ≠ [] → parent.getLast? ≠ some slash →
      ensureParentDirExists (b ++ slash :: rel) =
        (mkdirEach (slashPrefixes parent ++ [parent]) : Sys TreePath Rc) := by
    intro parent name hpath hname hne hend
    have hlonger : ¬ parent.length ≥ maxPathLen := by
      rw [hpath, List.length_append] at hlen
      omega
    unfold ensureParentDirExists ensureDirExists dirsToMake
    rw [if_neg (by omega), hpath, parentPart_append hname, if_neg hne]
    simp only
    rw [if_neg hne, if_neg hlonger, stripTrailingSlashes_eq_self hend]
  obtain ⟨name, hname, hdot, rfl | ⟨u, hu, hune, huend, hudots⟩⟩ := hrel
  · rw [hparent b rel rfl hname.no_slash hb hlast]
    rw [relNames_component hname hdot] at h ⊢
    apply (returns_mkdirEach_base hb h).post
    rintro rc w' ⟨hrc, rfl⟩
    exact ⟨hrc, made_refl_of_dir (h.leads b hb ⟨[], by simp, Or.inl rfl⟩)⟩
  · have hend : (b ++ slash :: u).getLast? ≠ some slash := by
      rw [List.getLast?_append_of_ne_nil _ (by simp), List.getLast?_cons]
      rcases List.eq_nil_or_concat u with rfl | ⟨v, c, rfl⟩
      · exact absurd rfl hune
      · simpa using huend
    rw [hparent (b ++ slash :: u) name (by rw [hu]; simp) hname.no_slash (by simp) hend]
    rw [dropLast_relNames hname hdot hu] at h ⊢
    exact returns_mkdirEach_below hb hudots h

end Directories

end MiniSync
