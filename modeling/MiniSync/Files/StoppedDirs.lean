import MiniSync.Files.EnsureDir

/-!
# Where the making of directories stops

`ensure_dir_exists` asks for one directory after the other and stops at the first
that is refused: what it has made until then stays.  A directory is refused because
of its name, because the call fails, or because of what stands on the way.
-/

namespace MiniSync

open Prog

/-- The path names that a call hands to the kernel; nothing depends on what becomes
of that of the log. -/
def Call.names {Fd : Type} : Call Fd → List Bytes
  | .openFile path _ => [path]
  | .mkdir path => [path]
  | .rename src dst => [src, dst]
  | .unlink path => [path]
  | .stat path => [path]
  | .access path => [path]
  | .chmod path _ => [path]
  | .utime path _ => [path]
  | _ => []

/-- One call, where the kernel has no room for the names that are `tooLong`. -/
def Limited (tooLong : Bytes → Prop) (cwd : TreePath) (mayFail : Call TreePath → Errno → Prop)
    (c : Call TreePath) (w : World) (r : Resp c) (w' : World) : Prop :=
  (∀ path ∈ c.names, ¬ tooLong path) ∧ Kernel cwd mayFail c w r w' ∨
    (∃ path ∈ c.names, tooLong path) ∧ Faulty (fun _ e => e = .nametoolong) c w r w'

/-- `mkdir` of the name may be refused although there is room for the directory. -/
def MkdirFails (tooLong : Bytes → Prop) (mayFail : Call TreePath → Errno → Prop) (d : Bytes) :
    Prop :=
  tooLong d ∨ ∃ e, mayFail (.mkdir d) e

/-- Along the directories one that is refused comes after one that is missing. -/
def StopsLate (tooLong : Bytes → Prop) (cwd : TreePath) (mayFail : Call TreePath → Errno → Prop)
    (tree : Tree) (ds : List Bytes) : Prop :=
  ∃ before d after, ds = before ++ d :: after ∧ (∀ p ∈ before, ¬ tooLong p) ∧
    (∃ p ∈ before, tree.lookup (resolve cwd p) = none) ∧ MkdirFails tooLong mayFail d

section StoppedDirs

variable {env : Env} {tooLong : Bytes → Prop} {mayFail : Call TreePath → Errno → Prop}
  {w w' : World} {ds es before after : List Bytes} {d : Bytes} {rc : Rc}

theorem Limited.kernel {cwd : TreePath} {c : Call TreePath} {r : Resp c}
    (h : Limited tooLong cwd mayFail c w r w') :
    Kernel cwd (fun c e => mayFail c e ∨ e = .nametoolong) c w r w' := by
  rcases h with ⟨-, ⟨now, h⟩ | h⟩ | ⟨-, h⟩
  · exact Or.inl ⟨now, h⟩
  · exact Or.inr (h.mono fun _ _ => Or.inl)
  · exact Or.inr (h.mono fun _ _ => Or.inr)

/-- A call with short names may be answered as POSIX has it. -/
theorem limited_posix {c : Call TreePath} (h : ∀ path ∈ c.names, ¬ tooLong path) (w : World) :
    Limited tooLong env.cwd mayFail c w (posix env c w).1 (posix env c w).2 :=
  Or.inl ⟨h, Or.inl ⟨env.now, rfl⟩⟩

/-! ## One directory -/

theorem Limited.mkdirCases (hexist : ∀ d, ¬ mayFail (.mkdir d) .exist) {r : Resp (.mkdir d)}
    (h : Limited tooLong env.cwd mayFail (.mkdir d) w r w') :
    (¬ tooLong d ∧ posix env (.mkdir d) w = (r, w')) ∨
      (MkdirFails tooLong mayFail d ∧ (∃ e, e ≠ .exist ∧ r = .error e) ∧ w' = w) := by
  rcases h with ⟨hshort, ⟨now, h⟩ | ⟨e, hmay, rfl, rfl⟩⟩ | ⟨⟨path, hpath, hlong⟩, e, rfl, rfl, rfl⟩
  · -- the clock does not matter to `mkdir`
    exact Or.inl ⟨hshort d List.mem_cons_self, h⟩
  · refine Or.inr ⟨Or.inr ⟨e, hmay⟩, ⟨e, ?_, rfl⟩, rfl⟩
    rintro rfl
    exact hexist d hmay
  · rw [List.mem_singleton.mp hpath] at hlong
    exact Or.inr ⟨Or.inl hlong, ⟨.nametoolong, nofun, rfl⟩, rfl⟩

/-- A directory that may be refused is refused in some execution. -/
theorem exec_mkdirEach_refused (hexist : ∀ d, ¬ mayFail (.mkdir d) .exist) {cwd : TreePath}
    (h : MkdirFails tooLong mayFail d) :
    Exec (Limited tooLong cwd mayFail) (mkdirEach (d :: after)) w .err w := by
  have hrefused : ∃ e, e ≠ .exist ∧ Limited tooLong cwd mayFail (.mkdir d) w (.error e) w := by
    by_cases hlong : tooLong d
    · exact ⟨.nametoolong, nofun, Or.inr ⟨⟨d, List.mem_cons_self, hlong⟩, _, rfl, rfl, rfl⟩⟩
    · obtain ⟨e, hmay⟩ := h.resolve_left hlong
      refine ⟨e, ?_, Or.inl ⟨?_, Or.inr ⟨e, hmay, rfl, rfl⟩⟩⟩
      · rintro rfl
        exact hexist d hmay
      · intro path hpath
        rwa [List.mem_singleton.mp hpath]
  obtain ⟨e, he, hK⟩ := hrefused
  refine exec_bind.mpr ⟨.error e, w, .call hK (.ret _ _), ?_⟩
  split
  · rename_i heq
    cases heq
  · rename_i heq
    exact absurd (Except.error.inj heq) he
  · exact .ret _ _

/-! ## One after the other -/

theorem run_mkdirEach_append (h : (mkdirEach ds).run (posix env) w = some (.ok, w')) :
    (mkdirEach (ds ++ es)).run (posix env) w = (mkdirEach es).run (posix env) w' := by
  rw [mkdirEach_append, run_bind_of_eq h]

/-- A directory that is made, or there, is passed. -/
theorem run_mkdirEach_pass {r : Resp (.mkdir d)} (h : posix env (.mkdir d) w = (r, w'))
    (hr : r = .ok () ∨ r = .error .exist) :
    (mkdirEach (d :: ds)).run (posix env) w = (mkdirEach ds).run (posix env) w' := by
  have hop : (sys (.mkdir d) : Sys TreePath _).run (posix env) w = some (r, w') :=
    congrArg some h
  rw [mkdirEach, run_bind_of_eq hop]
  rcases hr with rfl | rfl <;> rfl

theorem run_mkdirEach_stop {e : Errno} {r : Resp (.mkdir d)}
    (h : posix env (.mkdir d) w = (r, w')) (hr : r = .error e) (he : e ≠ .exist) :
    (mkdirEach (d :: ds)).run (posix env) w = some (.err, w') := by
  have hop : (sys (.mkdir d) : Sys TreePath _).run (posix env) w = some (r, w') :=
    congrArg some h
  rw [mkdirEach, run_bind_of_eq hop]
  subst hr
  split
  · rename_i heq
    cases heq
  · rename_i heq
    exact absurd (Except.error.inj heq) he
  · rfl

/-- `mkdir` passes, or it stops and has done nothing. -/
theorem posix_mkdir_cases (env : Env) (d : Bytes) (w : World) :
    (∃ r w', posix env (.mkdir d) w = (r, w') ∧ (r = .ok () ∨ r = .error .exist)) ∨
      ∃ e, e ≠ .exist ∧ posix env (.mkdir d) w = (.error e, w) := by
  rcases posixMkdir_cases env.cwd w.tree d with ⟨e, he⟩ | ⟨tree', hok, -⟩
  · have hanswer : posix env (.mkdir d) w = (.error e, w) := by simp only [posix, he]
    by_cases hexist : e = .exist
    · exact Or.inl ⟨_, _, hanswer, Or.inr (congrArg Except.error hexist)⟩
    · exact Or.inr ⟨e, hexist, hanswer⟩
  · exact Or.inl ⟨.ok (), { w with tree := tree' }, by simp only [posix, hok], Or.inl rfl⟩

theorem run_mkdirEach_split {w'' : World}
    (h : (mkdirEach (ds ++ es)).run (posix env) w = some (.ok, w'')) :
    ∃ w', (mkdirEach ds).run (posix env) w = some (.ok, w') ∧
      (mkdirEach es).run (posix env) w' = some (.ok, w'') := by
  rw [mkdirEach_append, run_bind] at h
  cases hrun : (mkdirEach ds).run (posix env) w with
  | none =>
      rw [hrun] at h
      cases h
  | some result =>
      obtain ⟨rc, w'⟩ := result
      rw [hrun] at h
      cases rc with
      | ok => exact ⟨w', rfl, h⟩
      | err => cases h

/-- A directory that is refused stops what follows it. -/
theorem run_mkdirEach_cons_err (h : (mkdirEach [d]).run (posix env) w = some (.err, w')) :
    (mkdirEach (d :: ds)).run (posix env) w = some (.err, w') := by
  rcases posix_mkdir_cases env d w with ⟨r, w₁, hanswer, hpass⟩ | ⟨e, he, hanswer⟩
  · rw [run_mkdirEach_pass hanswer hpass] at h
    cases h
  · rw [run_mkdirEach_stop hanswer rfl he] at h ⊢
    exact h

/-- How far an execution comes. -/
theorem exec_mkdirEach_cases (hexist : ∀ d, ¬ mayFail (.mkdir d) .exist)
    (h : Exec (Limited tooLong env.cwd mayFail) (mkdirEach ds) w rc w') :
    (rc = .ok ∧ (∀ d ∈ ds, ¬ tooLong d) ∧
      (mkdirEach ds).run (posix env) w = some (.ok, w')) ∨
    (rc = .err ∧ ∃ before d after, ds = before ++ d :: after ∧ (∀ p ∈ before, ¬ tooLong p) ∧
      (mkdirEach before).run (posix env) w = some (.ok, w') ∧
      (MkdirFails tooLong mayFail d ∨ (mkdirEach [d]).run (posix env) w' = some (.err, w'))) := by
  induction ds generalizing w with
  | nil =>
      obtain ⟨rfl, rfl⟩ := exec_ret h
      exact Or.inl ⟨rfl, nofun, rfl⟩
  | cons d ds ih =>
      obtain ⟨r, w₁, hmk, hrest⟩ := exec_bind.mp h
      have hstop : ∀ {e : Errno}, e ≠ .exist → r = .error e → rc = .err ∧ w' = w₁ := by
        rintro e he rfl
        split at hrest
        · rename_i heq
          cases heq
        · rename_i heq
          exact absurd (Except.error.inj heq) he
        · exact exec_ret hrest
      rcases (exec_op hmk).mkdirCases hexist with ⟨hshort, hposix⟩ | ⟨hfails, ⟨e, he, hr⟩, rfl⟩
      · rcases posix_mkdir_cases env d w with ⟨r', w₁', hanswer, hpass⟩ | ⟨e, he, hanswer⟩
        · -- the directory is there
          rw [hposix] at hanswer
          cases hanswer
          have hgo : Exec (Limited tooLong env.cwd mayFail) (mkdirEach ds) w₁ rc w' := by
            rcases hpass with rfl | rfl
            · exact hrest
            · exact hrest
          rcases ih hgo with ⟨hrc, hall, hrun⟩ | ⟨hrc, before, d', after, rfl, hall, hrun, hwhy⟩
          · refine Or.inl ⟨hrc, List.forall_mem_cons.mpr ⟨hshort, hall⟩, ?_⟩
            rw [run_mkdirEach_pass hposix hpass, hrun]
          · refine Or.inr ⟨hrc, d :: before, d', after, rfl,
              List.forall_mem_cons.mpr ⟨hshort, hall⟩, ?_, hwhy⟩
            rw [run_mkdirEach_pass hposix hpass, hrun]
        · -- the state refuses it
          rw [hposix] at hanswer
          cases hanswer
          obtain ⟨rfl, rfl⟩ := hstop he rfl
          exact Or.inr ⟨rfl, [], d, ds, rfl, nofun, rfl,
            Or.inr (run_mkdirEach_stop hposix rfl he)⟩
      · obtain ⟨rfl, rfl⟩ := hstop he hr
        exact Or.inr ⟨rfl, [], d, ds, rfl, nofun, rfl, Or.inl hfails⟩

/-- Directories with short names may be made as POSIX has it. -/
theorem exec_mkdirEach_of_run (hshort : ∀ d ∈ ds, ¬ tooLong d)
    (hrun : (mkdirEach ds).run (posix env) w = some (rc, w')) :
    Exec (Limited tooLong env.cwd mayFail) (mkdirEach ds) w rc w' := by
  have hcalls : (mkdirEach ds : Sys TreePath Rc).All
      (fun c => ∀ path ∈ c.names, ¬ tooLong path) fun _ => True := by
    refine all_mkdirEach fun d hd path hpath => ?_
    rw [List.mem_singleton.mp hpath]
    exact hshort d hd
  exact hcalls.exec_of_run (fun c w hc => limited_posix hc w) hrun

theorem exec_mkdirEach_stops (hexist : ∀ d, ¬ mayFail (.mkdir d) .exist)
    (hshort : ∀ p ∈ before, ¬ tooLong p)
    (hrun : (mkdirEach before).run (posix env) w = some (.ok, w'))
    (hfails : MkdirFails tooLong mayFail d) :
    Exec (Limited tooLong env.cwd mayFail) (mkdirEach (before ++ d :: after)) w .err w' := by
  rw [mkdirEach_append]
  exact exec_bind.mpr ⟨.ok, w', exec_mkdirEach_of_run hshort hrun,
    exec_mkdirEach_refused hexist hfails⟩

/-! ## What has been made -/

/-- What there was is as it was, there is something at each name, and what is new is at
one of them. -/
structure Asked (cwd : TreePath) (ds : List Bytes) (w w' : World) : Prop where
  kept : ∀ q, w.tree.lookup q ≠ none → w'.tree.lookup q = w.tree.lookup q
  there : ∀ d ∈ ds, w'.tree.lookup (resolve cwd d) ≠ none
  rest : ∀ q, w.tree.lookup q = none → (∀ d ∈ ds, resolve cwd d ≠ q) → w'.tree.lookup q = none

theorem asked_of_mkdir {cwd : TreePath} {tree' : Tree}
    (h : w.tree.mkdir (resolve cwd d) = .ok tree') :
    Asked cwd [d] w { w with tree := tree' } := by
  refine ⟨fun q hq => ?_, ?_, fun q hnone hq => ?_⟩
  · exact (FileTree.Touches.mkdir (X := fun _ => False) h).lookup_of_ne_none not_false hq
  · rintro p hp
    rw [List.mem_singleton.mp hp]
    exact lookup_mkdir_ne_none h
  · have hne : q ≠ resolve cwd d := fun heq => hq d List.mem_cons_self heq.symm
    rcases FileTree.MakesIn.lookup_cases (FileTree.MakesIn.mkdir (D := (· = resolve cwd d)) rfl h)
      (.mkdir (X := fun _ => False) h) (p := q) not_false with hsame | ⟨-, -, heq⟩
    · exact hsame.trans hnone
    · exact absurd heq hne

/-- The directories of a run that comes to its end. -/
theorem run_mkdirEach_asked (h : (mkdirEach ds).run (posix env) w = some (.ok, w')) :
    Asked env.cwd ds w w' := by
  induction ds generalizing w with
  | nil =>
      cases h
      exact ⟨fun _ _ => rfl, fun _ hd => absurd hd List.not_mem_nil, fun _ hnone _ => hnone⟩
  | cons d ds ih =>
      have hstep : ∃ w₁, (mkdirEach ds).run (posix env) w₁ = some (.ok, w') ∧
          Asked env.cwd [d] w w₁ := by
        rcases posix_mkdir_cases env d w with ⟨r, w₁, hanswer, hpass⟩ | ⟨e, he, hanswer⟩
        · rw [run_mkdirEach_pass hanswer hpass] at h
          refine ⟨w₁, h, ?_⟩
          rcases posixMkdir_cases env.cwd w.tree d with ⟨e, he⟩ | ⟨tree', hok, hmk⟩
          · simp only [posix, he] at hanswer
            obtain ⟨rfl, rfl⟩ := Prod.ext_iff.mp hanswer
            have hexist := Except.error.inj (hpass.resolve_left (by simp))
            refine ⟨fun _ _ => rfl, fun p hp => ?_, fun _ hnone _ => hnone⟩
            rw [List.mem_singleton.mp hp]
            exact posixMkdir_exist (congrArg Prod.fst he) hexist
          · simp only [posix, hok] at hanswer
            obtain ⟨rfl, rfl⟩ := Prod.ext_iff.mp hanswer
            exact asked_of_mkdir hmk
        · rw [run_mkdirEach_stop hanswer rfl he] at h
          cases h
      obtain ⟨w₁, hrun, hfirst⟩ := hstep
      have hlater := ih hrun
      refine ⟨fun q hq => ?_, List.forall_mem_cons.mpr ⟨?_, hlater.there⟩, fun q hnone hq => ?_⟩
      · rw [hlater.kept q (by rw [hfirst.kept q hq]; exact hq), hfirst.kept q hq]
      · have hthere := hfirst.there d List.mem_cons_self
        rw [hlater.kept _ hthere]
        exact hthere
      · obtain ⟨hd, hds⟩ := List.forall_mem_cons.mp hq
        refine hlater.rest q (hfirst.rest q hnone fun p hp => ?_) hds
        rw [List.mem_singleton.mp hp]
        exact hd

/-- Where all were there nothing has changed. -/
theorem Asked.same {cwd : TreePath} (h : Asked cwd ds w w')
    (hthere : ∀ d ∈ ds, w.tree.lookup (resolve cwd d) ≠ none) (q : TreePath) :
    w'.tree.lookup q = w.tree.lookup q := by
  by_cases hnone : w.tree.lookup q = none
  · rw [hnone]
    exact h.rest q hnone fun d hd heq => hthere d hd (heq ▸ hnone)
  · exact h.kept q hnone

theorem posix_mkdir_of_there (hd : d ≠ []) (hthere : w.tree.lookup (resolve env.cwd d) ≠ none) :
    posix env (.mkdir d) w = (.error .exist, w) := by
  obtain ⟨node, hnode⟩ := Option.ne_none_iff_exists'.mp hthere
  unfold posix posixMkdir FileTree.mkdir
  by_cases hdot : endsInDot d = true
  · simp [hd, hdot, hnode]
  · simp [hd, hdot, hnode]

theorem run_mkdirEach_of_there
    (h : ∀ d ∈ ds, d ≠ [] ∧ w.tree.lookup (resolve env.cwd d) ≠ none) :
    (mkdirEach ds).run (posix env) w = some (.ok, w) := by
  induction ds with
  | nil => rfl
  | cons d ds ih =>
      obtain ⟨hd, hthere⟩ := h d List.mem_cons_self
      rw [run_mkdirEach_pass (posix_mkdir_of_there hd hthere) (Or.inr rfl)]
      exact ih fun e he => h e (List.mem_cons_of_mem d he)

/-- Directories that are there are asked for once more. -/
theorem exec_mkdirEach_of_there (hexist : ∀ d, ¬ mayFail (.mkdir d) .exist)
    (hthere : ∀ d ∈ ds, d ≠ [] ∧ w.tree.lookup (resolve env.cwd d) ≠ none)
    (h : Exec (Limited tooLong env.cwd mayFail) (mkdirEach ds) w rc w') :
    w' = w ∧ (rc = .err → ∃ d ∈ ds, MkdirFails tooLong mayFail d) := by
  rcases exec_mkdirEach_cases hexist h with ⟨rfl, -, hrun⟩ |
    ⟨-, before, d, after, rfl, -, hrun, hwhy⟩
  · rw [run_mkdirEach_of_there hthere] at hrun
    cases hrun
    exact ⟨rfl, nofun⟩
  · rw [run_mkdirEach_of_there fun p hp => hthere p (List.mem_append_left _ hp)] at hrun
    cases hrun
    refine ⟨rfl, fun _ => ⟨d, by simp, hwhy.resolve_right fun hstop => ?_⟩⟩
    rw [run_mkdirEach_of_there fun p hp => hthere p (by simp [List.mem_singleton.mp hp])] at hstop
    cases hstop

end StoppedDirs

end MiniSync
