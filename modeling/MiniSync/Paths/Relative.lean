import MiniSync.Paths

/-!
# Relative paths

Which relative paths `sanitize_rel_path` accepts, compared with the grammar of
paths that stay below their root, and when `get_relative_path` takes back what
`join_path` has put together.
-/

namespace MiniSync

open PosixPath

/-! ## Accepted paths -/

/-- A path that stays below the directory it is relative to, without a spelling
that other code would read differently. -/
structure SafeRelPath (s : Bytes) : Prop where
  ne_nil : s ≠ []
  head_ne : s.head? ≠ some slash
  no_double : ¬ [slash, slash] <:+: s
  ne_dot : s ≠ [dot]
  no_dotdot : dotdot ∉ s.splitOn slash

/-- A component after the first begins with two dots, or one before the last
ends with two dots. -/
def DotsInside (s : Bytes) : Prop :=
  (∃ name ∈ (s.splitOn slash).tail, dotdot <+: name) ∨
    ∃ name ∈ (s.splitOn slash).dropLast, dotdot <:+ name

theorem sanitizeRelPath_eq_ok {s : Bytes} :
    sanitizeRelPath s = .ok ↔
      s ≠ [] ∧ s.head? ≠ some slash ∧ s ≠ [dot] ∧ s ≠ dotdot ∧
        ¬ [slash, slash] <:+: s ∧ ¬ DotsInside s := by
  have hslash : slash ∉ dotdot := by decide
  have hinside : DotsInside s ↔ slash :: dotdot <:+: s ∨ dotdot ++ [slash] <:+: s := by
    unfold DotsInside
    rw [cons_infix_iff hslash, append_infix_iff hslash]
  have hsub : (strstr s [dot, dot, slash] || strstr s [slash, dot, dot] ||
      strstr s [slash, slash]) = true ↔ DotsInside s ∨ [slash, slash] <:+: s := by
    rw [Bool.or_eq_true, Bool.or_eq_true, strstr_iff, strstr_iff, strstr_iff, hinside]
    exact or_congr_left or_comm
  unfold sanitizeRelPath
  rw [show [dot, dot] = dotdot from rfl] at hsub ⊢
  split_ifs with hnil hhead hdots hany
  · simp [hnil]
  · simp [hhead]
  · simp only [false_iff]
    tauto
  · simp only [false_iff]
    tauto
  · simp only [true_iff]
    tauto

/-- No traversal passes the check. -/
theorem SafeRelPath.of_sanitizeRelPath {s : Bytes} (h : sanitizeRelPath s = .ok) :
    SafeRelPath s := by
  obtain ⟨hnil, hhead, hdot, -, hdouble, -⟩ := sanitizeRelPath_eq_ok.mp h
  exact ⟨hnil, hhead, hdouble, hdot, (relative_of_sanitizeRelPath h).no_dotdot⟩

/-- A safe path passes unless it has dots inside. -/
theorem SafeRelPath.sanitizeRelPath_iff {s : Bytes} (h : SafeRelPath s) :
    sanitizeRelPath s = .ok ↔ ¬ DotsInside s := by
  have hne : s ≠ dotdot := by
    intro heq
    have hsplit : s.splitOn slash = [dotdot] := by
      rw [heq]
      exact List.splitOn_eq_singleton (by decide)
    exact h.no_dotdot (hsplit ▸ List.mem_cons_self)
  rw [sanitizeRelPath_eq_ok]
  constructor
  · rintro ⟨-, -, -, -, -, hinside⟩
    exact hinside
  · intro hinside
    exact ⟨h.ne_nil, h.head_ne, h.ne_dot, hne, h.no_double, hinside⟩

/-- The check agrees with the grammar on a string exactly where the string is
unsafe or has no dots inside. -/
theorem sanitizeRelPath_exact_iff (s : Bytes) :
    (sanitizeRelPath s = .ok ↔ SafeRelPath s) ↔ (SafeRelPath s → ¬ DotsInside s) := by
  constructor
  · intro hexact hsafe
    exact hsafe.sanitizeRelPath_iff.mp (hexact.mpr hsafe)
  · intro hdots
    constructor
    · exact SafeRelPath.of_sanitizeRelPath
    · intro hsafe
      exact hsafe.sanitizeRelPath_iff.mpr (hdots hsafe)

/-- The legal name `..b` is accepted at the top, and refused in a directory. -/
theorem sanitizeRelPath_refuses_safe :
    nul ∉ ascii "a/..b" ∧
      ¬ (sanitizeRelPath (ascii "a/..b") = .ok ↔ SafeRelPath (ascii "a/..b")) := by
  refine ⟨by decide +kernel, fun hexact => ?_⟩
  have hsafe : SafeRelPath (ascii "a/..b") := by
    constructor <;> decide +kernel
  have hrefused : sanitizeRelPath (ascii "a/..b") = .err := by decide +kernel
  rw [hexact.mpr hsafe] at hrefused
  cases hrefused

example : sanitizeRelPath (ascii "..b") = .ok := by decide +kernel

/-! ## Paths made relative again -/

/-- What is left of the root when one more slash is put after it. -/
theorem exists_slashes (root : Bytes) :
    ∃ j, joinBase root ++ [slash] = stripTrailingSlashes root ++ List.replicate j slash := by
  by_cases hlast : root.getLast? = some slash
  · obtain ⟨k, hk⟩ := exists_stripped root
    refine ⟨k, ?_⟩
    rw [← hk]
    unfold joinBase
    rw [if_pos hlast]
    obtain ⟨u, hu⟩ := List.getLast?_eq_some_iff.mp hlast
    rw [hu, List.dropLast_concat]
  · exact ⟨1, by rw [joinBase_of_getLast_ne hlast, stripTrailingSlashes_eq_self hlast]; rfl⟩

/-- At most one of these slashes is left where the root has no two of them at
its end, or is nothing else. -/
theorem slashes_le_one_iff {root : Bytes} {j : Nat} (hroot : root ≠ [])
    (hj : joinBase root ++ [slash] = stripTrailingSlashes root ++ List.replicate j slash) :
    j ≤ 1 ↔ root = [slash, slash] ∨ ¬ [slash, slash] <:+ root := by
  by_cases hlast : root.getLast? = some slash
  · obtain ⟨u, rfl⟩ := List.getLast?_eq_some_iff.mp hlast
    have hbase : joinBase (u ++ [slash]) = u := by
      unfold joinBase
      rw [if_pos hlast, List.dropLast_concat]
    rw [hbase] at hj
    obtain ⟨c, cs, hcons⟩ := List.exists_cons_of_ne_nil hroot
    obtain ⟨rest, hstrip, hrest⟩ := stripTrailingSlashes_cons c cs
    rw [hcons, hstrip] at hj
    rw [hcons, hj]
    -- Read from the end: `j` slashes, then no slash unless it is the first byte.
    have hback : [slash, slash] <:+ c :: rest ++ List.replicate j slash ↔
        [slash, slash] <+: List.replicate j slash ++ (rest.reverse ++ [c]) := by
      rw [← List.reverse_prefix, List.reverse_append, List.reverse_replicate,
        List.reverse_cons (a := c)]
      rfl
    rw [hback]
    rw [← List.head?_reverse] at hrest
    cases hrev : rest.reverse with
    | nil =>
        obtain rfl : rest = [] := by simpa using hrev
        match j with
        | 0 => simp
        | 1 =>
            simp only [List.nil_append]
            by_cases hc : c = slash <;> simp [hc, eq_comm]
        | j + 2 => simp [List.replicate_succ]
    | cons d ds =>
        rw [hrev, List.head?_cons, Option.some_inj.ne] at hrest
        have hlen : 0 < rest.length := by
          rw [← List.length_reverse, hrev]
          exact Nat.succ_pos _
        have hlong : c :: rest ++ List.replicate j slash ≠ [slash, slash] ∨ j ≤ 1 := by
          by_contra h
          rw [not_or, not_not] at h
          have hlens := congrArg List.length h.1
          rw [List.length_append, List.length_replicate, List.length_cons] at hlens
          simp at hlens
          omega
        match j with
        | 0 => simp [hrest.symm]
        | 1 => simp [hrest.symm]
        | j + 2 => simpa [List.replicate_succ] using hlong
  · have hnot : ¬ [slash, slash] <:+ root := by
      rintro ⟨v, rfl⟩
      exact hlast (by simp)
    rw [joinBase_of_getLast_ne hlast, stripTrailingSlashes_eq_self hlast,
      List.append_cancel_left_eq] at hj
    have hone := congrArg List.length hj
    rw [List.length_replicate] at hone
    exact iff_of_true (by rw [← hone]; rfl) (Or.inr hnot)

/-- Making a path below the root relative: the check refuses what more than one
slash is left of. -/
theorem getRelativePath_join {root rest : Bytes} {j : Nat} (hne : rest ≠ [])
    (hhead : rest.head? ≠ some slash)
    (hj : joinBase root ++ [slash] = stripTrailingSlashes root ++ List.replicate j slash) :
    getRelativePath root (joinBase root ++ slash :: rest) =
      if j ≤ 1 ∧ rest.length < maxPathLen ∧ sanitizeRelPath rest = .ok then some rest else none := by
  have hpath : joinBase root ++ slash :: rest =
      stripTrailingSlashes root ++ (List.replicate j slash ++ rest) := by
    rw [← List.append_assoc, ← hj]
    simp
  have hrest : ∀ r : Bytes, r ≠ [] → (if r = [] then [dot] else r) = r :=
    fun r hr => if_neg hr
  have hcheck : (if rest.length ≥ maxPathLen then none
      else if sanitizeRelPath rest = .err then none else some rest) =
        if rest.length < maxPathLen ∧ sanitizeRelPath rest = .ok then some rest else none := by
    by_cases hlen : rest.length < maxPathLen
    · cases hsane : sanitizeRelPath rest <;> simp [hlen]
    · simp [hlen, Nat.le_of_not_lt hlen]
  unfold getRelativePath
  simp only [hpath, List.drop_left]
  rw [if_pos (by rw [List.isPrefixOf_iff_prefix]; exact List.prefix_append _ _)]
  match j with
  | 0 =>
      rw [List.replicate_zero, List.nil_append, if_neg hhead, hrest rest hne, hcheck]
      simp
  | 1 =>
      have htail : (if (List.replicate 1 slash ++ rest).head? = some slash then
          (List.replicate 1 slash ++ rest).tail else List.replicate 1 slash ++ rest) = rest :=
        if_pos rfl
      rw [htail, hrest rest hne, hcheck]
      simp
  | j + 2 =>
      have htail : (if (List.replicate (j + 2) slash ++ rest).head? = some slash then
          (List.replicate (j + 2) slash ++ rest).tail else List.replicate (j + 2) slash ++ rest) =
          slash :: (List.replicate j slash ++ rest) := if_pos rfl
      have hrefused : sanitizeRelPath (slash :: (List.replicate j slash ++ rest)) = .err := by
        simp [sanitizeRelPath]
      rw [htail, hrest _ (by simp), if_pos hrefused, ite_self, if_neg (by omega)]

/-- Making a path below the root relative gives back what was put after the root. -/
theorem getRelativePath_below {root rest rel : Bytes} (hne : rest ≠ [])
    (hhead : rest.head? ≠ some slash)
    (h : getRelativePath root (joinBase root ++ slash :: rest) = some rel) :
    rel = rest ∧ sanitizeRelPath rest = .ok ∧ rest.length < maxPathLen := by
  obtain ⟨j, hj⟩ := exists_slashes root
  rw [getRelativePath_join hne hhead hj, Option.ite_none_right_eq_some] at h
  obtain ⟨⟨-, hlen, hsane⟩, heq⟩ := h
  exact ⟨(Option.some.inj heq).symm, hsane, hlen⟩

/-! ## Joining name by name -/

/-- A name that `readdir` gives, `.` and `..` aside. -/
structure EntryName (name : Bytes) : Prop where
  component : Component name
  ne_dot : name ≠ [dot]

/-- Joining names one by one spells them out below the root. -/
theorem foldlM_joinPath {root path : Bytes} {names : List Bytes}
    (hnames : ∀ name ∈ names, EntryName name) (hne : names ≠ [])
    (h : names.foldlM joinPath root = some path) :
    path = joinBase root ++ slash :: [slash].intercalate names ∧ path.length < maxPathLen := by
  induction names generalizing root with
  | nil => exact absurd rfl hne
  | cons name rest ih =>
      have hname := (hnames name List.mem_cons_self).component
      rw [List.foldlM_cons] at h
      obtain ⟨dir, hdir, hrest⟩ := Option.bind_eq_some_iff.mp h
      obtain ⟨rfl, hlen⟩ := (joinPath_eq_some hname.head_ne).mp hdir
      cases rest with
      | nil =>
          cases hrest
          exact ⟨by simp, hlen⟩
      | cons second rest =>
          obtain ⟨hpath, hfits⟩ :=
            ih (fun n hn => hnames n (List.mem_cons_of_mem _ hn)) (by simp) hrest
          rw [joinBase_join hname] at hpath
          refine ⟨?_, hfits⟩
          rw [hpath, List.intercalate_cons_cons]
          simp

/-- Joining and making relative cancel exactly for the roots that do not end with
two slashes, and for the root `//`. -/
theorem getRelativePath_foldlM_joinPath_iff {root path : Bytes} {names : List Bytes}
    (hroot : root ≠ []) (hnames : ∀ name ∈ names, EntryName name) (hne : names ≠ [])
    (hsane : sanitizeRelPath ([slash].intercalate names) = .ok)
    (hjoin : names.foldlM joinPath root = some path) :
    getRelativePath root path = some ([slash].intercalate names) ↔
      root = [slash, slash] ∨ ¬ [slash, slash] <:+ root := by
  obtain ⟨rfl, hlen⟩ := foldlM_joinPath hnames hne hjoin
  obtain ⟨j, hj⟩ := exists_slashes root
  have hrel := relative_of_sanitizeRelPath hsane
  have hshort : ([slash].intercalate names).length < maxPathLen := by
    rw [List.length_append, List.length_cons] at hlen
    omega
  rw [getRelativePath_join hrel.ne_nil hrel.head_ne hj, ← slashes_le_one_iff hroot hj]
  simp [hshort, hsane]

/-- With two slashes after the root, `a//x` is not recognised as `x`. -/
theorem getRelativePath_loses_root :
    [ascii "x"].foldlM joinPath (ascii "a//") = some (ascii "a//x") ∧
      sanitizeRelPath (ascii "x") = .ok ∧ getRelativePath (ascii "a//") (ascii "a//x") = none := by
  refine ⟨?_, ?_, ?_⟩ <;> decide +kernel

theorem getRelativePath_foldlM_joinPath_root :
    getRelativePath (ascii "a/") (ascii "a/x") = some ([slash].intercalate [ascii "x"]) ↔
      ascii "a/" = [slash, slash] ∨ ¬ [slash, slash] <:+ ascii "a/" :=
  getRelativePath_foldlM_joinPath_iff (by decide +kernel)
    (by
      intro name hname
      rw [List.mem_singleton] at hname
      subst hname
      exact ⟨⟨by decide +kernel, by decide +kernel, by decide +kernel⟩, by decide +kernel⟩)
    (by decide +kernel) (by decide +kernel) (by decide +kernel)

end MiniSync
