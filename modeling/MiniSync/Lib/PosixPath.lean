import Mathlib.Data.List.Basic

/-!
# Path names

Reading a slash-separated string as a walk through directories: the components
between the slashes, where empty ones and `.` stay and `..` goes up.  The
alphabet and its two special letters are parameters.
-/

namespace MiniSync.PosixPath

variable {α : Type} [DecidableEq α] (sep dot : α)

/-- One component of a walk. -/
def step (at_ : List (List α)) (piece : List α) : List (List α) :=
  if piece = [] ∨ piece = [dot] then at_
  else if piece = [dot, dot] then at_.dropLast
  else at_ ++ [piece]

/-- Where the string leads from a directory. -/
def walk (from_ : List (List α)) (s : List α) : List (List α) :=
  (s.splitOn sep).foldl (step dot) from_

/-- The pieces that name something. -/
def names (s : List α) : List (List α) :=
  (s.splitOn sep).filter fun piece => piece ≠ [] ∧ piece ≠ [dot]

/-- The last nonempty piece, `[]` where there is none. -/
def lastName (s : List α) : List α :=
  ((s.splitOn sep).filter fun piece => piece ≠ []).getLastD []

/-- The string can only name a directory: it ends with a separator, `.` or `..`. -/
def mustBeDir (s : List α) : Bool :=
  (s.splitOn sep).getLastD [] ∈ [[], [dot], [dot, dot]]

/-- The last name is missing, `.` or `..`. -/
def lastIsDot (s : List α) : Bool :=
  lastName sep s ∈ [[], [dot], [dot, dot]]

/-! ## Splitting -/

variable {sep dot} {s t : List α} {from_ : List (List α)}

/-- A string is a piece without separators, or ends with one after a separator. -/
theorem exists_last_piece (sep : α) (s : List α) :
    ∃ last, sep ∉ last ∧ (s = last ∨ ∃ u, s = u ++ sep :: last) := by
  induction s with
  | nil => exact ⟨[], by simp, Or.inl rfl⟩
  | cons c cs ih =>
      obtain ⟨last, hlast, rfl | ⟨u, rfl⟩⟩ := ih
      · by_cases hc : c = sep
        · exact ⟨cs, hlast, Or.inr ⟨[], by rw [hc]; rfl⟩⟩
        · refine ⟨c :: cs, ?_, Or.inl rfl⟩
          rw [List.mem_cons, not_or]
          exact ⟨fun h => hc h.symm, hlast⟩
      · exact ⟨last, hlast, Or.inr ⟨c :: u, rfl⟩⟩

omit [DecidableEq α] in
/-- A piece of a joined list stands between separators or the ends. -/
theorem exists_of_mem_intercalate {piece : List α} {pieces : List (List α)}
    (h : piece ∈ pieces) :
    ∃ pre post, [sep].intercalate pieces = pre ++ piece ++ post ∧
      (pre = [] ∨ ∃ u, pre = u ++ [sep]) ∧ (post = [] ∨ ∃ v, post = sep :: v) := by
  induction pieces with
  | nil => cases h
  | cons first rest ih =>
      cases rest with
      | nil =>
          have hpiece : piece = first := by simpa using h
          exact ⟨[], [], by simp [hpiece], Or.inl rfl, Or.inl rfl⟩
      | cons second rest =>
          rw [List.intercalate_cons_cons]
          rcases List.mem_cons.mp h with rfl | htail
          · exact ⟨[], sep :: [sep].intercalate (second :: rest), by simp, Or.inl rfl,
              Or.inr ⟨_, rfl⟩⟩
          · obtain ⟨pre, post, heq, hpre, hpost⟩ := ih htail
            refine ⟨first ++ sep :: pre, post, by simp [heq], Or.inr ?_, hpost⟩
            rcases hpre with rfl | ⟨u, rfl⟩
            · exact ⟨first, rfl⟩
            · exact ⟨first ++ sep :: u, by simp⟩

theorem exists_of_mem_splitOn {piece : List α} (h : piece ∈ s.splitOn sep) :
    ∃ pre post, s = pre ++ piece ++ post ∧
      (pre = [] ∨ ∃ u, pre = u ++ [sep]) ∧ (post = [] ∨ ∃ v, post = sep :: v) := by
  obtain ⟨pre, post, heq, hpre, hpost⟩ := @exists_of_mem_intercalate _ sep _ _ h
  rw [List.intercalate_splitOn] at heq
  exact ⟨pre, post, heq, hpre, hpost⟩

/-! ## Walking -/

theorem walk_append_sep :
    walk sep dot from_ (s ++ sep :: t) = walk sep dot (walk sep dot from_ s) t := by
  unfold walk
  rw [List.splitOn_append_cons_self, List.foldl_append]

@[simp] theorem walk_nil : walk sep dot from_ [] = from_ := by
  simp [walk, step]

theorem walk_cons_sep : walk sep dot from_ (sep :: s) = walk sep dot from_ s := by
  have h : walk sep dot from_ ([] ++ sep :: s) = walk sep dot (walk sep dot from_ []) s :=
    walk_append_sep
  rwa [walk_nil] at h

theorem walk_append_sep_end : walk sep dot from_ (s ++ [sep]) = walk sep dot from_ s := by
  rw [walk_append_sep, walk_nil]

theorem names_append_sep : names sep dot (s ++ sep :: t) = names sep dot s ++ names sep dot t := by
  unfold names
  rw [List.splitOn_append_cons_self, List.filter_append]

/-- Without `..`, a walk goes down by its names. -/
theorem walk_eq_append_names (h : [dot, dot] ∉ s.splitOn sep) :
    walk sep dot from_ s = from_ ++ names sep dot s := by
  unfold walk names
  generalize s.splitOn sep = pieces at h
  induction pieces generalizing from_ with
  | nil => simp
  | cons piece pieces ih =>
      rw [List.mem_cons, not_or] at h
      rw [List.foldl_cons, ih h.2]
      by_cases hskip : piece = [] ∨ piece = [dot]
      · have hout : ¬ (piece ≠ [] ∧ piece ≠ [dot]) := by tauto
        rw [List.filter_cons_of_neg (by simpa using hout), step, if_pos hskip]
      · have hin : piece ≠ [] ∧ piece ≠ [dot] := by tauto
        rw [List.filter_cons_of_pos (by simpa using hin), step, if_neg hskip,
          if_neg (fun heq => h.1 heq.symm), List.append_assoc]
        rfl

/-! ## Appending to the last piece -/

/-- A suffix without separators lengthens the last piece and leaves the others. -/
theorem splitOn_append_of_notMem {suffix : List α} (hsuffix : sep ∉ suffix) :
    ∃ init last, sep ∉ last ∧ s.splitOn sep = init ++ [last] ∧
      (s ++ suffix).splitOn sep = init ++ [last ++ suffix] := by
  obtain ⟨last, hlast, rfl | ⟨u, rfl⟩⟩ := exists_last_piece sep s
  · refine ⟨[], s, hlast, List.splitOn_eq_singleton hlast, List.splitOn_eq_singleton ?_⟩
    rw [List.mem_append, not_or]
    exact ⟨hlast, hsuffix⟩
  · refine ⟨u.splitOn sep, last, hlast, ?_, ?_⟩
    · rw [List.splitOn_append_cons_self, List.splitOn_eq_singleton hlast]
    · have hnew : sep ∉ last ++ suffix := by
        rw [List.mem_append, not_or]
        exact ⟨hlast, hsuffix⟩
      rw [List.append_assoc, List.cons_append, List.splitOn_append_cons_self, List.splitOn_eq_singleton hnew]

/-- The names of a string with a long suffix: one more at the end, in place of
the last piece where that piece was a name. -/
theorem names_append_suffix {suffix : List α} (hsuffix : sep ∉ suffix) (hlong : 1 < suffix.length) :
    ∃ init last, names sep dot (s ++ suffix) = init ++ [last ++ suffix] ∧
      (names sep dot s = init ∨ names sep dot s = init ++ [last]) := by
  obtain ⟨init, last, -, hs, hsuf⟩ := splitOn_append_of_notMem (s := s) hsuffix
  refine ⟨init.filter (fun piece => piece ≠ [] ∧ piece ≠ [dot]), last, ?_, ?_⟩
  · unfold names
    rw [hsuf, List.filter_append, List.filter_cons_of_pos, List.filter_nil]
    have hne : last ++ suffix ≠ [dot] := by
      intro h
      have := congrArg List.length h
      rw [List.length_append, List.length_singleton] at this
      omega
    have hnil : last ++ suffix ≠ [] := by
      intro h
      have := congrArg List.length h
      rw [List.length_append, List.length_nil] at this
      omega
    exact decide_eq_true ⟨hnil, hne⟩
  · unfold names
    rw [hs, List.filter_append]
    by_cases hlast : last ≠ [] ∧ last ≠ [dot]
    · right
      rw [List.filter_cons_of_pos (by simpa using hlast), List.filter_nil]
    · left
      rw [List.filter_cons_of_neg (by simpa using hlast), List.filter_nil, List.append_nil]

theorem names_append_suffix_ne {suffix : List α} (hsuffix : sep ∉ suffix)
    (hlong : 1 < suffix.length) : names sep dot (s ++ suffix) ≠ names sep dot s := by
  obtain ⟨init, last, hnew, hold | hold⟩ :=
    @names_append_suffix _ _ sep dot s suffix hsuffix hlong
  · rw [hnew, hold]
    simp
  · rw [hnew, hold]
    intro h
    have hlast : last ++ suffix = last := by simpa using h
    have hlen := congrArg List.length hlast
    rw [List.length_append] at hlen
    omega

/-- A long suffix leads to another place. -/
theorem walk_append_suffix_ne {suffix : List α} (hsuffix : sep ∉ suffix)
    (hlong : 2 < suffix.length) : walk sep dot from_ (s ++ suffix) ≠ walk sep dot from_ s := by
  obtain ⟨init, last, -, hs, hsuf⟩ := splitOn_append_of_notMem (s := s) hsuffix
  have hlen : 2 < (last ++ suffix).length := by
    rw [List.length_append]
    omega
  have hskip : ¬ (last ++ suffix = [] ∨ last ++ suffix = [dot]) := by
    rintro (h | h) <;> simp [h] at hlen
  have hup : ¬ last ++ suffix = [dot, dot] := by
    intro h
    simp [h] at hlen
  unfold walk
  rw [hs, hsuf, List.foldl_append, List.foldl_append]
  generalize init.foldl (step dot) from_ = at_
  simp only [List.foldl_cons, List.foldl_nil]
  rw [step, if_neg hskip, if_neg hup]
  intro h
  have hlens := congrArg List.length h
  rw [List.length_append, List.length_singleton] at hlens
  unfold step at h hlens
  split_ifs at h hlens with h1 h2
  · omega
  · rw [List.length_dropLast] at hlens
    omega
  · have hlast : suffix = [] := by simpa using h
    rw [hlast] at hlong
    simp at hlong

/-! ## Substrings across a separator -/

/-- A string is a piece without separators, or starts with one before a separator. -/
theorem exists_first_piece (sep : α) (s : List α) :
    ∃ first, sep ∉ first ∧ (s = first ∨ ∃ v, s = first ++ sep :: v) := by
  induction s with
  | nil => exact ⟨[], by simp, Or.inl rfl⟩
  | cons c cs ih =>
      by_cases hc : c = sep
      · exact ⟨[], by simp, Or.inr ⟨cs, by rw [hc]; rfl⟩⟩
      obtain ⟨first, hfirst, hcase⟩ := ih
      refine ⟨c :: first, ?_, ?_⟩
      · rw [List.mem_cons, not_or]
        exact ⟨fun h => hc h.symm, hfirst⟩
      · rcases hcase with rfl | ⟨v, rfl⟩
        · exact Or.inl rfl
        · exact Or.inr ⟨v, rfl⟩

/-- A string without separators at the front is the start of the first piece. -/
theorem exists_splitOn_of_isPrefix {start : List α} (hstart : sep ∉ start) :
    ∃ first rest, (start ++ s).splitOn sep = first :: rest ∧ start <+: first := by
  obtain ⟨first, hfirst, hcase⟩ := exists_first_piece sep s
  have hpiece : sep ∉ start ++ first := by
    rw [List.mem_append, not_or]
    exact ⟨hstart, hfirst⟩
  rcases hcase with rfl | ⟨v, rfl⟩
  · exact ⟨start ++ s, [], List.splitOn_eq_singleton hpiece, List.prefix_append start s⟩
  · refine ⟨start ++ first, v.splitOn sep, ?_, List.prefix_append start first⟩
    rw [← List.append_assoc, List.splitOn_append_cons_self, List.splitOn_eq_singleton hpiece]
    rfl

/-- A separator followed by `start` occurs where a piece after the first one
begins with `start`. -/
theorem cons_infix_iff {start : List α} (hstart : sep ∉ start) :
    sep :: start <:+: s ↔ ∃ piece ∈ (s.splitOn sep).tail, start <+: piece := by
  constructor
  · rintro ⟨u, v, rfl⟩
    obtain ⟨first, rest, hsplit, hprefix⟩ := exists_splitOn_of_isPrefix (s := v) hstart
    refine ⟨first, ?_, hprefix⟩
    rw [List.append_assoc, List.cons_append, List.splitOn_append_cons_self, hsplit,
      List.tail_append_of_ne_nil (List.splitOn_ne_nil sep u), List.mem_append]
    exact Or.inr List.mem_cons_self
  · rintro ⟨piece, hmem, w, rfl⟩
    obtain ⟨first, hfirst, rfl | ⟨v, rfl⟩⟩ := exists_first_piece sep s
    · rw [List.splitOn_eq_singleton hfirst] at hmem
      cases hmem
    · rw [List.splitOn_append_cons_self, List.splitOn_eq_singleton hfirst, List.singleton_append,
        List.tail_cons] at hmem
      obtain ⟨pre, post, rfl, rfl | ⟨u, rfl⟩, -⟩ := exists_of_mem_splitOn hmem
      · exact ⟨first, w ++ post, by simp⟩
      · exact ⟨first ++ sep :: u, w ++ post, by simp⟩

/-- `ending` followed by a separator occurs where a piece before the last one
ends with `ending`. -/
theorem append_infix_iff {ending : List α} (hending : sep ∉ ending) :
    ending ++ [sep] <:+: s ↔ ∃ piece ∈ (s.splitOn sep).dropLast, ending <:+ piece := by
  constructor
  · rintro ⟨u, v, rfl⟩
    obtain ⟨init, last, -, -, hsplit⟩ := splitOn_append_of_notMem (s := u) hending
    refine ⟨last ++ ending, ?_, List.suffix_append last ending⟩
    rw [← List.append_assoc, List.append_assoc _ [sep], List.singleton_append,
      List.splitOn_append_cons_self, List.dropLast_append_of_ne_nil (List.splitOn_ne_nil sep v),
      hsplit, List.mem_append, List.mem_append]
    exact Or.inl (Or.inr List.mem_cons_self)
  · rintro ⟨piece, hmem, w, rfl⟩
    obtain ⟨last, hlast, rfl | ⟨u, rfl⟩⟩ := exists_last_piece sep s
    · rw [List.splitOn_eq_singleton hlast] at hmem
      cases hmem
    · rw [List.splitOn_append_cons_self, List.splitOn_eq_singleton hlast,
        List.dropLast_concat] at hmem
      obtain ⟨pre, post, rfl, -, rfl | ⟨v, rfl⟩⟩ := exists_of_mem_splitOn hmem
      · exact ⟨pre ++ w, last, by simp⟩
      · exact ⟨pre ++ w, v ++ sep :: last, by simp⟩

end MiniSync.PosixPath
