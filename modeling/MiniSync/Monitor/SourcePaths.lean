import MiniSync.Monitor.Poll
import MiniSync.Paths.Relative

/-!
# The paths of a source

Every path below the root is the root, a slash, and its relative path; a scan
visits no path twice.
-/

namespace MiniSync.Monitor

/-! ## What a scan visits -/

variable {src : StillSource} {root dir path : Bytes} {names : List Bytes}
  {enters : Bytes → Bool}

theorem getLast_ne_of_notMem {name : Bytes} (h : slash ∉ name) : name.getLast? ≠ some slash :=
  fun hlast => h (List.mem_of_getLast? hlast)

theorem getLast_append_ne {init rest : Bytes} (hne : rest ≠ [])
    (hlast : rest.getLast? ≠ some slash) : (init ++ rest).getLast? ≠ some slash := by
  rw [List.getLast?_append_of_ne_nil _ hne]
  exact hlast

/-- A path below `dir`: a first name, and what may follow it. -/
structure Below (dir path name : Bytes) : Prop where
  name_ne_nil : name ≠ []
  no_slash : slash ∉ name
  spelled : ∃ rest, path = joinBase dir ++ slash :: (name ++ rest) ∧
    (rest = [] ∨ rest.head? = some slash) ∧ (name ++ rest).getLast? ≠ some slash ∧
      nul ∉ name ++ rest

/-- The entries of a directory, one name below it. -/
theorem StillSource.below_of_mem (hopen : src.opendir dir = some names)
    (h : path ∈ entryPaths dir names) :
    ∃ name ∈ names, path = joinBase dir ++ slash :: name ∧ Below dir path name := by
  obtain ⟨name, hname, -, -, hjoin⟩ := mem_entryPaths.mp h
  obtain ⟨rfl, -⟩ := (joinPath_eq_some (src.head_ne hopen hname)).mp hjoin
  have hslash := src.no_slash hopen name hname
  refine ⟨name, hname, rfl, src.ne_nil hopen name hname, hslash, [], ?_, Or.inl rfl, ?_, ?_⟩
  · rw [List.append_nil]
  · rw [List.append_nil]
    exact getLast_ne_of_notMem hslash
  · rw [List.append_nil]
    exact src.noNul hopen name hname

theorem Below.joinBase_eq {name : Bytes} (h : Below dir path name) : joinBase path = path := by
  obtain ⟨rest, rfl, -, hlast, -⟩ := h.spelled
  apply joinBase_of_getLast_ne
  rw [List.append_cons]
  exact getLast_append_ne (by simp [h.name_ne_nil]) hlast

/-- A path below an entry is below the directory, under the same first name. -/
theorem Below.trans {name name' below : Bytes} (h : Below dir path name)
    (h' : Below path below name') : Below dir below name := by
  obtain ⟨rest, hpath, hrest, -, hnul⟩ := h.spelled
  obtain ⟨rest', hbelow, -, hlast', hnul'⟩ := h'.spelled
  rw [h.joinBase_eq, hpath] at hbelow
  refine ⟨h.name_ne_nil, h.no_slash, rest ++ slash :: (name' ++ rest'), ?_, ?_, ?_, ?_⟩
  · rw [hbelow]
    simp
  · rcases hrest with rfl | hrest
    · exact Or.inr rfl
    · right
      rw [List.head?_append, hrest]
      rfl
  · have hcat : name ++ (rest ++ slash :: (name' ++ rest')) =
        (name ++ rest ++ [slash]) ++ (name' ++ rest') := by simp
    rw [hcat]
    exact getLast_append_ne (by simp [h'.name_ne_nil]) hlast'
  · have hslash : nul ≠ slash := by decide
    simp only [List.mem_append, List.mem_cons, not_or] at hnul hnul' ⊢
    exact ⟨hnul.1, hnul.2, hslash, hnul'.1, hnul'.2⟩

/-- Everything a scan lists lies below the directory it starts in. -/
theorem StillSource.below_of_visited {depth : Nat} (h : path ∈ src.visited enters depth dir) :
    ∃ name, Below dir path name := by
  induction depth generalizing dir with
  | zero => simp [visited] at h
  | succ depth ih =>
      rw [visited] at h
      split at h
      · simp at h
      · rename_i names hopen
        obtain ⟨entry, hentry, hmem⟩ := List.mem_flatMap.mp h
        obtain ⟨name, -, -, hbelow⟩ := src.below_of_mem hopen hentry
        rcases List.mem_cons.mp hmem with rfl | hmem
        · exact ⟨name, hbelow⟩
        · split_ifs at hmem
          · obtain ⟨name', hbelow'⟩ := ih hmem
            exact ⟨name, hbelow.trans hbelow'⟩
          · simp at hmem

theorem Below.name_eq {name name' : Bytes} (h : Below dir path name) (h' : Below dir path name') :
    name = name' := by
  obtain ⟨rest, hpath, hrest, -, -⟩ := h.spelled
  obtain ⟨rest', hpath', hrest', -, -⟩ := h'.spelled
  have heq : name ++ rest = name' ++ rest' := by
    rw [hpath] at hpath'
    simpa using List.append_cancel_left hpath'
  -- The first name ends at the first slash.
  have htake : ∀ n r : Bytes, slash ∉ n → (r = [] ∨ r.head? = some slash) →
      (n ++ r).takeWhile (· ≠ slash) = n := by
    intro n r hn hr
    have hall : ∀ b ∈ n, decide (b ≠ slash) = true := by
      intro b hb
      have hbs : b ≠ slash := fun hbs => hn (hbs ▸ hb)
      simpa using hbs
    rw [List.takeWhile_append_of_pos hall]
    rcases hr with rfl | hr
    · simp
    · obtain ⟨u, rfl⟩ := List.head?_eq_some_iff.mp hr
      simp
  rw [← htake name rest h.no_slash hrest, heq, htake name' rest' h'.no_slash hrest']

theorem Below.length_lt {name : Bytes} (h : Below dir path name) : dir.length < path.length := by
  obtain ⟨rest, rfl, -, -, -⟩ := h.spelled
  have hpos : 0 < name.length := List.length_pos_iff.mpr h.name_ne_nil
  have hbase : dir.length ≤ (joinBase dir).length + 1 := by
    unfold joinBase
    split_ifs
    · rw [List.length_dropLast]
      omega
    · omega
  simp only [List.length_append, List.length_cons]
  omega

theorem nodup_entryPaths (hopen : src.opendir dir = some names) : (entryPaths dir names).Nodup := by
  rw [List.nodup_iff_pairwise_ne]
  unfold entryPaths
  rw [List.pairwise_filterMap]
  refine (src.nodup hopen).imp_of_mem ?_
  intro name name' hname hname' hne path hpath path' hpath' heq
  subst heq
  split_ifs at hpath hpath' with hdots hdots'
  obtain ⟨hjoin, -⟩ := (joinPath_eq_some (src.head_ne hopen hname)).mp hpath
  obtain ⟨hjoin', -⟩ := (joinPath_eq_some (src.head_ne hopen hname')).mp hpath'
  rw [hjoin, List.append_cancel_left_eq, List.cons.injEq] at hjoin'
  exact hne hjoin'.2

/-- No path is visited twice. -/
theorem StillSource.nodup_visited {depth : Nat} : (src.visited enters depth dir).Nodup := by
  induction depth generalizing dir with
  | zero => exact List.nodup_nil
  | succ depth ih =>
      rw [visited]
      split
      · exact List.nodup_nil
      rename_i names hopen
      -- What is listed for an entry is the entry itself or lies below it.
      have hunder : ∀ entry ∈ entryPaths dir names, ∀ path ∈ (entry ::
          if enters entry then src.visited enters depth entry else []),
          path = entry ∨ ∃ name, Below entry path name := by
        intro entry _ path hpath
        rcases List.mem_cons.mp hpath with rfl | hpath
        · exact Or.inl rfl
        · split_ifs at hpath
          · exact Or.inr (src.below_of_visited hpath)
          · simp at hpath
      rw [List.nodup_flatMap]
      constructor
      · intro entry hentry
        rw [List.nodup_cons]
        constructor
        · intro hself
          split_ifs at hself
          · obtain ⟨name, hbelow⟩ := src.below_of_visited hself
            exact absurd hbelow.length_lt (Nat.lt_irrefl _)
          · simp at hself
        · split_ifs
          · exact ih
          · exact List.nodup_nil
      · refine (nodup_entryPaths hopen).imp_of_mem ?_
        intro entry entry' hentry hentry' hne path hpath hpath'
        obtain ⟨name, -, heq, hname⟩ := src.below_of_mem hopen hentry
        obtain ⟨name', -, heq', hname'⟩ := src.below_of_mem hopen hentry'
        have hfirst : Below dir path name := by
          rcases hunder entry hentry path hpath with rfl | ⟨n, hn⟩
          · exact hname
          · exact hname.trans hn
        have hfirst' : Below dir path name' := by
          rcases hunder entry' hentry' path hpath' with rfl | ⟨n, hn⟩
          · exact hname'
          · exact hname'.trans hn
        exact hne (by rw [heq, heq', hfirst.name_eq hfirst'])

end MiniSync.Monitor
