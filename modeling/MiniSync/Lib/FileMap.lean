import MiniSync.Lib.FileTree

/-!
# Files as a map

The files of a tree as a partial map from names to contents, without the directories: what
removing and moving make of it, and how they look from below one node.
-/

namespace MiniSync

/-- Names of files, and their contents. -/
abbrev FileMap (ν φ : Type) := List ν → Option φ

namespace FileMap

variable {ν φ : Type} [DecidableEq ν] {m : FileMap ν φ} {base p q r : List ν}

/-- Without `q` and what is below it. -/
def remove (q : List ν) (m : FileMap ν φ) : FileMap ν φ := fun r => if q <+: r then none else m r

/-- What is at `p` and below it, at `q`. -/
def move (p q : List ν) (m : FileMap ν φ) : FileMap ν φ := fun r =>
  if q <+: r then m (p ++ r.drop q.length) else remove p m r

/-- What is below `base`. -/
def below (base : List ν) (m : FileMap ν φ) : FileMap ν φ := fun r => m (base ++ r)

/-- To move something to where it is changes nothing. -/
theorem move_self : move p p m = m := by
  funext r
  unfold move remove
  split_ifs with h
  · obtain ⟨s, rfl⟩ := h
    rw [List.drop_left]
  · rfl

/-- To remove what is not there changes nothing. -/
theorem remove_of_none (h : ∀ r, m (q ++ r) = none) : remove q m = m := by
  funext r
  unfold remove
  split_ifs with hq
  · obtain ⟨s, rfl⟩ := hq
    exact (h s).symm
  · rfl

/-- A move within `base`. -/
theorem below_move : below base (move (base ++ p) (base ++ q) m) = move p q (below base m) := by
  funext r
  simp only [below, move, remove, List.prefix_append_right_inj]
  split_ifs with hq
  · obtain ⟨s, rfl⟩ := hq
    rw [List.drop_left, ← List.append_assoc, List.drop_left, List.append_assoc]
  · rfl
  · rfl

/-- A move out of `base`. -/
theorem below_move_out (hq : ∀ r, ¬ q <+: base ++ r) :
    below base (move (base ++ p) q m) = remove p (below base m) := by
  funext r
  simp only [below, move, remove, hq r, if_false, List.prefix_append_right_inj]

end FileMap

namespace FileTree

variable {ν φ : Type} [DecidableEq ν] {t : FileTree ν φ} {src dst : List ν}

theorem content_move_eq (hsd : ¬ src <+: dst) (hds : ¬ dst <+: src) :
    (t.move src dst).content = FileMap.move src dst t.content := by
  funext q
  unfold FileMap.move FileMap.remove
  by_cases hdst : dst <+: q
  · obtain ⟨r, rfl⟩ := hdst
    rw [if_pos (List.prefix_append dst r), content_move hsd hds, List.drop_left]
  · rw [if_neg hdst]
    split_ifs with hsrc
    · unfold content
      rw [lookup_move hsd hds, if_neg hdst, if_pos hsrc]
    · exact content_move_apart hsd hds hsrc hdst

/-- A rename, seen as one of the files. -/
theorem content_rename [DecidableEq φ] {t' : FileTree ν φ} {dirOnly : Bool}
    (h : t.rename src dst dirOnly = .ok t') : t'.content = FileMap.move src dst t.content := by
  rcases rename_eq_ok h with ⟨rfl, rfl⟩ | ⟨hsd, hds, rfl⟩
  · exact FileMap.move_self.symm
  · exact content_move_eq hsd hds

end FileTree

end MiniSync
