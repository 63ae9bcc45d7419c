import Mathlib.Algebra.BigOperators.Group.Finset.Basic
import Mathlib.Algebra.BigOperators.Group.Finset.Piecewise
import Mathlib.Data.Fintype.Basic

/-!
# Counts over a family

What changes in a sum, or in a count, over all members of a family when one member
changes.
-/

namespace MiniSync

variable {ι β : Type} [Fintype ι]

theorem sum_update_add [DecidableEq ι] (f : ι → Nat) (i : ι) (b : Nat) :
    ∑ j, Function.update f i b j + f i = ∑ j, f j + b := by
  rw [Finset.sum_update_of_mem (Finset.mem_univ i)]
  have hsplit := Finset.sum_sdiff (f := f) (Finset.subset_univ {i})
  rw [Finset.sum_singleton] at hsplit
  omega

variable [DecidableEq β]

/-- How many members are `b`. -/
def countOf (f : ι → β) (b : β) : Nat := ∑ j, if f j = b then 1 else 0

theorem exists_of_countOf_pos {f : ι → β} {b : β} (h : 0 < countOf f b) : ∃ j, f j = b := by
  by_contra hnone
  have hzero : countOf f b = 0 :=
    Finset.sum_eq_zero fun j _ => if_neg fun hj => hnone ⟨j, hj⟩
  rw [hzero] at h
  exact absurd h (lt_irrefl 0)

theorem countOf_update [DecidableEq ι] (f : ι → β) (i : ι) (b c : β) :
    countOf (Function.update f i c) b + (if f i = b then 1 else 0) =
      countOf f b + if c = b then 1 else 0 := by
  rw [countOf, countOf, ← sum_update_add (fun j => if f j = b then 1 else 0) i]
  congr 1
  refine Finset.sum_congr rfl fun j _ => ?_
  by_cases hj : j = i
  · rw [hj, Function.update_self, Function.update_self]
  · rw [Function.update_of_ne hj, Function.update_of_ne hj]

end MiniSync
