import Mathlib.Order.Basic
import MiniSync.Lib.Prog

/-!
# More fuel

A program that is given more fuel goes the way of the one with less, and further.
So a run that returns returns the same with any more fuel, and what a program does
once it is given enough fuel is well defined (`Ends`).

Two kernels can then be compared between which the program needs different amounts
of fuel (`Follows`).
-/

namespace MiniSync.Prog

variable {C : Type} {R : C → Type} {α β σ τ : Type}

/-- `q` goes the way of `p` until `p` has used up its fuel. -/
def Le : Prog C R α → Prog C R α → Prop
  | ret a, q => q = ret a
  | call c next, q => ∃ next', q = call c next' ∧ ∀ r, (next r).Le (next' r)
  | spin, _ => True

theorem Le.refl (p : Prog C R α) : p.Le p := by
  induction p with
  | ret a => rfl
  | call c next ih => exact ⟨next, rfl, ih⟩
  | spin => trivial

theorem Le.bind {p q : Prog C R α} {f g : α → Prog C R β} (h : p.Le q)
    (hf : ∀ a, (f a).Le (g a)) : (p >>= f).Le (q >>= g) := by
  induction p generalizing q with
  | ret a =>
      cases h
      exact hf a
  | call c next ih =>
      obtain ⟨next', rfl, hnext⟩ := h
      exact ⟨fun r => next' r >>= g, rfl, fun r => ih r (hnext r)⟩
  | spin => trivial

theorem Le.op_bind {c : C} {f g : R c → Prog C R β} (hf : ∀ r, (f r).Le (g r)) :
    (op c >>= f).Le (op c >>= g) := ⟨g, rfl, hf⟩

variable {kernel : (c : C) → σ → R c × σ} {other : (c : C) → τ → R c × τ}

/-- What has returned returns the same. -/
theorem Le.run {p q : Prog C R α} {s s' : σ} {a : α} (h : p.Le q)
    (hrun : p.run kernel s = some (a, s')) : q.run kernel s = some (a, s') := by
  induction p generalizing q s with
  | ret b =>
      cases h
      exact hrun
  | call c next ih =>
      obtain ⟨next', rfl, hnext⟩ := h
      rw [run_call] at hrun ⊢
      exact ih _ (hnext _) hrun
  | spin => cases hrun

/-- So does what may be executed. -/
theorem Le.exec {K : (c : C) → σ → R c → σ → Prop} {p q : Prog C R α} {s s' : σ} {a : α}
    (h : p.Le q) (hexec : Exec K p s a s') : Exec K q s a s' := by
  induction hexec generalizing q with
  | ret a s =>
      cases h
      exact .ret a s
  | call hK _ ih =>
      obtain ⟨next', rfl, hnext⟩ := h
      exact .call hK (ih (hnext _))

/-! ## Programs that are given fuel -/

/-- More fuel lets the program go further. -/
def Fuelled (P : Nat → Prog C R α) : Prop := ∀ ⦃m n : Nat⦄, m ≤ n → (P m).Le (P n)

theorem Fuelled.const (p : Prog C R α) : Fuelled fun _ => p := fun _ _ _ => .refl p

theorem Fuelled.bind {P : Nat → Prog C R α} {f : Nat → α → Prog C R β} (h : Fuelled P)
    (hf : ∀ a, Fuelled fun n => f n a) : Fuelled fun n => P n >>= f n :=
  fun _ _ hmn => Le.bind (h hmn) fun a => hf a hmn

/-- With enough fuel the program returns. -/
def Ends (kernel : (c : C) → σ → R c × σ) (P : Nat → Prog C R α) (s : σ) (a : α) (s' : σ) : Prop :=
  ∃ fuel, (P fuel).run kernel s = some (a, s')

theorem Ends.unique {P : Nat → Prog C R α} {s s₁ s₂ : σ} {a₁ a₂ : α} (hP : Fuelled P)
    (h₁ : Ends kernel P s a₁ s₁) (h₂ : Ends kernel P s a₂ s₂) : a₁ = a₂ ∧ s₁ = s₂ := by
  obtain ⟨m, h₁⟩ := h₁
  obtain ⟨n, h₂⟩ := h₂
  have h₁' := (hP (Nat.le_max_left m n)).run h₁
  have h₂' := (hP (Nat.le_max_right m n)).run h₂
  rw [h₁'] at h₂'
  cases h₂'
  exact ⟨rfl, rfl⟩

theorem Ends.ret (a : α) (s : σ) : Ends kernel (fun _ => (Prog.ret a : Prog C R α)) s a s :=
  ⟨0, rfl⟩

theorem Ends.bind {P : Nat → Prog C R α} {f : Nat → α → Prog C R β} {s s' s'' : σ} {a : α} {b : β}
    (hP : Fuelled P) (hf : Fuelled fun n => f n a) (h : Ends kernel P s a s')
    (h' : Ends kernel (fun n => f n a) s' b s'') : Ends kernel (fun n => P n >>= f n) s b s'' := by
  obtain ⟨m, hm⟩ := h
  obtain ⟨n, hn⟩ := h'
  refine ⟨max m n, ?_⟩
  rw [run_bind_of_eq ((hP (Nat.le_max_left m n)).run hm)]
  exact (hf (Nat.le_max_right m n)).run hn

/-- More fuel than any that was enough. -/
theorem Ends.of_succ {P : Nat → Prog C R α} {s s' : σ} {a : α}
    (h : Ends kernel (fun n => P (n + 1)) s a s') : Ends kernel P s a s' := by
  obtain ⟨n, hn⟩ := h
  exact ⟨n + 1, hn⟩

/-! ## Two kernels -/

section Follows

variable {S : σ → τ → Prop}

/-- A run of `p` against `kernel` is matched by `P` against `other`, with enough fuel. -/
structure Follows (kernel : (c : C) → σ → R c × σ) (other : (c : C) → τ → R c × τ)
    (S : σ → τ → Prop) (p : Prog C R α) (P : Nat → Prog C R α) : Prop where
  fuelled : Fuelled P
  ends : ∀ {s : σ} {t : τ} {a : α} {s' : σ}, S s t → p.run kernel s = some (a, s') →
    ∃ t', S s' t' ∧ Ends other P t a t'

theorem Follows.ret (a : α) : Follows kernel other S (Prog.ret a) fun _ => Prog.ret a := by
  refine ⟨.const _, ?_⟩
  intro s t b s' hS hrun
  cases hrun
  exact ⟨t, hS, .ret _ _⟩

theorem Follows.spin {P : Nat → Prog C R α} (hP : Fuelled P) :
    Follows kernel other S Prog.spin P := ⟨hP, nofun⟩

theorem Follows.bind {p : Prog C R α} {P : Nat → Prog C R α} {f : α → Prog C R β}
    {F : Nat → α → Prog C R β} (h : Follows kernel other S p P)
    (hf : ∀ a, Follows kernel other S (f a) fun n => F n a) :
    Follows kernel other S (p >>= f) fun n => P n >>= F n := by
  refine ⟨h.fuelled.bind fun a => (hf a).fuelled, ?_⟩
  intro s t b s' hS hrun
  rw [run_bind] at hrun
  obtain ⟨⟨a, s₁⟩, hp, hrest⟩ := Option.bind_eq_some_iff.mp hrun
  obtain ⟨t₁, hS₁, hends⟩ := h.ends hS hp
  obtain ⟨t', hS', hends'⟩ := (hf a).ends hS₁ hrest
  exact ⟨t', hS', hends.bind h.fuelled (hf a).fuelled hends'⟩

/-- The program with more fuel. -/
theorem Follows.of_succ {p : Prog C R α} {P : Nat → Prog C R α} (hP : Fuelled P)
    (h : Follows kernel other S p fun n => P (n + 1)) : Follows kernel other S p P := by
  refine ⟨hP, fun hS hrun => ?_⟩
  obtain ⟨t', hS', hends⟩ := h.ends hS hrun
  exact ⟨t', hS', hends.of_succ⟩

/-- The program with more fuel in the parts. -/
theorem Follows.add_fuel {p : Prog C R α} {P : Nat → Prog C R α}
    (h : Follows kernel other S p P) (extra : Nat) :
    Follows kernel other S p fun n => P (n + extra) := by
  refine ⟨fun m n hmn => h.fuelled (Nat.add_le_add_right hmn extra), fun hS hrun => ?_⟩
  obtain ⟨t', hS', n, hends⟩ := h.ends hS hrun
  exact ⟨t', hS', n, (h.fuelled (Nat.le_add_right n extra)).run hends⟩

/-- The two kernels answer a call alike. -/
def Alike (kernel : (c : C) → σ → R c × σ) (other : (c : C) → τ → R c × τ)
    (S : σ → τ → Prop) (c : C) : Prop :=
  ∀ {s : σ} {t : τ}, S s t → (kernel c s).1 = (other c t).1 ∧ S (kernel c s).2 (other c t).2

theorem Follows.op {c : C} (h : Alike kernel other S c) :
    Follows kernel other S (Prog.op c) fun _ => Prog.op c := by
  refine ⟨.const _, ?_⟩
  intro s t r s' hS hrun
  cases hrun
  obtain ⟨hr, hS'⟩ := h hS
  refine ⟨(other c t).2, hS', 0, ?_⟩
  rw [hr]
  rfl

/-- Where all calls are answered alike, the same fuel is enough. -/
theorem All.follows {P : Nat → Prog C R α} {Pc : C → Prop} {Q : α → Prop} (hP : Fuelled P)
    {n : Nat} (h : (P n).All Pc Q) (halike : ∀ c, Pc c → Alike kernel other S c) :
    Follows kernel other S (P n) P := by
  refine ⟨hP, ?_⟩
  intro s t a s' hS hrun
  suffices ∃ t', S s' t' ∧ (P n).run other t = some (a, t') by
    obtain ⟨t', hS', hrun'⟩ := this
    exact ⟨t', hS', n, hrun'⟩
  generalize P n = p at h hrun
  induction p generalizing s t with
  | ret b =>
      cases hrun
      exact ⟨t, hS, rfl⟩
  | call c next ih =>
      obtain ⟨hr, hS'⟩ := halike c h.1 hS
      rw [run_call, hr] at hrun
      exact ih _ hS' (h.2 _) hrun
  | spin => cases hrun

end Follows

end MiniSync.Prog
