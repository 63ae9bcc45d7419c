import Mathlib.Logic.Function.Basic
import Mathlib.Logic.Relation
import MiniSync.Lib.Prog

/-!
# Programs beside each other

Any number of programs act on one shared state, one call at a time, in any order.  What
the others may do between two calls of a program is its rely, and what each of its calls
does is its guarantee.  Where the guarantee of each program is something the others rely
on, every program may be looked at alone (`Run.within`).
-/

namespace MiniSync.Beside

open Prog

variable {ι C : Type} {R : C → Type} {α β σ : Type}

/-- Programs and the state they share. -/
structure System (ι C : Type) (R : C → Type) (α σ : Type) where
  shared : σ
  progs : ι → Prog C R α

/-- One program makes its next call. -/
inductive Step [DecidableEq ι] (K : ι → (c : C) → σ → R c → σ → Prop) :
    System ι C R α σ → System ι C R α σ → Prop
  | call {s : System ι C R α σ} {i : ι} {c : C} {next : R c → Prog C R α} {r : R c} {shared : σ}
      (hprog : s.progs i = .call c next) (hK : K i c s.shared r shared) :
      Step K s ⟨shared, Function.update s.progs i (next r)⟩

abbrev Run [DecidableEq ι] (K : ι → (c : C) → σ → R c → σ → Prop) :
    System ι C R α σ → System ι C R α σ → Prop :=
  Relation.ReflTransGen (Step K)

/-- While `I` holds and the others move the state along `E`, each call of the program keeps
`I` and moves the state along `G`, and `Q` holds where the program returns. -/
def Within (K : (c : C) → σ → R c → σ → Prop) (I : σ → Prop) (E G : σ → σ → Prop)
    (Q : α → σ → Prop) : Prog C R α → σ → Prop
  | .ret a, s => ∀ s', I s' → E s s' → Q a s'
  | .call c next, s => ∀ s₁ r s', I s₁ → E s s₁ → K c s₁ r s' →
      I s' ∧ G s₁ s' ∧ Within K I E G Q (next r) s'
  | .spin, _ => True

section Within

variable {K : (c : C) → σ → R c → σ → Prop} {I J : σ → Prop} {E G G' : σ → σ → Prop}
  [IsPreorder σ E] {Q Q' : α → σ → Prop} {Qb : β → σ → Prop} {s s' : σ}

/-- What the others do changes nothing for the program. -/
theorem Within.stable {p : Prog C R α} (h : Within K I E G Q p s) (hE : E s s') :
    Within K I E G Q p s' := by
  cases p with
  | ret a => exact fun s₁ hI hE' => h s₁ hI (trans_of E hE hE')
  | call c next => exact fun s₁ r s₂ hI hE' => h s₁ r s₂ hI (trans_of E hE hE')
  | spin => trivial

omit [IsPreorder σ E] in
theorem Within.mono {p : Prog C R α} (h : Within K I E G Q p s) (hG : ∀ s s', G s s' → G' s s')
    (hQ : ∀ a s, I s → Q a s → Q' a s) : Within K I E G' Q' p s := by
  induction p generalizing s with
  | ret a => exact fun s₁ hI hE => hQ a s₁ hI (h s₁ hI hE)
  | call c next ih =>
      intro s₁ r s₂ hI hE hK
      obtain ⟨hI', hmove, hnext⟩ := h s₁ r s₂ hI hE hK
      exact ⟨hI', hG s₁ s₂ hmove, ih r hnext⟩
  | spin => trivial

omit [IsPreorder σ E] in
theorem Within.post {p : Prog C R α} (h : Within K I E G Q p s)
    (hQ : ∀ a s, I s → Q a s → Q' a s) : Within K I E G Q' p s :=
  h.mono (fun _ _ hmove => hmove) hQ

theorem Within.bind {p : Prog C R α} {f : α → Prog C R β} (h : Within K I E G Q p s) (hI : I s)
    (hf : ∀ a s, I s → Q a s → Within K I E G Qb (f a) s) :
    Within K I E G Qb (p >>= f) s := by
  induction p generalizing s with
  | ret a => exact hf a s hI (h s hI (refl_of E s))
  | call c next ih =>
      intro s₁ r s₂ hI₁ hE hK
      obtain ⟨hI₂, hmove, hnext⟩ := h s₁ r s₂ hI₁ hE hK
      exact ⟨hI₂, hmove, ih r hnext hI₂⟩
  | spin => trivial

omit [IsPreorder σ E] in
theorem Within.op_bind {c : C} {f : R c → Prog C R β}
    (h : ∀ s₁ r s', I s₁ → E s s₁ → K c s₁ r s' →
      I s' ∧ G s₁ s' ∧ Within K I E G Qb (f r) s') :
    Within K I E G Qb (op c >>= f) s := h

omit [IsPreorder σ E] in
theorem Within.ret {a : α} (h : ∀ s', I s' → E s s' → Q a s') :
    Within K I E G Q (.ret a : Prog C R α) s := h

end Within

/-! ## All together -/

section Run

variable [DecidableEq ι] {K : ι → (c : C) → σ → R c → σ → Prop} {I : σ → Prop}
  {E G : ι → σ → σ → Prop} [∀ i, IsPreorder σ (E i)] {Q : ι → α → σ → Prop}
  {s s' : System ι C R α σ}

/-- Every program is within its bounds. -/
def Bounded (K : ι → (c : C) → σ → R c → σ → Prop) (I : σ → Prop) (E G : ι → σ → σ → Prop)
    (Q : ι → α → σ → Prop) (s : System ι C R α σ) : Prop :=
  I s.shared ∧ ∀ i, Within (K i) I (E i) (G i) (Q i) (s.progs i) s.shared

theorem Step.within (hstep : Step K s s')
    (hG : ∀ i j s s', i ≠ j → I s → I s' → G j s s' → E i s s') (h : Bounded K I E G Q s) :
    Bounded K I E G Q s' := by
  obtain ⟨hI, hprogs⟩ := h
  cases hstep with
  | @call i c next r shared hprog hK =>
      have hown := hprogs i
      rw [hprog] at hown
      obtain ⟨hI', hmove, hnext⟩ := hown s.shared r shared hI (refl_of (E i) s.shared) hK
      refine ⟨hI', fun j => ?_⟩
      dsimp only
      by_cases hj : j = i
      · subst hj
        rw [Function.update_self]
        exact hnext
      · rw [Function.update_of_ne hj]
        exact (hprogs j).stable (hG j i s.shared shared hj hI hI' hmove)

theorem Run.within (hrun : Run K s s')
    (hG : ∀ i j s s', i ≠ j → I s → I s' → G j s s' → E i s s') (h : Bounded K I E G Q s) :
    Bounded K I E G Q s' := by
  induction hrun with
  | refl => exact h
  | tail _ hstep ih => exact hstep.within hG ih

/-- One program runs a part of it while the others wait. -/
theorem Run.exec {i : ι} {p : Prog C R β} {f : β → Prog C R α} {b : β} {shared : σ}
    (hrun : Run K s s') (hprog : s'.progs i = (p >>= f)) (h : Exec (K i) p s'.shared b shared) :
    ∃ s'', Run K s s'' ∧ s''.shared = shared ∧ s''.progs i = f b ∧
      ∀ j, j ≠ i → s''.progs j = s'.progs j := by
  obtain ⟨before, progs⟩ := s'
  dsimp only at hprog h ⊢
  induction h generalizing progs with
  | ret b before => exact ⟨_, hrun, rfl, hprog, fun _ _ => rfl⟩
  | call hK hnext ih =>
      obtain ⟨s'', hrun', hshared, hself, hothers⟩ :=
        ih _ (hrun.tail (.call hprog hK)) (Function.update_self i _ progs)
      exact ⟨s'', hrun', hshared, hself, fun j hj =>
        (hothers j hj).trans (Function.update_of_ne hj _ progs)⟩

omit [DecidableEq ι] in
/-- What holds where a program has returned. -/
theorem Bounded.returned (h : Bounded K I E G Q s) {i : ι} {a : α} (hret : s.progs i = .ret a) :
    Q i a s.shared := by
  have hown := h.2 i
  rw [hret] at hown
  exact hown s.shared h.1 (refl_of (E i) s.shared)

end Run

end MiniSync.Beside
