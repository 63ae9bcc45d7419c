import Mathlib.Order.Defs.Unbundled

/-!
# Programs over an interface

A program returns a value or issues a call and continues with the response.
Loops are bounded by an explicit fuel; a program whose fuel is used up while it
would still be looping is `spin`, about which nothing is claimed.

Three readings of one program are provided: `All`, what it may call whatever the
responses are; `Safe`, partial correctness against a kernel relation, with a
property of every state on the way; and `run`, its result against a kernel
function.
-/

namespace MiniSync

/-- A program over the calls `C` with responses `R`. -/
inductive Prog (C : Type) (R : C → Type) (α : Type) : Type
  | ret (a : α)
  | call (c : C) (next : R c → Prog C R α)
  | spin

namespace Prog

variable {C : Type} {R : C → Type} {α β σ : Type}

/-- Sequencing. -/
protected def bind : Prog C R α → (α → Prog C R β) → Prog C R β
  | ret a, f => f a
  | call c next, f => call c fun r => (next r).bind f
  | spin, _ => spin

instance : Monad (Prog C R) where
  pure := ret
  bind := Prog.bind

/-- The program that issues one call and returns its response. -/
def op (c : C) : Prog C R (R c) := call c ret

@[simp] theorem pure_eq (a : α) : (pure a : Prog C R α) = ret a := rfl

@[simp] theorem ret_bind (a : α) (f : α → Prog C R β) : (ret a >>= f) = f a := rfl

@[simp] theorem call_bind (c : C) (next : R c → Prog C R α) (f : α → Prog C R β) :
    (call c next >>= f) = call c fun r => next r >>= f := rfl

@[simp] theorem spin_bind (f : α → Prog C R β) : ((spin : Prog C R α) >>= f) = spin := rfl

@[simp] theorem op_bind (c : C) (f : R c → Prog C R β) : (op c >>= f) = call c f := rfl

theorem bind_assoc {γ : Type} (p : Prog C R α) (f : α → Prog C R β) (g : β → Prog C R γ) :
    (p >>= f >>= g) = (p >>= fun a => f a >>= g) := by
  induction p with
  | ret a => rfl
  | call c next ih => exact congrArg (call c) (funext ih)
  | spin => rfl

theorem bind_ret (p : Prog C R α) : (p >>= ret) = p := by
  induction p with
  | ret a => rfl
  | call c next ih => exact congrArg (call c) (funext ih)
  | spin => rfl

/-- The program in which each call is made through a program over another interface. -/
def translate {C' : Type} {R' : C' → Type} (f : (c : C) → Prog C' R' (R c)) :
    Prog C R α → Prog C' R' α
  | ret a => ret a
  | call c next => f c >>= fun r => (next r).translate f
  | spin => spin

section Translate

variable {C' : Type} {R' : C' → Type} {f : (c : C) → Prog C' R' (R c)}

@[simp] theorem translate_ret (a : α) : (ret a : Prog C R α).translate f = ret a := rfl

@[simp] theorem translate_spin : (spin : Prog C R α).translate f = spin := rfl

@[simp] theorem translate_call (c : C) (next : R c → Prog C R α) :
    (call c next).translate f = f c >>= fun r => (next r).translate f := rfl

theorem translate_bind (p : Prog C R α) (g : α → Prog C R β) :
    (p >>= g).translate f = p.translate f >>= fun a => (g a).translate f := by
  induction p with
  | ret a => rfl
  | call c next ih =>
      rw [call_bind, translate_call, translate_call, bind_assoc]
      exact congrArg (f c >>= ·) (funext ih)
  | spin => rfl

end Translate

/-! ## Which calls a program may issue -/

/-- Whatever the responses are, every call satisfies `P` and every returned
value satisfies `Q`. -/
def All (P : C → Prop) (Q : α → Prop) : Prog C R α → Prop
  | ret a => Q a
  | call c next => P c ∧ ∀ r, (next r).All P Q
  | spin => True

section All

variable {P P' : C → Prop} {Q Q' : α → Prop} {Qb : β → Prop}

@[simp] theorem all_ret (a : α) : (ret a : Prog C R α).All P Q ↔ Q a := Iff.rfl

@[simp] theorem all_call (c : C) (next : R c → Prog C R α) :
    (call c next).All P Q ↔ P c ∧ ∀ r, (next r).All P Q := Iff.rfl

@[simp] theorem all_spin : (spin : Prog C R α).All P Q ↔ True := Iff.rfl

@[simp] theorem all_op (c : C) {Q : R c → Prop} :
    (op c : Prog C R (R c)).All P Q ↔ P c ∧ ∀ r, Q r := Iff.rfl

theorem All.mono {p : Prog C R α} (h : p.All P Q) (hP : ∀ c, P c → P' c)
    (hQ : ∀ a, Q a → Q' a) : p.All P' Q' := by
  induction p with
  | ret a => exact hQ a h
  | call c next ih => exact ⟨hP c h.1, fun r => ih r (h.2 r)⟩
  | spin => trivial

@[simp] theorem all_bind (p : Prog C R α) (f : α → Prog C R β) :
    (p >>= f).All P Qb ↔ p.All P fun a => (f a).All P Qb := by
  induction p with
  | ret a => exact Iff.rfl
  | call c next ih => exact and_congr_right fun _ => forall_congr' ih
  | spin => exact Iff.rfl

theorem all_true (p : Prog C R α) : p.All (fun _ => True) fun _ => True := by
  induction p with
  | ret a => trivial
  | call c next ih => exact ⟨trivial, ih⟩
  | spin => trivial

theorem All.bind {p : Prog C R α} {f : α → Prog C R β} (h : p.All P Q)
    (hf : ∀ a, Q a → (f a).All P Qb) : (p >>= f).All P Qb :=
  (all_bind p f).mpr (h.mono (fun _ hc => hc) hf)

theorem All.op_bind {c : C} {f : R c → Prog C R β} (h : P c)
    (hf : ∀ r, (f r).All P Qb) : (op c >>= f).All P Qb := ⟨h, hf⟩

end All

/-! ## Partial correctness -/

/-- Along every execution from `s` that the kernel `K` allows, every state after
a call satisfies `A`, and a returned value and its state satisfy `Q`. -/
def Safe (K : (c : C) → σ → R c → σ → Prop) (A : σ → Prop) (Q : α → σ → Prop) :
    Prog C R α → σ → Prop
  | ret a, s => Q a s
  | call c next, s => ∀ r s', K c s r s' → A s' ∧ (next r).Safe K A Q s'
  | spin, _ => True

section Safe

variable {K : (c : C) → σ → R c → σ → Prop} {A A' : σ → Prop} {Q Q' : α → σ → Prop}
  {Qb : β → σ → Prop}

@[simp] theorem safe_ret (a : α) (s : σ) : (ret a : Prog C R α).Safe K A Q s ↔ Q a s := Iff.rfl

@[simp] theorem safe_call (c : C) (next : R c → Prog C R α) (s : σ) :
    (call c next).Safe K A Q s ↔ ∀ r s', K c s r s' → A s' ∧ (next r).Safe K A Q s' := Iff.rfl

@[simp] theorem safe_spin (s : σ) : (spin : Prog C R α).Safe K A Q s ↔ True := Iff.rfl

theorem Safe.mono {p : Prog C R α} {s : σ} (h : p.Safe K A Q s) (hA : ∀ s, A s → A' s)
    (hQ : ∀ a s, Q a s → Q' a s) : p.Safe K A' Q' s := by
  induction p generalizing s with
  | ret a => exact hQ a s h
  | call c next ih =>
      intro r s' hK
      exact ⟨hA s' (h r s' hK).1, ih r (h r s' hK).2⟩
  | spin => trivial

theorem Safe.post {p : Prog C R α} {s : σ} (h : p.Safe K A Q s)
    (hQ : ∀ a s, Q a s → Q' a s) : p.Safe K A Q' s :=
  h.mono (fun _ hA => hA) hQ

@[simp] theorem safe_bind (p : Prog C R α) (f : α → Prog C R β) (s : σ) :
    (p >>= f).Safe K A Qb s ↔ p.Safe K A (fun a s' => (f a).Safe K A Qb s') s := by
  induction p generalizing s with
  | ret a => exact Iff.rfl
  | call c next ih =>
      exact forall_congr' fun r => forall_congr' fun s' =>
        imp_congr_right fun _ => and_congr_right fun _ => ih r s'
  | spin => exact Iff.rfl

theorem Safe.bind {p : Prog C R α} {f : α → Prog C R β} {s : σ} (h : p.Safe K A Q s)
    (hf : ∀ a s', Q a s' → (f a).Safe K A Qb s') : (p >>= f).Safe K A Qb s :=
  (safe_bind p f s).mpr (h.post hf)

theorem Safe.op_bind {c : C} {f : R c → Prog C R β} {s : σ}
    (h : ∀ r s', K c s r s' → A s' ∧ (f r).Safe K A Qb s') : (op c >>= f).Safe K A Qb s := h

/-- A kernel that allows less. -/
theorem Safe.narrow {K' : (c : C) → σ → R c → σ → Prop} {p : Prog C R α} {s : σ}
    (h : p.Safe K A Q s) (hK : ∀ c s r s', K' c s r s' → K c s r s') : p.Safe K' A Q s := by
  induction p generalizing s with
  | ret a => exact h
  | call c next ih =>
      intro r s' hstep
      obtain ⟨hA, hnext⟩ := h r s' (hK c s r s' hstep)
      exact ⟨hA, ih r hnext⟩
  | spin => trivial

theorem Safe.and {p : Prog C R α} {s : σ} (h : p.Safe K A Q s) (h' : p.Safe K A' Q' s) :
    p.Safe K (fun s => A s ∧ A' s) (fun a s => Q a s ∧ Q' a s) s := by
  induction p generalizing s with
  | ret a => exact ⟨h, h'⟩
  | call c next ih =>
      intro r s' hK
      exact ⟨⟨(h r s' hK).1, (h' r s' hK).1⟩, ih r (h r s' hK).2 (h' r s' hK).2⟩
  | spin => trivial

/-- What holds all the way holds at the end. -/
theorem Safe.last {p : Prog C R α} {s : σ} (h : p.Safe K A Q s) (hs : A s) :
    p.Safe K A (fun a s' => A s' ∧ Q a s') s := by
  induction p generalizing s with
  | ret a => exact ⟨hs, h⟩
  | call c next ih =>
      intro r s' hK
      obtain ⟨hA, hnext⟩ := h r s' hK
      exact ⟨hA, ih r hnext hA⟩
  | spin => trivial

/-- The same program over states that are read through `f`. -/
theorem Safe.comap {τ : Type} (f : τ → σ) {p : Prog C R α} {t : τ} (h : p.Safe K A Q (f t)) :
    p.Safe (fun c t r t' => K c (f t) r (f t')) (fun t => A (f t)) (fun a t => Q a (f t)) t := by
  induction p generalizing t with
  | ret a => exact h
  | call c next ih =>
      intro r t' hK
      obtain ⟨hA, hnext⟩ := h r (f t') hK
      exact ⟨hA, ih r hnext⟩
  | spin => trivial

/-- The frame rule: an invariant that every call the program may issue keeps is
an invariant of the program. -/
theorem All.safe {P : C → Prop} {Qa : α → Prop} {I : σ → Prop} {p : Prog C R α} {s : σ}
    (h : p.All P Qa) (hK : ∀ c s r s', P c → I s → K c s r s' → I s') (hs : I s) :
    p.Safe K I (fun a s => Qa a ∧ I s) s := by
  induction p generalizing s with
  | ret a => exact ⟨h, hs⟩
  | call c next ih =>
      intro r s' hstep
      have hs' := hK c s r s' h.1 hs hstep
      exact ⟨hs', ih r (h.2 r) hs'⟩
  | spin => trivial

end Safe

/-! ## Programs that move along a preorder -/

/-- Every state on the way is above the first one, and so is the last, which also
satisfies `Q`. -/
def Moves (K : (c : C) → σ → R c → σ → Prop) (S : σ → σ → Prop) (Q : α → σ → Prop)
    (p : Prog C R α) (s : σ) : Prop :=
  p.Safe K (S s) (fun a s' => S s s' ∧ Q a s') s

section Moves

variable {K : (c : C) → σ → R c → σ → Prop} {S S' : σ → σ → Prop} [IsPreorder σ S]
  {Q Q' : α → σ → Prop} {Qb : β → σ → Prop} {s : σ}

theorem Moves.ret {a : α} (h : Q a s) : (Prog.ret a : Prog C R α).Moves K S Q s :=
  ⟨refl_of S s, h⟩

omit [IsPreorder σ S] in
theorem Moves.spin : (Prog.spin : Prog C R α).Moves K S Q s := trivial

theorem Moves.op_bind {c : C} {f : R c → Prog C R β}
    (h : ∀ r s', K c s r s' → S s s' ∧ (f r).Moves K S Qb s') :
    (op c >>= f).Moves K S Qb s := by
  intro r s' hK
  obtain ⟨hS, hf⟩ := h r s' hK
  refine ⟨hS, hf.mono (fun s'' h' => trans_of S hS h') ?_⟩
  rintro b s'' ⟨hS', hQ⟩
  exact ⟨trans_of S hS hS', hQ⟩

theorem Moves.bind {p : Prog C R α} {f : α → Prog C R β} (h : p.Moves K S Q s)
    (hf : ∀ a s', S s s' → Q a s' → (f a).Moves K S Qb s') : (p >>= f).Moves K S Qb s := by
  apply Safe.bind h
  rintro a s' ⟨hS, hQ⟩
  apply (hf a s' hS hQ).mono
  · exact fun s'' h' => trans_of S hS h'
  · rintro b s'' ⟨hS', hQb⟩
    exact ⟨trans_of S hS hS', hQb⟩

omit [IsPreorder σ S] in
theorem Moves.mono {p : Prog C R α} (h : p.Moves K S Q s) (hS : ∀ s s', S s s' → S' s s')
    (hQ : ∀ a s', S s s' → Q a s' → Q' a s') : p.Moves K S' Q' s := by
  apply Safe.mono h (fun s' => hS s s')
  rintro a s' ⟨hs, hq⟩
  exact ⟨hS s s' hs, hQ a s' hs hq⟩

omit [IsPreorder σ S] in
theorem Moves.post {p : Prog C R α} (h : p.Moves K S Q s)
    (hQ : ∀ a s', S s s' → Q a s' → Q' a s') : p.Moves K S Q' s :=
  h.mono (fun _ _ hs => hs) hQ

omit [IsPreorder σ S] in
/-- Move along a coarser preorder, and remember the finer one at the end. -/
theorem Moves.coarsen {p : Prog C R α} (h : p.Moves K S Q s) (S' : σ → σ → Prop)
    (hS : ∀ s s', S s s' → S' s s') :
    p.Moves K S' (fun a s' => S s s' ∧ Q a s') s :=
  h.mono hS fun _ _ hs hq => ⟨hs, hq⟩

omit [IsPreorder σ S] in
/-- What a program achieves, without the states on the way. -/
theorem Moves.safe {p : Prog C R α} (h : p.Moves K S Q s) : p.Safe K (fun _ => True) Q s :=
  Safe.mono h (fun _ _ => trivial) fun _ _ h => h.2

omit [IsPreorder σ S] in
/-- What a program achieves, and how far it has moved. -/
theorem Moves.moved {p : Prog C R α} (h : p.Moves K S Q s) :
    p.Safe K (fun _ => True) (fun a s' => S s s' ∧ Q a s') s :=
  Safe.mono h (fun _ _ => trivial) fun _ _ h => h

omit [IsPreorder σ S] in
/-- Two preorders at once, of which one is remembered at the end. -/
theorem Moves.and {p : Prog C R α} (h : p.Moves K S Q s) (h' : p.Moves K S' Q' s) :
    p.Moves K S (fun a s' => Q a s' ∧ S' s s' ∧ Q' a s') s := by
  apply (Safe.and h h').mono (fun _ hboth => hboth.1)
  rintro a s' ⟨⟨hs, hq⟩, hs', hq'⟩
  exact ⟨hs, hq, hs', hq'⟩

/-- A program moves along a preorder that each call it may issue moves along. -/
theorem All.moves {P : C → Prop} {Qa : α → Prop} {p : Prog C R α} (h : p.All P Qa)
    (hK : ∀ c s r s', P c → K c s r s' → S s s') : p.Moves K S (fun a _ => Qa a) s := by
  apply (All.safe h (I := S s) _ (refl_of S s)).post
  · exact fun a s' hq => ⟨hq.2, hq.1⟩
  · exact fun c s1 r s2 hc h1 hstep => trans_of S h1 (hK c s1 r s2 hc hstep)

end Moves

/-! ## Executions -/

/-- The program may run from the first state to the last, and return `a`. -/
inductive Exec (K : (c : C) → σ → R c → σ → Prop) : Prog C R α → σ → α → σ → Prop
  | ret (a : α) (s : σ) : Exec K (ret a) s a s
  | call {c : C} {next : R c → Prog C R α} {s s' s'' : σ} {r : R c} {a : α} :
      K c s r s' → Exec K (next r) s' a s'' → Exec K (call c next) s a s''

section Exec

variable {K : (c : C) → σ → R c → σ → Prop} {A : σ → Prop} {Q : α → σ → Prop}
  {p : Prog C R α} {f : α → Prog C R β} {s s' s'' : σ} {a : α} {b : β}

theorem exec_ret {a' : α} (h : Exec K (ret a : Prog C R α) s a' s') : a' = a ∧ s' = s := by
  cases h
  exact ⟨rfl, rfl⟩

theorem exec_op {c : C} {r : R c} (h : Exec K (op c) s r s') : K c s r s' := by
  cases h with
  | call hK hret =>
      obtain ⟨rfl, rfl⟩ := exec_ret hret
      exact hK

theorem exec_bind : Exec K (p >>= f) s b s'' ↔
    ∃ a s', Exec K p s a s' ∧ Exec K (f a) s' b s'' := by
  constructor
  · intro h
    induction p generalizing s with
    | ret a => exact ⟨a, s, .ret a s, h⟩
    | call c next ih =>
        cases h with
        | call hK hnext =>
            obtain ⟨a, s₂, hp, hf⟩ := ih _ hnext
            exact ⟨a, s₂, .call hK hp, hf⟩
    | spin => cases h
  · rintro ⟨a, s', hp, hf⟩
    induction hp with
    | ret => exact hf
    | call hK _ ih => exact .call hK (ih hf)

/-- Calls that are made through another interface. -/
theorem Exec.of_translate {C' : Type} {R' : C' → Type} {K' : (c : C') → σ → R' c → σ → Prop}
    {g : (c : C) → Prog C' R' (R c)} (hg : ∀ c s r s', Exec K' (g c) s r s' → K c s r s')
    (h : Exec K' (p.translate g) s a s') : Exec K p s a s' := by
  induction p generalizing s with
  | ret b =>
      obtain ⟨rfl, rfl⟩ := exec_ret h
      exact .ret _ _
  | call c next ih =>
      obtain ⟨r, s₁, hcall, hnext⟩ := exec_bind.mp h
      exact .call (hg c s r s₁ hcall) (ih r hnext)
  | spin => cases h

/-- What is safe holds at the end of an execution. -/
theorem Safe.exec (h : p.Safe K A Q s) (hexec : Exec K p s a s') : Q a s' := by
  induction hexec with
  | ret => exact h
  | call hK _ ih => exact ih (h _ _ hK).2

/-- What holds at the end of every execution is safe. -/
theorem safe_of_exec (h : ∀ a s', Exec K p s a s' → Q a s') :
    p.Safe K (fun _ => True) Q s := by
  induction p generalizing s with
  | ret a => exact h a s (.ret a s)
  | call c next ih =>
      exact fun r s' hK => ⟨trivial, ih r fun a s'' hexec => h a s'' (.call hK hexec)⟩
  | spin => trivial

end Exec

/-! ## Execution against a kernel function -/

/-- The result of a program when each call is answered by `kernel`; `none` when
the fuel of a loop is used up. -/
def run (kernel : (c : C) → σ → R c × σ) : Prog C R α → σ → Option (α × σ)
  | ret a, s => some (a, s)
  | call c next, s => (next (kernel c s).1).run kernel (kernel c s).2
  | spin, _ => none

section Run

variable {kernel : (c : C) → σ → R c × σ}

@[simp] theorem run_ret (a : α) (s : σ) : (ret a : Prog C R α).run kernel s = some (a, s) := rfl

@[simp] theorem run_call (c : C) (next : R c → Prog C R α) (s : σ) :
    (call c next).run kernel s = (next (kernel c s).1).run kernel (kernel c s).2 := rfl

@[simp] theorem run_spin (s : σ) : (spin : Prog C R α).run kernel s = none := rfl

theorem run_bind (p : Prog C R α) (f : α → Prog C R β) (s : σ) :
    (p >>= f).run kernel s = (p.run kernel s).bind fun r => (f r.1).run kernel r.2 := by
  induction p generalizing s with
  | ret a => rfl
  | call c next ih => exact ih _ _
  | spin => rfl

/-- Sequencing when the first part is known to return. -/
theorem run_bind_of_eq {p : Prog C R α} {f : α → Prog C R β} {s s' : σ} {a : α}
    (h : p.run kernel s = some (a, s')) :
    (p >>= f).run kernel s = (f a).run kernel s' := by
  rw [run_bind, h]
  rfl

/-- Two kernels that agree on what a program calls give the same run. -/
theorem All.run_congr {kernel' : (c : C) → σ → R c × σ} {P : C → Prop} {Qa : α → Prop}
    {p : Prog C R α} {s : σ} (h : p.All P Qa) (hK : ∀ c s, P c → kernel c s = kernel' c s) :
    p.run kernel s = p.run kernel' s := by
  induction p generalizing s with
  | ret a => rfl
  | call c next ih =>
      rw [run_call, run_call, hK c s h.1]
      exact ih _ (h.2 _)
  | spin => rfl

/-- What is safe against a kernel relation holds of the runs of a kernel
function that the relation covers. -/
theorem Safe.of_run {K : (c : C) → σ → R c → σ → Prop} {A : σ → Prop} {Q : α → σ → Prop}
    (hcover : ∀ c s, K c s (kernel c s).1 (kernel c s).2) {p : Prog C R α} {s s' : σ} {a : α}
    (h : p.Safe K A Q s) (hrun : p.run kernel s = some (a, s')) : Q a s' := by
  induction p generalizing s with
  | ret b =>
      cases hrun
      exact h
  | call c next ih => exact ih _ (h _ _ (hcover c s)).2 hrun
  | spin => cases hrun

/-- A run is an execution under a relation that covers the calls of the program. -/
theorem All.exec_of_run {K : (c : C) → σ → R c → σ → Prop} {P : C → Prop} {Qa : α → Prop}
    {p : Prog C R α} {s s' : σ} {a : α} (h : p.All P Qa)
    (hcover : ∀ c s, P c → K c s (kernel c s).1 (kernel c s).2)
    (hrun : p.run kernel s = some (a, s')) : Exec K p s a s' := by
  induction p generalizing s with
  | ret b =>
      cases hrun
      exact .ret _ _
  | call c next ih => exact .call (hcover c s h.1) (ih _ (h.2 _) hrun)
  | spin => cases hrun

theorem exec_of_run {K : (c : C) → σ → R c → σ → Prop}
    (hcover : ∀ c s, K c s (kernel c s).1 (kernel c s).2) {p : Prog C R α} {s s' : σ} {a : α}
    (hrun : p.run kernel s = some (a, s')) : Exec K p s a s' :=
  (all_true p).exec_of_run (fun c s _ => hcover c s) hrun

/-! ## Total correctness -/

/-- Against `kernel` the program returns from `s`, with `Q`. -/
def Returns (kernel : (c : C) → σ → R c × σ) (Q : α → σ → Prop) (p : Prog C R α) (s : σ) : Prop :=
  ∃ a s', p.run kernel s = some (a, s') ∧ Q a s'

variable {Q Q' : α → σ → Prop} {Qb : β → σ → Prop} {s : σ}

theorem Returns.ret {a : α} (h : Q a s) : (Prog.ret a : Prog C R α).Returns kernel Q s :=
  ⟨a, s, rfl, h⟩

theorem returns_call {c : C} {next : R c → Prog C R α} :
    (call c next).Returns kernel Q s ↔ (next (kernel c s).1).Returns kernel Q (kernel c s).2 :=
  Iff.rfl

theorem returns_op_bind {c : C} {f : R c → Prog C R β} :
    (op c >>= f).Returns kernel Qb s ↔ (f (kernel c s).1).Returns kernel Qb (kernel c s).2 :=
  Iff.rfl

theorem Returns.bind {p : Prog C R α} {f : α → Prog C R β} (h : p.Returns kernel Q s)
    (hf : ∀ a s', Q a s' → (f a).Returns kernel Qb s') : (p >>= f).Returns kernel Qb s := by
  obtain ⟨a, s', hrun, hQ⟩ := h
  obtain ⟨b, s'', hrun', hQb⟩ := hf a s' hQ
  exact ⟨b, s'', (run_bind_of_eq hrun).trans hrun', hQb⟩

theorem Returns.post {p : Prog C R α} (h : p.Returns kernel Q s)
    (hQ : ∀ a s', Q a s' → Q' a s') : p.Returns kernel Q' s := by
  obtain ⟨a, s', hrun, hq⟩ := h
  exact ⟨a, s', hrun, hQ a s' hq⟩

/-- There is only one run. -/
theorem Returns.and {p : Prog C R α} (h : p.Returns kernel Q s) (h' : p.Returns kernel Q' s) :
    p.Returns kernel (fun a s' => Q a s' ∧ Q' a s') s := by
  obtain ⟨a, s', hrun, hq⟩ := h
  obtain ⟨b, s'', hrun', hq'⟩ := h'
  rw [hrun] at hrun'
  cases hrun'
  exact ⟨a, s', hrun, hq, hq'⟩

/-- A run that returns has also what is safe against a relation that covers `kernel`. -/
theorem Returns.and_safe {K : (c : C) → σ → R c → σ → Prop} {A : σ → Prop} {p : Prog C R α}
    (h : p.Returns kernel Q s) (hcover : ∀ c s, K c s (kernel c s).1 (kernel c s).2)
    (hsafe : p.Safe K A Q' s) : p.Returns kernel (fun a s' => Q a s' ∧ Q' a s') s := by
  obtain ⟨a, s', hrun, hq⟩ := h
  exact ⟨a, s', hrun, hq, hsafe.of_run hcover hrun⟩

/-- The program has no loop that could use up its fuel. -/
def NoSpin : Prog C R α → Prop
  | Prog.ret _ => True
  | Prog.call _ next => ∀ r, (next r).NoSpin
  | Prog.spin => False

theorem NoSpin.op_bind {c : C} {f : R c → Prog C R β} (h : ∀ r, (f r).NoSpin) :
    (op c >>= f).NoSpin := h

theorem NoSpin.returns {p : Prog C R α} (h : p.NoSpin) :
    p.Returns kernel (fun _ _ => True) s := by
  induction p generalizing s with
  | ret a => exact .ret trivial
  | call c next ih => exact returns_call.mpr (ih _ (h _))
  | spin => exact h.elim

/-- A kernel function as a relation. -/
def Graph (kernel : (c : C) → σ → R c × σ) (c : C) (s : σ) (r : R c) (s' : σ) : Prop :=
  kernel c s = (r, s')

theorem exec_graph_iff {p : Prog C R α} {a : α} {s' : σ} :
    Exec (Graph kernel) p s a s' ↔ p.run kernel s = some (a, s') := by
  constructor
  · intro h
    induction h with
    | ret => rfl
    | call hK _ ih =>
        rw [run_call, show kernel _ _ = _ from hK]
        exact ih
  · exact exec_of_run fun c s => rfl

theorem Returns.unique {p : Prog C R α} {a : α} {s' : σ} (h : p.Returns kernel Q s)
    (hrun : p.run kernel s = some (a, s')) : Q a s' := by
  obtain ⟨b, s'', hrun', hq⟩ := h
  rw [hrun] at hrun'
  cases hrun'
  exact hq

theorem Returns.exec {p : Prog C R α} {a : α} {s' : σ} (h : p.Returns kernel Q s)
    (hexec : Exec (Graph kernel) p s a s') : Q a s' :=
  h.unique (exec_graph_iff.mp hexec)

end Run

/-! ## Coming to an end -/

/-- Along every execution from `s` that the kernel `K` allows, every call
satisfies `P` and no loop uses up its fuel.  A program is a well-founded tree of
calls, so it returns on each of them. -/
def Finishes (K : (c : C) → σ → R c → σ → Prop) (P : C → Prop) : Prog C R α → σ → Prop
  | ret _, _ => True
  | call c next, s => P c ∧ ∀ r s', K c s r s' → (next r).Finishes K P s'
  | spin, _ => False

section Finishes

variable {K : (c : C) → σ → R c → σ → Prop} {P P' : C → Prop} {s : σ}

theorem Finishes.op_bind {c : C} {f : R c → Prog C R β} (h : P c)
    (hf : ∀ r s', K c s r s' → (f r).Finishes K P s') : (op c >>= f).Finishes K P s := ⟨h, hf⟩

theorem Finishes.bind {p : Prog C R α} {f : α → Prog C R β} (h : p.Finishes K P s)
    (hf : ∀ a s', (f a).Finishes K P s') : (p >>= f).Finishes K P s := by
  induction p generalizing s with
  | ret a => exact hf a s
  | call c next ih => exact ⟨h.1, fun r s' hK => ih r (h.2 r s' hK)⟩
  | spin => exact h.elim

/-- What is safe for the first part may be used for the second. -/
theorem Finishes.bind_safe {A : σ → Prop} {Q : α → σ → Prop} {p : Prog C R α}
    {f : α → Prog C R β} (h : p.Finishes K P s) (hsafe : p.Safe K A Q s)
    (hf : ∀ a s', Q a s' → (f a).Finishes K P s') : (p >>= f).Finishes K P s := by
  induction p generalizing s with
  | ret a => exact hf a s hsafe
  | call c next ih => exact ⟨h.1, fun r s' hK => ih r (h.2 r s' hK) (hsafe r s' hK).2⟩
  | spin => exact h.elim

theorem Finishes.mono {p : Prog C R α} (h : p.Finishes K P s) (hP : ∀ c, P c → P' c) :
    p.Finishes K P' s := by
  induction p generalizing s with
  | ret a => trivial
  | call c next ih => exact ⟨hP c h.1, fun r s' hK => ih r (h.2 r s' hK)⟩
  | spin => exact h.elim

end Finishes

/-! ## What is called on the way -/

/-- Along every execution from `s` that the kernel `K` allows, every call
satisfies `P`. -/
def Calls (K : (c : C) → σ → R c → σ → Prop) (P : C → Prop) : Prog C R α → σ → Prop
  | ret _, _ => True
  | call c next, s => P c ∧ ∀ r s', K c s r s' → (next r).Calls K P s'
  | spin, _ => True

section Calls

variable {K : (c : C) → σ → R c → σ → Prop} {P : C → Prop} {A : σ → Prop} {Q : α → σ → Prop}
  {s : σ} {τ : Type} {f : σ → τ} {kernel : (c : C) → σ → R c × σ}
  {kernel' : (c : C) → τ → R c × τ}

theorem Calls.op_bind {c : C} {g : R c → Prog C R β} (h : P c)
    (hg : ∀ r s', K c s r s' → (g r).Calls K P s') : (op c >>= g).Calls K P s := ⟨h, hg⟩

theorem Calls.bind {p : Prog C R α} {g : α → Prog C R β} (h : p.Calls K P s)
    (hsafe : p.Safe K A Q s) (hg : ∀ a s', Q a s' → (g a).Calls K P s') :
    (p >>= g).Calls K P s := by
  induction p generalizing s with
  | ret a => exact hg a s hsafe
  | call c next ih => exact ⟨h.1, fun r s' hK => ih r (h.2 r s' hK) (hsafe r s' hK).2⟩
  | spin => trivial

theorem All.calls {Qa : α → Prop} {p : Prog C R α} (h : p.All P Qa) : p.Calls K P s := by
  induction p generalizing s with
  | ret a => trivial
  | call c next ih => exact ⟨h.1, fun r s' _ => ih r (h.2 r)⟩
  | spin => trivial

/-- Nothing needs to be known of the first part. -/
theorem Calls.bind_any {p : Prog C R α} {g : α → Prog C R β} (h : p.Calls K P s)
    (hg : ∀ a s', (g a).Calls K P s') : (p >>= g).Calls K P s := by
  apply h.bind (safe_of_exec fun _ _ _ => trivial)
  exact fun a s' _ => hg a s'

/-- A kernel that answers these calls in the same way gives the same run. -/
theorem Calls.run_eq {p : Prog C R α} (h : p.Calls (Graph kernel) P s)
    (hK : ∀ c s, P c → kernel' c (f s) = ((kernel c s).1, f (kernel c s).2)) :
    p.run kernel' (f s) = (p.run kernel s).map fun r => (r.1, f r.2) := by
  induction p generalizing s with
  | ret a => rfl
  | call c next ih =>
      rw [run_call, run_call, hK c s h.1]
      exact ih _ (h.2 _ _ rfl)
  | spin => rfl

end Calls

end Prog

end MiniSync
