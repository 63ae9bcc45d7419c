import Mathlib.Logic.Function.Basic
import MiniSync.Lib.Prog

/-!
# Threads that share a state behind one lock

Any number of threads run one program each.  A call acts on the shared state and
on a state private to its thread; some calls take or give back the lock, and only
a thread that holds the lock may change the shared state.

What a thread does in any interleaving is a run of its program alone against a
kernel that changes the shared state arbitrarily as long as the thread does not
hold the lock (`Run.project`); and a property of the shared state that every
thread keeps in this sense holds in every reachable state (`Run.invariant`).
-/

namespace MiniSync.Threads

open Prog

/-- What a call does to the lock. -/
inductive LockOp
  | acquire
  | release
  | none
  deriving DecidableEq

/-- How the calls use the lock, and which of them may change the shared state. -/
structure Lock (C : Type) where
  op : C → LockOp
  writes : C → Prop

structure Thread (C : Type) (R : C → Type) (α ρ : Type) where
  prog : Prog C R α
  priv : ρ

/-- All threads, the state they share, and who holds the lock. -/
structure Config (ι C : Type) (R : C → Type) (α σ ρ : Type) where
  shared : σ
  holder : Option ι
  threads : ι → Thread C R α ρ

/-- One call of one thread; `before` is the shared state it was made in. -/
structure Event (ι C : Type) (R : C → Type) (σ : Type) where
  thread : ι
  call : C
  response : R call
  before : σ

variable {ι C : Type} {R : C → Type} {α β σ ρ : Type} [DecidableEq ι]

def LockOp.holderAfter (i : ι) : LockOp → Option ι → Option ι
  | .acquire, _ => some i
  | .release, _ => Option.none
  | .none, holder => holder

/-- What a thread may do to both states. -/
abbrev Kernel (C : Type) (R : C → Type) (σ ρ : Type) := (c : C) → σ × ρ → R c → σ × ρ → Prop

variable (K : Kernel C R σ ρ) (L : Lock C)

/-- One thread makes its next call; taking the lock waits until it is free. -/
inductive Step : Config ι C R α σ ρ → Event ι C R σ → Config ι C R α σ ρ → Prop
  | call {s : Config ι C R α σ ρ} {i : ι} {c : C} {next : R c → Prog C R α} {r : R c}
      {shared : σ} {priv : ρ} (hprog : (s.threads i).prog = .call c next)
      (hfree : L.op c = .acquire → s.holder = none)
      (hK : K c (s.shared, (s.threads i).priv) r (shared, priv)) :
      Step s ⟨i, c, r, s.shared⟩
        ⟨shared, (L.op c).holderAfter i s.holder,
          Function.update s.threads i ⟨next r, priv⟩⟩

inductive Run : Config ι C R α σ ρ → List (Event ι C R σ) → Config ι C R α σ ρ → Prop
  | nil (s : Config ι C R α σ ρ) : Run s [] s
  | cons {s s₁ s₂ : Config ι C R α σ ρ} {e : Event ι C R σ} {tr : List (Event ι C R σ)} :
      Step K L s e s₁ → Run s₁ tr s₂ → Run s (e :: tr) s₂

/-- The calls of thread `i` in a run take the program `p` to `q`. -/
inductive Ran (i : ι) : Prog C R α → List (Event ι C R σ) → Prog C R α → Prop
  | nil (p : Prog C R α) : Ran i p [] p
  | other {p q : Prog C R α} {e : Event ι C R σ} {tr : List (Event ι C R σ)} :
      e.thread ≠ i → Ran i p tr q → Ran i p (e :: tr) q
  | own {c : C} {next : R c → Prog C R α} {r : R c} {before : σ} {q : Prog C R α}
      {tr : List (Event ι C R σ)} :
      Ran i (next r) tr q → Ran i (.call c next) (⟨i, c, r, before⟩ :: tr) q

/-- The shared states in which thread `i` made calls that use the lock as `op`. -/
def statesAt (i : ι) (op : LockOp) (tr : List (Event ι C R σ)) : List σ :=
  (tr.filter fun e => e.thread = i ∧ L.op e.call = op).map Event.before

/-! ## Discipline -/

def LockOp.holdingAfter : LockOp → Bool → Bool
  | .acquire, _ => true
  | .release, _ => false
  | .none, holding => holding

/-- The program, holding the lock or not, takes and releases it properly and
changes the shared state only while holding it; `Q` says how it may end. -/
def Guarded (Q : Bool → Prop) : Prog C R α → Bool → Prop
  | .ret _, b => Q b
  | .call c next, b =>
      (L.writes c → b = true) ∧ (L.op c = .acquire → b = false) ∧
        (L.op c = .release → b = true) ∧
          ∀ r, Guarded Q (next r) ((L.op c).holdingAfter b)
  | .spin, _ => True

section Guarded

variable {L} {Q Q' : Bool → Prop} {b : Bool}

theorem guarded_call {c : C} {next : R c → Prog C R α} :
    Guarded L Q (.call c next) b ↔ (L.writes c → b = true) ∧ (L.op c = .acquire → b = false) ∧
      (L.op c = .release → b = true) ∧
        ∀ r, Guarded L Q (next r) ((L.op c).holdingAfter b) := Iff.rfl

theorem Guarded.bind {p : Prog C R α} {f : α → Prog C R β} (h : Guarded L Q p b)
    (hf : ∀ a b, Q b → Guarded L Q' (f a) b) : Guarded L Q' (p >>= f) b := by
  induction p generalizing b with
  | ret a => exact hf a b h
  | call c next ih =>
      obtain ⟨hwrites, hacquire, hrelease, hrest⟩ := guarded_call.mp h
      exact guarded_call.mpr ⟨hwrites, hacquire, hrelease, fun r => ih r (hrest r)⟩
  | spin => trivial

/-- Code that does not use the lock may do what holding it, or not, allows. -/
theorem Guarded.of_all {p : Prog C R α} {P : C → Prop} {Qa : α → Prop} (h : p.All P Qa)
    (hP : ∀ c, P c → L.op c = .none ∧ (L.writes c → b = true)) : Guarded L (· = b) p b := by
  induction p with
  | ret a => rfl
  | call c next ih =>
      obtain ⟨hop, hwrites⟩ := hP c h.1
      refine guarded_call.mpr ⟨hwrites, by simp [hop], by simp [hop], fun r => ?_⟩
      rw [hop]
      exact ih r (h.2 r)
  | spin => trivial

theorem Guarded.acquire {c : C} {f : R c → Prog C R α} (hop : L.op c = .acquire)
    (hwrites : ¬ L.writes c) (h : ∀ r, Guarded L Q (f r) true) :
    Guarded L Q (op c >>= f) false := by
  refine guarded_call.mpr ⟨fun hw => absurd hw hwrites, fun _ => rfl, by simp [hop], fun r => ?_⟩
  rw [hop]
  exact h r

theorem Guarded.release {c : C} {f : R c → Prog C R α} (hop : L.op c = .release)
    (hwrites : ¬ L.writes c) (h : ∀ r, Guarded L Q (f r) false) :
    Guarded L Q (op c >>= f) true := by
  refine guarded_call.mpr ⟨fun hw => absurd hw hwrites, by simp [hop], fun _ => rfl, fun r => ?_⟩
  rw [hop]
  exact h r

end Guarded

/-! ## One thread alone -/

/-- What one thread knows. -/
structure View (σ ρ : Type) where
  holding : Bool
  /-- The shared state, of use only while the lock is held. -/
  shared : σ
  priv : ρ
  /-- The shared states in which the lock was taken, and in which it was given back. -/
  taken : List σ
  given : List σ

/-- A call as one thread sees it: without the lock it finds any shared state that
satisfies `I`. -/
structure ViewStep (I : σ → Prop) (c : C) (v : View σ ρ) (r : R c) (v' : View σ ρ)
    (found : σ) : Prop where
  inv : I found
  kept : v.holding = true → found = v.shared
  kernel : K c (found, v.priv) r (v'.shared, v'.priv)
  holding : v'.holding = (L.op c).holdingAfter v.holding
  taken : v'.taken = if L.op c = .acquire then v.taken ++ [found] else v.taken
  given : v'.given = if L.op c = .release then v.given ++ [found] else v.given

/-- The kernel that one thread sees. -/
def viewKernel (I : σ → Prop) (c : C) (v : View σ ρ) (r : R c) (v' : View σ ρ) : Prop :=
  ∃ found, ViewStep K L I c v r v' found

section Views

variable {K L} {I : σ → Prop} {A : View σ ρ → Prop} {v : View σ ρ}

/-- Code that does not use the lock, while it is held, acts as if it were alone. -/
theorem Safe.locked {p : Prog C R α} {P : C → Prop} {B : σ × ρ → Prop} {Q : α → σ × ρ → Prop}
    (hall : p.All P fun _ => True) (hP : ∀ c, P c → L.op c = .none) (hv : v.holding = true)
    (h : p.Safe K B Q (v.shared, v.priv)) :
    p.Safe (viewKernel K L I) (fun v' => B (v'.shared, v'.priv))
      (fun a v' => Q a (v'.shared, v'.priv) ∧ v'.holding = true ∧ v'.taken = v.taken ∧
        v'.given = v.given) v := by
  induction p generalizing v with
  | ret a => exact ⟨h, hv, rfl, rfl⟩
  | call c next ih =>
      rintro r v' ⟨found, hstep⟩
      have hop := hP c hall.1
      have hfound := hstep.kept hv
      subst hfound
      have hholding : v'.holding = true := by
        rw [hstep.holding, hop]
        exact hv
      have htaken : v'.taken = v.taken := by
        rw [hstep.taken, hop, if_neg (by simp)]
      have hgiven : v'.given = v.given := by
        rw [hstep.given, hop, if_neg (by simp)]
      obtain ⟨hB, hnext⟩ := h r (v'.shared, v'.priv) hstep.kernel
      refine ⟨hB, ?_⟩
      have hrec := ih r (hall.2 r) hholding hnext
      rwa [htaken, hgiven] at hrec
  | spin => trivial

/-- Code that does not use the lock keeps the record of locking. -/
theorem Safe.noLock {p : Prog C R α} {P : C → Prop} (hall : p.All P fun _ => True)
    (hP : ∀ c, P c → L.op c = .none) :
    p.Safe (viewKernel K L I) (fun _ => True)
      (fun _ v' => v'.taken = v.taken ∧ v'.given = v.given) v := by
  apply (All.safe hall (I := fun v' => v'.taken = v.taken ∧ v'.given = v.given) _
    ⟨rfl, rfl⟩).mono
  · exact fun _ _ => trivial
  · exact fun _ _ h => h.2
  · rintro c v₁ r v₂ hc ⟨htaken, hgiven⟩ ⟨found, hstep⟩
    have hop := hP c hc
    rw [hstep.taken, hstep.given, hop, if_neg (by simp), if_neg (by simp)]
    exact ⟨htaken, hgiven⟩

/-- Code that does not use the lock, while it is not held, keeps the record of
locking and leaves what `I` says of the shared state. -/
theorem Safe.unlocked {p : Prog C R α} {P : C → Prop} (hall : p.All P fun _ => True)
    (hP : ∀ c, P c → L.op c = .none ∧ ∀ s r s', K c s r s' → s'.1 = s.1)
    (hv : v.holding = false) :
    p.Safe (viewKernel K L I) (fun v' => I v'.shared)
      (fun _ v' => v'.holding = false ∧ v'.taken = v.taken ∧ v'.given = v.given) v := by
  induction p generalizing v with
  | ret a => exact ⟨hv, rfl, rfl⟩
  | call c next ih =>
      rintro r v' ⟨found, hstep⟩
      obtain ⟨hop, hsame⟩ := hP c hall.1
      have hshared : v'.shared = found := hsame _ _ _ hstep.kernel
      have hholding : v'.holding = false := by
        rw [hstep.holding, hop]
        exact hv
      have htaken : v'.taken = v.taken := by
        rw [hstep.taken, hop, if_neg (by simp)]
      have hgiven : v'.given = v.given := by
        rw [hstep.given, hop, if_neg (by simp)]
      have hI : I v'.shared := by
        rw [hshared]
        exact hstep.inv
      refine ⟨hI, ?_⟩
      have hrec := ih r (hall.2 r) hholding
      rwa [htaken, hgiven] at hrec
  | spin => trivial

end Views

/-! ## Projection -/

variable {K L}

/-- The view agrees with the configuration. -/
structure Matches (s : Config ι C R β σ ρ) (i : ι) (v : View σ ρ) : Prop where
  holding : v.holding = true ↔ s.holder = some i
  shared : v.holding = true → s.shared = v.shared
  priv : (s.threads i).priv = v.priv

/-- Every thread is disciplined. -/
def Disciplined (L : Lock C) (s : Config ι C R α σ ρ) : Prop :=
  ∀ i, ∃ b Q, (b = true ↔ s.holder = some i) ∧ Guarded L Q (s.threads i).prog b

section Steps

omit [DecidableEq ι] in
/-- The lock after a step of thread `i`, as another thread sees it. -/
theorem holder_other {op : LockOp} {i j : ι} {holder : Option ι} (hij : j ≠ i)
    (hacquire : op = .acquire → holder = none) (hrelease : op = .release → holder = some i) :
    op.holderAfter i holder = some j ↔ holder = some j := by
  have hne : i ≠ j := fun h => hij h.symm
  cases op with
  | acquire => simp [LockOp.holderAfter, hacquire rfl, hne]
  | release => simp [LockOp.holderAfter, hrelease rfl, hne]
  | none => simp [LockOp.holderAfter]

omit [DecidableEq ι] in
/-- The lock after a step of thread `i`, as it sees it itself. -/
theorem holder_self {op : LockOp} {i : ι} {b : Bool} {holder : Option ι}
    (hb : b = true ↔ holder = some i) :
    op.holdingAfter b = true ↔ op.holderAfter i holder = some i := by
  cases op with
  | acquire => simp [LockOp.holderAfter, LockOp.holdingAfter]
  | release => simp [LockOp.holderAfter, LockOp.holdingAfter]
  | none => simpa [LockOp.holderAfter, LockOp.holdingAfter] using hb

variable {s s' : Config ι C R α σ ρ} {e : Event ι C R σ} {i : ι}

theorem Step.threads_other {j : ι} (hstep : Step K L s e s') (hj : j ≠ e.thread) :
    s'.threads j = s.threads j := by
  cases hstep
  exact Function.update_of_ne hj _ _

theorem Disciplined.step (h : Disciplined L s) (hstep : Step K L s e s') : Disciplined L s' := by
  cases hstep with
  | @call i c next r shared priv hprog hfree hK =>
  intro j
  obtain ⟨bi, Qi, hbi, hguard⟩ := h i
  rw [hprog] at hguard
  obtain ⟨-, -, hrelease, hnext⟩ := guarded_call.mp hguard
  by_cases hij : j = i
  · subst hij
    refine ⟨(L.op c).holdingAfter bi, Qi, holder_self hbi, ?_⟩
    simpa using hnext r
  · obtain ⟨bj, Qj, hbj, hguardj⟩ := h j
    refine ⟨bj, Qj, ?_, ?_⟩
    · rw [hbj]
      exact (holder_other hij hfree fun hop => hbi.mp (hrelease hop)).symm
    · simpa [Function.update_of_ne hij] using hguardj

/-- Calls that do not write leave the shared state alone. -/
def Respects (K : Kernel C R σ ρ) (L : Lock C) : Prop :=
  ∀ c s r s', K c s r s' → ¬ L.writes c → s'.1 = s.1

/-- A step of one thread is not noticed by another. -/
theorem Matches.step_other {j : ι} {v : View σ ρ} (hK : Respects K L) (hd : Disciplined L s)
    (hm : Matches s j v) (hstep : Step K L s e s') (hj : e.thread ≠ j) : Matches s' j v := by
  cases hstep with
  | @call i c next r shared priv hprog hfree hcall =>
  have hij : j ≠ i := fun h => hj h.symm
  obtain ⟨bi, Qi, hbi, hguard⟩ := hd i
  rw [hprog] at hguard
  obtain ⟨hwrites, -, hrelease, -⟩ := guarded_call.mp hguard
  have hholder : (L.op c).holderAfter i s.holder = some j ↔ s.holder = some j :=
    holder_other hij hfree fun hop => hbi.mp (hrelease hop)
  refine ⟨hm.holding.trans hholder.symm, fun hv => ?_, ?_⟩
  · have hnot : ¬ L.writes c := by
      intro hw
      have hi := hbi.mp (hwrites hw)
      rw [hm.holding.mp hv] at hi
      exact hij (Option.some.inj hi)
    exact (hK _ _ _ _ hcall hnot).trans (hm.shared hv)
  · simpa [Function.update_of_ne hij] using hm.priv

/-- A step of a thread is a step of its view. -/
theorem Matches.step_own {I : σ → Prop} {v : View σ ρ} {c : C} {next : R c → Prog C R α}
    {r : R c} {before : σ} (hI : I s.shared) (hm : Matches s i v)
    (hprog : (s.threads i).prog = .call c next)
    (hstep : Step K L s ⟨i, c, r, before⟩ s') :
    ∃ v', ViewStep K L I c v r v' before ∧ Matches s' i v' ∧
      (s'.threads i).prog = next r ∧ v'.shared = s'.shared := by
  cases hstep with
  | call hprog' hfree hcall =>
      rw [hprog] at hprog'
      cases hprog'
      rename_i shared priv
      refine ⟨⟨(L.op c).holdingAfter v.holding, shared, priv,
        if L.op c = .acquire then v.taken ++ [s.shared] else v.taken,
        if L.op c = .release then v.given ++ [s.shared] else v.given⟩, ?_, ?_, ?_, rfl⟩
      · refine ⟨hI, hm.shared, ?_, rfl, rfl, rfl⟩
        rw [← hm.priv]
        exact hcall
      · exact ⟨holder_self hm.holding, fun _ => rfl, by simp⟩
      · simp

end Steps

/-! ## Runs -/

section Runs

variable {s s' : Config ι C R α σ ρ} {tr : List (Event ι C R σ)} {i : ι}

theorem Run.disciplined (h : Disciplined L s) (hrun : Run K L s tr s') : Disciplined L s' := by
  induction hrun with
  | nil s => exact h
  | cons hstep _ ih => exact ih (h.step hstep)

theorem Run.append {s'' : Config ι C R α σ ρ} {tr' : List (Event ι C R σ)}
    (h : Run K L s tr s') (h' : Run K L s' tr' s'') : Run K L s (tr ++ tr') s'' := by
  induction h with
  | nil s => exact h'
  | cons hstep _ ih => exact .cons hstep (ih h')

/-- What one thread does in a run of all threads, it does alone. -/
theorem Run.project {p : Prog C R β} {k : β → Prog C R α} {a : β} {A : View σ ρ → Prop}
    {Q : β → View σ ρ → Prop} {v : View σ ρ} (hK : Respects K L) (hd : Disciplined L s)
    (hm : Matches s i v) (hprog : (s.threads i).prog = p >>= k) (hrun : Run K L s tr s')
    (hran : Ran i p tr (.ret a)) (h : p.Safe (viewKernel K L fun _ => True) A Q v) :
    ∃ v', Q a v' ∧ Matches s' i v' ∧ v'.taken = v.taken ++ statesAt L i .acquire tr ∧
      v'.given = v.given ++ statesAt L i .release tr := by
  induction hrun generalizing p v with
  | nil s =>
      cases hran
      exact ⟨v, h, hm, by simp [statesAt], by simp [statesAt]⟩
  | @cons s s₁ s₂ e tr hstep hrest ih =>
      by_cases hi : e.thread = i
      · cases hran with
        | other hne _ => exact absurd hi hne
        | @own c next r before q tr hnext =>
            obtain ⟨v₁, hview, hm₁, hprog₁, -⟩ :=
              hm.step_own (I := fun _ => True) trivial hprog hstep
            obtain ⟨-, hsafe⟩ := h r v₁ ⟨_, hview⟩
            obtain ⟨v₂, hQ, hm₂, htaken, hgiven⟩ :=
              ih (hd.step hstep) hm₁ hprog₁ hnext hsafe
            refine ⟨v₂, hQ, hm₂, ?_, ?_⟩
            · rw [htaken, hview.taken]
              by_cases hop : L.op c = .acquire <;> simp [statesAt, hop]
            · rw [hgiven, hview.given]
              by_cases hop : L.op c = .release <;> simp [statesAt, hop]
      · cases hran with
        | own _ => exact absurd rfl hi
        | other _ hran =>
            have hm₁ := hm.step_other hK hd hstep hi
            have hprog₁ : (s₁.threads i).prog = p >>= k := by
              rw [hstep.threads_other fun h => hi h.symm, hprog]
            obtain ⟨v₂, hQ, hm₂, htaken, hgiven⟩ := ih (hd.step hstep) hm₁ hprog₁ hran h
            refine ⟨v₂, hQ, hm₂, ?_, ?_⟩
            · rw [htaken]
              simp [statesAt, hi]
            · rw [hgiven]
              simp [statesAt, hi]

/-- Every thread, alone, keeps `I` of the shared state from here on. -/
def KeptByAll (K : Kernel C R σ ρ) (L : Lock C) (I : σ → Prop) (s : Config ι C R α σ ρ) : Prop :=
  ∀ i, ∃ v, Matches s i v ∧ (s.threads i).prog.Safe (viewKernel K L I) (fun v => I v.shared)
    (fun _ _ => True) v

theorem KeptByAll.step {I : σ → Prop} {e : Event ι C R σ} (hK : Respects K L)
    (hd : Disciplined L s) (hI : I s.shared) (h : KeptByAll K L I s) (hstep : Step K L s e s') :
    I s'.shared ∧ KeptByAll K L I s' := by
  obtain ⟨i, c, r, before⟩ := e
  obtain ⟨v, hm, hsafe⟩ := h i
  cases hprog : (s.threads i).prog with
  | ret a =>
      cases hstep with
      | call hprog' _ _ =>
          rw [hprog] at hprog'
          cases hprog'
  | spin =>
      cases hstep with
      | call hprog' _ _ =>
          rw [hprog] at hprog'
          cases hprog'
  | call c' next =>
      have hc : c' = c := by
        cases hstep with
        | call hprog' _ _ =>
            rw [hprog] at hprog'
            cases hprog'
            rfl
      subst hc
      obtain ⟨v₁, hview, hm₁, hprog₁, hshared⟩ := hm.step_own hI hprog hstep
      rw [hprog] at hsafe
      obtain ⟨hI₁, hsafe₁⟩ := hsafe r v₁ ⟨_, hview⟩
      refine ⟨hshared ▸ hI₁, fun j => ?_⟩
      by_cases hij : j = i
      · subst hij
        exact ⟨v₁, hm₁, hprog₁ ▸ hsafe₁⟩
      · obtain ⟨vj, hmj, hsafej⟩ := h j
        refine ⟨vj, hmj.step_other hK hd hstep (fun h => hij h.symm), ?_⟩
        rw [hstep.threads_other hij]
        exact hsafej

/-- What every thread keeps holds in every reachable state. -/
theorem Run.invariant {I : σ → Prop} (hK : Respects K L) (hd : Disciplined L s)
    (hI : I s.shared) (h : KeptByAll K L I s) (hrun : Run K L s tr s') : I s'.shared := by
  induction hrun with
  | nil s => exact hI
  | cons hstep _ ih =>
      obtain ⟨hI₁, h₁⟩ := h.step hK hd hI hstep
      exact ih (hd.step hstep) hI₁ h₁

end Runs

/-! ## Playing a schedule -/

section Play

variable (kernel : (c : C) → σ × ρ → R c × (σ × ρ)) (L)

/-- The next call of thread `i`, answered by `kernel`. -/
def tick (i : ι) (s : Config ι C R α σ ρ) : Option (Event ι C R σ × Config ι C R α σ ρ) :=
  match (s.threads i).prog with
  | .call c next =>
      if L.op c = .acquire ∧ s.holder.isSome then none
      else
        let answer := kernel c (s.shared, (s.threads i).priv)
        some (⟨i, c, answer.1, s.shared⟩,
          ⟨answer.2.1, (L.op c).holderAfter i s.holder,
            Function.update s.threads i ⟨next answer.1, answer.2.2⟩⟩)
  | _ => none

/-- The threads of a schedule in turn; a thread that cannot move is passed over. -/
def play : List ι → Config ι C R α σ ρ → List (Event ι C R σ) × Config ι C R α σ ρ
  | [], s => ([], s)
  | i :: sched, s =>
      match tick L kernel i s with
      | none => play sched s
      | some (e, s₁) => (e :: (play sched s₁).1, (play sched s₁).2)

/-- The next call of thread `i` satisfies `ok`. -/
def nextPasses (ok : C → σ × ρ → Bool) (i : ι) (s : Config ι C R α σ ρ) : Bool :=
  match (s.threads i).prog with
  | .call c _ => ok c (s.shared, (s.threads i).priv)
  | _ => true

/-- Every call of a schedule satisfies `ok`. -/
def passes (ok : C → σ × ρ → Bool) : List ι → Config ι C R α σ ρ → Bool
  | [], _ => true
  | i :: sched, s =>
      nextPasses ok i s &&
        match tick L kernel i s with
        | none => passes ok sched s
        | some (_, s₁) => passes ok sched s₁

variable {kernel L} {ok : C → σ × ρ → Bool}

omit [DecidableEq ι] in
theorem nextPasses_true (i : ι) (s : Config ι C R α σ ρ) :
    nextPasses (fun _ _ => true) i s = true := by
  unfold nextPasses
  split <;> rfl

theorem passes_true (sched : List ι) (s : Config ι C R α σ ρ) :
    passes L kernel (fun _ _ => true) sched s = true := by
  induction sched generalizing s with
  | nil => rfl
  | cons i sched ih =>
      rw [passes, nextPasses_true, Bool.true_and]
      split
      · exact ih s
      · exact ih _

theorem Step.of_tick {i : ι} {s s₁ : Config ι C R α σ ρ} {e : Event ι C R σ}
    (hcover : ∀ c s, ok c s = true → K c s (kernel c s).1 (kernel c s).2)
    (hok : nextPasses ok i s = true) (h : tick L kernel i s = some (e, s₁)) :
    Step K L s e s₁ := by
  unfold tick at h
  split at h
  · rename_i c next hprog
    have hpass : ok c (s.shared, (s.threads i).priv) = true := by
      unfold nextPasses at hok
      rwa [hprog] at hok
    by_cases hblocked : L.op c = .acquire ∧ s.holder.isSome = true
    · rw [if_pos hblocked] at h
      cases h
    · rw [if_neg hblocked] at h
      cases h
      refine .call hprog (fun hop => ?_) (hcover c _ hpass)
      simpa [hop] using hblocked
  · cases h

/-- Playing a schedule is a run of any kernel that allows the answers. -/
theorem Run.of_play (kernel : (c : C) → σ × ρ → R c × (σ × ρ)) (ok : C → σ × ρ → Bool)
    (hcover : ∀ c s, ok c s = true → K c s (kernel c s).1 (kernel c s).2)
    (sched : List ι) (s : Config ι C R α σ ρ) (hok : passes L kernel ok sched s = true) :
    Run K L s (play L kernel sched s).1 (play L kernel sched s).2 := by
  induction sched generalizing s with
  | nil => exact .nil s
  | cons i sched ih =>
      rw [passes, Bool.and_eq_true] at hok
      obtain ⟨hnext, hrest⟩ := hok
      rw [play]
      split
      · rename_i htick
        rw [htick] at hrest
        exact ih s hrest
      · rename_i e s₁ htick
        rw [htick] at hrest
        exact .cons (.of_tick hcover hnext htick) (ih s₁ hrest)

/-- A thread that finds the lock free, or holds it, can run a part of its program
to the end while the others wait. -/
theorem Run.of_run {p : Prog C R β} {k : β → Prog C R α} {a : β} {Q : Bool → Prop} {b : Bool}
    {s : Config ι C R α σ ρ} {i : ι} {after : σ × ρ}
    (hcover : ∀ c s, K c s (kernel c s).1 (kernel c s).2) (hguard : Guarded L Q p b)
    (hb : s.holder = if b then some i else none) (hprog : (s.threads i).prog = p >>= k)
    (hrun : p.run kernel (s.shared, (s.threads i).priv) = some (a, after)) :
    ∃ tr s' b', Run K L s tr s' ∧ Ran i p tr (.ret a) ∧ s'.shared = after.1 ∧
      s'.threads i = ⟨k a, after.2⟩ ∧ Q b' ∧ s'.holder = if b' then some i else none := by
  induction p generalizing b s with
  | ret a' =>
      cases hrun
      refine ⟨[], s, b, .nil s, .nil _, rfl, ?_, hguard, hb⟩
      rw [← show (s.threads i).prog = k a from hprog]
  | call c next ih =>
      obtain ⟨-, hacquire, -, hnext⟩ := guarded_call.mp hguard
      have hfree : L.op c = .acquire → s.holder = none := by
        intro hop
        rw [hb, hacquire hop]
        rfl
      have hstep := Step.call (K := K) (L := L) hprog hfree (hcover c _)
      obtain ⟨tr, s', b', hrest, hran, hafter⟩ := ih _ (hnext _)
        (s := ⟨_, (L.op c).holderAfter i s.holder, Function.update s.threads i ⟨_, _⟩⟩)
        (by rw [hb]; cases L.op c <;> cases b <;> rfl) (by simp; rfl) (by simpa using hrun)
      exact ⟨_ :: tr, s', b', .cons hstep hrest, .own hran, hafter⟩
  | spin => cases hrun

end Play

end MiniSync.Threads
