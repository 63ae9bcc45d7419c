import MiniSync.Lib.Threads

/-!
# Critical sections are atomic

Of the calls that a thread has made something is recorded, such as what it has read.  A
thread alone, which finds any shared state when it takes the lock, changes the shared state
from taking to giving back the lock as `E` says for its record (`Sectioned`).  Then in every
run of all threads each shared state in which the lock is given back follows from the last
one as `E` says for the record of the thread that gives it back (`Run.serial`): the run is
one of whole critical sections, one after the other.
-/

namespace MiniSync.Threads

open Prog

variable {ι C : Type} {R : C → Type} {α β σ ρ H : Type} [DecidableEq ι]
  (K : Kernel C R σ ρ) (L : Lock C) (record : H → (c : C) → R c → H) (I : σ → Prop)
  (E : H → σ → σ → Prop)

/-- Alone, a program changes the shared state from taking to giving back the lock as `E`
says for its record, where it takes the lock in a state that satisfies `I`, and leaves it in
one.  The state is the one the lock was taken in and the present one, while the lock is held;
`Q` says how the program may end. -/
def Sectioned (Q : α → Option (σ × σ) → H → Prop) :
    Prog C R α → Option (σ × σ) → H → ρ → Prop
  | .ret a, held, h, _ => Q a held h
  | .call c next, none, h, priv => ∀ s r s', (L.op c = .acquire → I s) → K c (s, priv) r s' →
      Sectioned Q (next r) (if L.op c = .acquire then some (s, s'.1) else none) (record h c r) s'.2
  | .call c next, some (base, s), h, priv => ∀ r s', K c (s, priv) r s' →
      (L.op c = .release → I s'.1 ∧ E h base s'.1) ∧
        Sectioned Q (next r) (if L.op c = .release then none else some (base, s'.1))
          (record h c r) s'.2
  | .spin, _, _, _ => True

/-- What is recorded while any answers come. -/
def recording (c : C) (h : H) (r : R c) (h' : H) : Prop := h' = record h c r

/-- A thread alone, with its record. -/
def recordKernel (c : C) (s : (σ × ρ) × H) (r : R c) (s' : (σ × ρ) × H) : Prop :=
  K c s.1 r s'.1 ∧ s'.2 = record s.2 c r

section Programs

variable {K L record I E} {Q : α → Option (σ × σ) → H → Prop}
  {Q' : β → Option (σ × σ) → H → Prop} {held : Option (σ × σ)} {base s : σ} {h : H} {priv : ρ}

theorem Sectioned.bind {p : Prog C R α} {f : α → Prog C R β}
    (hp : Sectioned K L record I E Q p held h priv)
    (hf : ∀ a held h priv, Q a held h → Sectioned K L record I E Q' (f a) held h priv) :
    Sectioned K L record I E Q' (p >>= f) held h priv := by
  induction p generalizing held h priv with
  | ret a => exact hf a held h priv hp
  | call c next ih =>
      cases held with
      | none => exact fun s r s' hI hK => ih r (hp s r s' hI hK)
      | some held =>
          intro r s' hK
          obtain ⟨hrelease, hnext⟩ := hp r s' hK
          exact ⟨hrelease, ih r hnext⟩
  | spin => trivial

theorem Sectioned.mono {Q' : α → Option (σ × σ) → H → Prop} {p : Prog C R α}
    (hp : Sectioned K L record I E Q p held h priv) (hQ : ∀ a held h, Q a held h → Q' a held h) :
    Sectioned K L record I E Q' p held h priv := by
  induction p generalizing held h priv with
  | ret a => exact hQ a held h hp
  | call c next ih =>
      cases held with
      | none => exact fun s r s' hI hK => ih r (hp s r s' hI hK)
      | some held =>
          intro r s' hK
          obtain ⟨hrelease, hnext⟩ := hp r s' hK
          exact ⟨hrelease, ih r hnext⟩
  | spin => trivial

/-- Code that does not use the lock, outside the critical sections. -/
theorem Sectioned.outside {p : Prog C R α} {P : C → Prop} {B : H → Prop} {Qh : α → H → Prop}
    (hall : p.All P fun _ => True) (hP : ∀ c, P c → L.op c = .none)
    (hsafe : p.Safe (recording record) B Qh h) :
    Sectioned K L record I E (fun a held h' => held = none ∧ Qh a h') p none h priv := by
  induction p generalizing h priv with
  | ret a => exact ⟨rfl, hsafe⟩
  | call c next ih =>
      intro s r s' _ _
      have hop := hP c hall.1
      rw [if_neg (by simp [hop])]
      exact ih r (hall.2 r) (hsafe r _ rfl).2
  | spin => trivial

/-- Code that does not use the lock, inside a critical section. -/
theorem Sectioned.inside {p : Prog C R α} {f : α → Prog C R β} {P : C → Prop}
    {B : (σ × ρ) × H → Prop} (hall : p.All P fun _ => True) (hP : ∀ c, P c → L.op c = .none)
    (hsafe : p.Safe (recordKernel K record) B
      (fun a s' => Sectioned K L record I E Q' (f a) (some (base, s'.1.1)) s'.2 s'.1.2)
      ((s, priv), h)) :
    Sectioned K L record I E Q' (p >>= f) (some (base, s)) h priv := by
  induction p generalizing s h priv with
  | ret a => exact hsafe
  | call c next ih =>
      intro r s' hK
      have hop := hP c hall.1
      refine ⟨fun hrelease => ?_, ?_⟩
      · rw [hop] at hrelease
        cases hrelease
      · rw [if_neg (by simp [hop])]
        exact ih r (hall.2 r) (hsafe r (s', _) ⟨hK, rfl⟩).2
  | spin => trivial

theorem Sectioned.acquire {c : C} {f : R c → Prog C R α} (hop : L.op c = .acquire)
    (hf : ∀ s r s', I s → K c (s, priv) r s' →
      Sectioned K L record I E Q (f r) (some (s, s'.1)) (record h c r) s'.2) :
    Sectioned K L record I E Q (op c >>= f) none h priv := by
  intro s r s' hI hK
  rw [if_pos hop]
  exact hf s r s' (hI hop) hK

theorem Sectioned.release {c : C} {f : R c → Prog C R α} (hop : L.op c = .release)
    (hf : ∀ r s', K c (s, priv) r s' → (I s'.1 ∧ E h base s'.1) ∧
      Sectioned K L record I E Q (f r) none (record h c r) s'.2) :
    Sectioned K L record I E Q (op c >>= f) (some (base, s)) h priv := by
  intro r s' hK
  obtain ⟨hdone, hnext⟩ := hf r s' hK
  refine ⟨fun _ => hdone, ?_⟩
  rw [if_pos hop]
  exact hnext

end Programs

/-! ## Runs -/

/-- The shared states in which the lock was given back. -/
def releases (tr : List (Event ι C R σ)) : List σ :=
  (tr.filter fun e => L.op e.call = .release).map Event.before

/-- What has been recorded of thread `i` after the events. -/
def recorded (i : ι) (h : H) (tr : List (Event ι C R σ)) : H :=
  tr.foldl (fun h e => if e.thread = i then record h e.call e.response else h) h

/-- `base` is the shared state in which the lock was last taken, or is free. -/
structure Serial (base : σ) (hs : ι → H) (s : Config ι C R α σ ρ) : Prop where
  inv : I base
  free : s.holder = none → s.shared = base
  held : ∀ i, s.holder = some i → Sectioned K L record I E (fun _ _ _ => True)
    (s.threads i).prog (some (base, s.shared)) (hs i) (s.threads i).priv
  others : ∀ i, s.holder ≠ some i → Sectioned K L record I E (fun _ _ _ => True)
    (s.threads i).prog none (hs i) (s.threads i).priv

section Runs

variable {K L record I E} {s s' : Config ι C R α σ ρ} {e : Event ι C R σ} {base : σ} {hs : ι → H}
  {tr : List (Event ι C R σ)}

/-- The base after a step. -/
def LockOp.baseAfter (base given : σ) : LockOp → σ
  | .acquire => base
  | .release => given
  | .none => base

/-- A step of the thread that holds the lock. -/
theorem Serial.step_holder {i : ι} {c : C} {next : R c → Prog C R α} {r : R c} {shared : σ}
    {priv : ρ} (hK : Respects K L) (hlock : ∀ c, L.op c ≠ .none → ¬ L.writes c)
    (h : Serial K L record I E base hs s) (hprog : (s.threads i).prog = .call c next)
    (hholder : s.holder = some i) (hacquire : L.op c ≠ .acquire)
    (hcall : K c (s.shared, (s.threads i).priv) r (shared, priv)) :
    Serial K L record I E ((L.op c).baseAfter base s.shared)
        (Function.update hs i (record (hs i) c r))
        ⟨shared, (L.op c).holderAfter i s.holder, Function.update s.threads i ⟨next r, priv⟩⟩ ∧
      (L.op c = .release → E (hs i) base s.shared) := by
  have hown := h.held i hholder
  rw [hprog] at hown
  obtain ⟨hdone, hnext⟩ := hown r (shared, priv) hcall
  have hothers : ∀ j, j ≠ i → Sectioned K L record I E (fun _ _ _ => True) (s.threads j).prog none
      (hs j) (s.threads j).priv := by
    intro j hj
    apply h.others j
    rw [hholder]
    exact fun heq => hj (Option.some.inj heq).symm
  cases hop : L.op c with
  | acquire => exact absurd hop hacquire
  | release =>
      have hsame : shared = s.shared := hK _ _ _ _ hcall (hlock c (by simp [hop]))
      subst hsame
      obtain ⟨hI, hE⟩ := hdone hop
      rw [if_pos hop] at hnext
      refine ⟨⟨hI, fun _ => rfl, fun j hj => ?_, fun j _ => ?_⟩, fun _ => hE⟩
      · cases hj
      by_cases hj : j = i
      · subst hj
        simpa using hnext
      · simpa [Function.update_of_ne hj] using hothers j hj
  | none =>
      rw [if_neg (by simp [hop])] at hnext
      refine ⟨⟨h.inv, fun hnone => ?_, fun j hj => ?_, fun j hj => ?_⟩, by rintro ⟨⟩⟩
      · rw [LockOp.holderAfter, hholder] at hnone
        cases hnone
      · have heq : j = i := by
          rw [LockOp.holderAfter, hholder] at hj
          exact (Option.some.inj hj).symm
        subst heq
        simpa [LockOp.baseAfter] using hnext
      · have hne : j ≠ i := by
          rintro rfl
          exact hj hholder
        simpa [Function.update_of_ne hne] using hothers j hne

/-- A step of a thread that does not hold the lock. -/
theorem Serial.step_other {i : ι} {c : C} {next : R c → Prog C R α} {r : R c} {priv : ρ}
    (h : Serial K L record I E base hs s) (hprog : (s.threads i).prog = .call c next)
    (hholder : s.holder ≠ some i) (hrelease : L.op c ≠ .release)
    (hfree : L.op c = .acquire → s.holder = none)
    (hcall : K c (s.shared, (s.threads i).priv) r (s.shared, priv)) :
    Serial K L record I E ((L.op c).baseAfter base s.shared)
      (Function.update hs i (record (hs i) c r))
      ⟨s.shared, (L.op c).holderAfter i s.holder, Function.update s.threads i ⟨next r, priv⟩⟩ := by
  have hown := h.others i hholder
  rw [hprog] at hown
  cases hop : L.op c with
  | release => exact absurd hop hrelease
  | acquire =>
      have hnone := hfree hop
      have hbase := h.free hnone
      have hnext := hown s.shared r (s.shared, priv) (fun _ => hbase ▸ h.inv) hcall
      rw [if_pos hop] at hnext
      refine ⟨h.inv, fun heq => ?_, fun j hj => ?_, fun j hj => ?_⟩
      · cases heq
      · have heq : j = i := (Option.some.inj hj).symm
        subst heq
        rw [LockOp.baseAfter, ← hbase]
        simpa using hnext
      · have hne : j ≠ i := by
          rintro rfl
          exact hj rfl
        have hsection := h.others j (by simp [hnone])
        simpa [Function.update_of_ne hne] using hsection
  | none =>
      have hnext := hown s.shared r (s.shared, priv) (fun heq => by simp [hop] at heq) hcall
      rw [if_neg (by simp [hop])] at hnext
      refine ⟨h.inv, h.free, fun j hj => ?_, fun j hj => ?_⟩
      · have hne : j ≠ i := by
          rintro rfl
          exact hholder hj
        simpa [Function.update_of_ne hne, LockOp.baseAfter] using h.held j hj
      · by_cases heq : j = i
        · subst heq
          simpa using hnext
        · simpa [Function.update_of_ne heq] using h.others j hj

theorem Serial.step (hK : Respects K L) (hlock : ∀ c, L.op c ≠ .none → ¬ L.writes c)
    (hd : Disciplined L s) (h : Serial K L record I E base hs s) (hstep : Step K L s e s') :
    Serial K L record I E ((L.op e.call).baseAfter base e.before)
        (Function.update hs e.thread (record (hs e.thread) e.call e.response)) s' ∧
      (L.op e.call = .release → E (hs e.thread) base e.before) := by
  cases hstep with
  | @call i c next r shared priv hprog hfree hcall =>
  obtain ⟨b, Q, hb, hguard⟩ := hd i
  rw [hprog] at hguard
  obtain ⟨hwrites, hacquire, hrelease, -⟩ := guarded_call.mp hguard
  by_cases hholder : s.holder = some i
  · have hheld : b = true := hb.mpr hholder
    apply h.step_holder hK hlock hprog hholder _ hcall
    intro hop
    rw [hacquire hop] at hheld
    cases hheld
  · have hnot : ¬ b = true := fun hheld => hholder (hb.mp hheld)
    have hsame : shared = s.shared := hK _ _ _ _ hcall fun hw => hnot (hwrites hw)
    subst hsame
    have hother : L.op c ≠ .release := fun hop => hnot (hrelease hop)
    exact ⟨h.step_other hprog hholder hother hfree hcall, fun hop => absurd hop hother⟩

theorem recorded_cons (i : ι) (hs : ι → H) (e : Event ι C R σ) (tr : List (Event ι C R σ)) :
    recorded record i (hs i) (e :: tr) =
      recorded record i (Function.update hs e.thread (record (hs e.thread) e.call e.response) i)
        tr := by
  rw [recorded, List.foldl_cons]
  by_cases hi : e.thread = i
  · subst hi
    rw [if_pos rfl, Function.update_self]
    rfl
  · rw [if_neg hi, Function.update_of_ne (Ne.symm hi)]
    rfl

omit [DecidableEq ι] in
theorem getLastD_releases_cons (base : σ) (e : Event ι C R σ) (tr : List (Event ι C R σ)) :
    (releases L (e :: tr)).getLastD base =
      (releases L tr).getLastD ((L.op e.call).baseAfter base e.before) := by
  cases hop : L.op e.call with
  | release =>
      have htr : releases L (e :: tr) = e.before :: releases L tr := by simp [releases, hop]
      rw [htr, List.getLastD_cons]
      rfl
  | acquire =>
      have htr : releases L (e :: tr) = releases L tr := by simp [releases, hop]
      rw [htr]
      rfl
  | none =>
      have htr : releases L (e :: tr) = releases L tr := by simp [releases, hop]
      rw [htr]
      rfl

/-- In every run each state in which the lock is given back follows from the one before it as
`E` says for the record of its thread, and the shared state is the last of them when the lock
is free. -/
theorem Run.serial (hK : Respects K L) (hlock : ∀ c, L.op c ≠ .none → ¬ L.writes c)
    (hd : Disciplined L s) (h : Serial K L record I E base hs s) (hrun : Run K L s tr s') :
    (∀ before e after, tr = before ++ e :: after → L.op e.call = .release →
      E (recorded record e.thread (hs e.thread) before) ((releases L before).getLastD base)
        e.before) ∧
      Serial K L record I E ((releases L tr).getLastD base)
        (fun i => recorded record i (hs i) tr) s' := by
  induction hrun generalizing base hs with
  | nil s => exact ⟨fun before e after htr => by simp at htr, h⟩
  | @cons s s₁ s₂ e tr hstep hrest ih =>
      obtain ⟨hserial, hE⟩ := h.step hK hlock hd hstep
      obtain ⟨hsections, hend⟩ := ih (hd.step hstep) hserial
      simp only [recorded_cons, getLastD_releases_cons]
      refine ⟨fun before e' after htr hop => ?_, hend⟩
      cases before with
      | nil =>
          obtain ⟨rfl, rfl⟩ := List.cons.inj htr
          exact hE hop
      | cons e₀ before =>
          obtain ⟨rfl, rfl⟩ := List.cons.inj htr
          have hsection := hsections before e' after rfl hop
          rwa [← recorded_cons, ← getLastD_releases_cons] at hsection

end Runs

end MiniSync.Threads
