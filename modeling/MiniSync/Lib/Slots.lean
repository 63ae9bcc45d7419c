import Mathlib.Data.List.ReduceOption
import Mathlib.Data.List.Nodup

/-!
# Tables of slots

A fixed array whose cells are used or free, searched from the front: the first
used cell that satisfies a predicate, or the first free one.  Holes may appear
anywhere, so statements are about the entries in use, never about positions.
-/

namespace MiniSync.Slots

variable {α β : Type}

/-- The used entries, in slot order. -/
abbrev entries (slots : List (Option α)) : List α := slots.reduceOption

/-- Index of the first used slot whose entry satisfies `p`. -/
def find? (p : α → Bool) (slots : List (Option α)) : Option Nat :=
  slots.findIdx? (fun slot => slot.any p)

/-- Index of the first free slot. -/
def free? (slots : List (Option α)) : Option Nat :=
  slots.findIdx? Option.isNone

/-- Clear every used slot whose entry satisfies `p`. -/
def clear (p : α → Bool) (slots : List (Option α)) : List (Option α) :=
  slots.map fun slot => if slot.any p then none else slot

theorem mem_entries {slots : List (Option α)} {a : α} :
    a ∈ entries slots ↔ some a ∈ slots :=
  List.reduceOption_mem_iff

theorem mem_entries_iff_getElem? {slots : List (Option α)} {a : α} :
    a ∈ entries slots ↔ ∃ i : Nat, slots[i]? = some (some a) := by
  rw [mem_entries, List.mem_iff_getElem?]

theorem find?_eq_none {p : α → Bool} {slots : List (Option α)} :
    find? p slots = none ↔ ∀ a ∈ entries slots, p a = false := by
  unfold find?
  rw [List.findIdx?_eq_none_iff]
  constructor
  · intro h a ha
    have hslot := h (some a) (mem_entries.mp ha)
    simpa using hslot
  · intro h slot hslot
    cases slot with
    | none => rfl
    | some a => simpa using h a (mem_entries.mpr hslot)

theorem find?_eq_some {p : α → Bool} {slots : List (Option α)} {i : Nat}
    (h : find? p slots = some i) : ∃ a, slots[i]? = some (some a) ∧ p a = true := by
  unfold find? at h
  obtain ⟨hlt, hany, _⟩ := List.findIdx?_eq_some_iff_getElem.mp h
  cases hslot : slots[i] with
  | none => simp [hslot] at hany
  | some a =>
      refine ⟨a, ?_, by simpa [hslot] using hany⟩
      rw [List.getElem?_eq_getElem hlt, hslot]

theorem free?_eq_some {slots : List (Option α)} {i : Nat} (h : free? slots = some i) :
    slots[i]? = some none := by
  obtain ⟨hlt, hnone, _⟩ := List.findIdx?_eq_some_iff_getElem.mp h
  rw [List.getElem?_eq_getElem hlt]
  simpa using hnone

theorem free?_eq_none {slots : List (Option α)} (h : free? slots = none) :
    (entries slots).length = slots.length := by
  have hall := List.findIdx?_eq_none_iff.mp h
  rw [List.reduceOption_length_eq_iff]
  intro slot hslot
  have := hall slot hslot
  cases slot <;> simp_all

theorem lt_length_of_find? {p : α → Bool} {slots : List (Option α)} {i : Nat}
    (h : find? p slots = some i) : i < slots.length :=
  (List.findIdx?_eq_some_iff_getElem.mp h).1

theorem lt_length_of_free? {slots : List (Option α)} {i : Nat}
    (h : free? slots = some i) : i < slots.length :=
  (List.findIdx?_eq_some_iff_getElem.mp h).1

/-! ## Writing one slot -/

theorem mem_entries_of_mem_set {slots : List (Option α)} {i : Nat} {slot : Option α} {b : α}
    (h : b ∈ entries (slots.set i slot)) : slot = some b ∨ b ∈ entries slots := by
  rw [mem_entries] at h
  rcases List.mem_or_eq_of_mem_set h with hmem | heq
  · exact Or.inr (mem_entries.mpr hmem)
  · exact Or.inl heq.symm

theorem mem_entries_set_self {slots : List (Option α)} {i : Nat} {a : α}
    (hi : i < slots.length) : a ∈ entries (slots.set i (some a)) :=
  mem_entries.mpr (List.mem_set hi (some a))

/-- An entry survives a write to another slot. -/
theorem mem_entries_set_of_ne {slots : List (Option α)} {i : Nat} {slot : Option α} {b : α}
    (hb : b ∈ entries slots) (hne : slots[i]? ≠ some (some b)) :
    b ∈ entries (slots.set i slot) := by
  obtain ⟨j, hj⟩ := mem_entries_iff_getElem?.mp hb
  refine mem_entries_iff_getElem?.mpr ⟨j, ?_⟩
  have hij : i ≠ j := by
    rintro rfl
    exact hne hj
  rw [List.getElem?_set_ne hij, hj]

theorem set_none_of_free {slots : List (Option α)} {i : Nat} (h : slots[i]? = some none) :
    slots.set i none = slots := by
  obtain ⟨hlt, hslot⟩ := List.getElem?_eq_some_iff.mp h
  rw [← hslot]
  exact List.set_getElem_self hlt

/-- A search does not notice a write that answers it as before. -/
theorem find?_set_of_any_eq {p : α → Bool} {slots : List (Option α)} {i : Nat}
    {slot slot' : Option α} (hslot : slots[i]? = some slot) (hany : slot'.any p = slot.any p) :
    find? p (slots.set i slot') = find? p slots := by
  unfold find?
  induction slots generalizing i with
  | nil => simp at hslot
  | cons head slots ih =>
      cases i with
      | zero =>
          rw [List.getElem?_cons_zero, Option.some.injEq] at hslot
          rw [List.set_cons_zero, List.findIdx?_cons, List.findIdx?_cons, hany, hslot]
      | succ i =>
          rw [List.set_cons_succ, List.findIdx?_cons, List.findIdx?_cons, ih (by simpa using hslot)]

/-- The entry that is written, and those of the other slots. -/
theorem entries_set_perm {slots : List (Option α)} {i : Nat} {a : α} (hi : i < slots.length) :
    (entries (slots.set i (some a))).Perm (a :: entries (slots.set i none)) := by
  induction slots generalizing i with
  | nil => simp at hi
  | cons slot slots ih =>
      cases i with
      | zero => simp
      | succ i =>
          have hperm := ih (by simpa using hi)
          cases slot with
          | none => simpa using hperm
          | some c =>
              have hswap : (c :: a :: entries (slots.set i none)).Perm
                  (a :: c :: entries (slots.set i none)) := List.Perm.swap a c _
              simpa using (hperm.cons c).trans hswap

theorem entries_perm_of_getElem? {slots : List (Option α)} {i : Nat} {c : α}
    (h : slots[i]? = some (some c)) : (entries slots).Perm (c :: entries (slots.set i none)) := by
  obtain ⟨hlt, hslot⟩ := List.getElem?_eq_some_iff.mp h
  have hself : slots.set i (some c) = slots := by
    rw [← hslot]
    exact List.set_getElem_self hlt
  have hperm := entries_set_perm (a := c) hlt
  rwa [hself] at hperm

/-! ## Clearing -/

@[simp] theorem length_clear (p : α → Bool) (slots : List (Option α)) :
    (clear p slots).length = slots.length := by
  simp [clear]

theorem entries_clear (p : α → Bool) (slots : List (Option α)) :
    entries (clear p slots) = (entries slots).filter (fun a => !p a) := by
  induction slots with
  | nil => rfl
  | cons slot slots ih =>
      unfold clear at ih
      cases slot with
      | none => simpa [clear] using ih
      | some a => by_cases ha : p a = true <;> simp [clear, ha, ih]

/-! ## Distinct keys -/

/-- No two used entries have the same key. -/
def Distinct (key : α → β) (slots : List (Option α)) : Prop :=
  ((entries slots).map key).Nodup

theorem Distinct.clear {key : α → β} {slots : List (Option α)} (h : Distinct key slots)
    (p : α → Bool) : Distinct key (clear p slots) := by
  unfold Distinct
  rw [entries_clear]
  exact h.sublist ((List.filter_sublist).map key)

theorem Distinct.set_none {key : α → β} {slots : List (Option α)} (h : Distinct key slots)
    (i : Nat) : Distinct key (slots.set i none) := by
  induction slots generalizing i with
  | nil => simpa using h
  | cons slot slots ih =>
      have htail : Distinct key slots := by
        cases slot with
        | none => simpa [Distinct] using h
        | some a => exact (List.nodup_cons.mp (by simpa [Distinct] using h)).2
      cases i with
      | zero => simpa [Distinct] using htail
      | succ i =>
          have hset := ih htail i
          cases slot with
          | none => simpa [Distinct] using hset
          | some a =>
              have hcons : (key a :: (entries slots).map key).Nodup := h
              rw [List.nodup_cons] at hcons
              refine List.nodup_cons.mpr ⟨?_, hset⟩
              intro hmem
              obtain ⟨b, hb, hkey⟩ := List.mem_map.mp hmem
              rcases mem_entries_of_mem_set hb with hnone | hb
              · cases hnone
              · exact hcons.1 (hkey ▸ List.mem_map_of_mem hb)

theorem Distinct.eq_of_key {key : α → β} {slots : List (Option α)} (h : Distinct key slots)
    {a b : α} (ha : a ∈ entries slots) (hb : b ∈ entries slots) (hkey : key a = key b) : a = b :=
  List.inj_on_of_nodup_map h ha hb hkey

/-- Writing an entry keeps keys distinct when its key occurs in no other slot. -/
theorem Distinct.set_some {key : α → β} {slots : List (Option α)} (h : Distinct key slots)
    {i : Nat} {a : α}
    (hfresh : ∀ b ∈ entries (slots.set i none), key b ≠ key a) :
    Distinct key (slots.set i (some a)) := by
  induction slots generalizing i with
  | nil => simpa using h
  | cons slot slots ih =>
      have htail : Distinct key slots := by
        cases slot with
        | none => simpa [Distinct] using h
        | some a => exact (List.nodup_cons.mp (by simpa [Distinct] using h)).2
      cases i with
      | zero =>
          refine List.nodup_cons.mpr ⟨?_, htail⟩
          intro hmem
          obtain ⟨b, hb, hkey⟩ := List.mem_map.mp hmem
          exact hfresh b hb hkey
      | succ i =>
          cases slot with
          | none =>
              have hset := ih htail (by simpa using hfresh)
              simpa [Distinct] using hset
          | some c =>
              have hset := ih htail (i := i) (fun b hb => hfresh b (List.mem_cons_of_mem c hb))
              have hcons : (key c :: (entries slots).map key).Nodup := h
              rw [List.nodup_cons] at hcons
              refine List.nodup_cons.mpr ⟨?_, hset⟩
              intro hmem
              obtain ⟨b, hb, hkey⟩ := List.mem_map.mp hmem
              rcases mem_entries_of_mem_set hb with heq | hb
              · cases heq
                exact hfresh c (by simp) hkey.symm
              · exact hcons.1 (hkey ▸ List.mem_map_of_mem hb)

/-! ## Tables as finite maps -/

section Get

variable [DecidableEq β] {key : α → β} {slots : List (Option α)} {k : β} {a : α}

/-- The entry that the first slot with key `k` holds. -/
def get? (key : α → β) (slots : List (Option α)) (k : β) : Option α :=
  (entries slots).find? fun a => key a = k

theorem mem_of_get? (h : get? key slots k = some a) : a ∈ entries slots ∧ key a = k :=
  ⟨List.mem_of_find?_eq_some h, by simpa using List.find?_some h⟩

theorem get?_eq_none : get? key slots k = none ↔ ∀ a ∈ entries slots, key a ≠ k := by
  unfold get?
  simp

theorem Distinct.get?_eq_some (h : Distinct key slots) :
    get? key slots k = some a ↔ a ∈ entries slots ∧ key a = k := by
  refine ⟨mem_of_get?, ?_⟩
  rintro ⟨ha, rfl⟩
  cases hget : get? key slots (key a) with
  | none => exact absurd rfl (get?_eq_none.mp hget a ha)
  | some b =>
      obtain ⟨hb, hkey⟩ := mem_of_get? hget
      rw [h.eq_of_key hb ha hkey]

theorem find?_eq_none_iff_get? :
    find? (fun a => key a = k) slots = none ↔ get? key slots k = none := by
  rw [find?_eq_none, get?_eq_none]
  simp

theorem Distinct.get?_of_find? (h : Distinct key slots) {i : Nat}
    (hfind : find? (fun a => key a = k) slots = some i) :
    ∃ a, slots[i]? = some (some a) ∧ get? key slots k = some a := by
  obtain ⟨a, hslot, hkey⟩ := find?_eq_some hfind
  refine ⟨a, hslot, h.get?_eq_some.mpr ⟨?_, by simpa using hkey⟩⟩
  exact mem_entries_iff_getElem?.mpr ⟨i, hslot⟩

/-- The slot that is to hold key `k`: it does already, or it is free and no slot does. -/
def Holds (key : α → β) (slots : List (Option α)) (i : Nat) (k : β) : Prop :=
  (∃ c, slots[i]? = some (some c) ∧ key c = k) ∨
    slots[i]? = some none ∧ get? key slots k = none

theorem Holds.lt_length {i : Nat} (h : Holds key slots i k) : i < slots.length := by
  rcases h with ⟨c, hc, -⟩ | ⟨hnone, -⟩
  · exact (List.getElem?_eq_some_iff.mp hc).1
  · exact (List.getElem?_eq_some_iff.mp hnone).1

theorem Distinct.fresh {i : Nat} (h : Distinct key slots) (hi : Holds key slots i k) :
    ∀ b ∈ entries (slots.set i none), key b ≠ k := by
  rcases hi with ⟨c, hc, rfl⟩ | ⟨hnone, hget⟩
  · have hnodup : (key c :: (entries (slots.set i none)).map key).Nodup :=
      ((entries_perm_of_getElem? hc).map key).nodup_iff.mp h
    intro b hb heq
    exact (List.nodup_cons.mp hnodup).1 (heq ▸ List.mem_map_of_mem hb)
  · rw [set_none_of_free hnone]
    exact get?_eq_none.mp hget

theorem Distinct.set_of_holds {i : Nat} (h : Distinct key slots)
    (hi : Holds key slots i (key a)) : Distinct key (slots.set i (some a)) :=
  h.set_some (h.fresh hi)

/-- Writing a slot changes the map at the key that is written. -/
theorem Distinct.get?_set {i : Nat} (h : Distinct key slots) (hi : Holds key slots i (key a)) :
    get? key (slots.set i (some a)) k = if k = key a then some a else get? key slots k := by
  have hset := h.set_of_holds hi
  have hperm := entries_set_perm (a := a) hi.lt_length
  ext b
  rw [hset.get?_eq_some, hperm.mem_iff, List.mem_cons]
  by_cases hk : k = key a
  · subst hk
    rw [if_pos rfl]
    constructor
    · rintro ⟨rfl | hb, hkey⟩
      · rfl
      · exact absurd hkey (h.fresh hi b hb)
    · rintro ⟨⟩
      exact ⟨Or.inl rfl, rfl⟩
  · rw [if_neg hk, h.get?_eq_some]
    refine and_congr_left fun hkey => ?_
    have hne : b ≠ a := by
      rintro rfl
      exact hk hkey.symm
    rcases hi with ⟨c, hc, hckey⟩ | ⟨hnone, -⟩
    · rw [(entries_perm_of_getElem? hc).mem_iff, List.mem_cons]
      have hbc : b ≠ c := by
        rintro rfl
        exact hk (hkey.symm.trans hckey)
      simp [hne, hbc]
    · rw [set_none_of_free hnone]
      simp [hne]

end Get

end MiniSync.Slots
