import Mathlib.Data.List.Nodup
import Mathlib.Logic.Function.Basic

/-!
# Queues of linked cells

A heap gives the cells at the addresses in use; `next` is the link of a cell.  A queue
is a chain of cells that ends in a null link, with a pointer to its first cell and one
to its last, both null when there is none.  Cells are added at the rear and taken away
at the front; the list of their addresses says which cells they are.
-/

namespace MiniSync

/-- Cells by address. -/
abbrev Heap (A V : Type) := A → Option V

namespace Heap

variable {A V : Type} [DecidableEq A]

def store (heap : Heap A V) (a : A) (v : V) : Heap A V := Function.update heap a (some v)

def free (heap : Heap A V) (a : A) : Heap A V := Function.update heap a none

@[simp] theorem store_self (heap : Heap A V) (a : A) (v : V) : heap.store a v a = some v :=
  Function.update_self ..

theorem store_ne {heap : Heap A V} {a b : A} (h : b ≠ a) (v : V) : heap.store a v b = heap b :=
  Function.update_of_ne h ..

theorem free_ne {heap : Heap A V} {a b : A} (h : b ≠ a) : heap.free a b = heap b :=
  Function.update_of_ne h ..

end Heap

section Chains

variable {A V β : Type} (next : V → Option A)

/-- The links lead from `p` through the cells `as` to `q`. -/
def Chain (heap : Heap A V) : Option A → List A → Option A → Prop
  | p, [], q => p = q
  | p, a :: as, q => p = some a ∧ ∃ v, heap a = some v ∧ Chain heap (next v) as q

/-- What the cells hold, in order. -/
def contents (f : V → β) (heap : Heap A V) (as : List A) : List β :=
  as.filterMap fun a => (heap a).map f

/-- A chain to null with a pointer to each end. -/
structure LinkedQueue (heap : Heap A V) (front rear : Option A) (as : List A) : Prop where
  chain : Chain next heap front as none
  rear_eq : rear = as.getLast?
  nodup : as.Nodup

variable {next} {f : V → β} {heap heap' : Heap A V} {front rear p q r : Option A} {as bs : List A}
  {a b : A} {v : V}

/-! ## Chains -/

theorem chain_append : Chain next heap p (as ++ bs) r ↔
    ∃ q, Chain next heap p as q ∧ Chain next heap q bs r := by
  induction as generalizing p with
  | nil =>
      constructor
      · intro h
        exact ⟨p, rfl, h⟩
      · rintro ⟨q, rfl, h⟩
        exact h
  | cons a as ih =>
      constructor
      · rintro ⟨hp, v, hv, h⟩
        obtain ⟨q, has, hbs⟩ := ih.mp h
        exact ⟨q, ⟨hp, v, hv, has⟩, hbs⟩
      · rintro ⟨q, ⟨hp, v, hv, has⟩, hbs⟩
        exact ⟨hp, v, hv, ih.mpr ⟨q, has, hbs⟩⟩

theorem Chain.congr (h : Chain next heap p as q) (hsame : ∀ a ∈ as, heap' a = heap a) :
    Chain next heap' p as q := by
  induction as generalizing p with
  | nil => exact h
  | cons a as ih =>
      obtain ⟨hp, v, hv, hrest⟩ := h
      refine ⟨hp, v, ?_, ih hrest fun b hb => hsame b (List.mem_cons_of_mem a hb)⟩
      rw [hsame a List.mem_cons_self, hv]

/-- Every cell of a chain is in use. -/
theorem Chain.isSome (h : Chain next heap p as q) (ha : a ∈ as) : (heap a).isSome := by
  induction as generalizing p with
  | nil => cases ha
  | cons b as ih =>
      obtain ⟨-, v, hv, hrest⟩ := h
      rcases List.mem_cons.mp ha with rfl | ha
      · rw [hv]
        rfl
      · exact ih hrest ha

theorem Chain.eq_none_iff (h : Chain next heap p as none) : p = none ↔ as = [] := by
  cases as with
  | nil => exact ⟨fun _ => rfl, fun _ => h⟩
  | cons a as =>
      rw [h.1]
      exact iff_of_false (Option.some_ne_none a) (List.cons_ne_nil a as)

theorem contents_congr (hsame : ∀ a ∈ as, (heap' a).map f = (heap a).map f) :
    contents f heap' as = contents f heap as :=
  List.filterMap_congr hsame

theorem contents_append : contents f heap (as ++ bs) = contents f heap as ++ contents f heap bs :=
  List.filterMap_append

theorem contents_cons (hv : heap a = some v) :
    contents f heap (a :: as) = f v :: contents f heap as := by
  refine List.filterMap_cons_some ?_
  rw [hv, Option.map_some]

theorem contents_singleton (hv : heap a = some v) : contents f heap [a] = [f v] :=
  contents_cons hv

/-! ## Queues -/

namespace LinkedQueue

theorem empty : LinkedQueue next heap none none [] := ⟨rfl, rfl, List.nodup_nil⟩

/-- What happens elsewhere in the heap does not matter. -/
theorem congr (h : LinkedQueue next heap front rear as) (hsame : ∀ a ∈ as, heap' a = heap a) :
    LinkedQueue next heap' front rear as :=
  ⟨h.chain.congr hsame, h.rear_eq, h.nodup⟩

theorem notMem_of_unused (h : LinkedQueue next heap front rear as) (ha : heap a = none) :
    a ∉ as := by
  intro hmem
  have hused := h.chain.isSome hmem
  rw [ha] at hused
  cases hused

theorem rear_eq_none_iff (h : LinkedQueue next heap front rear as) :
    rear = none ↔ front = none := by
  rw [h.chain.eq_none_iff, h.rear_eq, List.getLast?_eq_none_iff]

/-- The last cell: `rear` points to it and its link is null. -/
theorem rear_cell (h : LinkedQueue next heap front (some b) as) :
    ∃ bs v, as = bs ++ [b] ∧ Chain next heap front bs (some b) ∧ heap b = some v ∧
      next v = none := by
  obtain ⟨bs, rfl⟩ := List.getLast?_eq_some_iff.mp h.rear_eq.symm
  obtain ⟨q, hbs, hq, v, hv, hnext⟩ := chain_append.mp h.chain
  exact ⟨bs, v, rfl, hq ▸ hbs, hv, hnext⟩

/-- The first cell: `front` points to it, and what its link leads to is the rest. -/
theorem front_cell (h : LinkedQueue next heap (some a) rear as) :
    ∃ v rest, as = a :: rest ∧ heap a = some v ∧ Chain next heap (next v) rest none := by
  cases as with
  | nil =>
      have hchain := h.chain
      cases hchain
  | cons b rest =>
      obtain ⟨hb, v, hv, hrest⟩ := h.chain
      cases hb
      exact ⟨v, rest, rfl, hv, hrest⟩

/-- The first cell of a queue is taken away. -/
theorem dequeue (h : LinkedQueue next heap (some a) rear as) :
    ∃ v rest, as = a :: rest ∧ heap a = some v ∧ a ∉ rest ∧
      LinkedQueue next heap (next v) (if next v = none then none else rear) rest := by
  obtain ⟨v, rest, rfl, hv, hrest⟩ := h.front_cell
  obtain ⟨hnotMem, hnodup⟩ := List.nodup_cons.mp h.nodup
  refine ⟨v, rest, rfl, hv, hnotMem, hrest, ?_, hnodup⟩
  by_cases hnull : next v = none
  · rw [if_pos hnull, hrest.eq_none_iff.mp hnull, List.getLast?_nil]
  · obtain ⟨b, rest, rfl⟩ := List.exists_cons_of_ne_nil (mt hrest.eq_none_iff.mpr hnull)
    rw [if_neg hnull, h.rear_eq, List.getLast?_cons_cons]

/-- A cell becomes the only one of the queue. -/
theorem enqueue_first (h : LinkedQueue next heap front none as) (hv : heap a = some v)
    (hnext : next v = none) : as = [] ∧ LinkedQueue next heap (some a) (some a) (as ++ [a]) := by
  obtain rfl : as = [] := List.getLast?_eq_none_iff.mp h.rear_eq.symm
  refine ⟨rfl, ⟨rfl, v, hv, hnext⟩, rfl, List.nodup_singleton a⟩

variable [DecidableEq A]

/-- A cell is linked behind the last one, whose link is the only thing that changes. -/
theorem enqueue_behind {g : V → V} (h : LinkedQueue next heap front (some b) as)
    (hlink : ∀ v, next (g v) = some a) (hv : heap a = some v) (hnext : next v = none)
    (ha : a ∉ as) : ∃ w, heap b = some w ∧
      LinkedQueue next (heap.store b (g w)) front (some a) (as ++ [a]) := by
  obtain ⟨bs, w, rfl, hbs, hw, -⟩ := h.rear_cell
  have hab : a ≠ b := by
    rintro rfl
    exact ha List.mem_concat_self
  have hb : b ∉ bs := by
    intro hmem
    exact (List.nodup_append.mp h.nodup).2.2 b hmem b (List.mem_singleton_self b) rfl
  refine ⟨w, hw, ?_, ?_, ?_⟩
  · rw [List.append_assoc]
    refine chain_append.mpr ⟨some b, hbs.congr fun c hc => ?_, rfl, g w, ?_, ?_⟩
    · exact Heap.store_ne (ne_of_mem_of_not_mem hc hb) _
    · exact Heap.store_self ..
    · refine ⟨hlink w, v, ?_, hnext⟩
      rw [Heap.store_ne hab, hv]
  · rw [List.getLast?_append, List.getLast?_singleton, Option.some_or]
  · exact List.nodup_append.mpr ⟨h.nodup, List.nodup_singleton a, by
      rintro c hc c' hc' rfl
      exact ha (List.mem_singleton.mp hc' ▸ hc)⟩

end LinkedQueue

end Chains

end MiniSync
