import Mathlib.Data.List.Basic

/-!
# Pipes

A pipe is the list of all writes to it, with their writers, and the number of elements
that have been read.  Where every write is one record of a fixed size, a reader that asks
for one record after the other gets exactly the records, in the order of the writes,
however the reads are cut.
-/

namespace MiniSync

/-- All writes, in order, and how much has been read. -/
structure Pipe (ι β : Type) where
  writes : List (ι × List β)
  taken : Nat

namespace Pipe

variable {ι β : Type} {p : Pipe ι β} {size k n : Nat} {buf bytes : List β} {i : ι}

def empty : Pipe ι β := ⟨[], 0⟩

def records (p : Pipe ι β) : List (List β) := p.writes.map Prod.snd

def written (p : Pipe ι β) : List β := p.records.flatten

/-- What has been written and not yet read. -/
def waiting (p : Pipe ι β) : List β := p.written.drop p.taken

def push (p : Pipe ι β) (i : ι) (bytes : List β) : Pipe ι β :=
  { p with writes := p.writes ++ [(i, bytes)] }

def pull (p : Pipe ι β) (n : Nat) : Pipe ι β := { p with taken := p.taken + n }

/-- What one writer has written. -/
def sentBy [DecidableEq ι] (p : Pipe ι β) (i : ι) : List (List β) :=
  (p.writes.filter fun w => w.1 = i).map Prod.snd

@[simp] theorem records_push : (p.push i bytes).records = p.records ++ [bytes] := by
  simp [records, push]

@[simp] theorem written_push : (p.push i bytes).written = p.written ++ bytes := by
  simp [written]

@[simp] theorem taken_push : (p.push i bytes).taken = p.taken := rfl

@[simp] theorem records_pull : (p.pull n).records = p.records := rfl

@[simp] theorem written_pull : (p.pull n).written = p.written := rfl

@[simp] theorem taken_pull : (p.pull n).taken = p.taken + n := rfl

@[simp] theorem sentBy_pull [DecidableEq ι] : (p.pull n).sentBy i = p.sentBy i := rfl

@[simp] theorem sentBy_push_self [DecidableEq ι] : (p.push i bytes).sentBy i =
    p.sentBy i ++ [bytes] := by
  simp [sentBy, push]

theorem sentBy_push_of_ne [DecidableEq ι] {j : ι} (h : j ≠ i) :
    (p.push j bytes).sentBy i = p.sentBy i := by
  simp [sentBy, push, h]

/-! ## Records of one size -/

/-- Every write was one record, and no more has been read than written. -/
structure InRecords (size : Nat) (p : Pipe ι β) : Prop where
  length_eq : ∀ r ∈ p.records, r.length = size
  taken_le : p.taken ≤ p.written.length

theorem inRecords_empty : (empty : Pipe ι β).InRecords size :=
  ⟨fun _ hr => absurd hr List.not_mem_nil, Nat.le_refl 0⟩

theorem InRecords.push (h : p.InRecords size) (hbytes : bytes.length = size) :
    (p.push i bytes).InRecords size := by
  constructor
  · intro r hr
    rw [records_push, List.mem_append, List.mem_singleton] at hr
    rcases hr with hr | rfl
    · exact h.length_eq r hr
    · exact hbytes
  · have hle := h.taken_le
    rw [written_push, taken_push, List.length_append]
    omega

theorem length_waiting (p : Pipe ι β) : p.waiting.length = p.written.length - p.taken :=
  List.length_drop

theorem InRecords.pull (h : p.InRecords size) (hn : n ≤ p.waiting.length) :
    (p.pull n).InRecords size := by
  refine ⟨h.length_eq, ?_⟩
  have hle := h.taken_le
  rw [length_waiting] at hn
  rw [written_pull, taken_pull]
  omega

theorem length_flatten_of_size {l : List (List β)} (h : ∀ r ∈ l, r.length = size) :
    l.flatten.length = size * l.length := by
  induction l with
  | nil => simp
  | cons r l ih =>
      rw [List.flatten_cons, List.length_append, h r List.mem_cons_self,
        ih fun r hr => h r (List.mem_cons_of_mem _ hr), List.length_cons, Nat.mul_succ,
        Nat.add_comm]

theorem drop_flatten_of_size {l : List (List β)} (h : ∀ r ∈ l, r.length = size) (k : Nat) :
    l.flatten.drop (size * k) = (l.drop k).flatten := by
  induction k generalizing l with
  | zero => simp
  | succ k ih =>
      cases l with
      | nil => simp
      | cons r l =>
          have hr : r.length = size := h r List.mem_cons_self
          rw [List.flatten_cons, Nat.mul_succ, Nat.add_comm, ← List.drop_drop,
            List.drop_left' hr, ih fun r hr => h r (List.mem_cons_of_mem _ hr),
            List.drop_succ_cons]

theorem InRecords.length_written (h : p.InRecords size) :
    p.written.length = size * p.records.length :=
  length_flatten_of_size h.length_eq

/-! ## The reader -/

/-- The reader has read `k` records and the part `buf` of the next one. -/
structure ReadTo (size k : Nat) (buf : List β) (p : Pipe ι β) : Prop where
  taken_eq : p.taken = size * k + buf.length
  buf_eq : (p.written.drop (size * k)).take buf.length = buf

theorem readTo_empty : (empty : Pipe ι β).ReadTo size 0 [] := ⟨rfl, rfl⟩

/-- Writes do not disturb the reader. -/
theorem ReadTo.grow {q : Pipe ι β} {more : List (ι × List β)} (h : p.ReadTo size k buf)
    (hp : p.InRecords size) (hwrites : q.writes = p.writes ++ more) (htaken : q.taken = p.taken) :
    q.ReadTo size k buf := by
  have hle := hp.taken_le
  rw [h.taken_eq] at hle
  have hwritten : q.written = p.written ++ (more.map Prod.snd).flatten := by
    unfold written records
    rw [hwrites, List.map_append, List.flatten_append]
  refine ⟨htaken.trans h.taken_eq, ?_⟩
  rw [hwritten, List.drop_append_of_le_length (by omega), List.take_append_of_le_length]
  · exact h.buf_eq
  · rw [List.length_drop]
    omega

/-- One more read, of `n` elements. -/
theorem ReadTo.pull (h : p.ReadTo size k buf) (hn : n ≤ p.waiting.length) :
    (p.pull n).ReadTo size k (buf ++ p.waiting.take n) := by
  have hlen : (p.waiting.take n).length = n := by
    rw [List.length_take, Nat.min_eq_left hn]
  constructor
  · rw [taken_pull, h.taken_eq, List.length_append, hlen]
    omega
  · rw [written_pull, List.length_append, hlen, List.take_add, h.buf_eq, List.drop_drop,
      ← h.taken_eq]
    rfl

/-- What has been read of the next record, once it is complete, is that record. -/
theorem ReadTo.record (h : p.ReadTo size k buf) (hp : p.InRecords size) (hsize : 0 < size)
    (hbuf : buf.length = size) : p.records[k]? = some buf := by
  have hle := hp.taken_le
  rw [h.taken_eq, hbuf, hp.length_written, ← Nat.mul_succ] at hle
  have hk : k < p.records.length := Nat.le_of_mul_le_mul_left hle hsize
  have heq := h.buf_eq
  unfold written at heq
  rw [drop_flatten_of_size hp.length_eq, List.drop_eq_getElem_cons hk, List.flatten_cons, hbuf,
    List.take_left' (hp.length_eq _ (List.getElem_mem hk))] at heq
  rw [List.getElem?_eq_getElem hk, heq]

theorem ReadTo.next (h : p.ReadTo size k buf) (hbuf : buf.length = size) :
    p.ReadTo size (k + 1) [] := by
  refine ⟨?_, rfl⟩
  rw [h.taken_eq, hbuf, Nat.mul_succ, List.length_nil]
  omega

/-- Where everything has been read, no record has been read in part. -/
theorem ReadTo.ended (h : p.ReadTo size k buf) (hp : p.InRecords size)
    (hwaiting : p.waiting = []) (hbuf : buf.length < size) :
    buf = [] ∧ p.records.length = k := by
  have hle := hp.taken_le
  have hall : p.written.length ≤ p.taken := List.drop_eq_nil_iff.mp hwaiting
  have htaken : size * p.records.length = size * k + buf.length := by
    rw [← hp.length_written, ← h.taken_eq]
    omega
  have hmod := congrArg (· % size) htaken
  rw [Nat.mul_mod_right, Nat.mul_add_mod, Nat.mod_eq_of_lt hbuf] at hmod
  refine ⟨List.length_eq_zero_iff.mp hmod.symm, ?_⟩
  rw [← hmod, Nat.add_zero] at htaken
  exact Nat.eq_of_mul_eq_mul_left (by omega) htaken

end Pipe

/-! ## Reading up to a record that ends the reading -/

section UpTo

variable {α : Type} {stop : α → Bool} {a : α} {l l' : List α} {k : Nat}

/-- The elements up to the first at which to stop, which is the last. -/
def upTo (stop : α → Bool) : List α → List α
  | [] => []
  | a :: l => if stop a then [a] else a :: upTo stop l

theorem upTo_front (stop : α → Bool) (l : List α) : upTo stop l <+: l := by
  induction l with
  | nil => exact List.prefix_rfl
  | cons a l ih =>
      rw [upTo]
      split_ifs
      · exact List.prefix_append [a] l
      · exact (List.prefix_cons_inj a).mpr ih

theorem upTo_append_of_forall (h : ∀ a ∈ l, stop a = false) (l' : List α) :
    upTo stop (l ++ l') = l ++ upTo stop l' := by
  induction l with
  | nil => rfl
  | cons a l ih =>
      rw [List.cons_append, upTo, if_neg (by simp [h a List.mem_cons_self]),
        ih fun b hb => h b (List.mem_cons_of_mem a hb), List.cons_append]

theorem upTo_of_forall (h : ∀ a ∈ l, stop a = false) : upTo stop l = l := by
  have hall := upTo_append_of_forall h []
  rwa [List.append_nil, upTo, List.append_nil] at hall

theorem upTo_append_of_exists (h : ∃ a ∈ l, stop a = true) (l' : List α) :
    upTo stop (l ++ l') = upTo stop l := by
  induction l with
  | nil =>
      obtain ⟨a, ha, -⟩ := h
      cases ha
  | cons a l ih =>
      rw [List.cons_append, upTo, upTo]
      split_ifs with hstop
      · rfl
      · rw [ih]
        obtain ⟨b, hb, hbstop⟩ := h
        rcases List.mem_cons.mp hb with rfl | hb
        · exact absurd hbstop hstop
        · exact ⟨b, hb, hbstop⟩

theorem upTo_prefix_append (l l' : List α) : upTo stop l <+: upTo stop (l ++ l') := by
  by_cases h : ∃ a ∈ l, stop a = true
  · exact upTo_append_of_exists h l' ▸ List.prefix_rfl
  · have hall : ∀ a ∈ l, stop a = false := by
      intro a ha
      rw [← Bool.not_eq_true]
      exact fun hstop => h ⟨a, ha, hstop⟩
    rw [upTo_of_forall hall, upTo_append_of_forall hall]
    exact List.prefix_append l (upTo stop l')

theorem upTo_eq_append_cons (h : ∀ a ∈ l.take k, stop a = false) (hk : l[k]? = some a) :
    upTo stop l = l.take k ++ upTo stop (a :: l.drop (k + 1)) := by
  obtain ⟨hlt, rfl⟩ := List.getElem?_eq_some_iff.mp hk
  rw [← List.drop_eq_getElem_cons hlt, ← upTo_append_of_forall h, List.take_append_drop]

/-- After `k` elements at which not to stop, the next one belongs to what is read. -/
theorem take_append_prefix_upTo (h : ∀ a ∈ l.take k, stop a = false) (hk : l[k]? = some a) :
    l.take k ++ [a] <+: upTo stop l := by
  rw [upTo_eq_append_cons h hk, List.prefix_append_right_inj, upTo]
  split_ifs
  · exact List.prefix_rfl
  · exact List.prefix_append [a] _

theorem upTo_eq_take_append (h : ∀ a ∈ l.take k, stop a = false) (hk : l[k]? = some a)
    (hstop : stop a = true) : upTo stop l = l.take k ++ [a] := by
  rw [upTo_eq_append_cons h hk, upTo, if_pos hstop]

end UpTo

end MiniSync
