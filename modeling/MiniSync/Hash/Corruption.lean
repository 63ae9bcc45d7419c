import Mathlib.Logic.Function.Basic
import MiniSync.Hash

/-!
# What a hash detects

Every round of FNV-1a can be undone: `xor` with the byte is its own inverse, and the
prime is odd, so multiplication by it is invertible modulo `2 ^ 64`.  Two buffers that
have gone different ways therefore never meet again over a common suffix, and a single
changed byte always changes the hash.
-/

namespace MiniSync

/-! ## Rounds that can be undone -/

/-- The inverse of `fnv1a64Prime` modulo `2 ^ 64`. -/
def fnv1a64PrimeInverse : UInt64 := 14886173955864302971

theorem fnv1a64Prime_mul_inverse : fnv1a64Prime * fnv1a64PrimeInverse = 1 := by decide

/-- The round backwards. -/
def fnv1aUnstep (hash : UInt64) (byte : Byte) : UInt64 :=
  (hash * fnv1a64PrimeInverse) ^^^ byte.toUInt64

theorem mul_fnv1a64Prime_inverse (x : UInt64) :
    x * fnv1a64Prime * fnv1a64PrimeInverse = x := by
  rw [UInt64.mul_assoc, fnv1a64Prime_mul_inverse, UInt64.mul_one]

theorem fnv1aUnstep_fnv1aStep (hash : UInt64) (byte : Byte) :
    fnv1aUnstep (fnv1aStep hash byte) byte = hash := by
  unfold fnv1aUnstep fnv1aStep
  rw [mul_fnv1a64Prime_inverse, UInt64.xor_assoc, UInt64.xor_self, UInt64.xor_zero]

/-- The same byte keeps different hashes apart. -/
theorem fnv1aStep_left_injective (byte : Byte) : Function.Injective (fnv1aStep · byte) :=
  Function.LeftInverse.injective (g := (fnv1aUnstep · byte))
    fun hash => fnv1aUnstep_fnv1aStep hash byte

/-- Different bytes take the same hash apart. -/
theorem fnv1aStep_right_injective (hash : UInt64) : Function.Injective (fnv1aStep hash) := by
  intro x y h
  have hxor : hash ^^^ x.toUInt64 = hash ^^^ y.toUInt64 := by
    rw [← mul_fnv1a64Prime_inverse (hash ^^^ x.toUInt64),
      ← mul_fnv1a64Prime_inverse (hash ^^^ y.toUInt64)]
    exact congrArg (· * fnv1a64PrimeInverse) h
  exact UInt8.toUInt64_inj.mp ((UInt64.xor_right_inj hash).mp hxor)

/-! ## Buffers -/

theorem hashBufferFnv1a_append (u w : Bytes) :
    hashBufferFnv1a (u ++ w) = w.foldl fnv1aStep (hashBufferFnv1a u) :=
  List.foldl_append

/-- A common suffix neither joins nor separates. -/
theorem foldl_fnv1aStep_inj (w : Bytes) {g h : UInt64} :
    w.foldl fnv1aStep g = w.foldl fnv1aStep h ↔ g = h := by
  induction w generalizing g h with
  | nil => rfl
  | cons byte w ih =>
      rw [List.foldl_cons, List.foldl_cons, ih]
      exact (fnv1aStep_left_injective byte).eq_iff

theorem hashBufferFnv1a_append_inj (u v w : Bytes) :
    hashBufferFnv1a (u ++ w) = hashBufferFnv1a (v ++ w) ↔
      hashBufferFnv1a u = hashBufferFnv1a v := by
  rw [hashBufferFnv1a_append, hashBufferFnv1a_append, foldl_fnv1aStep_inj]

/-- Buffers of one length that differ at position `i` and nowhere else. -/
def DifferAt (a b : Bytes) (i : Nat) : Prop :=
  a.length = b.length ∧ ∀ j, a[j]? ≠ b[j]? ↔ j = i

/-- One byte stands between what the two have in common. -/
theorem DifferAt.split {a b : Bytes} {i : Nat} (h : DifferAt a b i) :
    ∃ u x y w, a = u ++ x :: w ∧ b = u ++ y :: w ∧ x ≠ y := by
  obtain ⟨hlen, hdiff⟩ := h
  induction a generalizing b i with
  | nil =>
      obtain rfl : b = [] := List.length_eq_zero_iff.mp hlen.symm
      exact absurd rfl ((hdiff i).mpr rfl)
  | cons x a ih =>
      obtain ⟨y, b, rfl⟩ := List.exists_cons_of_length_eq_add_one hlen.symm
      cases i with
      | zero =>
          have hxy : x ≠ y := fun hxy => (hdiff 0).mpr rfl (congrArg some hxy)
          have hab : a = b := by
            apply List.ext_getElem?
            intro j
            by_contra hj
            exact Nat.succ_ne_zero j ((hdiff (j + 1)).mp hj)
          exact ⟨[], x, y, a, rfl, by rw [hab, List.nil_append], hxy⟩
      | succ i =>
          have hxy : x = y := by
            by_contra hne
            exact absurd ((hdiff 0).mp fun h => hne (Option.some.inj h)) (Nat.succ_ne_zero i).symm
          obtain ⟨u, x', y', w, rfl, rfl, hne⟩ := ih (Nat.succ.inj hlen)
            fun j => (hdiff (j + 1)).trans Nat.succ_inj
          exact ⟨x :: u, x', y', w, rfl, by rw [hxy, List.cons_append], hne⟩

/-- A single changed byte changes the hash. -/
theorem DifferAt.hash_ne {a b : Bytes} {i : Nat} (h : DifferAt a b i) :
    hashBufferFnv1a a ≠ hashBufferFnv1a b := by
  obtain ⟨u, x, y, w, rfl, rfl, hne⟩ := h.split
  rw [hashBufferFnv1a_append, hashBufferFnv1a_append, List.foldl_cons, List.foldl_cons]
  intro hhash
  exact hne (fnv1aStep_right_injective _ ((foldl_fnv1aStep_inj w).mp hhash))

/-- Hashes detect every corruption of a single byte, and two buffers whose hashes agree
before a common suffix are exactly those whose hashes agree after it. -/
theorem hashBufferFnv1a_detects :
    (∀ (a b : Bytes) (i : Nat), DifferAt a b i → hashBufferFnv1a a ≠ hashBufferFnv1a b) ∧
      ∀ u v w : Bytes, hashBufferFnv1a (u ++ w) = hashBufferFnv1a (v ++ w) ↔
        hashBufferFnv1a u = hashBufferFnv1a v :=
  ⟨fun _ _ _ h => h.hash_ne, hashBufferFnv1a_append_inj⟩

end MiniSync
