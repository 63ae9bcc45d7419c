import Mathlib.Data.List.Basic
import Mathlib.Tactic.Ring

/-!
# Byte strings

Writing a buffer into a byte string at an offset, with the gap filled as POSIX
fills it, and fixed-width little-endian numbers.
-/

namespace MiniSync.ByteString

/-! ## Writing at an offset -/

section Splice

variable {α : Type} (zero : α)

/-- `data` after `buf` is written at `off`.  A gap reads as `zero`; writing
nothing changes nothing, even past the end. -/
def splice (data : List α) (off : Nat) (buf : List α) : List α :=
  if buf = [] then data
  else data.take off ++ List.replicate (off - data.length) zero ++ buf ++
    data.drop (off + buf.length)

variable {zero} {data buf whole : List α} {off k n : Nat}

@[simp] theorem splice_nil : splice zero data off [] = data := by simp [splice]

theorem splice_end : splice zero data data.length buf = data ++ buf := by
  unfold splice
  split_ifs with h
  · simp [h]
  · simp

/-- A prefix of `whole` with zeros after it, where `whole` has zeros there. -/
theorem take_append_replicate (hk : k ≤ whole.length) (hoff : off ≤ whole.length)
    (hgap : ∀ j, k ≤ j → j < off → whole[j]? = some zero) :
    whole.take k ++ List.replicate (off - k) zero = whole.take (max k off) := by
  apply List.ext_getElem?
  intro j
  have hlen : (whole.take k).length = k := by
    rw [List.length_take, Nat.min_eq_left hk]
  rcases Nat.lt_or_ge j k with hj | hj
  · rw [List.getElem?_append_left (by omega), List.getElem?_take_of_lt hj,
      List.getElem?_take_of_lt (by omega)]
  · rw [List.getElem?_append_right (by omega), hlen, List.getElem?_replicate]
    split_ifs with hlt
    · rw [List.getElem?_take_of_lt (by omega), hgap j hj (by omega)]
    · rw [List.getElem?_eq_none]
      rw [List.length_take]
      omega

/-- Writing a piece of `whole` onto a prefix of `whole` leaves a prefix of
`whole`, if `whole` has zeros in the gap between the two. -/
theorem splice_take (hk : k ≤ whole.length)
    (hgap : ∀ j, k ≤ j → j < off → whole[j]? = some zero) (hpos : 0 < n)
    (hn : off + n ≤ whole.length) :
    splice zero (whole.take k) off ((whole.drop off).take n) =
      whole.take (max k (off + n)) := by
  have hlen : ((whole.drop off).take n).length = n := by
    rw [List.length_take, List.length_drop]
    omega
  have hne : (whole.drop off).take n ≠ [] := by
    intro h
    rw [h, List.length_nil] at hlen
    omega
  have hklen : (whole.take k).length = k := by
    rw [List.length_take, Nat.min_eq_left hk]
  unfold splice
  rw [if_neg hne, hlen, hklen]
  rcases Nat.le_total off k with hoff | hoff
  · rw [Nat.sub_eq_zero_of_le hoff, List.replicate_zero, List.append_nil, List.take_take,
      Nat.min_eq_left hoff, ← List.take_add, List.drop_take]
    rcases Nat.le_total k (off + n) with hkn | hkn
    · rw [Nat.max_eq_right hkn, Nat.sub_eq_zero_of_le hkn, List.take_zero, List.append_nil]
    · rw [Nat.max_eq_left hkn, ← List.take_add]
      congr 1
      omega
  · rw [List.take_of_length_le (by omega), take_append_replicate hk (by omega) hgap,
      Nat.max_eq_right hoff, ← List.take_add, List.drop_of_length_le (by omega),
      List.append_nil, Nat.max_eq_right (by omega)]

end Splice

/-! ## Little-endian numbers -/

def leBytes : Nat → Nat → List UInt8
  | 0, _ => []
  | width + 1, n => UInt8.ofNat (n % 256) :: leBytes width (n / 256)

def leNat : List UInt8 → Nat
  | [] => 0
  | b :: bs => b.toNat + 256 * leNat bs

@[simp] theorem length_leBytes (width n : Nat) : (leBytes width n).length = width := by
  induction width generalizing n with
  | zero => rfl
  | succ width ih => simp [leBytes, ih]

theorem leNat_leBytes (width n : Nat) : leNat (leBytes width n) = n % 256 ^ width := by
  induction width generalizing n with
  | zero => simp [leBytes, leNat, Nat.mod_one]
  | succ width ih =>
      have hbyte : (UInt8.ofNat (n % 256)).toNat = n % 256 := by simp
      rw [leBytes, leNat, ih, hbyte, Nat.pow_succ, Nat.mul_comm (256 ^ width), Nat.mod_mul]

theorem leNat_lt (bytes : List UInt8) : leNat bytes < 256 ^ bytes.length := by
  induction bytes with
  | nil => simp [leNat]
  | cons b bs ih =>
      have hb := b.toNat_lt
      rw [leNat, List.length_cons, Nat.pow_succ]
      omega

theorem leBytes_leNat (bytes : List UInt8) : leBytes bytes.length (leNat bytes) = bytes := by
  induction bytes with
  | nil => rfl
  | cons b bs ih =>
      have hb := b.toNat_lt
      have hlow : (b.toNat + 256 * leNat bs) % 256 = b.toNat := by omega
      have hhigh : (b.toNat + 256 * leNat bs) / 256 = leNat bs := by omega
      rw [List.length_cons, leNat, leBytes, hlow, hhigh, ih]
      simp

end MiniSync.ByteString
