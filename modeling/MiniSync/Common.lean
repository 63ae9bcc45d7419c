import Mathlib.Data.List.TakeWhile

/-!
# Bytes, limits and path buffers

The constants of `common.h`, and the two shapes in which the program holds
text: raw bytes as they travel through pipes and sockets, and the contents of a
`char [MAX_PATH_LEN]` that is used as a C string.
-/

namespace MiniSync

abbrev Byte := UInt8

abbrev Bytes := List UInt8

/-- Bytes of an ASCII literal. -/
def ascii (s : String) : Bytes := s.toList.map Char.toUInt8

def slash : Byte := 47

def dot : Byte := 46

def nul : Byte := 0

/-! ## `common.h` -/

def maxPathLen : Nat := 512

def maxNetPath : Nat := 512

def defaultBlockSize : Nat := 4096

def defaultHashThreshold : Nat := 10 * 1024 * 1024

def defaultDebounceMs : Nat := 1500

/-- The results `MINISYNC_OK` and `MINISYNC_ERR` of the C functions. -/
inductive Rc
  | ok
  | err
  deriving DecidableEq, Repr

theorem Rc.ok_of_ne_err {rc : Rc} (h : ¬ rc = .err) : rc = .ok := by
  cases rc with
  | ok => rfl
  | err => exact absurd rfl h

/-! ## C strings -/

/-- What a C function sees of a NUL-terminated buffer. -/
def cString (bytes : Bytes) : Bytes := bytes.takeWhile (· != nul)

theorem nul_notMem_cString (bytes : Bytes) : nul ∉ cString bytes := by
  intro h
  have := List.mem_takeWhile_imp h
  simp at this

theorem cString_of_nul_notMem {bytes : Bytes} (h : nul ∉ bytes) : cString bytes = bytes := by
  unfold cString
  rw [List.takeWhile_eq_self_iff]
  intro b hb
  have hne : b ≠ nul := fun heq => h (heq ▸ hb)
  simpa using hne

/-- The contents of a `char [MAX_PATH_LEN]` holding a C string. -/
structure PathBuf where
  bytes : Bytes
  length_lt : bytes.length < maxPathLen
  noNul : nul ∉ bytes
  deriving DecidableEq

namespace PathBuf

/-- A zeroed buffer. -/
def empty : PathBuf := ⟨[], by decide, by simp⟩

/-- `snprintf(buf, MAX_PATH_LEN, "%s", bytes)`, `none` where the call reports
that the text did not fit. -/
def ofBytes? (bytes : Bytes) : Option PathBuf :=
  if h : (cString bytes).length < maxPathLen then
    some ⟨cString bytes, h, nul_notMem_cString bytes⟩
  else none

theorem ofBytes?_bytes (buf : PathBuf) : ofBytes? buf.bytes = some buf := by
  unfold ofBytes?
  have hself : cString buf.bytes = buf.bytes := cString_of_nul_notMem buf.noNul
  rw [dif_pos (by rw [hself]; exact buf.length_lt)]
  simp only [hself]

theorem eq_of_bytes_eq {a b : PathBuf} (h : a.bytes = b.bytes) : a = b := by
  cases a
  cases b
  cases h
  rfl

end PathBuf

end MiniSync
