import MiniSync.Kernel

/-!
# FNV-1a hashes

`hash.c`: the 64-bit hash of a buffer, and the same hash streamed over a file.
-/

namespace MiniSync

def fnv1a64OffsetBasis : UInt64 := 14695981039346656037

def fnv1a64Prime : UInt64 := 1099511628211

/-- One round: `hash ^= byte; hash *= prime`. -/
def fnv1aStep (hash : UInt64) (byte : Byte) : UInt64 :=
  (hash ^^^ byte.toUInt64) * fnv1a64Prime

def hashBufferFnv1a (data : Bytes) : UInt64 :=
  data.foldl fnv1aStep fnv1a64OffsetBasis

/-- The size of the stack buffer of `hash_fd_range` and `copy_file_plain`. -/
def ioBufSize : Nat := 8192

variable {Fd : Type}

/-- The read loop of `hash_fd_range`; `len` is `none` where it is not limited. -/
def hashFdLoop (fd : Fd) : Nat → Nat → Option Nat → UInt64 → Sys Fd UInt64
  | 0, _, _, _ => .spin
  | fuel + 1, pos, len, hash => do
      if len = some 0 then return hash
      let want := min ioBufSize (len.getD ioBufSize)
      match ← sys (.read fd pos want) with
      | .error .intr => hashFdLoop fd fuel pos len hash
      | .error _ => return 0
      | .ok buf =>
          if buf = [] then return hash
          hashFdLoop fd fuel (pos + buf.length) (len.map (· - buf.length))
            (buf.foldl fnv1aStep hash)

def hashFdRange (fuel : Nat) (fd : Fd) (offset : Int) (len : Option Nat) : Sys Fd UInt64 := do
  if offset > 0 then
    match ← sys (.lseek fd offset) with
    | .error _ => return 0
    | .ok _ => hashFdLoop fd fuel offset.toNat len fnv1a64OffsetBasis
  else
    hashFdLoop fd fuel 0 len fnv1a64OffsetBasis

def hashFileFnv1a (fuel : Nat) (path : Bytes) : Sys Fd UInt64 := do
  match ← sys (.openFile path .readOnly) with
  | .error _ => return 0
  | .ok fd =>
      let hash ← hashFdRange fuel fd 0 none
      sys (.close fd)
      return hash

def hashFileRangeFnv1a (fuel : Nat) (path : Bytes) (offset : Int) (len : Nat) :
    Sys Fd UInt64 := do
  match ← sys (.openFile path .readOnly) with
  | .error _ => return 0
  | .ok fd =>
      let hash ← hashFdRange fuel fd offset (some len)
      sys (.close fd)
      return hash

end MiniSync
