import MiniSync.Kernel

/-!
# The wire protocol

Messages start with a `SyncHeader` in its native memory layout: 64 bytes without
padding, every field little-endian.
-/

namespace MiniSync

def protocolMagic : UInt32 := 0x4D53594E

def protocolVersion : UInt32 := 1

def msgHello : UInt32 := 1

def msgFileBegin : UInt32 := 2

def msgFileBlock : UInt32 := 3

def msgFileEnd : UInt32 := 4

def msgFileDelete : UInt32 := 5

def msgFileRename : UInt32 := 6

def msgQueryOffset : UInt32 := 7

def msgOffsetReply : UInt32 := 8

def msgAck : UInt32 := 9

def msgError : UInt32 := 10

def msgExit : UInt32 := 99

structure SyncHeader where
  magic : UInt32
  version : UInt32
  msg_type : UInt32
  path_len : UInt32
  file_size : UInt64
  offset : UInt64
  data_len : UInt32
  mode : UInt32
  mtime : Int64
  total_hash : UInt64
  block_hash : UInt64
  deriving DecidableEq

/-- A header of zeros, as `memset` leaves it. -/
def SyncHeader.zero : SyncHeader := ⟨0, 0, 0, 0, 0, 0, 0, 0, 0, 0, 0⟩

def initSyncHeader (msg_type : UInt32) : SyncHeader :=
  { SyncHeader.zero with
    magic := protocolMagic
    version := protocolVersion
    msg_type := msg_type }

def validateSyncHeader (header : SyncHeader) : Rc :=
  if header.magic ≠ protocolMagic then .err
  else if header.version ≠ protocolVersion then .err
  else if header.path_len.toNat > maxNetPath then .err
  else .ok

/-! ## Memory layout -/

/-- `sizeof(SyncHeader)` -/
def headerSize : Nat := 64

open ByteString in
def SyncHeader.encode (h : SyncHeader) : Bytes :=
  leBytes 4 h.magic.toNat ++ leBytes 4 h.version.toNat ++ leBytes 4 h.msg_type.toNat ++
    leBytes 4 h.path_len.toNat ++ leBytes 8 h.file_size.toNat ++ leBytes 8 h.offset.toNat ++
    leBytes 4 h.data_len.toNat ++ leBytes 4 h.mode.toNat ++ leBytes 8 h.mtime.toUInt64.toNat ++
    leBytes 8 h.total_hash.toNat ++ leBytes 8 h.block_hash.toNat

/-- The number in `width` bytes from `off` on. -/
def SyncHeader.field (bytes : Bytes) (off width : Nat) : Nat :=
  ByteString.leNat ((bytes.drop off).take width)

def SyncHeader.decode (bytes : Bytes) : SyncHeader where
  magic := .ofNat (field bytes 0 4)
  version := .ofNat (field bytes 4 4)
  msg_type := .ofNat (field bytes 8 4)
  path_len := .ofNat (field bytes 12 4)
  file_size := .ofNat (field bytes 16 8)
  offset := .ofNat (field bytes 24 8)
  data_len := .ofNat (field bytes 32 4)
  mode := .ofNat (field bytes 36 4)
  mtime := (UInt64.ofNat (field bytes 40 8)).toInt64
  total_hash := .ofNat (field bytes 48 8)
  block_hash := .ofNat (field bytes 56 8)

@[simp] theorem SyncHeader.length_encode (h : SyncHeader) : h.encode.length = headerSize := by
  simp [encode, headerSize]

theorem SyncHeader.field_zero {a rest : Bytes} {width : Nat} (hwidth : a.length = width) :
    field (a ++ rest) 0 width = ByteString.leNat a := by
  subst hwidth
  simp [field]

theorem SyncHeader.field_append {a rest : Bytes} {off width : Nat} (hoff : a.length ≤ off) :
    field (a ++ rest) off width = field rest (off - a.length) width := by
  unfold field
  rw [List.drop_append, List.drop_of_length_le hoff, List.nil_append]

theorem SyncHeader.field_leBytes_self {width n : Nat} {rest : Bytes} :
    field (ByteString.leBytes width n ++ rest) 0 width = n % 256 ^ width := by
  rw [field_zero (ByteString.length_leBytes width n), ByteString.leNat_leBytes]

theorem SyncHeader.field_leBytes_skip {width n off w : Nat} {rest : Bytes} (h : width ≤ off) :
    field (ByteString.leBytes width n ++ rest) off w = field rest (off - width) w := by
  rw [field_append (by rw [ByteString.length_leBytes]; exact h), ByteString.length_leBytes]

theorem SyncHeader.field_four (x : UInt32) : UInt32.ofNat (x.toNat % 256 ^ 4) = x := by
  have h := x.toNat_lt
  rw [Nat.mod_eq_of_lt (by omega)]
  exact UInt32.ofNat_toNat

theorem SyncHeader.field_eight (x : UInt64) : UInt64.ofNat (x.toNat % 256 ^ 8) = x := by
  have h := x.toNat_lt
  rw [Nat.mod_eq_of_lt (by omega)]
  exact UInt64.ofNat_toNat

/-- A header at the front of a byte string is read back. -/
theorem SyncHeader.decode_encode (h : SyncHeader) (rest : Bytes) :
    decode (h.encode ++ rest) = h := by
  obtain ⟨magic, version, msg_type, path_len, file_size, offset, data_len, mode, mtime,
    total_hash, block_hash⟩ := h
  have hskip {width n off w : Nat} {rest : Bytes} (h : width ≤ off) :
      field (ByteString.leBytes width n ++ rest) off w = field rest (off - width) w := by
    have hlen : (ByteString.leBytes width n).length ≤ off := by simpa using h
    rw [field_append hlen, ByteString.length_leBytes]
  have hhead {width n : Nat} {rest : Bytes} :
      field (ByteString.leBytes width n ++ rest) 0 width = n % 256 ^ width := by
    rw [field_zero (by simp), ByteString.leNat_leBytes]
  simp only [decode, encode, List.append_assoc]
  simp (disch := omega) only [hskip, Nat.sub_self, Nat.reduceSub]
  simp only [hhead, field_four, field_eight, Int64.toInt64_toUInt64]

/-- A header's worth of bytes is the encoding of the header it is read as. -/
theorem SyncHeader.encode_decode {bytes : Bytes} (h : bytes.length = headerSize) :
    (decode bytes).encode = bytes := by
  unfold headerSize at h
  have hlen {off width : Nat} (hw : off + width ≤ 64) :
      ((bytes.drop off).take width).length = width := by
    rw [List.length_take, List.length_drop]
    omega
  have hlt {off width : Nat} (hw : off + width ≤ 64) : field bytes off width < 256 ^ width := by
    have := ByteString.leNat_lt ((bytes.drop off).take width)
    rwa [hlen hw] at this
  have hback {off width : Nat} (hw : off + width ≤ 64) :
      ByteString.leBytes width (field bytes off width) = (bytes.drop off).take width := by
    have := ByteString.leBytes_leNat ((bytes.drop off).take width)
    rwa [hlen hw] at this
  have hfour {off : Nat} (hw : off + 4 ≤ 64) :
      ByteString.leBytes 4 (UInt32.ofNat (field bytes off 4)).toNat =
        (bytes.drop off).take 4 := by
    have hnat := hlt hw
    rw [UInt32.toNat_ofNat_of_lt' (by exact hnat), hback hw]
  have height {off : Nat} (hw : off + 8 ≤ 64) :
      ByteString.leBytes 8 (UInt64.ofNat (field bytes off 8)).toNat =
        (bytes.drop off).take 8 := by
    have hnat := hlt hw
    rw [UInt64.toNat_ofNat_of_lt' (by exact hnat), hback hw]
  have hstep (off width : Nat) :
      (bytes.drop off).take width ++ bytes.drop (off + width) = bytes.drop off := by
    rw [← List.drop_drop, List.take_append_drop]
  have hlast : (bytes.drop 56).take 8 = bytes.drop 56 := by
    rw [List.take_of_length_le]
    rw [List.length_drop]
    omega
  simp only [encode, decode, UInt64.toUInt64_toInt64]
  rw [hfour (by omega), hfour (by omega), hfour (by omega), hfour (by omega),
    height (by omega), height (by omega), hfour (by omega), hfour (by omega), height (by omega),
    height (by omega), height (by omega), hlast]
  simp only [List.append_assoc]
  rw [hstep 48 8, hstep 40 8, hstep 36 4, hstep 32 4, hstep 24 8, hstep 16 8, hstep 12 4,
    hstep 8 4, hstep 4 4, hstep 0 4]
  rfl

end MiniSync
