import MiniSync.Protocol
import MiniSync.Task

/-!
# What travels through the pipes

The processes of the client send each other `LogMessage` and `SyncTask` structures in
their memory layout.  Both are shorter than `PIPE_BUF`, and both are read back as what was
written.
-/

namespace MiniSync

/-! ## Text in a structure -/

/-- A text of at most `size - 1` bytes in a zeroed `char [size]`. -/
def charArray (size : Nat) (text : Bytes) : Bytes :=
  text ++ List.replicate (size - text.length) nul

/-- What `vsnprintf` leaves of a text in a `char [size]`. -/
def truncated (size : Nat) (text : Bytes) : Bytes := (cString text).take (size - 1)

section Text

variable {size off : Nat} {text a rest : Bytes}

theorem length_charArray (h : text.length < size) : (charArray size text).length = size := by
  unfold charArray
  rw [List.length_append, List.length_replicate]
  omega

theorem length_truncated_lt (h : 0 < size) (text : Bytes) : (truncated size text).length < size := by
  unfold truncated
  rw [List.length_take]
  omega

theorem nul_notMem_truncated (size : Nat) (text : Bytes) : nul ∉ truncated size text :=
  fun hmem => nul_notMem_cString text (List.mem_of_mem_take hmem)

theorem cString_charArray (h : text.length < size) (hnul : nul ∉ text) :
    cString (charArray size text) = text := by
  have hpos : size - text.length = size - text.length - 1 + 1 := by omega
  have hself := cString_of_nul_notMem hnul
  unfold cString at hself ⊢
  unfold charArray
  rw [hpos, List.replicate_succ, List.takeWhile_append, hself, if_pos rfl,
    List.takeWhile_cons_of_neg (by simp), List.append_nil]

/-- The text in the `char [size]` at `off`. -/
def textField (bytes : Bytes) (off size : Nat) : Bytes :=
  truncated size ((bytes.drop off).take size)

theorem textField_zero (h : text.length < size) (hnul : nul ∉ text) :
    textField (charArray size text ++ rest) 0 size = text := by
  unfold textField truncated
  rw [List.drop_zero, List.take_left' (length_charArray h), cString_charArray h hnul,
    List.take_of_length_le (by omega)]

theorem textField_append (h : a.length ≤ off) :
    textField (a ++ rest) off size = textField rest (off - a.length) size := by
  unfold textField
  rw [List.drop_append, List.drop_of_length_le h, List.nil_append]

end Text

/-! ## `LogMessage` -/

/-- `MAX_LOG_LEN` -/
def maxLogLen : Nat := 1024

/-- `LOG_INFO` -/
def logInfo : Int32 := 1

/-- `LOG_WARN` -/
def logWarn : Int32 := 2

/-- `LOG_ERROR` -/
def logError : Int32 := 3

/-- `LOG_DEBUG` -/
def logDebug : Int32 := 4

/-- `LOG_EXIT` -/
def logExit : Int32 := 99

structure LogMessage where
  pid : Int32
  level : Int32
  message : Bytes
  length_lt : message.length < maxLogLen
  noNul : nul ∉ message

/-- The message that `log_message_v` builds from a text. -/
def LogMessage.of (pid level : Int32) (text : Bytes) : LogMessage where
  pid := pid
  level := level
  message := truncated maxLogLen text
  length_lt := length_truncated_lt (by decide) text
  noNul := nul_notMem_truncated maxLogLen text

def LogMessage.isExit (m : LogMessage) : Bool := m.level = logExit

/-- `sizeof(LogMessage)` -/
def logMessageSize : Nat := 1032

open ByteString in
def LogMessage.encode (m : LogMessage) : Bytes :=
  leBytes 4 m.pid.toUInt32.toNat ++ leBytes 4 m.level.toUInt32.toNat ++
    charArray maxLogLen m.message

open SyncHeader in
def LogMessage.decode (bytes : Bytes) : LogMessage where
  pid := (UInt32.ofNat (field bytes 0 4)).toInt32
  level := (UInt32.ofNat (field bytes 4 4)).toInt32
  message := textField bytes 8 maxLogLen
  length_lt := length_truncated_lt (by decide) _
  noNul := nul_notMem_truncated maxLogLen _

/-! ## `SyncTask` -/

/-- A `SyncTask` with the types that the C structure has. -/
structure TaskRecord where
  event_type : Int32
  src_path : PathBuf
  rel_path : PathBuf
  old_rel_path : PathBuf
  file_size : Int64
  mode : UInt32
  mtime : Int64
  is_dir : Int32
  retry_count : Int32
  deriving DecidableEq

/-- The constants `EVENT_*`. -/
def EventType.ofCode (code : Int32) : EventType :=
  if code = 1 then .create
  else if code = 2 then .modify
  else if code = 3 then .delete
  else if code = 4 then .rename
  else if code = 5 then .fullscan
  else if code = 99 then .exit
  else .other code.toInt

/-- The task in a structure. -/
def TaskRecord.toSyncTask (t : TaskRecord) : SyncTask where
  event_type := .ofCode t.event_type
  src_path := t.src_path
  rel_path := t.rel_path
  old_rel_path := t.old_rel_path
  file_size := t.file_size.toInt
  mode := t.mode
  mtime := t.mtime.toInt
  is_dir := t.is_dir ≠ 0
  retry_count := t.retry_count.toInt.toNat

/-- `init_sync_task` -/
def TaskRecord.init : TaskRecord := ⟨0, .empty, .empty, .empty, 0, 0, 0, 0, 0⟩

/-- The task of `send_exit_task`. -/
def TaskRecord.exit : TaskRecord := { TaskRecord.init with event_type := 99 }

/-- `sizeof(SyncTask)` -/
def syncTaskSize : Nat := 1576

/-- Four bytes come before `file_size` and before `mtime` so that these are aligned. -/
def padding : Bytes := List.replicate 4 nul

open ByteString in
def TaskRecord.encode (t : TaskRecord) : Bytes :=
  leBytes 4 t.event_type.toUInt32.toNat ++ charArray maxPathLen t.src_path.bytes ++
    charArray maxPathLen t.rel_path.bytes ++ charArray maxPathLen t.old_rel_path.bytes ++
    padding ++ leBytes 8 t.file_size.toUInt64.toNat ++ leBytes 4 t.mode.toNat ++ padding ++
    leBytes 8 t.mtime.toUInt64.toNat ++ leBytes 4 t.is_dir.toUInt32.toNat ++
    leBytes 4 t.retry_count.toUInt32.toNat

/-- The path in the `char [MAX_PATH_LEN]` at `off`. -/
def pathField (bytes : Bytes) (off : Nat) : PathBuf :=
  ⟨textField bytes off maxPathLen, length_truncated_lt (by decide) _, nul_notMem_truncated _ _⟩

open SyncHeader in
def TaskRecord.decode (bytes : Bytes) : TaskRecord where
  event_type := (UInt32.ofNat (field bytes 0 4)).toInt32
  src_path := pathField bytes 4
  rel_path := pathField bytes 516
  old_rel_path := pathField bytes 1028
  file_size := (UInt64.ofNat (field bytes 1544 8)).toInt64
  mode := .ofNat (field bytes 1552 4)
  mtime := (UInt64.ofNat (field bytes 1560 8)).toInt64
  is_dir := (UInt32.ofNat (field bytes 1568 4)).toInt32
  retry_count := (UInt32.ofNat (field bytes 1572 4)).toInt32

/-! ## Round trips -/

section RoundTrip

open SyncHeader ByteString

theorem textField_leBytes_skip {width n off size : Nat} {rest : Bytes} (h : width ≤ off) :
    textField (leBytes width n ++ rest) off size = textField rest (off - width) size := by
  rw [textField_append (by rw [length_leBytes]; exact h), length_leBytes]

theorem PathBuf.length_charArray (path : PathBuf) :
    (charArray maxPathLen path.bytes).length = maxPathLen :=
  MiniSync.length_charArray path.length_lt

theorem field_charArray_skip {path : PathBuf} {off w : Nat} {rest : Bytes} (h : 512 ≤ off) :
    field (charArray maxPathLen path.bytes ++ rest) off w = field rest (off - 512) w := by
  rw [field_append (by rw [path.length_charArray]; exact h), path.length_charArray]
  rfl

theorem textField_charArray_skip {path : PathBuf} {off size : Nat} {rest : Bytes}
    (h : 512 ≤ off) :
    textField (charArray maxPathLen path.bytes ++ rest) off size =
      textField rest (off - 512) size := by
  rw [textField_append (by rw [path.length_charArray]; exact h), path.length_charArray]
  rfl

theorem field_padding_skip {off w : Nat} {rest : Bytes} (h : 4 ≤ off) :
    field (padding ++ rest) off w = field rest (off - 4) w :=
  field_append (a := padding) h

theorem LogMessage.length_encode (m : LogMessage) : m.encode.length = logMessageSize := by
  unfold encode
  rw [List.length_append, List.length_append, length_leBytes, length_leBytes,
    MiniSync.length_charArray m.length_lt]
  rfl

theorem LogMessage.encode_ne_nil (m : LogMessage) : m.encode ≠ [] := by
  intro h
  have hlen := m.length_encode
  rw [h] at hlen
  cases hlen

theorem LogMessage.decode_encode (m : LogMessage) : decode m.encode = m := by
  obtain ⟨pid, level, message, length_lt, noNul⟩ := m
  have htext : textField (charArray maxLogLen message) 0 maxLogLen = message := by
    have h : textField (charArray maxLogLen message ++ []) 0 maxLogLen = message :=
      textField_zero length_lt noNul
    rwa [List.append_nil] at h
  simp only [decode, encode, List.append_assoc]
  simp (disch := omega) only [field_leBytes_skip, textField_leBytes_skip, Nat.sub_self,
    Nat.reduceSub]
  simp only [field_leBytes_self, field_four, htext, Int32.toInt32_toUInt32]

theorem TaskRecord.length_encode (t : TaskRecord) : t.encode.length = syncTaskSize := by
  have hpadding : padding.length = 4 := rfl
  unfold encode
  simp only [List.length_append, length_leBytes, PathBuf.length_charArray, hpadding]
  rfl

theorem TaskRecord.encode_ne_nil (t : TaskRecord) : t.encode ≠ [] := by
  intro h
  have hlen := t.length_encode
  rw [h] at hlen
  cases hlen

theorem pathField_eq {bytes : Bytes} {off : Nat} {path : PathBuf}
    (h : textField bytes off maxPathLen = path.bytes) : pathField bytes off = path :=
  PathBuf.eq_of_bytes_eq h

theorem TaskRecord.decode_encode (t : TaskRecord) : decode t.encode = t := by
  obtain ⟨event_type, src_path, rel_path, old_rel_path, file_size, mode, mtime, is_dir,
    retry_count⟩ := t
  have hself {path : PathBuf} {rest : Bytes} :
      textField (charArray maxPathLen path.bytes ++ rest) 0 maxPathLen = path.bytes :=
    textField_zero path.length_lt path.noNul
  have hlast {n : Nat} : field (leBytes 4 n) 0 4 = n % 256 ^ 4 := by
    have h : field (leBytes 4 n ++ []) 0 4 = n % 256 ^ 4 := field_leBytes_self
    rwa [List.append_nil] at h
  unfold decode
  simp only [encode, List.append_assoc]
  rw [TaskRecord.mk.injEq]
  refine ⟨?_, pathField_eq ?_, pathField_eq ?_, pathField_eq ?_, ?_, ?_, ?_, ?_, ?_⟩
  all_goals
    simp (disch := omega) only [field_leBytes_skip, field_charArray_skip, field_padding_skip,
      textField_leBytes_skip, textField_charArray_skip, Nat.sub_self, Nat.reduceSub,
      field_leBytes_self, field_four, field_eight, hlast, hself, Int32.toInt32_toUInt32,
      Int64.toInt64_toUInt64]

end RoundTrip

end MiniSync
