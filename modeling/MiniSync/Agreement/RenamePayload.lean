import MiniSync.Transfer.UploadStream

/-!
# The payload of a rename

Two paths travel in one payload with a NUL between them.  What the client encodes
the server takes apart again, and whatever the server takes apart without an error
encodes to a part of what it has received.
-/

namespace MiniSync

open Prog

/-! ## Taking a payload apart -/

/-- The checks of `server_handle_file_rename` on the payload: the two paths, or
the text of the error. -/
def renameSplit (combined_path : Bytes) : Except Bytes (Bytes × Bytes) :=
  let old_rel := cString combined_path
  if old_rel.length ≥ combined_path.length then .error (ascii "invalid rename payload")
  else
    let new_rel := cString (combined_path.drop (old_rel.length + 1))
    if old_rel.length + 1 ≥ combined_path.length ∨ sanitizeRelPath old_rel = .err ∨
        sanitizeRelPath new_rel = .err then
      .error (ascii "invalid rename path")
    else .ok (old_rel, new_rel)

/-- The handler looks at the payload through `renameSplit` only. -/
theorem serverHandleFileRename_eq {Fd : Type} (fuel : Nat) (root combined_path : Bytes) :
    (serverHandleFileRename fuel root combined_path : Sys Fd Rc) =
      match renameSplit combined_path with
      | .error message => do
          let _ ← sendError fuel message
          return .err
      | .ok (old_rel, new_rel) =>
          match currentPath root old_rel, currentPath root new_rel with
          | some old_path, some new_path => do
              sys .lockFiles
              let outcome ← renameCritical fuel old_path new_path
              unlockAndReply fuel outcome 0
          | _, _ => do
              let _ ← sendError fuel (ascii "rename path too long")
              return .err := by
  unfold serverHandleFileRename renameSplit
  by_cases hpayload : (cString combined_path).length ≥ combined_path.length
  · simp only [if_pos hpayload]
  simp only [if_neg hpayload]
  split_ifs <;> rfl

theorem cString_append_nul {bytes : Bytes} (h : nul ∉ bytes) (rest : Bytes) :
    cString (bytes ++ nul :: rest) = bytes := by
  have hself : ∀ b ∈ bytes, (b != nul) = true := by
    intro b hb
    have hne : b ≠ nul := fun heq => h (heq ▸ hb)
    simpa using hne
  unfold cString
  rw [List.takeWhile_append_of_pos hself, List.takeWhile_cons_of_neg (by simp), List.append_nil]

/-- A C string that ends before its buffer does is followed by a NUL. -/
theorem cString_append {bytes : Bytes} (h : (cString bytes).length < bytes.length) :
    bytes = cString bytes ++ nul :: bytes.drop ((cString bytes).length + 1) := by
  have hsplit : cString bytes ++ bytes.dropWhile (· != nul) = bytes :=
    List.takeWhile_append_dropWhile
  cases hdrop : bytes.dropWhile (· != nul) with
  | nil =>
      rw [hdrop, List.append_nil] at hsplit
      rw [hsplit] at h
      exact absurd h (lt_irrefl _)
  | cons b rest =>
      have hb : b = nul := by
        have hnot := List.head?_dropWhile_not (fun b => b != nul) bytes
        rw [hdrop] at hnot
        simpa using hnot
      rw [hdrop, hb] at hsplit
      have hrest : bytes.drop ((cString bytes).length + 1) = rest := by
        have hdrops := congrArg (List.drop ((cString bytes).length + 1)) hsplit
        rw [← hdrops]
        simp
      rw [hrest, hsplit]

theorem renameSplit_append {old new : Bytes} (hold : nul ∉ old) (hnew : nul ∉ new)
    (hsane : sanitizeRelPath old = .ok) (hsane' : sanitizeRelPath new = .ok) :
    renameSplit (old ++ nul :: new) = .ok (old, new) := by
  have hdrop : (old ++ nul :: new).drop (old.length + 1) = new := by simp
  have hpos : 0 < new.length := List.length_pos_of_ne_nil (relative_of_sanitizeRelPath hsane').ne_nil
  have hlen : (old ++ nul :: new).length = old.length + 1 + new.length := by
    rw [List.length_append, List.length_cons]
    omega
  have hpayload : ¬ old.length ≥ (old ++ nul :: new).length := by omega
  have hpath : ¬ (old.length + 1 ≥ (old ++ nul :: new).length ∨ sanitizeRelPath old = .err ∨
      sanitizeRelPath new = .err) := by
    rw [hsane, hsane']
    rintro (h | h | h)
    · omega
    · cases h
    · cases h
  unfold renameSplit
  simp only [cString_append_nul hold, hdrop, cString_of_nul_notMem hnew]
  rw [if_neg hpayload, if_neg hpath]

/-- What is taken apart lies in the payload, and is safe to use. -/
theorem renameSplit_eq_ok {combined_path old new : Bytes}
    (h : renameSplit combined_path = .ok (old, new)) :
    nul ∉ old ∧ nul ∉ new ∧ sanitizeRelPath old = .ok ∧ sanitizeRelPath new = .ok ∧
      old ++ nul :: new <+: combined_path := by
  unfold renameSplit at h
  simp only at h
  split_ifs at h with hpayload hpath
  simp only [not_or] at hpath
  cases h
  refine ⟨nul_notMem_cString _, nul_notMem_cString _, Rc.ok_of_ne_err hpath.2.1,
    Rc.ok_of_ne_err hpath.2.2, ?_⟩
  have hsplit := cString_append (Nat.lt_of_not_le hpayload)
  have hnew : cString (combined_path.drop ((cString combined_path).length + 1)) <+:
      combined_path.drop ((cString combined_path).length + 1) := List.takeWhile_prefix _
  obtain ⟨rest, hrest⟩ := hnew
  refine ⟨rest, ?_⟩
  rw [List.append_assoc, List.cons_append, hrest]
  exact hsplit.symm

/-! ## On the wire -/

/-- A RENAME that the client can encode. -/
structure EncodableRename (task : SyncTask) : Prop where
  sane_old : sanitizeRelPath task.old_rel_path.bytes = .ok
  sane_new : sanitizeRelPath task.rel_path.bytes = .ok
  fits : task.old_rel_path.bytes.length + 1 + task.rel_path.bytes.length ≤ maxNetPath

def renameHeader (task : SyncTask) : SyncHeader :=
  { initSyncHeader msgFileRename with path_len := .ofNat (renamePayload task).length }

/-- How `server_handle_connection` gets the path of a message. -/
def recvMessagePath {Fd : Type} (fuel : Nat) : Sys Fd (Option Bytes) := do
  match ← recvHeader fuel with
  | none => return none
  | some header => recvRelPath fuel header

section Wire

variable {env : Env} {fuel : Nat} {task : SyncTask} {w : World} {rest : Bytes}

theorem length_renamePayload (task : SyncTask) : (renamePayload task).length =
    task.old_rel_path.bytes.length + 1 + task.rel_path.bytes.length := by
  unfold renamePayload
  rw [List.length_append, List.length_cons]
  omega

theorem EncodableRename.path_len (h : EncodableRename task) :
    (renameHeader task).path_len.toNat = (renamePayload task).length := by
  have hfits := h.fits
  rw [← length_renamePayload] at hfits
  have hmax : maxNetPath = 512 := rfl
  exact UInt32.toNat_ofNat_of_lt' (by
    have hsize : UInt32.size = 4294967296 := rfl
    omega)

theorem EncodableRename.path_len_ne_zero (h : EncodableRename task) :
    (renameHeader task).path_len ≠ 0 := by
  intro h0
  have hlen := h.path_len
  rw [h0, length_renamePayload] at hlen
  have hzero : (0 : UInt32).toNat = 0 := rfl
  omega

theorem EncodableRename.valid (h : EncodableRename task) :
    validateSyncHeader (renameHeader task) = .ok := by
  apply validateSyncHeader_eq_ok rfl rfl
  rw [h.path_len, length_renamePayload]
  exact h.fits

/-- The client sends the header and the payload. -/
theorem returns_sendRemoteRename (h : EncodableRename task) (hfuel : 3 ≤ fuel) (tree : Tree)
    (answer : Bytes) :
    (sendRemoteRename fuel task).Returns (posix env)
      (fun _ w => w.conn.output = (renameHeader task).encode ++ renamePayload task)
      ⟨tree, hearing answer⟩ := by
  have hfits := h.fits
  rw [← length_renamePayload] at hfits
  unfold sendRemoteRename
  rw [if_neg (relative_of_sanitizeRelPath h.sane_old).ne_nil, if_neg (by omega)]
  refine returns_op_bind.mpr ?_
  have hheader : (sendHeader fuel (renameHeader task)).Returns (posix env) _
      ⟨tree, hearing answer⟩ := returns_sendHeader (by omega) (renameHeader task)
  apply hheader.bind
  rintro _ _ ⟨rfl, rfl⟩
  apply (returns_writeFull (by omega) (renamePayload task)).bind
  rintro _ _ ⟨rfl, rfl⟩
  have hout : (((World.mk tree (hearing answer)).push (renameHeader task).encode).push
      (renamePayload task)).conn.output = (renameHeader task).encode ++ renamePayload task := by
    rw [World.push_conn, Conn.push_output, World.push_conn, Conn.push_output]
    exact congrArg (· ++ renamePayload task) (List.nil_append _)
  unfold waitForAck
  simp only [andThen_ok]
  apply (returns_recvHeader hfuel).bind
  rintro reply _ ⟨rfl, -⟩
  cases reply with
  | none => exact .ret hout
  | some reply => exact .ret hout

/-- The server receives the payload, however the reads are cut up; other bytes are
never taken for it. -/
theorem safe_recvMessagePath {cwd : TreePath} {mayFail : Call TreePath → Errno → Prop}
    (h : EncodableRename task)
    (hinput : w.conn.input = (renameHeader task).encode ++ (renamePayload task ++ rest)) :
    (recvMessagePath fuel).Safe (Kernel cwd mayFail) (fun _ => True)
      (fun got _ => ∀ combined, got = some combined → combined = renamePayload task) w := by
  have hpos : (renameHeader task).path_len ≠ 0 := h.path_len_ne_zero
  unfold recvMessagePath
  apply (moves_recvHeader (X := fun _ => False) fuel).safe.bind
  intro r w1 hr
  cases r with
  | none => nofun
  | some header =>
      obtain ⟨-, -, hgot⟩ := hr header rfl
      rw [hinput] at hgot
      obtain ⟨hheader, hrest⟩ := List.append_inj hgot
        (by rw [SyncHeader.length_encode, SyncHeader.length_encode])
      have hsame : header = renameHeader task := by
        rw [← SyncHeader.decode_encode header [], ← SyncHeader.decode_encode (renameHeader task) [],
          hheader]
      unfold recvRelPath recvPath
      simp only [hsame, if_neg hpos]
      split_ifs
      · nofun
      · apply ((moves_readFull (X := fun _ => False) fuel _).safe).post
        intro got w2 hgot' combined hcombined
        obtain ⟨hlen, -, hinput'⟩ := hgot' combined hcombined
        rw [← hrest] at hinput'
        rw [h.path_len] at hlen
        exact (List.append_inj hinput' hlen.symm).1.symm

theorem returns_recvMessagePath (h : EncodableRename task) (hfuel : 3 ≤ fuel)
    (hinput : w.conn.input = (renameHeader task).encode ++ (renamePayload task ++ rest)) :
    (recvMessagePath fuel).Returns (posix env) (fun got _ => got = some (renamePayload task)) w := by
  have hfits := h.fits
  rw [← length_renamePayload] at hfits
  have hlong : ¬ ((renamePayload task).length ≥ maxNetPath + 1 ∨
      (renamePayload task).length > maxNetPath) := by omega
  unfold recvMessagePath
  apply (returns_recvHeader hfuel).bind
  rintro r w1 ⟨rfl, rfl⟩
  rw [hinput, headerAt_encode h.valid]
  unfold recvRelPath recvPath
  simp only [if_neg h.path_len_ne_zero, h.path_len, if_neg hlong]
  have hinput1 : (w.take headerSize).conn.input = renamePayload task ++ rest := by
    rw [World.take_conn, Conn.take_input, hinput, ← SyncHeader.length_encode (renameHeader task),
      List.drop_left]
  apply (returns_readFull hfuel _).post
  rintro r w2 ⟨-, rfl⟩
  rw [hinput1, if_pos (by rw [List.length_append]; omega), List.take_left]

/-! ## There and back -/

/-- What the client encodes is received and taken apart as it was, and what is
taken apart of any received bytes encodes to their start. -/
theorem rename_payload_inverse :
    (∀ task, EncodableRename task →
      (∀ env fuel tree answer, 3 ≤ fuel → (sendRemoteRename fuel task).Returns (posix env)
        (fun _ w => w.conn.output = (renameHeader task).encode ++ renamePayload task)
        ⟨tree, hearing answer⟩) ∧
      (∀ w rest, w.conn.input = (renameHeader task).encode ++ (renamePayload task ++ rest) →
        (∀ env fuel, 3 ≤ fuel → (recvMessagePath fuel).Returns (posix env)
          (fun got _ => got = some (renamePayload task)) w) ∧
        (∀ cwd mayFail fuel, (recvMessagePath fuel).Safe (Kernel cwd mayFail) (fun _ => True)
          (fun got _ => ∀ combined, got = some combined → combined = renamePayload task) w)) ∧
      renameSplit (renamePayload task) =
        .ok (task.old_rel_path.bytes, task.rel_path.bytes)) ∧
    (∀ combined_path old new, renameSplit combined_path = .ok (old, new) →
      nul ∉ old ∧ nul ∉ new ∧ sanitizeRelPath old = .ok ∧ sanitizeRelPath new = .ok ∧
        old ++ nul :: new <+: combined_path) := by
  constructor
  · intro task h
    refine ⟨?_, ?_, ?_⟩
    · intro env fuel tree answer hfuel
      exact returns_sendRemoteRename h hfuel tree answer
    · intro w rest hinput
      constructor
      · intro env fuel hfuel
        exact returns_recvMessagePath h hfuel hinput
      · intro cwd mayFail fuel
        exact safe_recvMessagePath h hinput
    · exact renameSplit_append task.old_rel_path.noNul task.rel_path.noNul h.sane_old h.sane_new
  · intro combined_path old new h
    exact renameSplit_eq_ok h

def renameTaskAB : SyncTask :=
  { initSyncTask with
    event_type := .rename
    old_rel_path := nameA
    rel_path := ⟨ascii "b/c", by decide +kernel, by decide +kernel⟩ }

theorem rename_payload_inverse_ab :
    renameSplit (renamePayload renameTaskAB) = .ok (ascii "a", ascii "b/c") :=
  (rename_payload_inverse.1 renameTaskAB
    ⟨by decide +kernel, by decide +kernel, by decide +kernel⟩).2.2

/-- A payload without a second path is refused. -/
example : renameSplit (ascii "a" ++ [nul]) = .error (ascii "invalid rename path") := by
  decide +kernel

end Wire

end MiniSync
