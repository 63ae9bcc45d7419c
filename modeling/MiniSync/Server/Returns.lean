import MiniSync.Server.Discipline

/-!
# A connection comes to its end

A connection returns whatever the peer sends and the file calls answer, where the stream of
the peer ends, no call is interrupted for ever, and no file is endless.
-/

namespace MiniSync

open Prog

/-- An answer after which a loop makes the same call again. -/
def Retried {Fd : Type} : (c : Call Fd) → Resp c → Prop
  | .recv _, r => r = .error .intr
  | .read _ _ _, r => r = .error .intr
  | .send buf, r => r = .error .intr ∨ r = .error .again ∨ buf ≠ [] ∧ r = .ok 0
  | .pwrite _ buf _, r => r = .error .intr ∨ buf ≠ [] ∧ r = .ok 0
  | _, _ => False

/-- `left` bounds the bytes that the peer has still to send and the calls that are still to
be made again, and no file is read from `size` on. -/
structure Subsides {Fd σ : Type} (K : (c : Call Fd) → σ → Resp c → σ → Prop) (left : σ → Nat)
    (size : Nat) : Prop where
  le : ∀ {c s r s'}, K c s r s' → left s' ≤ left s
  received : ∀ {count s piece s'}, K (.recv count) s (.ok piece) s' → piece ≠ [] →
    left s' < left s
  again : ∀ {c s r s'}, K c s r s' → Retried c r → left s' < left s
  files : ∀ {fd pos count s buf s'}, K (.read fd pos count) s (.ok buf) s' → buf ≠ [] →
    pos + buf.length ≤ size

section Returns

variable {Fd σ : Type} {K : (c : Call Fd) → σ → Resp c → σ → Prop} {left : σ → Nat} {size : Nat}
  {α β : Type} {s s' : σ} {fuel : Nat}

/-- Every execution of the program returns. -/
abbrev Returning (K : (c : Call Fd) → σ → Resp c → σ → Prop) (p : Sys Fd α) (s : σ) : Prop :=
  p.Finishes K (fun _ => True) s

/-- Enough fuel for any loop of the connection. -/
def Enough (left : σ → Nat) (size fuel : Nat) (s : σ) : Prop :=
  left s + size + maxNetPath + 1 < fuel

theorem Enough.mono (h : Enough left size fuel s) (hle : left s' ≤ left s) :
    Enough left size fuel s' := by
  unfold Enough at h ⊢
  omega

theorem Subsides.safe (hK : Subsides K left size) (p : Sys Fd α) (s : σ) :
    p.Safe K (fun _ => True) (fun _ s' => left s' ≤ left s) s := by
  apply Safe.mono ((all_true p).safe (I := fun s' => left s' ≤ left s) _ le_rfl)
    (fun _ _ => trivial) fun _ _ h => h.2
  exact fun c s₁ r s₂ _ h₁ hstep => (hK.le hstep).trans h₁

theorem Subsides.bind (hK : Subsides K left size) {p : Sys Fd α} {f : α → Sys Fd β}
    (hp : Returning K p s) (hf : ∀ a s', left s' ≤ left s → Returning K (f a) s') :
    Returning K (p >>= f) s :=
  hp.bind_safe (hK.safe p s) hf

theorem Subsides.op_bind (hK : Subsides K left size) {c : Call Fd} {f : Resp c → Sys Fd β}
    (hf : ∀ r s', left s' ≤ left s → Returning K (f r) s') : Returning K (op c >>= f) s :=
  Finishes.op_bind trivial fun r s' hstep => hf r s' (hK.le hstep)

/-! ## The loops -/

theorem returning_readnLoop (hK : Subsides K left size) (count : Nat) (buf : Bytes)
    (hfuel : left s < fuel) : Returning K (readnLoop .socket fuel count buf) s := by
  induction fuel generalizing s count buf with
  | zero => exact absurd hfuel (Nat.not_lt_zero _)
  | succ fuel ih =>
      rw [readnLoop]
      split_ifs
      · trivial
      · refine Finishes.op_bind trivial fun r s' hstep => ?_
        split
        · have hless := hK.again hstep rfl
          exact ih _ _ (by omega)
        · trivial
        · split_ifs with hpiece
          · trivial
          · have hless := hK.received hstep hpiece
            exact ih _ _ (by omega)

/-- What is received is gone from the stream. -/
theorem safe_readnLoop_less (hK : Subsides K left size) (fuel count : Nat) (buf : Bytes) (s : σ) :
    (readnLoop .socket fuel count buf).Safe K (fun _ => True)
      (fun r s' => left s' ≤ left s ∧ ∀ all, r = some all → all ≠ buf → left s' < left s) s := by
  induction fuel generalizing s count buf with
  | zero => trivial
  | succ fuel ih =>
      rw [readnLoop]
      split_ifs
      · exact ⟨le_rfl, fun all hall hne => absurd (Option.some.inj hall).symm hne⟩
      · refine Safe.op_bind fun r s' hstep => ⟨trivial, ?_⟩
        have hle := hK.le hstep
        split
        · apply (ih _ _ s').post
          rintro r s'' ⟨hle', hless⟩
          exact ⟨hle'.trans hle, fun all hall hne => (hless all hall hne).trans_le hle⟩
        · exact ⟨hle, fun all hall => by cases hall⟩
        · split_ifs with hpiece
          · exact ⟨hle, fun all hall hne => absurd (Option.some.inj hall).symm hne⟩
          · have hless := hK.received hstep hpiece
            apply (ih _ _ s').post
            rintro r s'' ⟨hle', -⟩
            exact ⟨hle'.trans hle, fun all _ _ => hle'.trans_lt hless⟩

theorem returning_readFull (hK : Subsides K left size) (n : Nat) (hfuel : left s < fuel) :
    Returning K (readFull fuel .socket n) s := by
  apply Finishes.bind (returning_readnLoop hK n [] hfuel)
  intro r s'
  cases r <;> trivial

theorem returning_recvHeader (hK : Subsides K left size) (hfuel : left s < fuel) :
    Returning K (recvHeader fuel) s := by
  apply Finishes.bind (returning_readFull hK headerSize hfuel)
  intro r s'
  cases r <;> trivial

theorem safe_readFull_less (hK : Subsides K left size) (fuel : Nat) {n : Nat} (hn : n ≠ 0) (s : σ) :
    (readFull fuel .socket n).Safe K (fun _ => True)
      (fun r s' => left s' ≤ left s ∧ (r ≠ none → left s' < left s)) s := by
  apply (safe_readnLoop_less hK fuel n [] s).bind
  rintro r s' ⟨hle, hless⟩
  cases r with
  | none => exact ⟨hle, fun hnone => absurd rfl hnone⟩
  | some all =>
      refine ⟨hle, fun hsome => hless all rfl ?_⟩
      rintro rfl
      exact hsome (if_neg fun hlen => hn hlen.symm)

/-- A header takes bytes from the stream. -/
theorem safe_recvHeader_less (hK : Subsides K left size) (fuel : Nat) (s : σ) :
    (recvHeader fuel).Safe K (fun _ => True)
      (fun r s' => left s' ≤ left s ∧ (r ≠ none → left s' < left s)) s := by
  apply (safe_readFull_less hK fuel (by decide) s).bind
  rintro r s' ⟨hle, hless⟩
  cases r with
  | none => exact ⟨hle, fun hnone => absurd rfl hnone⟩
  | some bytes => exact ⟨hle, fun _ => hless (by simp)⟩

theorem returning_writenLoop (hK : Subsides K left size) (buf : Bytes)
    (hfuel : left s + buf.length < fuel) : Returning K (writenLoop fuel buf) s := by
  induction fuel generalizing s buf with
  | zero => exact absurd hfuel (Nat.not_lt_zero _)
  | succ fuel ih =>
      rw [writenLoop]
      split_ifs with hnil
      · trivial
      · refine Finishes.op_bind trivial fun r s' hstep => ?_
        have hle := hK.le hstep
        split
        · have hless := hK.again hstep (Or.inl rfl)
          exact ih _ (by omega)
        · have hless := hK.again hstep (Or.inr (Or.inl rfl))
          exact ih _ (by omega)
        · trivial
        · rename_i written
          have hpos := List.length_pos_iff.mpr hnil
          rcases Nat.eq_zero_or_pos written with rfl | hwritten
          · have hless := hK.again hstep (Or.inr (Or.inr ⟨hnil, rfl⟩))
            exact ih _ (by rw [List.length_drop]; omega)
          · exact ih _ (by rw [List.length_drop]; omega)

theorem returning_writeLoop (hK : Subsides K left size) (out : Fd) (pos : Nat) (buf : Bytes)
    (hfuel : left s + buf.length < fuel) : Returning K (writeLoop out fuel pos buf) s := by
  induction fuel generalizing s pos buf with
  | zero => exact absurd hfuel (Nat.not_lt_zero _)
  | succ fuel ih =>
      rw [writeLoop]
      split_ifs with hnil
      · trivial
      · refine Finishes.op_bind trivial fun r s' hstep => ?_
        have hle := hK.le hstep
        split
        · have hless := hK.again hstep (Or.inl rfl)
          exact ih _ _ (by omega)
        · trivial
        · rename_i written
          have hpos := List.length_pos_iff.mpr hnil
          rcases Nat.eq_zero_or_pos written with rfl | hwritten
          · have hless := hK.again hstep (Or.inr ⟨hnil, rfl⟩)
            exact ih _ _ (by rw [List.length_drop]; omega)
          · exact ih _ _ (by rw [List.length_drop]; omega)

/-- Each round reads further into the file, which has an end. -/
theorem returning_copyLoop (hK : Subsides K left size) (in_ out : Fd) (pos : Nat)
    (hfuel : left s + (size - pos) + 1 < fuel) : Returning K (copyLoop in_ out fuel pos) s := by
  induction fuel generalizing s pos with
  | zero => exact absurd hfuel (Nat.not_lt_zero _)
  | succ fuel ih =>
      rw [copyLoop]
      refine Finishes.op_bind trivial fun r s' hstep => ?_
      have hle := hK.le hstep
      split
      · have hless := hK.again hstep rfl
        exact ih _ (by omega)
      · trivial
      · rename_i buf
        split_ifs with hnil
        · trivial
        · have hend := hK.files hstep hnil
          have hpos := List.length_pos_iff.mpr hnil
          apply hK.bind (returning_writeLoop hK out pos buf (by omega))
          intro rc s'' hle'
          cases rc with
          | err => trivial
          | ok => exact ih _ (by omega)

theorem returning_hashFdLoop (hK : Subsides K left size) (fd : Fd) (pos : Nat) (len : Option Nat)
    (hash : UInt64) (hfuel : left s + (size - pos) < fuel) :
    Returning K (hashFdLoop fd fuel pos len hash) s := by
  induction fuel generalizing s pos len hash with
  | zero => exact absurd hfuel (Nat.not_lt_zero _)
  | succ fuel ih =>
      rw [hashFdLoop]
      split_ifs
      · trivial
      · refine Finishes.op_bind trivial fun r s' hstep => ?_
        have hle := hK.le hstep
        split
        · have hless := hK.again hstep rfl
          exact ih _ _ _ (by omega)
        · trivial
        · split_ifs with hnil
          · trivial
          · have hend := hK.files hstep hnil
            have hpos := List.length_pos_iff.mpr hnil
            exact ih _ _ _ (by omega)

/-- Each block takes its header from the stream. -/
theorem returning_recvFileBlocksUntilEnd (hK : Subsides K left size) (out : Fd)
    (expected_hash : UInt64) (hfuel : left s + 1 < fuel) :
    Returning K (recvFileBlocksUntilEnd out expected_hash fuel) s := by
  induction fuel generalizing s with
  | zero => exact absurd hfuel (Nat.not_lt_zero _)
  | succ fuel ih =>
      rw [recvFileBlocksUntilEnd]
      apply (returning_recvHeader hK (by omega)).bind_safe (safe_recvHeader_less hK fuel s)
      rintro r s₁ ⟨-, hless⟩
      cases r with
      | none => trivial
      | some h =>
          have hless₁ := hless (by simp)
          simp only
          split_ifs
          · trivial
          · trivial
          · trivial
          · refine hK.op_bind fun got s₂ hle₂ => ?_
            split_ifs
            · trivial
            · apply hK.bind (returning_readFull hK h.data_len.toNat (by omega))
              intro r s₃ hle₃
              cases r with
              | none => trivial
              | some buf =>
                  simp only
                  split_ifs
                  · trivial
                  · refine hK.op_bind fun written s₄ hle₄ => ?_
                    cases written with
                    | error e => trivial
                    | ok n =>
                        simp only
                        split_ifs
                        · trivial
                        · exact ih (by omega)

/-! ## Files -/

theorem returning_mkdirEach (dirs : List Bytes) (s : σ) :
    Returning K (mkdirEach dirs : Sys Fd Rc) s := by
  induction dirs generalizing s with
  | nil => trivial
  | cons dir dirs ih =>
      refine Finishes.op_bind trivial fun r s' _ => ?_
      split
      · exact ih s'
      · exact ih s'
      · trivial

theorem returning_ensureDirExists (dir : Bytes) (s : σ) :
    Returning K (ensureDirExists dir : Sys Fd Rc) s := by
  unfold ensureDirExists
  split_ifs
  · trivial
  · trivial
  · exact returning_mkdirEach _ s

theorem returning_ensureParentDirExists (path : Bytes) (s : σ) :
    Returning K (ensureParentDirExists path : Sys Fd Rc) s := by
  unfold ensureParentDirExists
  split_ifs
  · trivial
  · split
    · trivial
    · exact returning_ensureDirExists _ s

theorem returning_copyFilePlain (hK : Subsides K left size) (src dst : Bytes)
    (hfuel : Enough left size fuel s) : Returning K (copyFilePlain fuel src dst) s := by
  unfold copyFilePlain
  refine hK.op_bind fun opened s₁ hle₁ => ?_
  cases opened with
  | error e => trivial
  | ok in_ =>
      apply hK.bind (returning_ensureParentDirExists dst s₁)
      intro made s₂ hle₂
      cases made with
      | err => exact hK.op_bind fun _ _ _ => trivial
      | ok =>
          refine hK.op_bind fun opened s₃ hle₃ => ?_
          cases opened with
          | error e => exact hK.op_bind fun _ _ _ => trivial
          | ok out =>
              have hloop : left s₃ + (size - 0) + 1 < fuel := by
                unfold Enough at hfuel
                omega
              apply hK.bind (returning_copyLoop hK in_ out 0 hloop)
              exact fun copied s₄ _ => hK.op_bind fun _ _ _ => hK.op_bind fun _ _ _ =>
                hK.op_bind fun _ _ _ => trivial

theorem returning_safeRenameOrCopyUnlink (hK : Subsides K left size) (src dst : Bytes)
    (hfuel : Enough left size fuel s) :
    Returning K (safeRenameOrCopyUnlink fuel src dst) s := by
  apply hK.bind (returning_ensureParentDirExists dst s)
  intro made s₁ hle₁
  cases made with
  | err => trivial
  | ok =>
      refine hK.op_bind fun renamed s₂ hle₂ => ?_
      split
      · trivial
      · apply hK.bind (returning_copyFilePlain hK src dst (hfuel.mono (hle₂.trans hle₁)))
        intro copied s₃ _
        cases copied with
        | err => trivial
        | ok =>
            refine hK.op_bind fun unlinked _ _ => ?_
            split <;> trivial
      · trivial

theorem returning_copyFileAtomic (hK : Subsides K left size) (src dst : Bytes)
    (hfuel : Enough left size fuel s) : Returning K (copyFileAtomic fuel src dst) s := by
  unfold copyFileAtomic
  split
  · trivial
  · rename_i tmp _
    apply hK.bind (returning_copyFilePlain hK src tmp hfuel)
    intro copied s₁ hle₁
    cases copied with
    | err => exact hK.op_bind fun _ _ _ => trivial
    | ok =>
        apply hK.bind (returning_safeRenameOrCopyUnlink hK tmp dst (hfuel.mono hle₁))
        intro renamed s₂ _
        cases renamed with
        | err => exact hK.op_bind fun _ _ _ => trivial
        | ok => trivial

theorem returning_makeTimestampDirname (hK : Subsides K left size) (s : σ) :
    Returning K (makeTimestampDirname : Sys Fd (Option Bytes)) s :=
  hK.op_bind fun _ _ _ => trivial

theorem returning_backupOldVersion (hK : Subsides K left size) (root rel_path : Bytes)
    (hfuel : Enough left size fuel s) : Returning K (backupOldVersion fuel root rel_path) s := by
  unfold backupOldVersion
  cases hsrc : currentPath root rel_path with
  | none => trivial
  | some src =>
      refine hK.op_bind fun found s₁ hle₁ => ?_
      split_ifs
      · trivial
      · apply hK.bind (returning_makeTimestampDirname hK s₁)
        intro stamp s₂ hle₂
        split
        · trivial
        · have hstat : Returning K (isDirectory src) s₂ := by
            refine hK.op_bind fun stat _ _ => ?_
            split <;> trivial
          apply hK.bind hstat
          intro isDir s₃ hle₃
          split_ifs
          · exact returning_ensureDirExists _ s₃
          · exact returning_copyFileAtomic hK _ _ (hfuel.mono (by omega))

theorem returning_moveToTrash (hK : Subsides K left size) (root rel_path : Bytes)
    (hfuel : Enough left size fuel s) : Returning K (moveToTrash fuel root rel_path) s := by
  unfold moveToTrash
  split
  · trivial
  · refine hK.op_bind fun found s₁ hle₁ => ?_
    split_ifs
    · trivial
    · apply hK.bind (returning_makeTimestampDirname hK s₁)
      intro stamp s₂ hle₂
      split
      · trivial
      · exact returning_safeRenameOrCopyUnlink hK _ _ (hfuel.mono (by omega))

theorem returning_hashFileFnv1a (hK : Subsides K left size) (path : Bytes)
    (hfuel : Enough left size fuel s) : Returning K (hashFileFnv1a fuel path) s := by
  unfold hashFileFnv1a
  refine hK.op_bind fun opened s₁ hle₁ => ?_
  cases opened with
  | error e => trivial
  | ok fd =>
      have hloop : left s₁ + (size - 0) < fuel := by
        unfold Enough at hfuel
        omega
      have hhash : Returning K (hashFdRange fuel fd 0 none) s₁ := by
        unfold hashFdRange
        rw [if_neg (by decide)]
        exact returning_hashFdLoop hK fd 0 none _ hloop
      exact hK.bind hhash fun hash s₂ _ => hK.op_bind fun _ _ _ => trivial

theorem returning_syncAndClose (hK : Subsides K left size) (fd : Fd) (received : Rc) (s : σ) :
    Returning K (syncAndClose fd received) s :=
  hK.op_bind fun _ _ _ => hK.op_bind fun _ _ _ => trivial

theorem returning_publish (hK : Subsides K left size) (header : SyncHeader) (tmp dst : Bytes)
    (hfuel : Enough left size fuel s) : Returning K (publish fuel header tmp dst) s := by
  apply hK.bind (returning_safeRenameOrCopyUnlink hK tmp dst hfuel)
  intro renamed s₁ _
  cases renamed with
  | err => trivial
  | ok => exact hK.op_bind fun _ _ _ => hK.op_bind fun _ _ _ => trivial

/-! ## Replies -/

theorem returning_sendHeader (hK : Subsides K left size) (header : SyncHeader)
    (hfuel : Enough left size fuel s) : Returning K (sendHeader fuel header) s := by
  apply returning_writenLoop hK
  rw [header.length_encode]
  have hsmall : headerSize ≤ maxNetPath := by decide
  unfold Enough at hfuel
  omega

theorem returning_sendError (hK : Subsides K left size) (message : Bytes)
    (hfuel : Enough left size fuel s) : Returning K (sendError fuel message) s := by
  apply hK.bind (returning_sendHeader hK _ hfuel)
  intro rc s₁ hle₁
  cases rc with
  | err => trivial
  | ok =>
      apply returning_writenLoop hK
      rw [List.length_take]
      unfold Enough at hfuel
      omega

theorem returning_refusal (hK : Subsides K left size) (message : Bytes)
    (hfuel : Enough left size fuel s) :
    Returning K (do let _ ← sendError fuel message; return .err : Sys Fd Rc) s :=
  hK.bind (returning_sendError hK message hfuel) fun _ _ _ => trivial

theorem returning_unlockAndReply (hK : Subsides K left size) (outcome : Except Bytes Unit)
    (ack : UInt64) (hfuel : Enough left size fuel s) :
    Returning K (unlockAndReply fuel outcome ack) s := by
  refine hK.op_bind fun _ s₁ hle₁ => ?_
  cases outcome with
  | ok _ => exact hK.bind (returning_sendHeader hK _ (hfuel.mono hle₁)) fun _ _ _ => trivial
  | error message => exact returning_refusal hK message (hfuel.mono hle₁)

/-! ## The handlers -/

/-- A handler that works under the lock. -/
theorem returning_critical (hK : Subsides K left size) {p : Sys Fd α}
    {f : α → Except Bytes Unit} {ack : UInt64} (hfuel : Enough left size fuel s)
    (hp : ∀ s', Enough left size fuel s' → Returning K p s') :
    Returning K (sys .lockFiles >>= fun _ => p >>= fun a => unlockAndReply fuel (f a) ack) s := by
  refine hK.op_bind fun _ s₁ hle₁ => ?_
  apply hK.bind (hp s₁ (hfuel.mono hle₁))
  exact fun a s₂ hle₂ => returning_unlockAndReply hK _ ack (hfuel.mono (hle₂.trans hle₁))

theorem returning_fileBeginCritical (hK : Subsides K left size) (header : SyncHeader)
    (root rel_path dst tmp : Bytes) (hfuel : Enough left size fuel s) :
    Returning K (fileBeginCritical fuel header root rel_path dst tmp) s := by
  apply hK.bind (returning_ensureParentDirExists dst s)
  intro made s₁ hle₁
  split_ifs
  · trivial
  apply hK.bind (returning_backupOldVersion hK root rel_path (hfuel.mono hle₁))
  intro saved s₂ hle₂
  split_ifs
  · trivial
  refine hK.op_bind fun opened s₃ hle₃ => ?_
  cases opened with
  | error e => trivial
  | ok fd =>
      have hloop : left s₃ + 1 < fuel := by
        unfold Enough at hfuel
        omega
      apply hK.bind (returning_recvFileBlocksUntilEnd hK fd header.total_hash hloop)
      rintro ⟨received, end_header⟩ s₄ hle₄
      apply hK.bind (returning_syncAndClose hK fd received s₄)
      intro closed s₅ hle₅
      simp only
      split_ifs
      · trivial
      apply hK.bind (returning_hashFileFnv1a hK tmp (hfuel.mono (by omega)))
      intro actual_hash s₆ hle₆
      split_ifs
      · trivial
      apply hK.bind (returning_publish hK header tmp dst (hfuel.mono (by omega)))
      intro published s₇ _
      split_ifs <;> trivial

theorem returning_recvBlockStream (hK : Subsides K left size) (fd : Fd) (first_block : SyncHeader)
    (hfuel : left s + 1 < fuel) : Returning K (recvBlockStream fuel fd first_block) s := by
  have hfirst : Returning K (recvFirstBlock fuel fd first_block) s := by
    apply hK.bind (returning_readFull hK first_block.data_len.toNat (by omega))
    intro r s₁ _
    cases r with
    | none => trivial
    | some buf =>
        simp only
        split_ifs
        · trivial
        · refine hK.op_bind fun written _ _ => ?_
          cases written <;> trivial
  apply hK.bind hfirst
  intro rc s₁ hle₁
  cases rc with
  | err => trivial
  | ok => exact returning_recvFileBlocksUntilEnd hK fd 0 (by omega)

theorem returning_blockStreamCritical (hK : Subsides K left size) (first_block : SyncHeader)
    (root rel_path dst tmp : Bytes) (hfuel : Enough left size fuel s) :
    Returning K (blockStreamCritical fuel first_block root rel_path dst tmp) s := by
  apply hK.bind (returning_ensureParentDirExists dst s)
  intro made s₁ hle₁
  split_ifs
  · trivial
  refine hK.op_bind fun opened s₂ hle₂ => ?_
  cases opened with
  | error e => trivial
  | ok fd =>
      refine hK.op_bind fun got s₃ hle₃ => ?_
      split_ifs
      · exact hK.op_bind fun _ _ _ => trivial
      have hloop : left s₃ + 1 < fuel := by
        unfold Enough at hfuel
        omega
      apply hK.bind (returning_recvBlockStream hK fd first_block hloop)
      rintro ⟨received, end_header⟩ s₄ hle₄
      apply hK.bind (returning_syncAndClose hK fd received s₄)
      intro closed s₅ hle₅
      split_ifs
      · trivial
      have hagrees :
          Returning K (hashAgrees fuel tmp (expectedHash first_block end_header)) s₅ := by
        unfold hashAgrees
        split_ifs
        · trivial
        · exact hK.bind (returning_hashFileFnv1a hK tmp (hfuel.mono (by omega)))
            fun _ _ _ => trivial
      apply hK.bind hagrees
      intro agrees s₆ hle₆
      split_ifs
      · trivial
      apply hK.bind (returning_backupOldVersion hK root rel_path (hfuel.mono (by omega)))
      intro saved s₇ hle₇
      apply hK.bind (returning_publish hK first_block tmp dst (hfuel.mono (by omega)))
      intro published s₈ _
      split_ifs <;> trivial

theorem returning_renameCritical (hK : Subsides K left size) (old_path new_path : Bytes)
    (hfuel : Enough left size fuel s) : Returning K (renameCritical fuel old_path new_path) s := by
  apply hK.bind (returning_ensureParentDirExists new_path s)
  intro made s₁ hle₁
  split_ifs
  · trivial
  apply hK.bind (returning_safeRenameOrCopyUnlink hK old_path new_path (hfuel.mono hle₁))
  intro renamed s₂ _
  split_ifs <;> trivial

theorem returning_dispatch (hK : Subsides K left size) (root : Bytes) (header : SyncHeader)
    (rel_path last_rel_path : Bytes) (hfuel : Enough left size fuel s) :
    Returning K (dispatch fuel root header rel_path last_rel_path) s := by
  unfold dispatch
  dsimp only
  split_ifs
  · exact returning_sendHeader hK _ hfuel
  · unfold serverHandleFileBegin
    split
    · exact returning_refusal hK _ hfuel
    · split_ifs
      · exact returning_critical hK hfuel fun s' _ => returning_ensureDirExists _ s'
      · exact returning_critical (f := id) hK hfuel fun s' hfuel' =>
          returning_fileBeginCritical hK header root _ _ _ hfuel'
  · unfold serverHandleQueryOffset
    split
    · exact returning_refusal hK _ hfuel
    · rename_i tmp _
      have hsize : Returning K (getFileSize tmp) s := by
        refine hK.op_bind fun stat _ _ => ?_
        split <;> trivial
      exact hK.bind hsize fun _ s₁ hle₁ => returning_sendHeader hK _ (hfuel.mono hle₁)
  · exact returning_refusal hK _ hfuel
  · unfold handleLargeBlockStream
    split
    · exact returning_refusal hK _ hfuel
    · exact returning_critical (f := id) hK hfuel fun s' hfuel' =>
        returning_blockStreamCritical hK header root _ _ _ hfuel'
  · exact returning_critical hK hfuel fun s' hfuel' => returning_moveToTrash hK root _ hfuel'
  · unfold serverHandleFileRename
    dsimp only
    split_ifs
    · exact returning_refusal hK _ hfuel
    · exact returning_refusal hK _ hfuel
    · split
      · exact returning_critical (f := id) hK hfuel fun s' hfuel' =>
          returning_renameCritical hK _ _ hfuel'
      · exact returning_refusal hK _ hfuel
  · exact returning_refusal hK _ hfuel

/-! ## The connection -/

theorem returning_recvRelPath (hK : Subsides K left size) (header : SyncHeader)
    (hfuel : left s < fuel) : Returning K (recvRelPath fuel header) s := by
  unfold recvRelPath recvPath
  split_ifs
  · trivial
  · trivial
  · exact returning_readFull hK _ hfuel

/-- Each message takes its header from the stream. -/
theorem returning_connectionLoop (hK : Subsides K left size) (root log_path : Bytes)
    (rounds : Nat) (last_rel_path : Bytes) (hrounds : left s < rounds)
    (hfuel : Enough left size fuel s) :
    Returning K (serverHandleConnectionLoop fuel root log_path rounds last_rel_path) s := by
  induction rounds generalizing s last_rel_path with
  | zero => exact absurd hrounds (Nat.not_lt_zero _)
  | succ rounds ih =>
      have hsmall : left s < fuel := by
        unfold Enough at hfuel
        omega
      rw [serverHandleConnectionLoop]
      apply (returning_recvHeader hK hsmall).bind_safe (safe_recvHeader_less hK fuel s)
      rintro received s₁ ⟨-, hless⟩
      cases received with
      | none => trivial
      | some header =>
          have hless₁ := hless (by simp)
          by_cases hexit : header.msg_type = msgExit
          · simp only [if_pos hexit]
            trivial
          simp only [if_neg hexit]
          apply hK.bind (returning_recvRelPath hK header (by omega))
          intro rel_path s₂ hle₂
          cases rel_path with
          | none => exact returning_refusal hK _ (hfuel.mono (by omega))
          | some rel_path =>
              apply hK.bind (returning_dispatch hK root header rel_path _ (hfuel.mono (by omega)))
              intro rc s₃ hle₃
              refine hK.op_bind fun _ s₄ hle₄ => ?_
              split_ifs
              · trivial
              · trivial
              · exact ih _ (by omega) (hfuel.mono (by omega))

/-- With enough fuel every execution of a connection returns, when the stream of the peer
ends, calls are interrupted or come to nothing finitely often, and no file is endless. -/
theorem connection_returns (hK : Subsides K left size) (root log_path : Bytes)
    (hfuel : left s + size + maxNetPath + 1 < fuel) :
    (serverHandleConnection fuel root log_path).Finishes K (fun _ => True) s :=
  returning_connectionLoop hK root log_path fuel [] (by omega) hfuel

end Returns

/-! ## Calls that are interrupted finitely often -/

section Interrupted

variable {cwd : TreePath} {mayFail : Call TreePath → Errno → Prop} {total size : Nat}

/-- The kernel with any faults, but only so many calls that are to be made again as the state
counts.  The peer sends `total` bytes at most, whatever it is sent, and no file is longer than
`size`. -/
def interruptedKernel (cwd : TreePath) (mayFail : Call TreePath → Errno → Prop) (total size : Nat)
    (c : Call TreePath) (s : World × Nat) (r : Resp c) (s' : World × Nat) : Prop :=
  Kernel cwd mayFail c s.1 r s'.1 ∧ s'.2 ≤ s.2 ∧ (Retried c r → s'.2 < s.2) ∧
    (∀ sent, (s.1.conn.peer sent).length ≤ total) ∧
    ∀ p data, s.1.tree.content p = some data → data.length ≤ size

/-- What has been received stays received. -/
theorem Kernel.received_le {c : Call TreePath} {w w' : World} {r : Resp c}
    (h : Kernel cwd mayFail c w r w') : w.conn.received ≤ w'.conn.received := by
  cases c with
  | recv count =>
      rcases h.recvCases with ⟨-, rfl⟩ | ⟨n, -, -, -, rfl⟩
      · exact le_rfl
      · exact Nat.le_add_right _ _
  | send buf =>
      rcases h.sendCases with ⟨-, rfl⟩ | ⟨n, -, -, rfl⟩
      · exact le_rfl
      · exact le_rfl
  | _ =>
      rw [h.keepsConn trivial]

theorem subsides_interruptedKernel : Subsides (interruptedKernel cwd mayFail total size)
    (fun s => total - s.1.conn.received + s.2) size where
  le := by
    rintro c s r s' ⟨hK, hcalls, -⟩
    have hreceived := hK.received_le
    omega
  received := by
    rintro count s piece s' ⟨hK, hcalls, -, htotal, -⟩ hpiece
    have hinput := List.length_pos_iff.mpr hpiece
    rcases hK.recvCases with ⟨⟨e, he⟩, -⟩ | ⟨n, -, -, hr, hs'⟩
    · cases he
    · obtain rfl := Except.ok.inj hr
      rw [List.length_take] at hinput
      have hreceived : s'.1.conn.received =
          s.1.conn.received + min n s.1.conn.input.length := by rw [hs']; rfl
      have hlen : s.1.conn.input.length =
          (s.1.conn.peer s.1.conn.output).length - s.1.conn.received := List.length_drop
      have hle := htotal s.1.conn.output
      omega
  again := by
    rintro c s r s' ⟨hK, -, hagain, -⟩ hretried
    have hreceived := hK.received_le
    have hless := hagain hretried
    omega
  files := by
    rintro fd pos count s buf s' ⟨hK, -, -, -, hsize⟩ hbuf
    obtain ⟨-, ⟨e, he⟩ | ⟨data, n, hdata, -, hr⟩⟩ := hK.readCases
    · cases he
    · obtain rfl := Except.ok.inj hr
      have hpos := List.length_pos_iff.mpr hbuf
      have hle := hsize fd data hdata
      rw [List.length_take, List.length_drop] at hpos ⊢
      omega

end Interrupted

/-- The client that uploads `a`, three of the calls being interrupted at most. -/
theorem connection_returns_upload :
    (serverHandleConnection 1000 (ascii "s") (ascii "log")).Finishes
      (interruptedKernel [] (fun _ e => e = .intr) uploadOfA.length 2) (fun _ => True)
      (uploadWorld, 3) :=
  connection_returns subsides_interruptedKernel (ascii "s") (ascii "log") (by decide +kernel)

end MiniSync
