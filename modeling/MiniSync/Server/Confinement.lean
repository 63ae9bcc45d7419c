import MiniSync.Server
import MiniSync.Store

/-!
# Server path confinement

Every path through which a connection changes the store lies below the root, in
`current`, in one stamped directory of `.versions`, or in one of `.trash`.
-/

namespace MiniSync

variable {Fd : Type}

/-! ## Calls that change something by path -/

/-- Paths given to the calls that change files lie in `W`, and directories made in `M`. -/
def Call.Within (W M : Bytes → Prop) : Call Fd → Prop
  | .openFile path how => how = .readOnly ∨ W path
  | .mkdir path => M path
  | .rename src dst => W src ∧ W dst
  | .unlink path => W path
  | .chmod path _ => W path
  | .utime path _ => W path
  | .appendLog path => W path
  | _ => True

/-- The same for code that neither locks nor logs, and that writes to open files
only where some path may be opened for writing. -/
def Call.Inner (W M : Bytes → Prop) : Call Fd → Prop
  | .openFile path how => how = .readOnly ∨ W path
  | .pwrite _ _ _ => ∃ path, W path
  | .mkdir path => M path
  | .rename src dst => W src ∧ W dst
  | .unlink path => W path
  | .chmod path _ => W path
  | .utime path _ => W path
  | .lockFiles => False
  | .unlockFiles => False
  | .appendLog _ => False
  | _ => True

theorem Call.Inner.within {W M : Bytes → Prop} {c : Call Fd} (h : c.Inner W M) :
    c.Within W M := by
  cases c <;> first | exact h | trivial

/-- The calls of a program stay within `W` and `M`, and do not use the lock. -/
abbrev Stays {α : Type} (W M : Bytes → Prop) (p : Sys Fd α) : Prop :=
  p.All (Call.Inner W M) fun _ => True

/-- The calls of a program stay within `W` and `M`. -/
abbrev Serves {α : Type} (W M : Bytes → Prop) (p : Sys Fd α) : Prop :=
  p.All (Call.Within W M) fun _ => True

theorem Stays.serves {α : Type} {W M : Bytes → Prop} {p : Sys Fd α} (h : Stays W M p) :
    Serves W M p := h.mono (fun _ hc => hc.within) fun _ ha => ha

namespace Confinement

open Prog

variable {W M : Bytes → Prop}

/-! ## `hash.c` and `net_utils.c` name no path to change -/

theorem stays_hashFdLoop (fd : Fd) (fuel pos : Nat) (len : Option Nat) (hash : UInt64) :
    Stays W M (hashFdLoop fd fuel pos len hash) := by
  induction fuel generalizing pos len hash with
  | zero => trivial
  | succ fuel ih =>
      rw [hashFdLoop]
      split_ifs
      · trivial
      · apply All.op_bind trivial
        intro r
        split
        · exact ih _ _ _
        · trivial
        · split_ifs
          · trivial
          · exact ih _ _ _

theorem stays_hashFdRange (fuel : Nat) (fd : Fd) (offset : Int) (len : Option Nat) :
    Stays W M (hashFdRange fuel fd offset len) := by
  unfold hashFdRange
  split_ifs
  · apply All.op_bind trivial
    intro r
    split
    · trivial
    · exact stays_hashFdLoop _ _ _ _ _
  · exact stays_hashFdLoop _ _ _ _ _

theorem stays_hashFileFnv1a (fuel : Nat) (path : Bytes) :
    Stays W M (hashFileFnv1a fuel path : Sys Fd UInt64) := by
  refine All.op_bind (Or.inl rfl) fun r => ?_
  split
  · trivial
  · apply (stays_hashFdRange _ _ _ _).bind
    intro hash _
    exact All.op_bind trivial fun _ => trivial

theorem stays_source_read (src : Source Fd) (done count : Nat) :
    Stays W M (src.read done count) := by
  cases src <;> exact ⟨trivial, fun _ => trivial⟩

theorem stays_readnLoop (src : Source Fd) (fuel left : Nat) (buf : Bytes) :
    Stays W M (readnLoop src fuel left buf) := by
  induction fuel generalizing left buf with
  | zero => trivial
  | succ fuel ih =>
      rw [readnLoop]
      split_ifs
      · trivial
      · apply (stays_source_read _ _ _).bind
        intro r _
        split
        · exact ih _ _
        · trivial
        · split_ifs
          · trivial
          · exact ih _ _

theorem stays_readFull (fuel : Nat) (src : Source Fd) (n : Nat) :
    Stays W M (readFull fuel src n) := by
  apply (stays_readnLoop _ _ _ _).bind
  intro r _
  split <;> trivial

theorem stays_writeFull (fuel : Nat) (buf : Bytes) :
    Stays W M (writeFull fuel buf : Sys Fd Rc) := all_writeFull (fun _ => trivial) fuel buf

theorem stays_recvHeader (fuel : Nat) :
    Stays W M (recvHeader fuel : Sys Fd (Option SyncHeader)) := by
  apply (stays_readFull _ _ _).bind
  intro r _
  split <;> trivial

theorem stays_recvPath (fuel max_len : Nat) (path_len : UInt32) :
    Stays W M (recvPath fuel max_len path_len : Sys Fd (Option Bytes)) := by
  unfold recvPath
  split_ifs
  · trivial
  · trivial
  · exact stays_readFull _ _ _

theorem stays_sendAck (fuel : Nat) (offset : UInt64) :
    Stays W M (sendAck fuel offset : Sys Fd Rc) := stays_writeFull _ _

theorem stays_sendError (fuel : Nat) (message : Bytes) :
    Stays W M (sendError fuel message : Sys Fd Rc) := all_sendError (fun _ => trivial) fuel message

/-! ## `file_utils.c` -/

/-- Every directory on the way to `path`, and `path` itself, may be made. -/
def Makes (M : Bytes → Prop) (path : Bytes) : Prop := ∀ dir, Leads dir path → M dir

theorem stays_ensureDirExists {dir : Bytes} (h : Makes M dir) :
    Stays W M (ensureDirExists dir : Sys Fd Rc) := all_ensureDirExists h

/-- The parent of a path with a slash that is not its first byte. -/
theorem stays_ensureParentDirExists {path : Bytes} (h : Makes M path)
    (hslash : ∃ u v, path = u ++ slash :: v ∧ u ≠ []) :
    Stays W M (ensureParentDirExists path : Sys Fd Rc) := by
  obtain ⟨u, v, hpath, hu⟩ := hslash
  unfold ensureParentDirExists
  split_ifs
  · trivial
  · split
    · trivial
    · rename_i parent hparent
      have hleads := leads_of_parentPart hpath hu hparent
      exact stays_ensureDirExists fun d hd => h d (hd.trans hleads)

theorem stays_isDirectory (path : Bytes) : Stays W M (isDirectory path : Sys Fd Bool) := by
  apply All.op_bind trivial
  intro r
  split <;> trivial

theorem stays_getFileSize (path : Bytes) :
    Stays W M (getFileSize path : Sys Fd (Option Nat)) := by
  apply All.op_bind trivial
  intro r
  split <;> trivial

theorem stays_writeLoop (hW : ∃ path, W path) (out : Fd) (fuel pos : Nat) (left : Bytes) :
    Stays W M (writeLoop out fuel pos left) := by
  induction fuel generalizing pos left with
  | zero => trivial
  | succ fuel ih =>
      rw [writeLoop]
      split_ifs
      · trivial
      · refine All.op_bind hW fun r => ?_
        split
        · exact ih _ _
        · trivial
        · exact ih _ _

theorem stays_copyLoop (hW : ∃ path, W path) (in_ out : Fd) (fuel pos : Nat) :
    Stays W M (copyLoop in_ out fuel pos) := by
  induction fuel generalizing pos with
  | zero => trivial
  | succ fuel ih =>
      rw [copyLoop]
      apply All.op_bind trivial
      intro r
      split
      · exact ih _
      · trivial
      · split_ifs
        · trivial
        · apply (stays_writeLoop hW _ _ _ _).bind
          intro rc _
          split
          · trivial
          · exact ih _

/-- A path that may be changed, with all directories on the way. -/
structure Target (W M : Bytes → Prop) (path : Bytes) : Prop where
  within : W path
  makes : Makes M path
  slash_mem : ∃ u v, path = u ++ slash :: v ∧ u ≠ []

theorem stays_copyFilePlain (fuel : Nat) (src : Bytes) {dst : Bytes} (h : Target W M dst) :
    Stays W M (copyFilePlain fuel src dst : Sys Fd Rc) := by
  refine All.op_bind (Or.inl rfl) fun r => ?_
  split
  · trivial
  · apply (stays_ensureParentDirExists h.makes h.slash_mem).bind
    intro rc _
    split
    · exact All.op_bind trivial fun _ => trivial
    · refine All.op_bind (Or.inr h.within) fun r' => ?_
      split
      · exact All.op_bind trivial fun _ => trivial
      · apply (stays_copyLoop ⟨dst, h.within⟩ _ _ _ _).bind
        intro copied _
        apply All.op_bind trivial
        intro synced
        exact All.op_bind trivial fun _ => All.op_bind trivial fun _ => trivial

theorem stays_safeRenameOrCopyUnlink (fuel : Nat) {src dst : Bytes} (hsrc : W src)
    (hdst : Target W M dst) : Stays W M (safeRenameOrCopyUnlink fuel src dst : Sys Fd Rc) := by
  apply (stays_ensureParentDirExists hdst.makes hdst.slash_mem).bind
  intro rc _
  split
  · trivial
  · refine All.op_bind ⟨hsrc, hdst.within⟩ fun r => ?_
    split
    · trivial
    · apply (stays_copyFilePlain _ _ hdst).bind
      intro rc' _
      split
      · trivial
      · refine All.op_bind hsrc fun r' => ?_
        split <;> trivial
    · trivial

theorem stays_copyFileAtomic (fuel : Nat) (src : Bytes) {dst : Bytes} (hdst : Target W M dst)
    (htmp : ∀ tmp, syncingPath dst = some tmp → Target W M tmp) :
    Stays W M (copyFileAtomic fuel src dst : Sys Fd Rc) := by
  unfold copyFileAtomic
  split
  · trivial
  · rename_i tmp hpath
    have htarget := htmp tmp hpath
    apply (stays_copyFilePlain _ _ htarget).bind
    intro rc _
    split
    · exact All.op_bind htarget.within fun _ => trivial
    · apply (stays_safeRenameOrCopyUnlink _ htarget.within hdst).bind
      intro rc' _
      split
      · exact All.op_bind htarget.within fun _ => trivial
      · trivial

theorem stays_setFileMetadata {path : Bytes} (mode : UInt32) (mtime : Int64) (h : W path) :
    Stays W M (setFileMetadata path mode mtime : Sys Fd Unit) :=
  All.op_bind h fun _ => All.op_bind h fun _ => trivial

/-! ## The store -/

/-- `base` followed by components none of which is `..`. -/
def Below (base path : Bytes) : Prop :=
  ∃ rest, path = base ++ rest ∧ (rest = [] ∨ rest.head? = some slash) ∧
    dotdot ∉ rest.splitOn slash

/-- `root` joined with `current`, `.versions/<stamp>` or `.trash/<stamp>`. -/
def StoreBase (root base : Bytes) : Prop :=
  joinPath root currentName = some base ∨
    ∃ area ∈ [versionsName, trashName], ∃ areaRoot tm, joinPath root area = some areaRoot ∧
      joinPath areaRoot (timestampDirname tm) = some base

theorem component_of_area {area : Bytes} (h : area ∈ [versionsName, trashName]) :
    Component area := by
  rcases List.mem_pair.mp h with rfl | rfl
  · exact component_versionsName
  · exact component_trashName

/-- The paths of the store. -/
def InStore (root path : Bytes) : Prop := ∃ base, StoreBase root base ∧ Below base path

/-- The directories that may be made: those of the store, the two area roots, and
what leads to `root`. -/
def MayMake (root path : Bytes) : Prop :=
  InStore root path ∨ (∃ area ∈ [versionsName, trashName], joinPath root area = some path) ∨
    path <+: root

theorem Below.refl (base : Bytes) : Below base base := ⟨[], by simp, Or.inl rfl, by decide⟩

theorem below_append {base rel : Bytes} (h : dotdot ∉ rel.splitOn slash) :
    Below base (base ++ slash :: rel) := by
  refine ⟨slash :: rel, rfl, Or.inr rfl, ?_⟩
  have hsplit : (slash :: rel).splitOn slash = [] :: rel.splitOn slash :=
    List.splitOn_append_cons_self [] rel
  rw [hsplit, List.mem_cons, not_or]
  exact ⟨by decide, h⟩

/-- What leads to a path below `base` is below `base` or leads to it. -/
theorem below_or_leads {base rel dir : Bytes} (hrel : dotdot ∉ rel.splitOn slash)
    (h : Leads dir (base ++ slash :: rel)) : Below base dir ∨ Leads dir base := by
  obtain ⟨rest, heq, hrest⟩ := h
  rcases List.append_eq_append_iff.mp heq with ⟨as, rfl, htail⟩ | ⟨bs, rfl, htail⟩
  · left
    cases as with
    | nil => simpa using Below.refl base
    | cons c cs =>
        rw [List.cons_append, List.cons.injEq] at htail
        rw [← htail.1]
        apply below_append
        rcases hrest with rfl | ⟨v, rfl⟩
        · rwa [htail.2, List.append_nil] at hrel
        · rw [htail.2, List.splitOn_append_cons_self, List.mem_append, not_or] at hrel
          exact hrel.1
  · right
    refine ⟨bs, rfl, ?_⟩
    cases bs with
    | nil => exact Or.inl rfl
    | cons c cs =>
        rcases hrest with rfl | ⟨v, rfl⟩
        · cases htail
        · rw [List.cons_append, List.cons.injEq] at htail
          exact Or.inr ⟨cs, by rw [htail.1]⟩

theorem prefix_root_of_leads {root dir : Bytes} (h : Leads dir (joinBase root)) :
    dir <+: root := by
  obtain ⟨rest, heq, -⟩ := h
  exact (heq ▸ List.prefix_append dir rest).trans (joinBase_isPrefix root)

theorem mayMake_of_leads_storeBase {root base dir : Bytes} (hbase : StoreBase root base)
    (h : Leads dir base) : MayMake root dir := by
  rcases hbase with hcur | ⟨area, harea, areaRoot, tm, hroot, hjoin⟩
  · have hout := ((joinPath_eq_some component_currentName.head_ne).mp hcur).1
    rcases leads_join component_currentName.no_slash (hout ▸ h) with hdir | hlead
    · exact Or.inl ⟨base, Or.inl hcur, by rw [hdir, ← hout]; exact Below.refl base⟩
    · exact Or.inr (Or.inr (prefix_root_of_leads hlead))
  · have hstamp := component_timestampDirname tm
    have hcomp := component_of_area harea
    have hareaRoot := ((joinPath_eq_some hcomp.head_ne).mp hroot).1
    have hout := ((joinPath_eq_some hstamp.head_ne).mp hjoin).1
    rw [hareaRoot, joinBase_join hcomp, ← hareaRoot] at hout
    rcases leads_join hstamp.no_slash (hout ▸ h) with hdir | hlead
    · refine Or.inl ⟨base, Or.inr ⟨area, harea, areaRoot, tm, hroot, hjoin⟩, ?_⟩
      rw [hdir, ← hout]
      exact Below.refl base
    · rcases leads_join hcomp.no_slash (hareaRoot ▸ hlead) with hdir | hlead'
      · exact Or.inr (Or.inl ⟨area, harea, by rw [hroot, hdir, ← hareaRoot]⟩)
      · exact Or.inr (Or.inr (prefix_root_of_leads hlead'))

/-- A relative path below a store base may be written, and its parents made. -/
theorem target_of_storeBase {root base rel : Bytes} (hbase : StoreBase root base)
    (hne : base ≠ []) (hrel : dotdot ∉ rel.splitOn slash) :
    Target (InStore root) (MayMake root) (base ++ slash :: rel) where
  within := ⟨base, hbase, below_append hrel⟩
  makes := by
    intro dir hdir
    rcases below_or_leads hrel hdir with hbelow | hlead
    · exact Or.inl ⟨base, hbase, hbelow⟩
    · exact mayMake_of_leads_storeBase hbase hlead
  slash_mem := ⟨base, rel, rfl, hne⟩

theorem target_current {root rel dst : Bytes} (h : currentPath root rel = some dst) :
    Target (InStore root) (MayMake root) dst := by
  obtain ⟨hrel, hjoin, rfl, -⟩ := currentPath_eq_some h
  exact target_of_storeBase (Or.inl hjoin) (by simp) hrel.no_dotdot

/-- The temporary file next to a target of the same kind. -/
theorem target_syncing {root base rel tmp : Bytes} (hbase : StoreBase root base)
    (hne : base ≠ []) (hrel : dotdot ∉ rel.splitOn slash)
    (h : syncingPath (base ++ slash :: rel) = some tmp) :
    Target (InStore root) (MayMake root) tmp := by
  rw [(syncingPath_eq_some.mp h).1, List.append_assoc, List.cons_append]
  exact target_of_storeBase hbase hne (dotdot_notMem_append_syncing hrel)

/-! ## Versions and trash -/

/-- Where a copy of `rel` goes in one stamped directory of an area. -/
theorem storeBase_of_stampedPath {area root rel dst : Bytes} {tm : Tm}
    (harea : area ∈ [versionsName, trashName]) (hrel : Relative rel)
    (h : stampedPath area root (timestampDirname tm) rel = some dst) :
    ∃ base, StoreBase root base ∧ base ≠ [] ∧ dst = base ++ slash :: rel := by
  obtain ⟨areaRoot, hroot, -, hbase, rfl⟩ :=
    stampedPath_eq_some (component_of_area harea) (component_timestampDirname tm) hrel h
  exact ⟨_, Or.inr ⟨area, harea, areaRoot, tm, hroot, hbase⟩, by simp, rfl⟩

theorem stays_backupOldVersion (fuel : Nat) (root rel_path : Bytes) :
    Stays (InStore root) (MayMake root) (backupOldVersion fuel root rel_path : Sys Fd Rc) := by
  unfold backupOldVersion
  split
  · trivial
  · rename_i src hsrc
    have hrel := (currentPath_eq_some hsrc).1
    refine All.op_bind trivial fun found => ?_
    split_ifs
    · trivial
    · apply (all_makeTimestampDirname trivial).bind
      intro stamp hstamp
      split
      · trivial
      · rename_i dst hdst
        obtain ⟨s, hs, hpath⟩ := Option.bind_eq_some_iff.mp hdst
        obtain ⟨tm, rfl⟩ := hstamp s hs
        obtain ⟨base, hbase, hne, rfl⟩ := storeBase_of_stampedPath (by simp) hrel hpath
        have htarget := target_of_storeBase hbase hne hrel.no_dotdot
        apply (stays_isDirectory _).bind
        intro isDir _
        split_ifs
        · exact stays_ensureDirExists htarget.makes
        · exact stays_copyFileAtomic _ _ htarget fun tmp htmp =>
            target_syncing hbase hne hrel.no_dotdot htmp

theorem stays_moveToTrash (fuel : Nat) (root rel_path : Bytes) :
    Stays (InStore root) (MayMake root) (moveToTrash fuel root rel_path : Sys Fd Rc) := by
  unfold moveToTrash
  split
  · trivial
  · rename_i src hsrc
    have hrel := (currentPath_eq_some hsrc).1
    refine All.op_bind trivial fun found => ?_
    split_ifs
    · trivial
    · apply (all_makeTimestampDirname trivial).bind
      intro stamp hstamp
      split
      · trivial
      · rename_i dst hdst
        obtain ⟨s, hs, hpath⟩ := Option.bind_eq_some_iff.mp hdst
        obtain ⟨tm, rfl⟩ := hstamp s hs
        obtain ⟨base, hbase, hne, rfl⟩ := storeBase_of_stampedPath (by simp) hrel hpath
        exact stays_safeRenameOrCopyUnlink _ (target_current hsrc).within
          (target_of_storeBase hbase hne hrel.no_dotdot)

/-! ## The handlers -/

theorem stays_recvFileBlocksUntilEnd (hW : ∃ path, W path) (out_fd : Fd) (expected_hash : UInt64) (fuel : Nat) :
    Stays W M (recvFileBlocksUntilEnd out_fd expected_hash fuel) := by
  induction fuel with
  | zero => trivial
  | succ fuel ih =>
      rw [recvFileBlocksUntilEnd]
      apply (stays_recvHeader _).bind
      intro received _
      split
      · trivial
      · split_ifs
        · trivial
        · trivial
        · trivial
        · refine All.op_bind trivial fun got => ?_
          split_ifs
          · trivial
          · apply (stays_readFull _ _ _).bind
            intro buf _
            split
            · trivial
            · split_ifs
              · trivial
              · refine All.op_bind hW fun written => ?_
                split
                · trivial
                · split_ifs
                  · trivial
                  · exact ih

theorem serves_sendError (fuel : Nat) (message : Bytes) :
    Serves W M (do let _ ← sendError fuel message; return .err : Sys Fd Rc) :=
  (stays_sendError fuel message).serves.bind fun _ _ => trivial

theorem serves_unlockAndReply (fuel : Nat) (outcome : Except Bytes Unit) (ack : UInt64) :
    Serves W M (unlockAndReply fuel outcome ack : Sys Fd Rc) := by
  refine All.op_bind trivial fun _ => ?_
  split
  · exact (stays_sendAck _ _).serves.bind fun _ _ => trivial
  · exact serves_sendError _ _

theorem stays_syncAndClose (fd : Fd) (received : Rc) :
    Stays W M (syncAndClose fd received) :=
  All.op_bind trivial fun _ => All.op_bind trivial fun _ => trivial

theorem stays_publish (fuel : Nat) (header : SyncHeader) {tmp dst : Bytes} (htmp : W tmp)
    (hdst : Target W M dst) : Stays W M (publish fuel header tmp dst : Sys Fd Rc) := by
  apply (stays_safeRenameOrCopyUnlink _ htmp hdst).bind
  intro renamed _
  split
  · trivial
  · exact (stays_setFileMetadata _ _ hdst.within).bind fun _ _ => trivial

/-- Both paths of an upload are targets of the store. -/
theorem target_uploadPaths {root rel_path dst tmp : Bytes}
    (h : uploadPaths root rel_path = some (dst, tmp)) :
    Target (InStore root) (MayMake root) dst ∧ Target (InStore root) (MayMake root) tmp := by
  unfold uploadPaths at h
  rw [Option.bind_eq_bind, Option.bind_eq_some_iff] at h
  obtain ⟨dst', hdst, h⟩ := h
  obtain ⟨tmp', htmp, h⟩ := Option.bind_eq_some_iff.mp h
  cases h
  refine ⟨target_current hdst, ?_⟩
  obtain ⟨hrel, hjoin, rfl, -⟩ := currentPath_eq_some hdst
  exact target_syncing (Or.inl hjoin) (by simp) hrel.no_dotdot htmp

theorem stays_fileBeginCritical (fuel : Nat) (header : SyncHeader) {root rel_path dst tmp : Bytes}
    (h : uploadPaths root rel_path = some (dst, tmp)) :
    Stays (InStore root) (MayMake root)
      (fileBeginCritical fuel header root rel_path dst tmp : Sys Fd _) := by
  obtain ⟨hdst, htmp⟩ := target_uploadPaths h
  unfold fileBeginCritical
  apply (stays_ensureParentDirExists hdst.makes hdst.slash_mem).bind
  intro prepared _
  split_ifs
  · trivial
  · apply (stays_backupOldVersion _ _ _).bind
    intro saved _
    split_ifs
    · trivial
    · refine All.op_bind (Or.inr htmp.within) fun opened => ?_
      split
      · trivial
      · apply (stays_recvFileBlocksUntilEnd ⟨tmp, htmp.within⟩ _ _ _).bind
        intro received _
        apply (stays_syncAndClose _ _).bind
        intro closed _
        split_ifs
        · trivial
        · apply (stays_hashFileFnv1a _ _).bind
          intro hash _
          dsimp only
          split_ifs
          · trivial
          · apply (stays_publish _ _ htmp.within hdst).bind
            intro renamed _
            split_ifs <;> trivial

theorem serves_serverHandleFileBegin (fuel : Nat) (header : SyncHeader) (root rel_path : Bytes) :
    Serves (InStore root) (MayMake root)
      (serverHandleFileBegin fuel header root rel_path : Sys Fd Rc) := by
  unfold serverHandleFileBegin
  split
  · exact serves_sendError _ _
  · rename_i dst tmp hpaths
    split_ifs
    · refine All.op_bind trivial fun _ => ?_
      apply (stays_ensureDirExists (target_uploadPaths hpaths).1.makes).serves.bind
      intro made _
      exact serves_unlockAndReply _ _ _
    · refine All.op_bind trivial fun _ => ?_
      apply (stays_fileBeginCritical _ _ hpaths).serves.bind
      intro outcome _
      exact serves_unlockAndReply _ _ _

theorem serves_serverHandleFileDelete (fuel : Nat) (root rel_path : Bytes) :
    Serves (InStore root) (MayMake root)
      (serverHandleFileDelete fuel root rel_path : Sys Fd Rc) := by
  refine All.op_bind trivial fun _ => ?_
  apply (stays_moveToTrash _ _ _).serves.bind
  intro moved _
  exact serves_unlockAndReply _ _ _

theorem stays_renameCritical (fuel : Nat) {root old_rel new_rel old_path new_path : Bytes}
    (hold : currentPath root old_rel = some old_path)
    (hnew : currentPath root new_rel = some new_path) :
    Stays (InStore root) (MayMake root)
      (renameCritical fuel old_path new_path : Sys Fd _) := by
  have hdst := target_current hnew
  apply (stays_ensureParentDirExists hdst.makes hdst.slash_mem).bind
  intro prepared _
  split_ifs
  · trivial
  · apply (stays_safeRenameOrCopyUnlink _ (target_current hold).within hdst).bind
    intro renamed _
    split_ifs <;> trivial

theorem serves_serverHandleFileRename (fuel : Nat) (root combined_path : Bytes) :
    Serves (InStore root) (MayMake root)
      (serverHandleFileRename fuel root combined_path : Sys Fd Rc) := by
  unfold serverHandleFileRename
  dsimp only
  split_ifs
  · exact serves_sendError _ _
  · exact serves_sendError _ _
  · split
    · rename_i old_path new_path hold hnew
      refine All.op_bind trivial fun _ => ?_
      apply (stays_renameCritical _ hold hnew).serves.bind
      intro outcome _
      exact serves_unlockAndReply _ _ _
    · exact serves_sendError _ _

theorem serves_serverHandleQueryOffset (fuel : Nat) (root rel_path : Bytes) :
    Serves W M (serverHandleQueryOffset fuel root rel_path : Sys Fd Rc) := by
  unfold serverHandleQueryOffset
  split
  · exact serves_sendError _ _
  · apply (stays_getFileSize _).serves.bind
    intro size _
    exact (stays_writeFull _ _).serves

theorem stays_recvBlockStream (hW : ∃ path, W path) (fuel : Nat) (fd : Fd) (first_block : SyncHeader) :
    Stays W M (recvBlockStream fuel fd first_block) := by
  refine All.bind (Q := fun _ => True) ?_ fun first _ => ?_
  · apply (stays_readFull _ _ _).bind
    intro buf _
    split
    · trivial
    · split_ifs
      · trivial
      · refine All.op_bind hW fun written => ?_
        split <;> trivial
  · split
    · trivial
    · exact stays_recvFileBlocksUntilEnd hW _ _ _

theorem stays_hashAgrees (fuel : Nat) (tmp : Bytes) (expected_hash : UInt64) :
    Stays W M (hashAgrees fuel tmp expected_hash : Sys Fd Bool) := by
  unfold hashAgrees
  split_ifs
  · trivial
  · exact (stays_hashFileFnv1a _ _).bind fun _ _ => trivial

theorem stays_blockStreamCritical (fuel : Nat) (first_block : SyncHeader)
    {root rel_path dst tmp : Bytes} (h : uploadPaths root rel_path = some (dst, tmp)) :
    Stays (InStore root) (MayMake root)
      (blockStreamCritical fuel first_block root rel_path dst tmp : Sys Fd _) := by
  obtain ⟨hdst, htmp⟩ := target_uploadPaths h
  unfold blockStreamCritical
  apply (stays_ensureParentDirExists hdst.makes hdst.slash_mem).bind
  intro prepared _
  split_ifs
  · trivial
  · refine All.op_bind (Or.inr htmp.within) fun opened => ?_
    split
    · trivial
    · refine All.op_bind trivial fun got => ?_
      split_ifs
      · exact All.op_bind trivial fun _ => trivial
      · apply (stays_recvBlockStream ⟨tmp, htmp.within⟩ _ _ _).bind
        intro received _
        apply (stays_syncAndClose _ _).bind
        intro closed _
        split_ifs
        · trivial
        · apply (stays_hashAgrees _ _ _).bind
          intro agrees _
          split_ifs
          · trivial
          · apply (stays_backupOldVersion _ _ _).bind
            intro saved _
            apply (stays_publish _ _ htmp.within hdst).bind
            intro renamed _
            split_ifs <;> trivial

theorem serves_handleLargeBlockStream (fuel : Nat) (first_block : SyncHeader)
    (root rel_path : Bytes) :
    Serves (InStore root) (MayMake root)
      (handleLargeBlockStream fuel first_block root rel_path : Sys Fd Rc) := by
  unfold handleLargeBlockStream
  split
  · exact serves_sendError _ _
  · rename_i dst tmp hpaths
    refine All.op_bind trivial fun _ => ?_
    apply (stays_blockStreamCritical _ _ hpaths).serves.bind
    intro outcome _
    exact serves_unlockAndReply _ _ _

/-! ## The connection -/

theorem serves_dispatch (fuel : Nat) (root : Bytes) (header : SyncHeader)
    (rel_path last_rel_path : Bytes) :
    Serves (InStore root) (MayMake root)
      (dispatch fuel root header rel_path last_rel_path : Sys Fd Rc) := by
  unfold dispatch
  dsimp only
  split_ifs
  · exact (stays_sendAck _ _).serves
  · exact serves_serverHandleFileBegin _ _ _ _
  · exact serves_serverHandleQueryOffset _ _ _
  · exact serves_sendError _ _
  · exact serves_handleLargeBlockStream _ _ _ _
  · exact serves_serverHandleFileDelete _ _ _
  · exact serves_serverHandleFileRename _ _ _
  · exact serves_sendError _ _

theorem stays_recvRelPath (fuel : Nat) (header : SyncHeader) :
    Stays W M (recvRelPath fuel header : Sys Fd (Option Bytes)) := by
  unfold recvRelPath
  split_ifs
  · trivial
  · exact stays_recvPath _ _ _

/-- A call of a connection: confined to the store, or the append to the log. -/
def Confined (root log_path : Bytes) (c : Call Fd) : Prop :=
  c.Within (InStore root) (MayMake root) ∨ c = .appendLog log_path

theorem connectionLoop_confined (fuel : Nat) (root log_path : Bytes) (rounds : Nat)
    (last_rel_path : Bytes) :
    (serverHandleConnectionLoop fuel root log_path rounds last_rel_path : Sys Fd Rc).All
      (Confined root log_path) fun _ => True := by
  have hserves {α : Type} {p : Sys Fd α} (h : Serves (InStore root) (MayMake root) p) :
      p.All (Confined root log_path) fun _ => True := h.mono (fun _ hc => Or.inl hc) fun _ ha => ha
  induction rounds generalizing last_rel_path with
  | zero => trivial
  | succ rounds ih =>
      rw [serverHandleConnectionLoop]
      apply (hserves (stays_recvHeader _).serves).bind
      intro received _
      cases received with
      | none => trivial
      | some header =>
          by_cases hexit : header.msg_type = msgExit
          · simp only [if_pos hexit]
            trivial
          · simp only [if_neg hexit]
            apply (hserves (stays_recvRelPath _ _).serves).bind
            intro rel_path _
            split
            · exact hserves (serves_sendError _ _)
            · apply (hserves (serves_dispatch _ _ _ _ _)).bind
              intro rc _
              refine All.op_bind (Or.inr rfl) fun _ => ?_
              split_ifs
              · trivial
              · trivial
              · exact ih _

/-- Whatever arrives on a connection and whatever the system calls return, every
path given to a call that changes files lies in the store below `root`, the log
file aside; directories made lie there too, or are an area root, or lead to `root`. -/
theorem serverHandleConnection_confined (fuel : Nat) (root log_path : Bytes) :
    (serverHandleConnection fuel root log_path : Sys Fd Rc).All (Confined root log_path)
      fun _ => True :=
  connectionLoop_confined fuel root log_path fuel []

/-- What lies in the store starts with the root. -/
theorem joinBase_prefix_of_inStore {root path : Bytes} (h : InStore root path) :
    joinBase root <+: path := by
  obtain ⟨base, hbase, rest, rfl, -, -⟩ := h
  apply List.IsPrefix.trans _ (List.prefix_append base rest)
  rcases hbase with hcur | ⟨area, harea, areaRoot, tm, hroot, hjoin⟩
  · rw [((joinPath_eq_some component_currentName.head_ne).mp hcur).1]
    exact List.prefix_append _ _
  · have hstamp := component_timestampDirname tm
    have hcomp := component_of_area harea
    have hareaRoot := ((joinPath_eq_some hcomp.head_ne).mp hroot).1
    rw [((joinPath_eq_some hstamp.head_ne).mp hjoin).1, hareaRoot, joinBase_join hcomp,
      List.append_assoc]
    exact List.prefix_append _ _

/-- The exception for the log file is needed: a `HELLO` makes the connection
append to it, wherever it is. -/
theorem hello_opens_log :
    ¬ (serverHandleConnection 3 (ascii "store") (ascii "log/server.log") : Sys Nat Rc).All
      (Call.Within (InStore (ascii "store")) (MayMake (ascii "store"))) fun _ => True := by
  intro h
  have hrecv := h.2 (.ok (initSyncHeader msgHello).encode)
  have hsend := hrecv.2 (.ok headerSize)
  have hlog : InStore (ascii "store") (ascii "log/server.log") := hsend.1
  have hprefix := joinBase_prefix_of_inStore hlog
  revert hprefix
  decide

end Confinement

end MiniSync
