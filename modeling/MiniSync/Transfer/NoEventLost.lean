import MiniSync.Transfer.Scheduler
import Mathlib.Data.List.Nodup

/-!
# Which debounced events reach the queue

A debounced task waits in the pending table until it is flushed, replaced by a
newer task for its path, or cancelled by a DELETE or RENAME that names the path.
The one way to lose it is the table-full branch of `pending_update_or_insert`,
which returns without recording anything.
-/

namespace MiniSync.Scheduler

variable {debounce_ms : Int} {table table' : PendingTable} {turn : Turn} {task t : SyncTask}
  {turns rest before after : List Turn} {path : PathBuf} {pushed : List SyncTask}
  {entry : PendingTask}

/-- A task that makes an earlier debounced task for `path` obsolete. -/
def Supersedes (task : SyncTask) (path : PathBuf) : Prop :=
  (shouldDebounce task = true ∧ task.rel_path = path) ∨ task.removes path

/-- Reading `turns` from `table`, the queue receives some task that supersedes
`path`, at or after the turn that reads it. -/
def Superseded (debounce_ms : Int) (table : PendingTable) (turns : List Turn)
    (path : PathBuf) : Prop :=
  ∃ before turn after task, turns = before ++ turn :: after ∧ turn.wakeup = .event task ∧
    Supersedes task path ∧
    task ∈ schedulerThreadMain debounce_ms (tableAfter debounce_ms table before) (turn :: after)

/-- Every debounced task of the run reaches the queue, or a later-read task that
supersedes it does. -/
def NoEventLost (debounce_ms : Int) (turns : List Turn) : Prop :=
  ∀ before turn after task, turns = before ++ turn :: after → turn.wakeup = .event task →
    shouldDebounce task = true →
    let table := tableAfter debounce_ms PendingTable.empty before
    task ∈ schedulerThreadMain debounce_ms table (turn :: after) ∨
      ∃ next, schedulerTurn debounce_ms table turn = some next ∧
        Superseded debounce_ms next.1 after task.rel_path

/-- Some task read in `turns` for `path` is kept: it is debounced and finds a
slot, or it is a DELETE or RENAME. -/
def Kept (debounce_ms : Int) (table : PendingTable) (turns : List Turn) (path : PathBuf) : Prop :=
  ∃ before turn after task, turns = before ++ turn :: after ∧ turn.wakeup = .event task ∧
    ((shouldDebounce task = true ∧ task.rel_path = path ∧
        pendingSlot (tableAfter debounce_ms table before) path ≠ none) ∨ task.removes path)

/-! ## Steps -/

theorem schedulerThreadMain_cons (h : schedulerTurn debounce_ms table turn = some (table', pushed)) :
    schedulerThreadMain debounce_ms table (turn :: rest) =
      pushed ++ schedulerThreadMain debounce_ms table' rest := by
  simp [schedulerThreadMain, h]

theorem tableAfter_cons (h : schedulerTurn debounce_ms table turn = some (table', pushed)) :
    tableAfter debounce_ms table (turn :: rest) = tableAfter debounce_ms table' rest := by
  simp [tableAfter, h]

theorem Superseded.cons (hturn : schedulerTurn debounce_ms table turn = some (table', pushed))
    (h : Superseded debounce_ms table' rest path) :
    Superseded debounce_ms table (turn :: rest) path := by
  obtain ⟨before, u, after, task, rfl, hread, hsup, hmem⟩ := h
  refine ⟨turn :: before, u, after, task, rfl, hread, hsup, ?_⟩
  rw [tableAfter_cons hturn]
  exact hmem

theorem Kept.cons (hturn : schedulerTurn debounce_ms table turn = some (table', pushed))
    (h : Kept debounce_ms table' rest path) : Kept debounce_ms table (turn :: rest) path := by
  obtain ⟨before, u, after, task, rfl, hread, hkept⟩ := h
  refine ⟨turn :: before, u, after, task, rfl, hread, ?_⟩
  rw [tableAfter_cons hturn]
  exact hkept

/-- One turn pushes a waiting entry, keeps it, or reads a task that supersedes it. -/
theorem turn_entry (hturn : schedulerTurn debounce_ms table turn = some (table', pushed))
    (h : entry ∈ table.entries) :
    entry.task ∈ pushed ∨ entry ∈ table'.entries ∨
      ∃ task, turn.wakeup = .event task ∧ Supersedes task entry.task.rel_path := by
  rcases schedulerTurn_cases hturn with ⟨-, rfl, rfl⟩ | ⟨-, hflush⟩ |
    ⟨task, hread, -, handled, immediate, flushed, hhandle, hflush, rfl⟩
  · exact Or.inr (Or.inl h)
  · rcases flush_pushes_or_keeps h turn.flushMs debounce_ms with hp | hk
    · rw [← hflush] at hp
      exact Or.inl hp
    · rw [← hflush] at hk
      exact Or.inr (Or.inl hk)
  · by_cases hsup : Supersedes task entry.task.rel_path
    · exact Or.inr (Or.inr ⟨task, hread, hsup⟩)
    · have hkept : entry ∈ handled.entries := by
        have := mem_handle_of_unrelated h task turn.recordMs
          (fun hd => hsup (Or.inl hd)) (fun hr => hsup (Or.inr hr))
        rwa [hhandle] at this
      rcases flush_pushes_or_keeps hkept turn.flushMs debounce_ms with hp | hk
      · rw [hflush] at hp
        exact Or.inl (List.mem_append_right immediate hp)
      · rw [hflush] at hk
        exact Or.inr (Or.inl hk)

/-- A debounced task that finds a slot is pushed in its own turn or waits afterwards. -/
theorem turn_records (hturn : schedulerTurn debounce_ms table turn = some (table', pushed))
    (hread : turn.wakeup = .event task) (hdeb : shouldDebounce task = true)
    (hslot : pendingSlot table task.rel_path ≠ none) :
    task ∈ pushed ∨ ∃ e ∈ table'.entries, e.task = task := by
  rcases schedulerTurn_cases hturn with ⟨hw, -⟩ | ⟨hw, -⟩ |
    ⟨task', hw, -, handled, immediate, flushed, hhandle, hflush, rfl⟩
  · simp [hread] at hw
  · simp [hread] at hw
  · obtain rfl : task = task' := by
      rw [hread] at hw
      injection hw
    rw [schedulerHandle_debounced hdeb] at hhandle
    have hhandled : pendingUpdateOrInsert table task turn.recordMs = handled :=
      congrArg Prod.fst hhandle
    have hmem : (⟨task, turn.recordMs⟩ : PendingTask) ∈ handled.entries :=
      hhandled ▸ mem_update_self hslot
    rcases flush_pushes_or_keeps hmem turn.flushMs debounce_ms with hp | hk
    · rw [hflush] at hp
      exact Or.inl (List.mem_append_right immediate hp)
    · rw [hflush] at hk
      exact Or.inr ⟨_, hk, rfl⟩

/-- A DELETE or RENAME is pushed in the turn that reads it. -/
theorem turn_removes (hturn : schedulerTurn debounce_ms table turn = some (table', pushed))
    (hread : turn.wakeup = .event task) (hrem : task.removes path) : task ∈ pushed := by
  rcases schedulerTurn_cases hturn with ⟨hw, -⟩ | ⟨hw, -⟩ |
    ⟨task', hw, -, handled, immediate, flushed, hhandle, -, rfl⟩
  · simp [hread] at hw
  · simp [hread] at hw
  · obtain rfl : task = task' := by
      rw [hread] at hw
      injection hw
    have himm := schedulerHandle_immediate table hrem.1 turn.recordMs
    rw [hhandle] at himm
    rw [show immediate = [task] from himm]
    simp

/-- Debounced tasks come out of the table: what a turn pushes or leaves waiting
was waiting before, or is the task of this turn and found a slot. -/
theorem turn_origin (hturn : schedulerTurn debounce_ms table turn = some (table', pushed))
    (hdeb : shouldDebounce t = true)
    (h : t ∈ pushed ∨ ∃ e ∈ table'.entries, e.task = t) :
    (∃ e ∈ table.entries, e.task = t) ∨
      (turn.wakeup = .event t ∧ pendingSlot table t.rel_path ≠ none) := by
  rcases schedulerTurn_cases hturn with ⟨-, rfl, rfl⟩ | ⟨-, hflush⟩ |
    ⟨task, hread, -, handled, immediate, flushed, hhandle, hflush, rfl⟩
  · rcases h with hmem | hmem
    · simp at hmem
    · exact Or.inl hmem
  · left
    obtain ⟨rfl, rfl⟩ := Prod.ext_iff.mp hflush
    rcases h with hmem | ⟨e, he, rfl⟩
    · obtain ⟨e, he, rfl⟩ := List.mem_map.mp hmem
      exact ⟨e, (List.mem_filter.mp he).1, rfl⟩
    · rw [entries_flushStable] at he
      exact ⟨e, (List.mem_filter.mp he).1, rfl⟩
  · have hhandled : ∃ e ∈ handled.entries, e.task = t := by
      obtain ⟨rfl, rfl⟩ := Prod.ext_iff.mp hflush
      rcases h with hmem | ⟨e, he, rfl⟩
      · rcases List.mem_append.mp hmem with himm | hfl
        · exfalso
          unfold schedulerHandle at hhandle
          split at hhandle
          · rename_i hkind
            simp only [Prod.mk.injEq] at hhandle
            rw [← hhandle.2, List.mem_singleton] at himm
            subst himm
            exact shouldDebounce_not_immediate hdeb hkind
          · split at hhandle
            · simp only [Prod.mk.injEq] at hhandle
              simp [← hhandle.2] at himm
            · rename_i hnot
              simp only [Prod.mk.injEq] at hhandle
              rw [← hhandle.2, List.mem_singleton] at himm
              subst himm
              exact hnot hdeb
        · obtain ⟨e, he, rfl⟩ := List.mem_map.mp hfl
          exact ⟨e, (List.mem_filter.mp he).1, rfl⟩
      · rw [entries_flushStable] at he
        exact ⟨e, (List.mem_filter.mp he).1, rfl⟩
    obtain ⟨e, he, rfl⟩ := hhandled
    have hfst : (schedulerHandle table task turn.recordMs).1 = handled := by rw [hhandle]
    rw [← hfst] at he
    rcases mem_of_mem_handle he with ⟨-, heq, hslot⟩ | hmem
    · cases heq
      exact Or.inr ⟨hread, hslot⟩
    · exact Or.inl ⟨e, hmem, rfl⟩

/-! ## Runs -/

/-- A waiting task reaches the queue before the scheduler returns, or is superseded. -/
theorem waiting_received (hexits : Exits turns) (h : entry ∈ table.entries) :
    entry.task ∈ schedulerThreadMain debounce_ms table turns ∨
      Superseded debounce_ms table turns entry.task.rel_path := by
  induction hexits generalizing table entry with
  | @exit turn task hread hexit =>
      left
      have hbreak : schedulerTurn debounce_ms table turn = none := by
        simp [schedulerTurn, hread, hexit]
      simp only [schedulerThreadMain, hbreak, pendingFlushAll]
      exact List.mem_map_of_mem h
  | @turn turn rest hgoes _ ih =>
      obtain ⟨table', pushed, hturn⟩ :=
        hgoes.schedulerTurn_eq debounce_ms table
      rw [schedulerThreadMain_cons hturn]
      rcases turn_entry hturn h with hp | hk | ⟨task, hread, hsup⟩
      · exact Or.inl (List.mem_append_left _ hp)
      · rcases ih hk with hmem | hlater
        · exact Or.inl (List.mem_append_right _ hmem)
        · exact Or.inr (hlater.cons hturn)
      · right
        have hhere : task ∈ schedulerThreadMain debounce_ms table (turn :: rest) →
            Superseded debounce_ms table (turn :: rest) entry.task.rel_path := fun hmem =>
          ⟨[], turn, rest, task, rfl, hread, hsup, hmem⟩
        rw [schedulerThreadMain_cons hturn] at hhere
        rcases hsup with ⟨hdeb, hpath⟩ | hrem
        · -- the slot found is the one of the waiting entry
          have hslot : pendingSlot table task.rel_path ≠ none := by
            intro hnone
            exact (pendingSlot_eq_none.mp hnone).1 ⟨entry, h, hpath.symm⟩
          rcases turn_records hturn hread hdeb hslot with hp | ⟨e, he, rfl⟩
          · exact hhere (List.mem_append_left _ hp)
          · rcases ih he with hmem | hlater
            · exact hhere (List.mem_append_right _ hmem)
            · rw [hpath] at hlater
              exact hlater.cons hturn
        · exact hhere (List.mem_append_left _ (turn_removes hturn hread hrem))

/-- A debounced task in the queue was waiting at the start, or was kept by a turn. -/
theorem received_origin (hexits : Exits turns) (hdeb : shouldDebounce t = true)
    (h : t ∈ schedulerThreadMain debounce_ms table turns) :
    (∃ e ∈ table.entries, e.task = t) ∨ Kept debounce_ms table turns t.rel_path := by
  induction hexits generalizing table with
  | @exit turn task hread hexit =>
      have hbreak : schedulerTurn debounce_ms table turn = none := by
        simp [schedulerTurn, hread, hexit]
      simp only [schedulerThreadMain, hbreak, pendingFlushAll] at h
      exact Or.inl (List.mem_map.mp h)
  | @turn turn rest hgoes _ ih =>
      obtain ⟨table', pushed, hturn⟩ :=
        hgoes.schedulerTurn_eq debounce_ms table
      rw [schedulerThreadMain_cons hturn] at h
      have hkept : turn.wakeup = .event t ∧ pendingSlot table t.rel_path ≠ none →
          Kept debounce_ms table (turn :: rest) t.rel_path := fun hk =>
        ⟨[], turn, rest, t, rfl, hk.1, Or.inl ⟨hdeb, rfl, hk.2⟩⟩
      rcases List.mem_append.mp h with hp | hlater
      · exact (turn_origin hturn hdeb (Or.inl hp)).imp_right hkept
      · rcases ih hlater with hw | hk
        · exact (turn_origin hturn hdeb (Or.inr hw)).imp_right hkept
        · exact Or.inr (hk.cons hturn)

/-! ## The whole run -/

theorem Exits.of_append {before suffix : List Turn} (h : Exits (before ++ suffix))
    (hsuffix : suffix ≠ []) : (∀ u ∈ before, u.Continues) ∧ Exits suffix := by
  induction before with
  | nil => exact ⟨by simp, h⟩
  | cons u before ih =>
      generalize hall : u :: before ++ suffix = turns at h
      cases h with
      | exit _ _ => simp_all
      | turn hgoes hlater =>
          obtain ⟨rfl, rfl⟩ := List.cons.inj hall
          obtain ⟨hbefore, hexits⟩ := ih hlater
          exact ⟨by simpa using ⟨hgoes, hbefore⟩, hexits⟩

theorem tableAfter_append {before suffix : List Turn} (h : ∀ u ∈ before, u.Continues) :
    tableAfter debounce_ms table (before ++ suffix) =
      tableAfter debounce_ms (tableAfter debounce_ms table before) suffix := by
  induction before generalizing table with
  | nil => rfl
  | cons u before ih =>
      obtain ⟨table', pushed, hturn⟩ :=
        (h u (by simp)).schedulerTurn_eq debounce_ms table
      rw [List.cons_append, tableAfter_cons hturn, tableAfter_cons hturn]
      exact ih (fun v hv => h v (by simp [hv]))

theorem Kept.append {suffix : List Turn} (hgo : ∀ u ∈ before, u.Continues)
    (h : Kept debounce_ms (tableAfter debounce_ms table before) suffix path) :
    Kept debounce_ms table (before ++ suffix) path := by
  obtain ⟨before', u, after', task, rfl, hread, hkept⟩ := h
  refine ⟨before ++ before', u, after', task, by simp, hread, ?_⟩
  rwa [tableAfter_append hgo]

/-- A kept task makes sure that something for its path reaches the queue. -/
theorem Kept.superseded (hexits : Exits turns) (h : Kept debounce_ms table turns path) :
    Superseded debounce_ms table turns path := by
  obtain ⟨before, turn, after, task, rfl, hread, hkept⟩ := h
  obtain ⟨hgo, hexits'⟩ := Exits.of_append hexits (by simp)
  have hhere : Supersedes task path →
      task ∈ schedulerThreadMain debounce_ms (tableAfter debounce_ms table before)
        (turn :: after) → Superseded debounce_ms table (before ++ turn :: after) path :=
    fun hsup hmem => ⟨before, turn, after, task, rfl, hread, hsup, hmem⟩
  cases hexits' with
  | exit hread' hexit =>
      exfalso
      rw [hread] at hread'
      cases hread'
      rcases hkept with ⟨hdeb, -⟩ | hrem
      · exact shouldDebounce_not_exit hdeb hexit
      · rcases hrem.1 with hkind | hkind <;> simp [hexit] at hkind
  | turn hgoes hlater =>
      obtain ⟨table', pushed, hturn⟩ := hgoes.schedulerTurn_eq debounce_ms
        (tableAfter debounce_ms table before)
      rw [schedulerThreadMain_cons hturn] at hhere
      rcases hkept with ⟨hdeb, rfl, hslot⟩ | hrem
      · rcases turn_records hturn hread hdeb hslot with hp | ⟨e, he, rfl⟩
        · exact hhere (Or.inl ⟨hdeb, rfl⟩) (List.mem_append_left _ hp)
        · rcases waiting_received hlater he with hmem | hsup
          · exact hhere (Or.inl ⟨hdeb, rfl⟩) (List.mem_append_right _ hmem)
          · obtain ⟨before', u, after', t', rfl, hread', hsup', hmem⟩ := hsup
            refine ⟨before ++ turn :: before', u, after', t', by simp, hread', hsup', ?_⟩
            rw [tableAfter_append hgo, tableAfter_cons hturn]
            exact hmem
      · exact hhere (Or.inr hrem) (List.mem_append_left _ (turn_removes hturn hread hrem))

/-- A task in the queue that supersedes `path` was kept by some turn. -/
theorem Superseded.kept (hexits : Exits turns) (h : Superseded debounce_ms table turns path) :
    Kept debounce_ms table turns path := by
  obtain ⟨before, turn, after, task, rfl, hread, hsup, hmem⟩ := h
  obtain ⟨hgo, hexits'⟩ := Exits.of_append hexits (by simp)
  refine Kept.append hgo ?_
  rcases hsup with ⟨hdeb, rfl⟩ | hrem
  · rcases received_origin hexits' hdeb hmem with ⟨e, he, hpath⟩ | hkept
    · refine ⟨[], turn, after, task, rfl, hread, Or.inl ⟨hdeb, rfl, fun hfull => ?_⟩⟩
      exact (pendingSlot_eq_none.mp hfull).1 ⟨e, he, congrArg SyncTask.rel_path hpath⟩
    · exact hkept
  · exact ⟨[], turn, after, task, rfl, hread, Or.inr hrem⟩

/-- Every debounced task of the run, or a later task for its path, is kept. -/
def NeverDropped (debounce_ms : Int) (turns : List Turn) : Prop :=
  ∀ before turn after task, turns = before ++ turn :: after → turn.wakeup = .event task →
    shouldDebounce task = true →
    Kept debounce_ms (tableAfter debounce_ms PendingTable.empty before) (turn :: after)
      task.rel_path

theorem NoEventLost.neverDropped (hexits : Exits turns) (h : NoEventLost debounce_ms turns) :
    NeverDropped debounce_ms turns := by
  intro before turn after task hsplit hread hdeb
  subst hsplit
  obtain ⟨-, hexits'⟩ := Exits.of_append hexits (by simp)
  rcases h before turn after task rfl hread hdeb with hmem | ⟨next, hturn, hsup⟩
  · rcases received_origin hexits' hdeb hmem with ⟨e, he, hpath⟩ | hkept
    · refine ⟨[], turn, after, task, rfl, hread, Or.inl ⟨hdeb, rfl, fun hfull => ?_⟩⟩
      exact (pendingSlot_eq_none.mp hfull).1 ⟨e, he, congrArg SyncTask.rel_path hpath⟩
    · exact hkept
  · have hcons : Superseded debounce_ms _ (turn :: after) task.rel_path :=
      Superseded.cons hturn hsup
    exact hcons.kept hexits'

theorem NeverDropped.noEventLost (hexits : Exits turns) (h : NeverDropped debounce_ms turns) :
    NoEventLost debounce_ms turns := by
  intro before turn after task hsplit hread hdeb
  have hhere := h before turn after task hsplit hread hdeb
  subst hsplit
  obtain ⟨-, hexits'⟩ := Exits.of_append hexits (by simp)
  generalize tableAfter debounce_ms PendingTable.empty before = table at hhere ⊢
  cases hexits' with
  | exit hread' hexit =>
      rw [hread] at hread'
      cases hread'
      exact absurd hexit (shouldDebounce_not_exit hdeb)
  | turn hgoes hlater =>
      obtain ⟨table', pushed, hturn⟩ :=
        hgoes.schedulerTurn_eq debounce_ms table
      dsimp only
      rw [schedulerThreadMain_cons hturn]
      obtain ⟨before', u, after', t', hsplit, hread', hkept'⟩ := hhere
      cases before' with
      | nil =>
          obtain ⟨rfl, rfl⟩ := List.cons.inj hsplit
          rw [hread] at hread'
          cases hread'
          rcases hkept' with ⟨-, -, hslot⟩ | hrem
          · rcases turn_records hturn hread hdeb hslot with hp | ⟨e, he, rfl⟩
            · exact Or.inl (List.mem_append_left _ hp)
            · rcases waiting_received hlater he with hmem | hsup
              · exact Or.inl (List.mem_append_right _ hmem)
              · exact Or.inr ⟨_, hturn, hsup⟩
          · exact absurd hrem.1 (shouldDebounce_not_immediate hdeb)
      | cons _ before' =>
          obtain ⟨rfl, rfl⟩ := List.cons.inj hsplit
          rw [tableAfter_cons hturn] at hkept'
          exact Or.inr ⟨_, hturn,
            Kept.superseded hlater ⟨before', u, after', t', rfl, hread', hkept'⟩⟩

/-- The scheduler loses no debounced event exactly when the table-full branch
drops none for good: a task that is read is kept, or a later one for its path is. -/
theorem noEventLost_iff_neverDropped (debounce_ms : Int) (run : ExitedRun) :
    NoEventLost debounce_ms run.turns ↔ NeverDropped debounce_ms run.turns :=
  ⟨fun h => h.neverDropped run.exits, fun h => h.noEventLost run.exits⟩

/-! ## A scan of more paths than slots -/

/-- Distinct two-byte names for the first `128 * 255` numbers. -/
def scanName (i : Nat) : PathBuf :=
  ⟨[UInt8.ofNat (1 + i / 128 % 128), UInt8.ofNat (1 + i % 128)], by simp [maxPathLen], by
    simp only [List.mem_cons, List.not_mem_nil, or_false, not_or, nul]
    constructor
    · intro h
      have := congrArg UInt8.toNat h
      simp at this
      omega
    · intro h
      have := congrArg UInt8.toNat h
      simp at this
      omega⟩

theorem scanName_injective {i j : Nat} (hi : i < 16384) (hj : j < 16384)
    (h : scanName i = scanName j) : i = j := by
  have hbytes := congrArg PathBuf.bytes h
  simp only [scanName, List.cons.injEq, and_true] at hbytes
  have h1 := congrArg UInt8.toNat hbytes.1
  have h2 := congrArg UInt8.toNat hbytes.2
  simp at h1 h2
  omega

def scanTask (i : Nat) : SyncTask :=
  { initSyncTask with event_type := .fullscan, rel_path := scanName i }

def scanTurn (i : Nat) : Turn := ⟨.event (scanTask i), 0, 0⟩

def exitTurn : Turn := ⟨.event { initSyncTask with event_type := .exit }, 0, 0⟩

/-- A full scan of `maxPendingTasks + 1` names at one clock reading, then EXIT. -/
def scanTurns : List Turn :=
  (List.range (maxPendingTasks + 1)).map scanTurn ++ [exitTurn]

theorem scan_exits : Exits scanTurns := by
  unfold scanTurns
  induction List.range (maxPendingTasks + 1) with
  | nil => exact .exit rfl rfl
  | cons i rest ih => exact .turn (by simp [Turn.Continues, scanTurn, scanTask]) ih

/-- `k` used slots, then free ones. -/
def scanSlots (k : Nat) : List (Option PendingTask) :=
  (List.range k).map (fun i => some ⟨scanTask i, 0⟩) ++ List.replicate (maxPendingTasks - k) none

theorem mem_entries_scanSlots {k : Nat} {e : PendingTask} :
    e ∈ Slots.entries (scanSlots k) ↔ ∃ i < k, e = ⟨scanTask i, 0⟩ := by
  rw [Slots.mem_entries, scanSlots, List.mem_append, List.mem_map]
  constructor
  · rintro (⟨i, hi, heq⟩ | hnone)
    · exact ⟨i, List.mem_range.mp hi, by injection heq with heq; exact heq.symm⟩
    · exact absurd (List.eq_of_mem_replicate hnone) (by simp)
  · rintro ⟨i, hi, rfl⟩
    exact Or.inl ⟨i, List.mem_range.mpr hi, rfl⟩

theorem scan_not_waits {k : Nat} (hk : k ≤ maxPendingTasks) {table : PendingTable}
    (htable : table.slots = scanSlots k) : ¬ table.Waits (scanName k) := by
  rintro ⟨e, he, hpath⟩
  rw [PendingTable.entries, htable] at he
  obtain ⟨i, hi, rfl⟩ := mem_entries_scanSlots.mp he
  have hmax : maxPendingTasks = 4096 := rfl
  have := scanName_injective (by omega) (by omega) hpath
  omega

theorem free?_scanSlots {k : Nat} (hk : k < maxPendingTasks) :
    Slots.free? (scanSlots k) = some k := by
  unfold Slots.free? scanSlots
  rw [List.findIdx?_append, List.findIdx?_eq_none_iff.mpr (by simp)]
  obtain ⟨m, hm⟩ : ∃ m, maxPendingTasks - k = m + 1 := ⟨maxPendingTasks - k - 1, by omega⟩
  simp [hm, List.replicate_succ, List.findIdx?_cons]

theorem set_scanSlots {k : Nat} (hk : k < maxPendingTasks) :
    (scanSlots k).set k (some ⟨scanTask k, 0⟩) = scanSlots (k + 1) := by
  unfold scanSlots
  obtain ⟨m, hm⟩ : ∃ m, maxPendingTasks - k = m + 1 := ⟨maxPendingTasks - k - 1, by omega⟩
  have hm' : maxPendingTasks - (k + 1) = m := by omega
  rw [List.set_append_right _ _ (by simp), hm, hm', List.range_succ, List.map_append]
  simp [List.replicate_succ]

/-- Nothing recorded at time 0 is stable at time 0. -/
theorem clear_scanSlots (k : Nat) :
    Slots.clear (PendingTask.stable 0 1500) (scanSlots k) = scanSlots k := by
  have hkeep : ∀ slot ∈ scanSlots k,
      (if slot.any (PendingTask.stable 0 1500) then none else slot) = slot := by
    intro slot hslot
    cases slot with
    | none => rfl
    | some e =>
        obtain ⟨i, -, rfl⟩ := mem_entries_scanSlots.mp (Slots.mem_entries.mpr hslot)
        simp [PendingTask.stable]
  unfold Slots.clear
  rw [List.map_congr_left hkeep, List.map_id']

/-- The table after the first `k` names. -/
theorem scan_table {k : Nat} (hk : k ≤ maxPendingTasks) :
    (tableAfter 1500 PendingTable.empty ((List.range k).map scanTurn)).slots = scanSlots k := by
  induction k with
  | zero => simp [tableAfter, PendingTable.empty, scanSlots]
  | succ k ih =>
      have hslots := ih (by omega)
      have hgo : ∀ u ∈ (List.range k).map scanTurn, u.Continues := by
        simp [Turn.Continues, scanTurn, scanTask]
      rw [List.range_succ, List.map_append, tableAfter_append hgo]
      generalize tableAfter 1500 PendingTable.empty ((List.range k).map scanTurn) = table
        at hslots ⊢
      have hslot : pendingSlot table (scanTask k).rel_path = some k := by
        change pendingSlot table (scanName k) = some k
        unfold pendingSlot
        rw [pendingFind_eq_none.mpr (scan_not_waits (by omega) hslots), hslots]
        exact free?_scanSlots (by omega)
      have hupdate : (pendingUpdateOrInsert table (scanTask k) 0).slots = scanSlots (k + 1) := by
        unfold pendingUpdateOrInsert
        rw [hslot]
        simp only [PendingTable.set, hslots]
        exact set_scanSlots (by omega)
      have hdeb : shouldDebounce (scanTask k) = true := by simp [shouldDebounce, scanTask]
      simp only [List.map_cons, List.map_nil, tableAfter, schedulerTurn, scanTurn]
      rw [if_neg (by simp [scanTask]), schedulerHandle_debounced hdeb]
      simp only [pendingFlushStableTasks, hupdate]
      exact clear_scanSlots (k + 1)

theorem scan_not_kept {k : Nat} {table : PendingTable}
    (hfull : pendingSlot table (scanName k) = none) :
    ¬ Kept debounce_ms table [scanTurn k, exitTurn] (scanName k) := by
  rintro ⟨before, turn, after, task, hsplit, hread, hkept⟩
  rcases before with - | ⟨u, - | ⟨v, before⟩⟩
  · obtain ⟨rfl, -⟩ := List.cons.inj hsplit
    cases hread
    rcases hkept with ⟨-, -, hslot⟩ | hrem
    · exact hslot hfull
    · rcases hrem.1 with hkind | hkind <;> cases hkind
  · obtain ⟨rfl, -⟩ := List.cons.inj (List.cons.inj hsplit).2
    cases hread
    rcases hkept with ⟨hdeb, -⟩ | hrem
    · simp [shouldDebounce] at hdeb
    · rcases hrem.1 with hkind | hkind <;> cases hkind
  · simp at hsplit

/-- Once every slot is taken, the next name is dropped. -/
theorem scan_dropped : ¬ NeverDropped defaultDebounceMs scanTurns := by
  intro hnever
  have hkept := hnever ((List.range maxPendingTasks).map scanTurn) (scanTurn maxPendingTasks)
    [exitTurn] (scanTask maxPendingTasks)
    (by rw [scanTurns, List.range_succ]; simp) rfl (by simp [shouldDebounce, scanTask])
  refine scan_not_kept ?_ hkept
  have hslots := scan_table (le_refl maxPendingTasks)
  rw [pendingSlot_eq_none]
  refine ⟨scan_not_waits (le_refl _) hslots, ?_⟩
  change Slots.free? (tableAfter 1500 _ _).slots = none
  rw [hslots]
  unfold Slots.free? scanSlots
  rw [List.findIdx?_eq_none_iff]
  simp

/-- The scan as a run of the scheduler. -/
def scanRun : ExitedRun := ⟨scanTurns, scan_exits⟩

theorem noEventLost_iff_neverDropped_scan :
    ¬ NoEventLost defaultDebounceMs scanRun.turns ∧
      ¬ NeverDropped defaultDebounceMs scanRun.turns :=
  ⟨fun h => scan_dropped ((noEventLost_iff_neverDropped defaultDebounceMs scanRun).mp h),
    scan_dropped⟩

theorem scan_loses_event : ¬ NoEventLost defaultDebounceMs scanTurns :=
  fun h => scan_dropped (h.neverDropped scan_exits)

end MiniSync.Scheduler
