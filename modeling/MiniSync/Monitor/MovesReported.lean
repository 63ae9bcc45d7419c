import Mathlib.Data.List.Forall2
import MiniSync.Monitor.Moves

/-!
# Moves are reported

What the monitor reports of paths that are moved away, over any sequence of events and
timeouts.  One record of a move is enough while moves do not overlap: each `IN_MOVED_FROM`
is then answered by one task, in order.  A second move, or a path that comes from outside,
makes the monitor forget the first.
-/

namespace MiniSync.Monitor

open Prog

variable {Dir : Type}

/-! ## Runs -/

/-- What `monitor_process` keeps between events. -/
structure MonitorState where
  vars : MonitorVars
  move : MoveRecord

/-- An event or, without one, a timeout of `select`: when it is handled, what is watched
then, and what is emitted. -/
structure MonitorTurn where
  time : Int
  input : Option InotifyEvent
  watched : WatchTable
  emitted : List SyncTask

/-- One turn of `monitor_process`.  After a timeout the polling scan, which is left aside,
may leave any tables. -/
inductive MonitorStep (Dir : Type) (root : Bytes) :
    MonitorState → MonitorTurn → MonitorState → Prop
  | event {s s' : MonitorState} {t : Int} {ev : InotifyEvent} {fuel : Nat} {rc : Rc}
      {out : List SyncTask} :
      Exec (handling t) (handleEvent root fuel ev s.vars s.move :
        MonitorProg Dir (Rc × MonitorVars × MoveRecord)) [] (rc, s'.vars, s'.move) out →
      MonitorStep Dir root s ⟨t, some ev, s.vars.watch_items, out⟩ s'
  | timeout {s s' : MonitorState} {t : Int} {out : List SyncTask} :
      Exec (handling t) (expireMove root s.move : MonitorProg Dir MoveRecord) [] s'.move out →
      MonitorStep Dir root s ⟨t, none, s.vars.watch_items, out⟩ s'

/-- The turns from a state, each of which meets `P` in the state before it. -/
inductive MonitorRun (Dir : Type) (root : Bytes) (P : MonitorState → MonitorTurn → Prop) :
    MonitorState → List MonitorTurn → Prop
  | nil (s : MonitorState) : MonitorRun Dir root P s []
  | cons {s s' : MonitorState} {turn : MonitorTurn} {turns : List MonitorTurn} :
      MonitorStep Dir root s turn s' → P s turn → MonitorRun Dir root P s' turns →
      MonitorRun Dir root P s (turn :: turns)

/-! ## What is to be reported, and what is -/

/-- A RENAME with an old path. -/
def renamesOld (task : SyncTask) : Bool :=
  task.event_type = .rename && task.old_rel_path ≠ .empty

namespace MonitorTurn

/-- The path that an `IN_MOVED_FROM` is about, and the cookie. -/
def leaves (turn : MonitorTurn) : Option (PathBuf × UInt32) :=
  turn.input.bind fun ev =>
    if ev.has inMovedFrom then (knownPath turn.watched ev).map fun path => (path, ev.cookie)
    else none

/-- An `IN_MOVED_TO` with this cookie. -/
def arrives (turn : MonitorTurn) (cookie : UInt32) : Bool :=
  turn.input.any fun ev => ev.arrives && ev.cookie = cookie

/-- What reports a move: a RENAME with an old path, or a DELETE after a timeout. -/
def reports (turn : MonitorTurn) : List SyncTask :=
  match turn.input with
  | some _ => turn.emitted.filter renamesOld
  | none => turn.emitted

/-- The path that is moved away in this turn, and whether its new path is known later. -/
def movesOut (turn : MonitorTurn) (later : List MonitorTurn) : List (PathBuf × Bool) :=
  (turn.leaves.map fun move => (move.1, later.any (·.arrives move.2))).toList

end MonitorTurn

/-- Each path that is moved away, with whether an `IN_MOVED_TO` of its cookie follows. -/
def movesOut : List MonitorTurn → List (PathBuf × Bool)
  | [] => []
  | turn :: later => turn.movesOut later ++ movesOut later

/-- The one task that answers a move. -/
inductive Reported (root : Bytes) : PathBuf × Bool → SyncTask → Prop
  | renamed {path : PathBuf} {task : SyncTask} : task.event_type = .rename →
      relativePath root path = some task.old_rel_path → Reported root (path, true) task
  | deleted {path : PathBuf} {task : SyncTask} : task.event_type = .delete →
      task.src_path = path → relativePath root path = some task.rel_path →
      Reported root (path, false) task

/-- Moves do not overlap: while the record holds a move, no other path is moved away, and
of the `IN_MOVED_TO` events exactly that of its cookie is at a watched path. -/
structure OneAtATime (root : Bytes) (s : MonitorState) (turn : MonitorTurn) : Prop where
  leaves : ∀ path cookie, turn.leaves = some (path, cookie) →
    s.move.cookie = 0 ∧ cookie ≠ 0 ∧ (relativePath root path).isSome
  arrives : ∀ ev, turn.input = some ev → ev.arrives = true → s.move.cookie ≠ 0 →
    (ev.cookie = s.move.cookie ↔
      ((knownPath turn.watched ev).bind (relativePath root)).isSome)

/-- The turns take time, and the `IN_MOVED_TO` of a move is handled within two seconds. -/
structure Prompt (turns : List MonitorTurn) : Prop where
  ordered : turns.Pairwise fun turn later => turn.time ≤ later.time
  paired : turns.Pairwise fun turn later => ∀ move ∈ turn.leaves,
    later.arrives move.2 = true → later.time - turn.time ≤ 2000

/-- `last` is a timeout at the end of an idle period of more than two seconds. -/
structure IdleUntil (turns : List MonitorTurn) (last : MonitorTurn) : Prop where
  timeout : last.input = none
  idle : ∀ turn ∈ turns, turn.input ≠ none → last.time - turn.time > 2000

/-! ## The record -/

section Record

variable {root : Bytes} {s s' : MonitorState} {turn : MonitorTurn} {turns : List MonitorTurn}
  {P : MonitorState → MonitorTurn → Prop}

/-- The move in the record, and whether its new path is known later. -/
def MonitorState.pending (s : MonitorState) (turns : List MonitorTurn) :
    List (PathBuf × Bool) :=
  if s.move.cookie = 0 then [] else [(s.move.old_path, turns.any (·.arrives s.move.cookie))]

/-- The record holds the relative path of the path that it holds. -/
def MoveRecord.Faithful (root : Bytes) (move : MoveRecord) : Prop :=
  move.cookie ≠ 0 → relativePath root move.old_path = some move.old_rel_path ∧
    move.old_rel_path ≠ .empty

/-- The new path of the move in the record is known within two seconds, or never. -/
def MoveRecord.Prompt (move : MoveRecord) (turns : List MonitorTurn) : Prop :=
  move.cookie ≠ 0 → ∀ turn ∈ turns, turn.arrives move.cookie = true →
    turn.time - move.ts_ms ≤ 2000

theorem MoveRecord.faithful_zero : MoveRecord.zero.Faithful root := fun h => absurd rfl h

theorem MonitorState.pending_zero (h : s.move = .zero) (turns : List MonitorTurn) :
    s.pending turns = [] := by
  unfold pending
  rw [h]
  rfl

/-- The record stays as it is, and its new path does not come up. -/
theorem MonitorState.pending_kept (hmove : s'.move = s.move)
    (hquiet : s.move.cookie ≠ 0 → turn.arrives s.move.cookie = false) :
    s.pending (turn :: turns) = s'.pending turns := by
  unfold pending
  rw [hmove]
  split_ifs with hcookie
  · rfl
  · rw [List.any_cons, hquiet hcookie, Bool.false_or]

/-- What is answered in a turn: a part of the moves that are open before it, the others
being open after it. -/
structure Answered (root : Bytes) (s : MonitorState) (turn : MonitorTurn)
    (later : List MonitorTurn) (s' : MonitorState) : Prop where
  split : ∃ settled, List.Forall₂ (Reported root) settled turn.reports ∧
    s.pending (turn :: later) ++ turn.movesOut later = settled ++ s'.pending later

/-- Nothing is reported, and no move is over or begins. -/
theorem Answered.of_kept (hreports : turn.reports = []) (hleaves : turn.leaves = none)
    (hmove : s'.move = s.move)
    (hquiet : s.move.cookie ≠ 0 → turn.arrives s.move.cookie = false) :
    Answered root s turn turns s' := by
  refine ⟨[], by rw [hreports]; exact .nil, ?_⟩
  rw [MonitorState.pending_kept hmove hquiet, MonitorTurn.movesOut, hleaves]
  exact List.append_nil _

theorem filter_renamesOld_eq_nil {tasks : List SyncTask}
    (h : ∀ task ∈ tasks, task.event_type ≠ .rename) : tasks.filter renamesOld = [] := by
  refine List.filter_eq_nil_iff.mpr fun task hmem => ?_
  simp [renamesOld, h task hmem]

theorem MonitorTurn.reports_eq_nil {ev : InotifyEvent} (hinput : turn.input = some ev)
    (h : ∀ task ∈ turn.emitted, task.event_type ≠ .rename) : turn.reports = [] := by
  unfold reports
  rw [hinput]
  exact filter_renamesOld_eq_nil h

/-- The record is answered by the `IN_MOVED_TO` of its cookie, and is empty then. -/
theorem Answered.of_arrived {cookie : UInt32} {task : SyncTask} {more : List SyncTask}
    (htype : task.event_type = .rename) (hold : task.old_rel_path = .empty)
    (hmore : ∀ task ∈ more, task.event_type = .fullscan)
    (hreports : turn.reports = (s.move.complete cookie task :: more).filter renamesOld)
    (hleaves : turn.leaves = none) (hmove : s'.move = .zero)
    (harrives : s.move.cookie ≠ 0 → cookie = s.move.cookie ∧ turn.arrives s.move.cookie = true)
    (hfaithful : s.move.Faithful root) : Answered root s turn turns s' := by
  have hscan : more.filter renamesOld = [] := filter_renamesOld_eq_nil fun task hmem => by
    rw [hmore task hmem]
    decide
  refine ⟨s.pending (turn :: turns), ?_, ?_⟩
  · rw [hreports, List.filter_cons, hscan]
    by_cases hcookie : s.move.cookie = 0
    · have hplain : s.move.complete cookie task = task := if_neg fun h => h.1 hcookie
      rw [MonitorState.pending, if_pos hcookie, hplain, renamesOld, hold]
      simp
    · obtain ⟨rfl, hto⟩ := harrives hcookie
      obtain ⟨hrel, hne⟩ := hfaithful hcookie
      have hfull : s.move.complete s.move.cookie task =
          { task with old_rel_path := s.move.old_rel_path } := if_pos ⟨hcookie, rfl⟩
      have hkept : renamesOld (s.move.complete s.move.cookie task) = true := by
        simp [hfull, renamesOld, htype, hne]
      rw [MonitorState.pending, if_neg hcookie, if_pos hkept, List.any_cons, hto, Bool.true_or]
      refine .cons (.renamed ?_ ?_) .nil
      · rw [hfull]
        exact htype
      · rw [hfull]
        exact hrel
  · rw [MonitorState.pending_zero hmove, MonitorTurn.movesOut, hleaves]
    rfl

/-- One event answers the move in the record, keeps it, or puts one there. -/
theorem Answered.of_event {ev : InotifyEvent} {move' : MoveRecord} {out : List SyncTask}
    (hinput : turn.input = some ev) (hemitted : turn.emitted = out) (hmove : s'.move = move')
    (h : Handled root turn.time ev (knownPath turn.watched ev) s.move move' out)
    (hone : OneAtATime root s turn) (hfaithful : s.move.Faithful root) :
    Answered root s turn turns s' := by
  have harrives : ∀ cookie, turn.arrives cookie = (ev.arrives && ev.cookie = cookie) := by
    intro cookie
    rw [MonitorTurn.arrives, hinput]
    rfl
  have hleaves : turn.leaves = if ev.has inMovedFrom then
      (knownPath turn.watched ev).map fun path => (path, ev.cookie) else none := by
    rw [MonitorTurn.leaves, hinput]
    rfl
  have hstays : ev.arrives = true → turn.leaves = none := by
    intro hto
    rw [hleaves, if_neg]
    intro hfrom
    simp [InotifyEvent.arrives, hfrom] at hto
  -- an event whose path is not known is not the one that the record waits for
  have hunknown : (knownPath turn.watched ev).bind (relativePath root) = none →
      s.move.cookie ≠ 0 → turn.arrives s.move.cookie = false := by
    intro hnone hcookie
    rw [harrives]
    cases hto : ev.arrives with
    | false => rfl
    | true =>
        have hiff := hone.arrives ev hinput hto hcookie
        rw [hnone] at hiff
        simpa using hiff
  cases h with
  | dropped hpath =>
      refine .of_kept (MonitorTurn.reports_eq_nil hinput (by rw [hemitted]; simp)) ?_ hmove
        (hunknown (by rw [hpath]; rfl))
      rw [hleaves, hpath]
      exact ite_self none
  | @left path hpath hfrom =>
      have hmoved : turn.leaves = some (path, ev.cookie) := by
        rw [hleaves, if_pos hfrom, hpath]
        rfl
      obtain ⟨hfree, hcookie, -⟩ := hone.leaves _ _ hmoved
      refine ⟨[], ?_, ?_⟩
      · rw [MonitorTurn.reports_eq_nil hinput (by rw [hemitted]; simp)]
        exact .nil
      · rw [MonitorState.pending, if_pos hfree, MonitorState.pending, hmove, if_neg hcookie,
          MonitorTurn.movesOut, hmoved]
        rfl
  | refused hpath hto hrel =>
      exact .of_kept (MonitorTurn.reports_eq_nil hinput (by rw [hemitted]; simp)) (hstays hto)
        hmove (hunknown (by rw [hpath]; exact hrel))
  | @arrived path task more hpath hto hrel htype hold hmore =>
      have hreports : turn.reports = turn.emitted.filter renamesOld := by
        rw [MonitorTurn.reports, hinput]
      rw [hemitted] at hreports
      refine .of_arrived htype hold hmore hreports (hstays hto) hmove (fun hcookie => ?_) hfaithful
      have hiff := hone.arrives ev hinput hto hcookie
      rw [hpath, Option.bind_some, hrel] at hiff
      have heq : ev.cookie = s.move.cookie := hiff.mpr rfl
      refine ⟨heq, ?_⟩
      rw [harrives, hto, heq]
      simp
  | other hfrom hto hout =>
      refine .of_kept (MonitorTurn.reports_eq_nil hinput (by rw [hemitted]; exact hout)) ?_ hmove
        fun _ => by rw [harrives, hto]; rfl
      rw [hleaves, hfrom]
      rfl

/-- A timeout answers the move in the record once it is overdue: its new path is not
going to be known any more. -/
theorem Answered.of_timeout {move' : MoveRecord} {out : List SyncTask}
    (hinput : turn.input = none) (hemitted : turn.emitted = out) (hmove : s'.move = move')
    (h : Expired root turn.time s.move move' out) (hfaithful : s.move.Faithful root)
    (hprompt : s.move.Prompt turns) (hordered : ∀ later ∈ turns, turn.time ≤ later.time) :
    Answered root s turn turns s' := by
  have hreports : turn.reports = out := by
    rw [MonitorTurn.reports, hinput]
    exact hemitted
  have hleaves : turn.leaves = none := by
    rw [MonitorTurn.leaves, hinput]
    rfl
  have hquiet : ∀ cookie, turn.arrives cookie = false := by
    intro cookie
    rw [MonitorTurn.arrives, hinput]
    rfl
  by_cases hover : s.move.Overdue turn.time
  · obtain ⟨rfl, rfl⟩ := h.overdue hover
    obtain ⟨hcookie, hlate⟩ := hover
    obtain ⟨hrel, -⟩ := hfaithful hcookie
    have hnever : (turn :: turns).any (·.arrives s.move.cookie) = false := by
      rw [List.any_cons, hquiet, Bool.false_or, List.any_eq_false]
      intro later hmem harrives
      have hsoon := hprompt hcookie later hmem harrives
      have hafter := hordered later hmem
      omega
    refine ⟨s.pending (turn :: turns), ?_, ?_⟩
    · rw [hreports, hrel, MonitorState.pending, if_neg hcookie, hnever]
      exact .cons (.deleted rfl rfl hrel) .nil
    · rw [MonitorState.pending_zero hmove, MonitorTurn.movesOut, hleaves]
      rfl
  · obtain ⟨rfl, rfl⟩ := h.kept hover
    exact .of_kept hreports hleaves hmove fun _ => hquiet _

/-- What a step says of an event. -/
theorem MonitorStep.cases (h : MonitorStep Dir root s turn s') :
    turn.watched = s.vars.watch_items ∧
      ((∃ ev, turn.input = some ev ∧ Handled root turn.time ev (knownPath turn.watched ev) s.move
          s'.move turn.emitted) ∨
        turn.input = none ∧ Expired root turn.time s.move s'.move turn.emitted) := by
  cases h with
  | event hexec => exact ⟨rfl, .inl ⟨_, rfl, safe_handleEvent.exec hexec⟩⟩
  | timeout hexec => exact ⟨rfl, .inr ⟨rfl, safe_expireMove.exec hexec⟩⟩

/-- One turn answers the open moves in order. -/
theorem MonitorStep.answered (h : MonitorStep Dir root s turn s') (hone : OneAtATime root s turn)
    (hfaithful : s.move.Faithful root) (hprompt : s.move.Prompt turns)
    (hordered : ∀ later ∈ turns, turn.time ≤ later.time) : Answered root s turn turns s' := by
  obtain ⟨-, ⟨ev, hinput, hhandled⟩ | ⟨hinput, hexpired⟩⟩ := h.cases
  · exact .of_event hinput rfl rfl hhandled hone hfaithful
  · exact .of_timeout hinput rfl rfl hexpired hfaithful hprompt hordered

/-- The record after a turn is the one before it, empty, or that of the turn's own
`IN_MOVED_FROM`. -/
theorem MonitorStep.record (h : MonitorStep Dir root s turn s') :
    s'.move = s.move ∨ s'.move = .zero ∨
      ∃ path, turn.leaves = some (path, s'.move.cookie) ∧ turn.input ≠ none ∧
        s'.move.old_path = path ∧ s'.move.old_rel_path = relativePathBuffer root path.bytes ∧
        s'.move.ts_ms = turn.time := by
  obtain ⟨-, ⟨ev, hinput, hhandled⟩ | ⟨-, hexpired⟩⟩ := h.cases
  · generalize hmove : s'.move = move', turn.emitted = out at hhandled
    cases hhandled with
    | dropped => exact .inl rfl
    | left hpath hfrom =>
        refine .inr (.inr ⟨_, ?_, by rw [hinput]; simp, rfl, rfl, rfl⟩)
        rw [MonitorTurn.leaves, hinput, Option.bind_some, if_pos hfrom, hpath]
        rfl
    | refused => exact .inl rfl
    | arrived => exact .inr (.inl rfl)
    | other => exact .inl rfl
  · by_cases hover : s.move.Overdue turn.time
    · exact .inr (.inl (hexpired.overdue hover).1)
    · exact .inl (hexpired.kept hover).1

theorem MonitorStep.faithful (h : MonitorStep Dir root s turn s') (hone : OneAtATime root s turn)
    (hfaithful : s.move.Faithful root) : s'.move.Faithful root := by
  obtain hmove | hmove | ⟨path, hleaves, -, hpath, hold, -⟩ := h.record
  · rw [hmove]
    exact hfaithful
  · rw [hmove]
    exact MoveRecord.faithful_zero
  · intro _
    obtain ⟨rel, hrel⟩ := Option.isSome_iff_exists.mp (hone.leaves _ _ hleaves).2.2
    obtain ⟨hbuffer, hne⟩ := relativePathBuffer_of_relativePath hrel
    rw [hold, hpath, hbuffer]
    exact ⟨hrel, hne⟩

end Record

/-! ## Every run -/

section Runs

variable {root : Bytes} {s s' : MonitorState} {turn last : MonitorTurn}
  {turns : List MonitorTurn}

/-- The timeout at the end finds the record empty or overdue. -/
def MoveRecord.OverdueAt (move : MoveRecord) (last : MonitorTurn) : Prop :=
  move.cookie ≠ 0 → last.time - move.ts_ms > 2000

theorem MonitorStep.prompt (h : MonitorStep Dir root s turn s')
    (hpaired : ∀ later ∈ turns, ∀ move ∈ turn.leaves,
      later.arrives move.2 = true → later.time - turn.time ≤ 2000)
    (hprompt : s.move.Prompt turns) : s'.move.Prompt turns := by
  obtain hmove | hmove | ⟨path, hleaves, -, -, -, hts⟩ := h.record
  · rw [hmove]
    exact hprompt
  · rw [hmove]
    exact fun h => absurd rfl h
  · intro _ later hmem harrives
    rw [hts]
    exact hpaired later hmem _ hleaves harrives

theorem MonitorStep.overdueAt (h : MonitorStep Dir root s turn s')
    (hidle : turn.input ≠ none → last.time - turn.time > 2000)
    (hover : s.move.OverdueAt last) : s'.move.OverdueAt last := by
  obtain hmove | hmove | ⟨path, -, hinput, -, -, hts⟩ := h.record
  · rw [hmove]
    exact hover
  · rw [hmove]
    exact fun h => absurd rfl h
  · intro _
    rw [hts]
    exact hidle hinput

/-- After the timeout at the end nothing is open. -/
theorem MonitorStep.pending_last (h : MonitorStep Dir root s last s') (hinput : last.input = none)
    (hover : s.move.OverdueAt last) : s'.pending turns = [] := by
  obtain ⟨-, ⟨ev, hevent, -⟩ | ⟨-, hexpired⟩⟩ := h.cases
  · rw [hinput] at hevent
    cases hevent
  · by_cases hcookie : s.move.cookie = 0
    · have hmove := (hexpired.kept fun h => h.1 hcookie).1
      rw [MonitorState.pending, hmove, if_pos hcookie]
    · exact MonitorState.pending_zero (hexpired.overdue ⟨hcookie, hover hcookie⟩).1 _

/-- The open move and those to come are answered by what is reported, in order. -/
theorem reported_of_record (hrun : MonitorRun Dir root (OneAtATime root) s (turns ++ [last]))
    (hprompt : Prompt (turns ++ [last])) (hidle : IdleUntil turns last)
    (hfaithful : s.move.Faithful root) (hmove : s.move.Prompt (turns ++ [last]))
    (hover : s.move.OverdueAt last) :
    List.Forall₂ (Reported root) (s.pending (turns ++ [last]) ++ movesOut (turns ++ [last]))
      ((turns ++ [last]).flatMap MonitorTurn.reports) := by
  induction turns generalizing s with
  | nil =>
      cases hrun with
      | @cons _ s' _ _ hstep hone hrest =>
          have hanswered : Answered root s last [] s' := hstep.answered hone hfaithful
            (fun _ later hmem => absurd hmem List.not_mem_nil)
            (fun later hmem => absurd hmem List.not_mem_nil)
          obtain ⟨settled, hreported, hsplit⟩ := hanswered.split
          rw [hstep.pending_last hidle.timeout hover, List.append_nil] at hsplit
          simp only [List.nil_append, movesOut, List.append_nil, List.flatMap_cons,
            List.flatMap_nil]
          rw [hsplit]
          exact hreported
  | cons turn turns ih =>
      cases hrun with
      | cons hstep hone hrest =>
          obtain ⟨hfirst, hordered⟩ := List.pairwise_cons.mp hprompt.ordered
          obtain ⟨hpair, hpaired⟩ := List.pairwise_cons.mp hprompt.paired
          have hlater : s.move.Prompt (turns ++ [last]) :=
            fun hcookie later hmem => hmove hcookie later (List.mem_cons_of_mem _ hmem)
          obtain ⟨settled, hreported, hsplit⟩ :=
            (hstep.answered hone hfaithful hlater hfirst).split
          have hrest' := ih hrest ⟨hordered, hpaired⟩
            ⟨hidle.timeout, fun later hmem => hidle.idle later (List.mem_cons_of_mem _ hmem)⟩
            (hstep.faithful hone hfaithful) (hstep.prompt hpair hlater)
            (hstep.overdueAt (hidle.idle turn List.mem_cons_self) hover)
          rw [List.cons_append, List.flatMap_cons, movesOut, ← List.append_assoc, hsplit,
            List.append_assoc]
          exact List.rel_append hreported hrest'

/-- Every move is reported once, in order: by a RENAME with its old path where its new
path becomes known, else by a DELETE. -/
theorem moves_reported_of_oneAtATime (hzero : s.move = .zero)
    (hrun : MonitorRun Dir root (OneAtATime root) s (turns ++ [last]))
    (hprompt : Prompt (turns ++ [last])) (hidle : IdleUntil turns last) :
    List.Forall₂ (Reported root) (movesOut (turns ++ [last]))
      ((turns ++ [last]).flatMap MonitorTurn.reports) := by
  have hcookie : s.move.cookie = 0 := by rw [hzero]; rfl
  have hall := reported_of_record hrun hprompt hidle (fun h => absurd hcookie h)
    (fun h => absurd hcookie h) (fun h => absurd hcookie h)
  rw [MonitorState.pending_zero hzero, List.nil_append] at hall
  exact hall

end Runs

/-! ## Runs that exist -/

section Steps

variable {root parent : Bytes} {s : MonitorState} {t : Int} {ev : InotifyEvent}
  {path rel : PathBuf}

/-- The event reaches `handlePathEvent`. -/
theorem handleEvent_eq {fuel : Nat} (hparent : findPathByWd s.vars.watch_items ev.wd = some parent)
    (hlen : ev.len ≠ 0) (hpath : eventPath parent ev = some path) :
    (handleEvent root fuel ev s.vars s.move : MonitorProg Dir (Rc × MonitorVars × MoveRecord)) =
      handlePathEvent root fuel ev path s.vars s.move := by
  unfold handleEvent
  rw [hparent]
  dsimp only
  rw [if_neg hlen, hpath]

theorem MonitorStep.left (hparent : findPathByWd s.vars.watch_items ev.wd = some parent)
    (hlen : ev.len ≠ 0) (hpath : eventPath parent ev = some path)
    (hfrom : ev.has inMovedFrom = true) :
    MonitorStep Dir root s ⟨t, some ev, s.vars.watch_items, []⟩
      ⟨s.vars, ⟨ev.cookie, path, relativePathBuffer root path.bytes, ev.has inIsDir, t⟩⟩ := by
  have hexec : Exec (handling t) (handleEvent root 0 ev s.vars s.move :
      MonitorProg Dir (Rc × MonitorVars × MoveRecord)) [] (.ok, s.vars,
        ⟨ev.cookie, path, relativePathBuffer root path.bytes, ev.has inIsDir, t⟩) [] := by
    rw [handleEvent_eq hparent hlen hpath, handlePathEvent]
    dsimp only
    rw [if_pos hfrom]
    exact exec_bind.mpr ⟨t, [], .call ⟨rfl, rfl⟩ (.ret _ _), .ret _ _⟩
  exact .event hexec

/-- The RENAME of a path that `lstat` does not find any more. -/
def vanishedTask (path rel : PathBuf) : BuiltTask :=
  { initSyncTask with
    event_type := .rename
    src_path := path
    rel_path := rel
    is_dir_eq := zero_sIsDir }

theorem exec_buildTaskFromPath (hrel : relativePath root path = some rel) :
    Exec (handling t) (buildTaskFromPath .rename root path.bytes :
      MonitorProg Dir (Option BuiltTask)) [] (some (vanishedTask path rel)) [] := by
  unfold buildTaskFromPath
  rw [PathBuf.ofBytes?_bytes]
  dsimp only
  rw [show (getRelativePath root path.bytes).bind PathBuf.ofBytes? = some rel from hrel]
  exact exec_bind.mpr ⟨(none : Option StatBuf), [], .call rfl (.ret _ _), .ret _ _⟩

theorem MonitorStep.arrived (hparent : findPathByWd s.vars.watch_items ev.wd = some parent)
    (hlen : ev.len ≠ 0) (hpath : eventPath parent ev = some path) (hto : ev.arrives = true)
    (hfile : ev.has inIsDir = false) (hrel : relativePath root path = some rel) :
    MonitorStep Dir root s ⟨t, some ev, s.vars.watch_items,
      [s.move.complete ev.cookie (vanishedTask path rel).toSyncTask]⟩ ⟨s.vars, .zero⟩ := by
  have hbits : ev.has inMovedFrom = false ∧ ev.has inMovedTo = true := by
    simpa [InotifyEvent.arrives] using hto
  have hexec : Exec (handling t) (handleEvent root 0 ev s.vars s.move :
      MonitorProg Dir (Rc × MonitorVars × MoveRecord)) [] (.ok, s.vars, .zero)
        [s.move.complete ev.cookie (vanishedTask path rel).toSyncTask] := by
    rw [handleEvent_eq hparent hlen hpath, handlePathEvent]
    dsimp only
    rw [if_neg (by rw [hbits.1]; decide), if_pos hbits.2]
    refine exec_bind.mpr ⟨_, [], exec_buildTaskFromPath hrel, ?_⟩
    refine exec_bind.mpr ⟨Rc.ok, _, .call rfl (.ret _ _), ?_⟩
    rw [hfile]
    exact .ret _ _
  exact .event hexec

theorem MonitorStep.overdue (hover : s.move.Overdue t)
    (hrel : relativePath root s.move.old_path = some rel) :
    MonitorStep Dir root s ⟨t, none, s.vars.watch_items, [s.move.deleteTask rel]⟩
      ⟨s.vars, .zero⟩ := by
  have hexec : Exec (handling t) (expireMove root s.move : MonitorProg Dir MoveRecord) [] .zero
      [s.move.deleteTask rel] := by
    unfold expireMove emitDeleteTask
    rw [if_pos hover.1, hrel]
    refine exec_bind.mpr ⟨t, [], .call ⟨rfl, rfl⟩ (.ret _ _), ?_⟩
    dsimp only
    rw [if_pos hover.2]
    exact exec_bind.mpr ⟨Rc.ok, _, .call rfl (.ret _ _), .ret _ _⟩
  exact .timeout hexec

theorem OneAtATime.of_free {turn : MonitorTurn} (hfree : s.move.cookie = 0)
    (hleaves : ∀ path cookie, turn.leaves = some (path, cookie) →
      cookie ≠ 0 ∧ (relativePath root path).isSome) : OneAtATime root s turn :=
  ⟨fun path cookie h => ⟨hfree, hleaves path cookie h⟩, fun _ _ _ hcookie => absurd hfree hcookie⟩

theorem OneAtATime.of_own {turn : MonitorTurn} (hinput : turn.input = some ev)
    (hleaves : turn.leaves = none) (hown : ev.cookie = s.move.cookie)
    (hrel : ((knownPath turn.watched ev).bind (relativePath root)).isSome) :
    OneAtATime root s turn := by
  refine ⟨fun path cookie h => ?_, fun ev' hev' _ _ => ?_⟩
  · rw [hleaves] at h
    cases h
  · obtain rfl := Option.some.inj (hinput.symm.trans hev')
    exact iff_of_true hown hrel

theorem OneAtATime.of_timeout {turn : MonitorTurn} (hinput : turn.input = none) :
    OneAtATime root s turn := by
  refine ⟨fun path cookie h => ?_, fun ev hev _ _ => ?_⟩
  · rw [MonitorTurn.leaves, hinput] at h
    cases h
  · rw [hinput] at hev
    cases hev

end Steps

/-- `/s` is watched, and no move is known. -/
def idleState : MonitorState :=
  ⟨⟨(addWatchItem .empty 1 (ascii "/s")).2, .empty, true⟩, .zero⟩

/-- An event of a file in `/s`. -/
def eventAt (mask cookie : UInt32) (name : Bytes) : InotifyEvent := ⟨1, mask, cookie, 16, name⟩

def pathSA : PathBuf := ⟨ascii "/s/a", by decide, by decide⟩

def pathSB : PathBuf := ⟨ascii "/s/b", by decide, by decide⟩

def nameB : PathBuf := ⟨ascii "b", by decide, by decide⟩

/-- `/s` is watched, and the path has been moved away. -/
def movedState (cookie : UInt32) (path : PathBuf) (t : Int) : MonitorState :=
  ⟨idleState.vars, ⟨cookie, path, relativePathBuffer (ascii "/s") path.bytes, false, t⟩⟩

def turnAt (time : Int) (input : Option InotifyEvent) (emitted : List SyncTask) : MonitorTurn :=
  ⟨time, input, idleState.vars.watch_items, emitted⟩

/-- `/s/a` is moved to `/s/b`, which is then moved out of the tree. -/
def twoMoves : List MonitorTurn :=
  [turnAt 0 (some (eventAt inMovedFrom 1 (ascii "a"))) [],
    turnAt 1 (some (eventAt inMovedTo 1 (ascii "b")))
      [(movedState 1 pathSA 0).move.complete 1 (vanishedTask pathSB nameB).toSyncTask],
    turnAt 2 (some (eventAt inMovedFrom 2 (ascii "b"))) []]

/-- The timeout that reports `/s/b`, of which the record says when it was moved away. -/
def timeoutB (since : Int) : MonitorTurn :=
  turnAt 5000 none [(movedState 2 pathSB since).move.deleteTask nameB]

theorem step_left_A : MonitorStep Unit (ascii "/s") idleState
    (turnAt 0 (some (eventAt inMovedFrom 1 (ascii "a"))) []) (movedState 1 pathSA 0) :=
  .left (by decide : _ = some (ascii "/s")) (by decide) (by decide : _ = some pathSA) (by decide)

theorem twoMoves_run :
    MonitorRun Unit (ascii "/s") (OneAtATime (ascii "/s")) idleState
      (twoMoves ++ [timeoutB 2]) := by
  have hsecond : MonitorStep Unit (ascii "/s") (movedState 1 pathSA 0)
      (turnAt 1 (some (eventAt inMovedTo 1 (ascii "b")))
        [(movedState 1 pathSA 0).move.complete 1 (vanishedTask pathSB nameB).toSyncTask])
      idleState :=
    .arrived (by decide : _ = some (ascii "/s")) (by decide) (by decide : _ = some pathSB)
      (by decide) (by decide) (by decide)
  have hthird : MonitorStep Unit (ascii "/s") idleState
      (turnAt 2 (some (eventAt inMovedFrom 2 (ascii "b"))) []) (movedState 2 pathSB 2) :=
    .left (by decide : _ = some (ascii "/s")) (by decide) (by decide : _ = some pathSB)
      (by decide)
  have hlast : MonitorStep Unit (ascii "/s") (movedState 2 pathSB 2) (timeoutB 2) idleState :=
    .overdue ⟨by decide, by decide⟩ (by decide)
  refine .cons step_left_A (.of_free rfl ?_) (.cons hsecond ?_ (.cons hthird (.of_free rfl ?_)
    (.cons hlast (.of_timeout rfl) (.nil _))))
  · intro path cookie h
    cases (by decide : _ = some (pathSA, (1 : UInt32))).symm.trans h
    decide
  · exact .of_own rfl (by decide) rfl (by decide)
  · intro path cookie h
    cases (by decide : _ = some (pathSB, (2 : UInt32))).symm.trans h
    decide

theorem twoMoves_prompt : Prompt (twoMoves ++ [timeoutB 2]) := ⟨by decide, by decide⟩

theorem twoMoves_idle : IdleUntil twoMoves (timeoutB 2) := ⟨rfl, by decide⟩

theorem moves_reported_of_oneAtATime_twoMoves :
    List.Forall₂ (Reported (ascii "/s")) (movesOut (twoMoves ++ [timeoutB 2]))
      ((twoMoves ++ [timeoutB 2]).flatMap MonitorTurn.reports) :=
  moves_reported_of_oneAtATime rfl twoMoves_run twoMoves_prompt twoMoves_idle

/-- `/s/a` and `/s/b` are moved out of the tree within two seconds. -/
def overlapping : List MonitorTurn :=
  [turnAt 0 (some (eventAt inMovedFrom 1 (ascii "a"))) [],
    turnAt 1 (some (eventAt inMovedFrom 2 (ascii "b"))) []]

/-- Of two paths that are moved out of the tree only the second is reported. -/
theorem overlapping_move_is_lost :
    MonitorRun Unit (ascii "/s") (fun _ _ => True) idleState (overlapping ++ [timeoutB 1]) ∧
      Prompt (overlapping ++ [timeoutB 1]) ∧ IdleUntil overlapping (timeoutB 1) ∧
      ¬ List.Forall₂ (Reported (ascii "/s")) (movesOut (overlapping ++ [timeoutB 1]))
        ((overlapping ++ [timeoutB 1]).flatMap MonitorTurn.reports) := by
  have hsecond : MonitorStep Unit (ascii "/s") (movedState 1 pathSA 0)
      (turnAt 1 (some (eventAt inMovedFrom 2 (ascii "b"))) []) (movedState 2 pathSB 1) :=
    .left (by decide : _ = some (ascii "/s")) (by decide) (by decide : _ = some pathSB)
      (by decide)
  have hlast : MonitorStep Unit (ascii "/s") (movedState 2 pathSB 1) (timeoutB 1) idleState :=
    .overdue ⟨by decide, by decide⟩ (by decide)
  refine ⟨.cons step_left_A trivial (.cons hsecond trivial (.cons hlast trivial (.nil _))),
    ⟨by decide, by decide⟩, ⟨rfl, by decide⟩, fun h => ?_⟩
  have hlength : (2 : Nat) = 1 := h.length_eq
  omega

end MiniSync.Monitor
