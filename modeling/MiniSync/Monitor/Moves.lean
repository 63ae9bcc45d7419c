import MiniSync.Monitor.Events

/-!
# One event, one timeout

What `handle_event` and a timeout of `select` make of the record of a move, and which tasks
they emit, whatever is found in the source meanwhile.
-/

namespace MiniSync.Monitor

open Prog

variable {Dir α : Type}

/-! ## One turn of the monitor -/

/-- The kernel while one input is handled, at time `t`; the state is what has been
emitted.  Nothing is assumed of what is answered about the source. -/
def handling (t : Int) (c : MonitorCall Dir) (out : List SyncTask) (r : MonitorResp c)
    (out' : List SyncTask) : Prop :=
  match c, r with
  | .emitTask task, _ => out' = out ++ [task]
  | .currentTimeMs, now => out' = out ∧ now = t
  | .opendir _, _ => out' = out
  | .readdir _ _, _ => out' = out
  | .lstat _, _ => out' = out
  | .stat _, _ => out' = out
  | .inotifyAddWatch _, _ => out' = out

/-- A call that does not ask for the time, and emits such a task if any. -/
def EmitsOnly (E : SyncTask → Prop) : MonitorCall Dir → Prop
  | .emitTask task => E task
  | .currentTimeMs => False
  | _ => True

section Handling

variable {t : Int} {E : SyncTask → Prop} {out : List SyncTask} {root dir : Bytes}
  {path : PathBuf} {vars : MonitorVars} {move : MoveRecord} {fuel : Nat} {ev : InotifyEvent}

/-- What a program emits, from the calls that it may issue. -/
theorem emits_of_all {p : MonitorProg Dir α} {Q : α → Prop} (h : p.All (EmitsOnly E) Q) :
    p.Safe (handling t) (fun _ => True)
      (fun a out' => Q a ∧ ∃ more, out' = out ++ more ∧ ∀ task ∈ more, E task) out := by
  apply Safe.mono (All.safe h (I := fun out' => ∃ more, out' = out ++ more ∧
    ∀ task ∈ more, E task) _ ⟨[], by simp, by simp⟩) (fun _ _ => trivial) fun _ _ h => h
  rintro c s r s' hc ⟨more, rfl, hmore⟩ hstep
  cases c with
  | emitTask task =>
      obtain rfl : s' = out ++ more ++ [task] := hstep
      refine ⟨more ++ [task], List.append_assoc _ _ _, fun task' hmem => ?_⟩
      rcases List.mem_append.mp hmem with hmem | hmem
      · exact hmore task' hmem
      · rw [List.mem_singleton.mp hmem]
        exact hc
  | currentTimeMs => exact hc.elim
  | opendir path => exact ⟨more, hstep, hmore⟩
  | readdir dp returned => exact ⟨more, hstep, hmore⟩
  | lstat path => exact ⟨more, hstep, hmore⟩
  | stat path => exact ⟨more, hstep, hmore⟩
  | inotifyAddWatch path => exact ⟨more, hstep, hmore⟩

theorem all_forEachEntry {V : Type} {P : MonitorCall Dir → Prop} {dp : Dir}
    {body : Bytes → V → MonitorProg Dir V} (hread : ∀ returned, P (.readdir dp returned))
    (hbody : ∀ path v, (body path v).All P fun _ => True) (fuel : Nat) (returned : List Bytes)
    (v : V) : (forEachEntry dir dp body fuel returned v).All P fun _ => True := by
  induction fuel generalizing returned v with
  | zero => trivial
  | succ fuel ih =>
      rw [forEachEntry]
      apply All.op_bind (hread returned)
      intro r
      cases r with
      | none => trivial
      | some name =>
          simp only
          split_ifs
          · exact ih _ _
          · split
            · exact ih _ _
            · exact (hbody _ _).bind fun _ _ => ih _ _

theorem all_isDirectory {path : Bytes} :
    (isDirectory path : MonitorProg Dir Bool).All (EmitsOnly E) fun _ => True := by
  apply All.op_bind trivial
  intro r
  cases r <;> trivial

/-- What `build_task_from_path` makes of a path. -/
structure BuiltAs (event_type : EventType) (rel_path : Option PathBuf)
    (built : Option BuiltTask) : Prop where
  refused : rel_path = none → built = none
  built : ∀ rel, rel_path = some rel → ∃ task, built = some task ∧
    task.event_type = event_type ∧ task.rel_path = rel ∧ task.old_rel_path = .empty

theorem all_buildTaskFromPath (event_type : EventType) (root : Bytes) (path : PathBuf) :
    (buildTaskFromPath event_type root path.bytes : MonitorProg Dir (Option BuiltTask)).All
      (EmitsOnly E) (BuiltAs event_type (relativePath root path)) := by
  unfold buildTaskFromPath relativePath
  rw [PathBuf.ofBytes?_bytes]
  cases hrel : (getRelativePath root path.bytes).bind PathBuf.ofBytes? with
  | none => exact ⟨fun _ => rfl, fun _ h => by cases h⟩
  | some rel_path =>
      apply All.op_bind trivial
      intro r
      cases r with
      | none => exact ⟨fun h => (by cases h), by rintro _ ⟨⟩; exact ⟨_, rfl, rfl, rfl, rfl⟩⟩
      | some st => exact ⟨fun h => (by cases h), by rintro _ ⟨⟩; exact ⟨_, rfl, rfl, rfl, rfl⟩⟩

/-- The task has the type that was asked for. -/
theorem all_buildTaskFromPath_type (event_type : EventType) (root path : Bytes) :
    (buildTaskFromPath event_type root path : MonitorProg Dir (Option BuiltTask)).All
      (EmitsOnly E) fun built => ∀ task, built = some task → task.event_type = event_type := by
  unfold buildTaskFromPath
  split
  · rintro task ⟨⟩
  split
  · rintro task ⟨⟩
  apply All.op_bind trivial
  intro r
  cases r with
  | none =>
      rintro task ⟨⟩
      rfl
  | some st =>
      rintro task ⟨⟩
      rfl

theorem all_addWatchRecursive (fuel : Nat) (dir : Bytes) (table : WatchTable) :
    (addWatchRecursive fuel dir table : MonitorProg Dir (Rc × WatchTable)).All (EmitsOnly E)
      fun _ => True := by
  induction fuel generalizing dir table with
  | zero => trivial
  | succ fuel ih =>
      rw [addWatchRecursive]
      apply All.op_bind trivial
      intro r
      cases r with
      | none => trivial
      | some dp =>
          apply All.op_bind trivial
          intro wd
          cases wd with
          | none => trivial
          | some wd =>
              refine All.bind (all_forEachEntry (fun _ => trivial) ?_ fuel [] _)
                fun _ _ => trivial
              intro path table
              apply all_isDirectory.bind
              intro isDir _
              split_ifs
              · exact (ih path table).bind fun _ _ => trivial
              · trivial

/-- A scan emits nothing but what it finds. -/
theorem all_scanDirectoryAndEmitTasks (root : Bytes) (fuel : Nat) (dir : Bytes)
    (vars : MonitorVars) :
    (scanDirectoryAndEmitTasks root fuel dir vars : MonitorProg Dir (Rc × MonitorVars)).All
      (EmitsOnly fun task => task.event_type = .fullscan) fun _ => True := by
  induction fuel generalizing dir vars with
  | zero => trivial
  | succ fuel ih =>
      rw [scanDirectoryAndEmitTasks]
      apply All.op_bind trivial
      intro r
      cases r with
      | none => trivial
      | some dp =>
          refine All.bind (all_forEachEntry (fun _ => trivial) ?_ fuel [] _) fun _ _ => trivial
          intro path vars
          refine All.bind (Q := fun _ => True) ?_ fun vars _ => ?_
          · apply (all_buildTaskFromPath_type .fullscan root path).bind
            intro built hbuilt
            cases built with
            | none => trivial
            | some task => exact All.op_bind (hbuilt task rfl) fun _ => trivial
          · apply all_isDirectory.bind
            intro isDir _
            split_ifs
            · exact All.bind (Q := fun _ => True)
                ((all_addWatchRecursive _ _ _).bind fun _ _ => trivial)
                fun vars _ => (ih path vars).bind fun _ _ => trivial
            · exact (ih path vars).bind fun _ _ => trivial
            · trivial

theorem all_watchAndScan (is_dir : Bool) :
    (watchAndScan root fuel path is_dir vars : MonitorProg Dir MonitorVars).All
      (EmitsOnly fun task => task.event_type = .fullscan) fun _ => True := by
  unfold watchAndScan
  split_ifs
  · apply (all_addWatchRecursive _ _ _).bind
    intro _ _
    exact (all_scanDirectoryAndEmitTasks _ _ _ _).bind fun _ _ => trivial
  · trivial

/-- The path of an event of a watched directory, where it fits. -/
def knownPath (table : WatchTable) (ev : InotifyEvent) : Option PathBuf :=
  (findPathByWd table ev.wd).bind fun parent => if ev.len = 0 then none else eventPath parent ev

/-- An `IN_MOVED_TO`; of both bits `handle_event` looks at `IN_MOVED_FROM` first. -/
def InotifyEvent.arrives (ev : InotifyEvent) : Bool := !ev.has inMovedFrom && ev.has inMovedTo

/-- What `handle_event` makes of an event at `path`: the record afterwards, and what is
emitted. -/
inductive Handled (root : Bytes) (t : Int) (ev : InotifyEvent) (path : Option PathBuf)
    (move : MoveRecord) : MoveRecord → List SyncTask → Prop
  | dropped : path = none → Handled root t ev path move move []
  | left {p : PathBuf} : path = some p → ev.has inMovedFrom = true →
      Handled root t ev path move
        ⟨ev.cookie, p, relativePathBuffer root p.bytes, ev.has inIsDir, t⟩ []
  | refused {p : PathBuf} : path = some p → ev.arrives = true → relativePath root p = none →
      Handled root t ev path move move []
  | arrived {p : PathBuf} {task : SyncTask} {more : List SyncTask} : path = some p →
      ev.arrives = true → relativePath root p = some task.rel_path → task.event_type = .rename →
      task.old_rel_path = .empty → (∀ task ∈ more, task.event_type = .fullscan) →
      Handled root t ev path move .zero (move.complete ev.cookie task :: more)
  | other {out : List SyncTask} : ev.has inMovedFrom = false → ev.arrives = false →
      (∀ task ∈ out, task.event_type ≠ .rename) → Handled root t ev path move move out

theorem all_emitBuilt {event_type : EventType} (htype : event_type ≠ .rename) :
    (emitBuilt event_type root path : MonitorProg Dir Unit).All
      (EmitsOnly fun task => task.event_type ≠ .rename) fun _ => True := by
  unfold emitBuilt
  apply (all_buildTaskFromPath_type event_type root path.bytes).bind
  intro built hbuilt
  cases built with
  | none => trivial
  | some task =>
      refine All.op_bind ?_ fun _ => trivial
      have htask := hbuilt task rfl
      intro h
      exact htype (htask.symm.trans h)

theorem all_emitDeleteTask (is_dir : Bool) :
    (emitDeleteTask root path is_dir : MonitorProg Dir Rc).All
      (EmitsOnly fun task => task.event_type ≠ .rename) fun _ => True := by
  unfold emitDeleteTask
  split
  · trivial
  · exact ⟨by rintro ⟨⟩, fun _ => trivial⟩

/-- What has been built, while nothing is emitted. -/
theorem safe_buildTaskFromPath {event_type : EventType} :
    (buildTaskFromPath event_type root path.bytes : MonitorProg Dir (Option BuiltTask)).Safe
      (handling t) (fun _ => True)
      (fun built out' => BuiltAs event_type (relativePath root path) built ∧ out' = out) out := by
  have hall : (buildTaskFromPath event_type root path.bytes :
      MonitorProg Dir (Option BuiltTask)).All (EmitsOnly fun _ => False) _ :=
    all_buildTaskFromPath event_type root path
  apply (emits_of_all hall).post
  rintro built out' ⟨hbuilt, more, rfl, hnone⟩
  refine ⟨hbuilt, ?_⟩
  rw [List.eq_nil_iff_forall_not_mem.mpr hnone, List.append_nil]

theorem safe_handlePathEvent :
    (handlePathEvent root fuel ev path vars move :
        MonitorProg Dir (Rc × MonitorVars × MoveRecord)).Safe (handling t) (fun _ => True)
      (fun r out => Handled root t ev (some path) move r.2.2 out) [] := by
  unfold handlePathEvent
  dsimp only
  split_ifs with hfrom hto hdel hcreate hmodify
  · apply Safe.op_bind
    rintro now out ⟨rfl, rfl⟩
    exact ⟨trivial, .left rfl hfrom⟩
  · have harrives : ev.arrives = true := by simp [InotifyEvent.arrives, hfrom, hto]
    apply safe_buildTaskFromPath.bind
    rintro built out ⟨hbuilt, rfl⟩
    cases hrel : relativePath root path with
    | none =>
        rw [hbuilt.refused hrel]
        exact .refused rfl harrives hrel
    | some rel =>
        obtain ⟨task, rfl, htype, rfl, hold⟩ := hbuilt.built rel hrel
        apply Safe.op_bind
        rintro rc out rfl
        refine ⟨trivial, ?_⟩
        apply (emits_of_all (all_watchAndScan (ev.has inIsDir))).bind
        rintro vars' out' ⟨-, more, rfl, hmore⟩
        exact .arrived rfl harrives hrel htype hold hmore
  all_goals
    have hfrom' : ev.has inMovedFrom = false := by simpa using hfrom
    have harrives : ev.arrives = false := by simpa [InotifyEvent.arrives, hfrom'] using hto
  · apply (emits_of_all (all_emitDeleteTask (ev.has inIsDir))).bind
    rintro rc out ⟨-, more, rfl, hmore⟩
    exact .other hfrom' harrives hmore
  · apply (emits_of_all (all_emitBuilt (by decide))).bind
    rintro _ out ⟨-, more, rfl, hmore⟩
    apply (emits_of_all (all_watchAndScan (ev.has inIsDir))).bind
    rintro vars' out' ⟨-, scanned, rfl, hscanned⟩
    refine .other hfrom' harrives fun task hmem => ?_
    rcases List.mem_append.mp hmem with hmem | hmem
    · exact hmore task hmem
    · rw [hscanned task hmem]
      decide
  · apply (emits_of_all (all_emitBuilt (by decide))).bind
    rintro _ out ⟨-, more, rfl, hmore⟩
    exact .other hfrom' harrives hmore
  · exact .other hfrom' harrives (by simp)

theorem safe_handleEvent :
    (handleEvent root fuel ev vars move :
        MonitorProg Dir (Rc × MonitorVars × MoveRecord)).Safe (handling t) (fun _ => True)
      (fun r out => Handled root t ev (knownPath vars.watch_items ev) move r.2.2 out) [] := by
  unfold handleEvent knownPath
  cases findPathByWd vars.watch_items ev.wd with
  | none => exact .dropped rfl
  | some parent =>
      simp only [Option.bind_some]
      split_ifs
      · exact .dropped rfl
      · cases eventPath parent ev with
        | none => exact .dropped rfl
        | some path => exact safe_handlePathEvent

/-! ## Timeouts -/

/-- The DELETE of a path that has been moved away. -/
def MoveRecord.deleteTask (move : MoveRecord) (rel_path : PathBuf) : SyncTask :=
  { initSyncTask with
    event_type := .delete
    is_dir := move.is_dir
    src_path := move.old_path
    rel_path }

/-- The record has been kept for more than two seconds. -/
def MoveRecord.Overdue (move : MoveRecord) (t : Int) : Prop :=
  move.cookie ≠ 0 ∧ t - move.ts_ms > 2000

/-- What a timeout at `t` makes of the record, and what it emits. -/
structure Expired (root : Bytes) (t : Int) (move move' : MoveRecord) (out : List SyncTask) :
    Prop where
  overdue : move.Overdue t → move' = .zero ∧
    out = (relativePath root move.old_path).toList.map move.deleteTask
  kept : ¬ move.Overdue t → move' = move ∧ out = []

theorem safe_expireMove :
    (expireMove root move : MonitorProg Dir MoveRecord).Safe (handling t) (fun _ => True)
      (fun move' out => Expired root t move move' out) [] := by
  unfold expireMove
  split_ifs with hcookie
  · apply Safe.op_bind
    rintro now out ⟨rfl, rfl⟩
    refine ⟨trivial, ?_⟩
    split_ifs with hlate
    · have hover : move.Overdue now := ⟨hcookie, hlate⟩
      unfold emitDeleteTask
      cases hrel : relativePath root move.old_path with
      | none => exact ⟨fun _ => ⟨rfl, by rw [hrel]; rfl⟩, fun h => absurd hover h⟩
      | some rel =>
          apply Safe.op_bind
          rintro rc out rfl
          exact ⟨trivial, fun _ => ⟨rfl, by rw [hrel]; rfl⟩, fun h => absurd hover h⟩
    · exact ⟨fun h => absurd h.2 hlate, fun _ => ⟨rfl, rfl⟩⟩
  · exact ⟨fun h => absurd h.1 hcookie, fun _ => ⟨rfl, rfl⟩⟩

end Handling

end MiniSync.Monitor
