import MiniSync.Pipes.Logger
import MiniSync.Pipes.Scheduler

/-!
# The client as a whole

`main` waits until it is told to stop, or the monitor or the transfer process has ended;
then it sends EXIT to the scheduler, ends the monitor, waits for both processes, and sends
EXIT to the logger last of all.  So all that any process has logged is in the log when
`main` returns.
-/

namespace MiniSync.Pipes

open Prog Beside

/-- The loop of `main`. -/
def supervise : Nat → ClientProg Unit
  | 0 => .spin
  | fuel + 1 => do
      let stop : Bool ← ccall .stopRequested
      if stop then return ()
      else
        let done : Option Process ← ccall .waitAny
        if done = some .monitor ∨ done = some .transfer then return ()
        else supervise fuel

/-- `main`, once the three processes have been started. -/
def clientMain (fuel : Nat) (pid : Int32) (started : Bytes) : ClientProg Unit := do
  logMessage fuel (.of pid logInfo started)
  supervise fuel
  logMessage fuel (.of pid logInfo (ascii "main: stopping client"))
  let _ ← emitTask fuel .exit
  ccall (.kill .monitor)
  ccall (.waitpid .monitor)
  ccall (.waitpid .transfer)
  logMessage fuel (.of pid logExit (ascii "main: logger exit"))
  ccall (.close .event)
  ccall (.close .log)
  ccall (.waitpid .logger)

/-- What the client is started with. -/
structure ClientSetup where
  /-- The process ids of `main` and of the transfer process. -/
  mainPid : Int32
  transferPid : Int32
  /-- The first message of `main`. -/
  started : Bytes
  debounce_ms : Int
  load : Workload

def ClientSetup.threads (setup : ClientSetup) (fuel : Nat) : ThreadId → ClientProg Unit
  | .main => clientMain fuel setup.mainPid setup.started
  | .logger => loggerProcess fuel
  | .monitor => daemon fuel setup.load.monitor
  | .scheduler => schedulerThread fuel setup.transferPid setup.debounce_ms
  | .worker id => daemon fuel ((setup.load.workers id).map .log)

/-- The client after all processes have been started. -/
def ClientSetup.system (setup : ClientSetup) (fuel : Nat) :
    System ThreadId ClientCall ClientResp Unit ClientState :=
  ⟨.start, setup.threads fuel⟩

/-! ## What `main` knows -/

variable {killable : Process → Prop} {capacity : Nat} {load : Workload} {debounce_ms : Int}
  {fuel : Nat} {pid : Int32} {s s' : ClientState} {sent : List LogMessage} {msg : LogMessage}

/-- `main` has sent these messages and can send more. -/
structure MainSent (sent : List LogMessage) (s : ClientState) : Prop where
  log : (s.pipe .log).sentBy .main = sent.map LogMessage.encode
  opened : s.closed .log = false

theorem MainSent.of_others (h : MainSent sent s) (hE : Others .main s s') : MainSent sent s' :=
  ⟨(hE.own.sentBy .log).trans h.log, (congrFun (hE.own.main rfl) .log).trans h.opened⟩

theorem MainSent.of_pipe_eq (h : MainSent sent s) (hpipe : s'.pipe .log = s.pipe .log)
    (hclosed : s'.closed = s.closed) : MainSent sent s' :=
  ⟨by rw [hpipe]; exact h.log, by rw [hclosed]; exact h.opened⟩

/-- No message is EXIT as long as `main` has not sent it. -/
theorem MainSent.no_exit (h : MainSent sent s) (hI : Inv load debounce_ms s)
    (hsent : ∀ m ∈ sent, LogMessage.isExit m = false) :
    ∀ m ∈ messages s, LogMessage.isExit m = false := by
  intro m hm
  obtain ⟨bytes, hbytes, rfl⟩ := List.mem_map.mp hm
  obtain ⟨w, hw, rfl⟩ := List.mem_map.mp hbytes
  obtain ⟨m', henc, hlevel⟩ := hI.log.writers w hw
  rw [henc, m'.decode_encode]
  by_cases hmain : w.1 = .main
  · have hmem : w.2 ∈ (s.pipe .log).sentBy .main :=
      List.mem_map_of_mem (List.mem_filter.mpr ⟨hw, decide_eq_true hmain⟩)
    rw [h.log] at hmem
    obtain ⟨m'', hm'', heq⟩ := List.mem_map.mp hmem
    have hsame : m'' = m' := by
      rw [← m''.decode_encode, heq, henc, m'.decode_encode]
    exact hsame ▸ hsent m'' hm''
  · exact hlevel hmain

/-- The logger is there as long as `main` has not sent EXIT. -/
theorem MainSent.logger_alive (h : MainSent sent s) (hI : Inv load debounce_ms s)
    (hsent : ∀ m ∈ sent, LogMessage.isExit m = false) (hself : s.dead .main = false) :
    s.dead .logger = false := by
  cases hdead : s.dead .logger with
  | false => rfl
  | true =>
      rcases (hI.log.complete hdead).noMore with ⟨m, hm, hexit⟩ | hnone
      · exact absurd hexit (by rw [h.no_exit hI hsent m hm]; decide)
      · exact absurd ⟨by decide, hself, fun _ => h.opened⟩ (hnone .main)

/-- The monitor and the transfer process are dead. -/
structure Alone (s : ClientState) : Prop where
  monitor : s.dead .monitor = true
  transfer : s.dead .transfer = true

theorem Alone.later (h : Alone s) (hlater : Later s s') : Alone s' :=
  ⟨hlater.dead _ h.monitor, hlater.dead _ h.transfer⟩

/-- Nothing but `main` itself writes to the log when it is alone. -/
theorem Alone.writes_eq (h : Alone s) (hE : Others .main s s') :
    (s'.pipe .log).writes = (s.pipe .log).writes := by
  obtain ⟨more, hmore, hcan⟩ := hE.later.writes .log
  have hmain : ∀ w ∈ more, w.1 = .main := by
    intro w hw
    obtain ⟨hmem, halive, -⟩ := hcan w hw
    cases hthread : w.1 with
    | main => rfl
    | logger =>
        rw [hthread] at hmem
        exact absurd hmem (by decide)
    | monitor =>
        rw [hthread] at halive
        exact absurd h.monitor (by rw [show s.dead .monitor = false from halive]; decide)
    | _ =>
        rw [hthread] at halive
        exact absurd h.transfer (by rw [show s.dead .transfer = false from halive]; decide)
  have hown := hE.own.sentBy .log
  unfold Pipe.sentBy at hown
  have hall : more.filter (fun w => decide (w.1 = .main)) = more :=
    List.filter_eq_self.mpr fun w hw => decide_eq_true (hmain w hw)
  rw [hmore, List.filter_append, List.map_append, List.append_right_eq_self, hall,
    List.map_eq_nil_iff] at hown
  rw [hmore, hown, List.append_nil]

/-- `main` has sent EXIT, and nothing comes after it. -/
structure ExitSent (exit : LogMessage) (s : ClientState) : Prop where
  alone : Alone s
  last : ∃ before, messages s = before ++ [exit] ∧
    ∀ m ∈ before, LogMessage.isExit m = false

theorem ExitSent.of_others {exit : LogMessage} (h : ExitSent exit s) (hE : Others .main s s') :
    ExitSent exit s' := by
  refine ⟨h.alone.later hE.later, ?_⟩
  unfold messages Pipe.records
  rw [h.alone.writes_eq hE]
  exact h.last

theorem ExitSent.of_pipe_eq {exit : LogMessage} (h : ExitSent exit s)
    (hpipe : s'.pipe = s.pipe) (hlater : Later s s') : ExitSent exit s' := by
  refine ⟨h.alone.later hlater, ?_⟩
  unfold messages
  rw [hpipe]
  exact h.last

/-! ## The steps of `main` -/

/-- The bounds of `main`. -/
abbrev MainRuns (killable : Process → Prop) (capacity : Nat) (load : Workload)
    (debounce_ms : Int) {α : Type} (Q : α → ClientState → Prop) (p : ClientProg α)
    (s : ClientState) : Prop :=
  Within (clientKernel killable capacity .main) (Inv load debounce_ms) (Others .main)
    (Mine .main) Q p s

theorem runs_mainLog (hI : Inv load debounce_ms s) (hlevel : LogMessage.isExit msg = false)
    (hsent : ∀ m ∈ sent, LogMessage.isExit m = false) (hs : MainSent sent s) :
    MainRuns killable capacity load debounce_ms (fun _ => MainSent (sent ++ [msg]))
      (logMessage fuel msg) s := by
  refine within_logMessage hI (fun _ _ h => absurd h (by rw [hlevel]; decide))
    (fun _ hI h hself => h.logger_alive hI hsent hself) (fun _ _ _ hE h => h.of_others hE)
    (fun _ _ _ hE h => h.of_others hE) (fun _ _ outs houts => by cases houts)
    (fun s _ h _ => ⟨?_, h.opened⟩) hs
  rw [setPipe_self, Pipe.sentBy_push_self, h.log, List.map_append]
  rfl

/-- A process is waited for: it is dead, and by then the log is complete if it is the
logger. -/
theorem Inv.waited (hI : Inv load debounce_ms s) (hkill : ¬ killable .logger) {x : Process}
    (h : Ended killable s x) : Inv load debounce_ms (s.bury x) ∧ Mine .main s (s.bury x) := by
  have hlogger : x = .logger → s.dead .logger = true := by
    rintro rfl
    exact h.resolve_right hkill
  refine ⟨hI.bury x fun hx => hI.log.complete (hlogger hx), ?_⟩
  refine mine_of_pipe_eq (later_bury s x) rfl (Or.inr ⟨rfl, rfl, ?_⟩) (Or.inr rfl) (Or.inl rfl)
  change Function.update s.dead x true .logger = s.dead .logger
  by_cases hx : x = .logger
  · subst hx
    rw [Function.update_self, hlogger rfl]
  · rw [Function.update_of_ne (Ne.symm hx)]

/-- Waiting for a process, with what is known before and after. -/
theorem runs_waitpid {J K : ClientState → Prop} {α : Type} {Q : α → ClientState → Prop}
    {x : Process} {rest : ClientProg α} (hkill : ¬ killable .logger)
    (hJ : ∀ s s', Inv load debounce_ms s' → Others .main s s' → J s → J s')
    (hwait : ∀ s, J s → Ended killable s x → K (s.bury x)) (hs : J s)
    (hrest : ∀ s, Inv load debounce_ms s → K s →
      MainRuns killable capacity load debounce_ms Q rest s) :
    MainRuns killable capacity load debounce_ms Q (ccall (.waitpid x) >>= fun _ => rest) s := by
  refine Within.op_bind fun s₁ r s' hI hE hK => ?_
  obtain ⟨hended, rfl⟩ : Ended killable s₁ x ∧ s' = s₁.bury x := hK.2
  obtain ⟨hI', hmine⟩ := hI.waited hkill hended
  exact ⟨hI', hmine, hrest _ hI' (hwait s₁ (hJ s s₁ hI hE hs) hended)⟩

/-- A call of `main` that only answers. -/
theorem runs_mainAsk {J : ClientState → Prop} {α : Type} {Q : α → ClientState → Prop}
    {c : ClientCall} {f : ClientResp c → ClientProg α}
    (hc : ∀ s r s', Does killable capacity .main c s r s' → s' = s)
    (hJ : ∀ s s', Inv load debounce_ms s' → Others .main s s' → J s → J s') (hs : J s)
    (hf : ∀ r s, Inv load debounce_ms s → J s →
      MainRuns killable capacity load debounce_ms Q (f r) s) :
    MainRuns killable capacity load debounce_ms Q (ccall c >>= f) s := by
  refine Within.op_bind fun s₁ r s' hI hE hK => ?_
  obtain rfl := hc s₁ r s' hK.2
  exact ⟨hI, .refl _ s', hf r s' hI (hJ s s' hI hE hs)⟩

theorem runs_supervise (hkill : ¬ killable .logger) (turns : Nat) (hs : MainSent sent s) :
    MainRuns killable capacity load debounce_ms (fun _ => MainSent sent) (supervise turns) s := by
  have hstable : ∀ s s', Inv load debounce_ms s' → Others .main s s' → MainSent sent s →
      MainSent sent s' := fun _ _ _ hE h => h.of_others hE
  induction turns generalizing s with
  | zero => trivial
  | succ turns ih =>
      rw [supervise]
      apply runs_mainAsk (c := .stopRequested) (fun _ _ _ hK => hK) hstable hs
      intro (stop : Bool) s₁ _ hs₁
      split_ifs
      · exact Within.ret fun s₂ hI₂ hE => hs₁.of_others hE
      refine Within.op_bind fun s₂ (done : Option Process) s₃ hI₂ hE hK => ?_
      have hs₂ := hs₁.of_others hE
      have hdoes := hK.2
      have hafter : Inv load debounce_ms s₃ ∧ Mine .main s₂ s₃ ∧ MainSent sent s₃ := by
        cases done with
        | none =>
            obtain rfl : s₃ = s₂ := hdoes
            exact ⟨hI₂, .refl _ s₃, hs₂⟩
        | some x =>
            obtain ⟨hended, rfl⟩ : Ended killable s₂ x ∧ s₃ = s₂.bury x := hdoes
            obtain ⟨hI', hmine⟩ := hI₂.waited hkill hended
            exact ⟨hI', hmine, hs₂.of_pipe_eq rfl rfl⟩
      obtain ⟨hI₃, hmine, hs₃⟩ := hafter
      refine ⟨hI₃, hmine, ?_⟩
      split_ifs
      · exact Within.ret fun s₄ _ hE => hs₃.of_others hE
      · exact ih hs₃

theorem runs_close {exit : LogMessage} {α : Type} {Q : α → ClientState → Prop} {name : PipeName}
    {rest : ClientProg α} (hs : ExitSent exit s)
    (hrest : ∀ s, Inv load debounce_ms s → ExitSent exit s →
      MainRuns killable capacity load debounce_ms Q rest s) :
    MainRuns killable capacity load debounce_ms Q (ccall (.close name) >>= fun _ => rest) s := by
  refine Within.op_bind fun s₁ r s' hI hE hK => ?_
  obtain rfl : s' = { s₁ with closed := Function.update s₁.closed name true } := hK.2
  have hlater : Later s₁ { s₁ with closed := Function.update s₁.closed name true } := by
    refine later_of_pipe_eq rfl (fun _ h => h) fun other h => ?_
    dsimp only
    by_cases hname : other = name
    · rw [hname, Function.update_self]
    · rw [Function.update_of_ne hname]
      exact h
  have hI' := hI.quiet hlater rfl rfl rfl (fun _ => rfl) fun h => h
  exact ⟨hI', mine_of_pipe_eq hlater rfl (Or.inr ⟨rfl, rfl, rfl⟩) (Or.inr rfl) (Or.inl rfl),
    hrest _ hI' ((hs.of_others hE).of_pipe_eq rfl hlater)⟩

/-- The last message. -/
theorem runs_exitLog (hI : Inv load debounce_ms s)
    (hsent : ∀ m ∈ sent, LogMessage.isExit m = false) (hs : MainSent sent s) (halone : Alone s) :
    MainRuns killable capacity load debounce_ms (fun _ => ExitSent msg) (logMessage fuel msg)
      s := by
  have hstable : ∀ s s', Inv load debounce_ms s' → Others .main s s' →
      MainSent sent s ∧ Alone s → MainSent sent s' ∧ Alone s' :=
    fun _ _ _ hE h => ⟨h.1.of_others hE, h.2.later hE.later⟩
  refine within_logMessage hI (fun _ h _ => ⟨rfl, h.2.monitor, h.2.transfer⟩)
    (fun _ hI h hself => h.1.logger_alive hI hsent hself) hstable
    (fun _ _ _ hE h => h.of_others hE) (fun _ _ outs houts => by cases houts)
    (fun s hI h hopen => ⟨h.2.later (later_push hopen), messages s, ?_, h.1.no_exit hI hsent⟩)
    ⟨hs, halone⟩
  unfold messages
  rw [setPipe_self, Pipe.records_push, List.map_append, List.map_singleton, msg.decode_encode]

def exitMessage (pid : Int32) : LogMessage := .of pid logExit (ascii "main: logger exit")

/-- `main` returns after EXIT has been sent and the logger has ended. -/
theorem runs_clientMain {started : Bytes} (hkill : ¬ killable .logger)
    (hI : Inv load debounce_ms s) (hs : MainSent [] s) :
    MainRuns killable capacity load debounce_ms
      (fun _ s => ExitSent (exitMessage pid) s ∧ s.dead .logger = true)
      (clientMain fuel pid started) s := by
  have hstable : ∀ {sent : List LogMessage} (s s' : ClientState), Inv load debounce_ms s' →
      Others .main s s' → MainSent sent s → MainSent sent s' :=
    fun _ _ _ hE h => h.of_others hE
  have hinfo : ∀ text, LogMessage.isExit (.of pid logInfo text) = false := fun _ => by rfl
  have hsent : ∀ m ∈ [LogMessage.of pid logInfo started], LogMessage.isExit m = false := by
    intro m hm
    rw [List.mem_singleton.mp hm]
    exact hinfo started
  have hsent' : ∀ m ∈ [LogMessage.of pid logInfo started] ++
      [.of pid logInfo (ascii "main: stopping client")], LogMessage.isExit m = false := by
    intro m hm
    rcases List.mem_append.mp hm with hm | hm
    · exact hsent m hm
    · rw [List.mem_singleton.mp hm]
      exact hinfo _
  unfold clientMain
  apply (runs_mainLog hI (hinfo started) (fun _ h => absurd h List.not_mem_nil) hs).bind hI
  intro _ s₁ hI₁ hs₁
  apply (runs_supervise hkill fuel hs₁).bind hI₁
  intro _ s₂ hI₂ hs₂
  apply (runs_mainLog hI₂ (hinfo _) hsent hs₂).bind hI₂
  intro _ s₃ hI₃ hs₃
  apply (within_emitTask (Or.inr ⟨rfl, rfl⟩) hstable hstable (fun _ _ _ outs houts => by cases houts)
    (fun s _ h _ _ => h.of_pipe_eq (setPipe_of_ne (by decide) _) rfl) (fun _ h _ => h) hs₃).bind hI₃
  intro _ s₄ hI₄ hs₄
  apply runs_mainAsk (c := .kill .monitor) (fun _ _ _ hK => hK) hstable hs₄
  intro _ s₅ hI₅ hs₅
  apply runs_waitpid (J := MainSent _) (K := fun s => MainSent _ s ∧ s.dead .monitor = true) hkill
    hstable (fun s h _ => ⟨h.of_pipe_eq rfl rfl, bury_self .monitor⟩) hs₅
  rintro s₆ hI₆ hs₆
  apply runs_waitpid (J := fun s => MainSent _ s ∧ s.dead .monitor = true)
    (K := fun s => MainSent _ s ∧ Alone s) hkill
    (fun s s' hI hE h => ⟨hstable s s' hI hE h.1, hE.later.dead _ h.2⟩)
    (fun s h _ => ⟨h.1.of_pipe_eq rfl rfl, (later_bury s .transfer).dead _ h.2,
      bury_self .transfer⟩) hs₆
  rintro s₇ hI₇ ⟨hs₇, halone⟩
  apply (runs_exitLog hI₇ hsent' hs₇ halone).bind hI₇
  intro _ s₈ hI₈ hs₈
  apply runs_close hs₈
  intro s₉ hI₉ hs₉
  apply runs_close hs₉
  intro s hI hs
  refine fun s₁ r s' hI₁ hE hK => ?_
  obtain ⟨hended, rfl⟩ : Ended killable s₁ .logger ∧ s' = s₁.bury .logger := hK.2
  obtain ⟨hI', hmine⟩ := hI₁.waited hkill hended
  refine ⟨hI', hmine, fun s₂ _ hE₂ => ?_⟩
  have hexit : ExitSent (exitMessage pid) (s₁.bury .logger) :=
    (hs.of_others hE).of_pipe_eq rfl (later_bury s₁ .logger)
  exact ⟨hexit.of_others hE₂, hE₂.later.dead _ (bury_self .logger)⟩

/-! ## The whole client -/

/-- What holds where a thread has returned. -/
def Returned (setup : ClientSetup) : ThreadId → Unit → ClientState → Prop
  | .main, _, s => ExitSent (exitMessage setup.mainPid) s ∧ s.dead .logger = true
  | .scheduler, _, s => Finished setup.debounce_ms s
  | i, _, s => ∀ outs, setup.load.outputs i = some outs → HasSent i outs s

theorem inv_start (load : Workload) (debounce_ms : Int) : Inv load debounce_ms .start := by
  refine ⟨⟨Pipe.inRecords_empty, fun w hw => ?_, fun out => ?_, ?_, ?_⟩,
    ⟨Pipe.inRecords_empty, fun w hw => ?_, ⟨[], List.nil_prefix, List.nil_prefix⟩⟩,
    fun i outs _ name => List.nil_prefix⟩
  · exact absurd hw List.not_mem_nil
  · exact ⟨[], List.nil_prefix, .nil⟩
  · rintro ⟨⟩
  · rintro ⟨m, hm, -⟩
    exact absurd hm List.not_mem_nil
  · exact absurd hw List.not_mem_nil

variable {setup : ClientSetup} {c : System ThreadId ClientCall ClientResp Unit ClientState}

theorem bounded_start (hkill : ¬ killable .logger) (setup : ClientSetup) (fuel : Nat) :
    Bounded (clientKernel killable capacity) (Inv setup.load setup.debounce_ms) Others Mine
      (Returned setup) (setup.system fuel) := by
  have hI := inv_start setup.load setup.debounce_ms
  have hsent : ∀ i, HasSent i [] ClientState.start := fun i => ⟨rfl, Or.inl rfl⟩
  refine ⟨hI, fun i => ?_⟩
  cases i with
  | main => exact runs_clientMain hkill hI ⟨rfl, rfl⟩
  | logger =>
      apply (within_loggerProcess hI ⟨rfl, rfl, fun _ => rfl, Pipe.readTo_empty⟩).post
      exact fun _ _ _ _ outs houts => by cases houts
  | monitor =>
      apply (within_daemon [] hI rfl (hsent .monitor)).post
      intro _ s _ hs outs houts
      cases houts
      exact hs
  | scheduler =>
      exact runs_schedulerThread hI ⟨⟨List.nil_prefix, Pipe.readTo_empty⟩, rfl,
        Pipe.inRecords_empty⟩
  | worker id =>
      apply (within_daemon [] hI rfl (hsent (.worker id))).post
      intro _ s _ hs outs houts
      cases houts
      exact hs

/-- Every state of every run is within the bounds. -/
theorem bounded_of_run (hkill : ¬ killable .logger)
    (hrun : Run (clientKernel killable capacity) (setup.system fuel) c) :
    Bounded (clientKernel killable capacity) (Inv setup.load setup.debounce_ms) Others Mine
      (Returned setup) c :=
  Run.within hrun (fun i _ _ _ hij _ _ hmine => hmine i hij) (bounded_start hkill setup fuel)

/-- The messages among what a thread sends. -/
def logged (outs : List Output) : List LogMessage :=
  outs.filterMap fun
    | .log msg => some msg
    | .emit _ => none

/-- The tasks among what a thread sends. -/
def emitted (outs : List Output) : List TaskRecord :=
  outs.filterMap fun
    | .log _ => none
    | .emit task => some task

theorem filterMap_record_log (outs : List Output) :
    outs.filterMap (Output.record .log) = (logged outs).map LogMessage.encode := by
  unfold logged
  rw [List.map_filterMap]
  congr 1
  funext out
  cases out <;> rfl

theorem filterMap_record_event (outs : List Output) :
    outs.filterMap (Output.record .event) = (emitted outs).map TaskRecord.encode := by
  unfold emitted
  rw [List.map_filterMap]
  congr 1
  funext out
  cases out <;> rfl

/-! ## A client that is told of a deletion -/

def deletedFile : TaskRecord :=
  { TaskRecord.init with
    event_type := 3
    rel_path := nameA }

/-- The monitor reports that a file has been deleted. -/
def oneDeletion : ClientSetup where
  mainPid := 7
  transferPid := 10
  started := ascii "main: MiniSync client started mode=local src=src"
  debounce_ms := 500
  load :=
    { monitor := [.emit deletedFile]
      workers _ := []
      monitor_level := by simp
      monitor_type := by
        intro task htask
        rw [List.mem_singleton] at htask
        injection htask with htask
        subst htask
        simp only [deletedFile, isExitTask, TaskRecord.toSyncTask, EventType.ofCode]
        decide
      workers_level := by simp }

/-- Where there is room a record is written at once. -/
theorem exec_writePipe {i : ThreadId} {name : PipeName} {buf : Bytes} (hbuf : buf ≠ [])
    (hroom : (s.pipe name).waiting.length + buf.length ≤ capacity)
    (hopen : s.CanWrite name i.process) (hreader : s.dead name.reader = false) :
    Exec (clientKernel killable capacity i) (writePipe (fuel + 2) name buf) s .ok
      (s.setPipe name ((s.pipe name).push i buf)) := by
  have hwrite : WriteAnswer capacity i name buf s (.ok buf.length)
      (s.setPipe name ((s.pipe name).push i (buf.take buf.length))) :=
    .written (List.length_pos_iff.mpr hbuf) (Nat.le_refl _) (fun _ => rfl) hroom hopen hreader
  rw [List.take_length] at hwrite
  have hstep : clientKernel killable capacity i (.write name buf) s (Except.ok buf.length)
      (s.setPipe name ((s.pipe name).push i buf)) := ⟨hopen.2.1, hwrite⟩
  rw [writePipe_succ hbuf]
  refine .call hstep ?_
  change Exec _ (writePipe (fuel + 1) name (buf.drop buf.length)) _ _ _
  rw [List.drop_length]
  exact .ret _ _

/-- A record that waits is read at once. -/
theorem exec_readnPipe {i : ThreadId} {name : PipeName} {record : Bytes} (hrecord : record ≠ [])
    (hwaiting : (s.pipe name).waiting = record) (halive : s.dead i.process = false) :
    Exec (clientKernel killable capacity i) (readnPipe (fuel + 2) name record.length) s
      (some record) (s.setPipe name ((s.pipe name).pull record.length)) := by
  have hpos := List.length_pos_iff.mpr hrecord
  have hread : ReadAnswer name record.length s (.ok ((s.pipe name).waiting.take record.length))
      (s.setPipe name ((s.pipe name).pull record.length)) :=
    .data hpos (Nat.le_refl _) (Nat.le_of_eq (congrArg List.length hwaiting.symm))
  rw [hwaiting, List.take_length] at hread
  have hstep : clientKernel killable capacity i (.read name record.length) s (Except.ok record)
      (s.setPipe name ((s.pipe name).pull record.length)) := ⟨halive, hread⟩
  change Exec _ (readnPipeLoop (fuel + 1 + 1) name record.length []) _ _ _
  rw [readnPipeLoop_succ (Nat.ne_of_gt hpos)]
  refine .call hstep ?_
  change Exec _ (if record = [] then _ else readnPipeLoop _ _ _ _) _ _ _
  rw [if_neg hrecord, Nat.sub_self, List.nil_append]
  exact .ret _ _

/-- The log is a faithful record of what the processes log.  At any time it shows the first
messages of the log pipe, up to an EXIT, in the order in which they were written; the
monitor and each worker has written a front of its messages, and all of them when it has
returned; and when `main` has returned, the log shows everything that was ever logged,
`main`'s EXIT last. -/
theorem client_log_is_complete (hkill : ¬ killable .logger)
    (hrun : Run (clientKernel killable capacity) (setup.system fuel) c) :
    (∀ out, ∃ ms, ms <+: upTo LogMessage.isExit (messages c.shared) ∧
      PrintsAll ms (c.shared.printed out)) ∧
    (∀ i outs, setup.load.outputs i = some outs →
      (c.shared.pipe .log).sentBy i <+: (logged outs).map LogMessage.encode ∧
      (c.progs i = .ret () →
        (c.shared.pipe .log).sentBy i = (logged outs).map LogMessage.encode)) ∧
    (c.progs .main = .ret () →
      PrintsAll (messages c.shared) (c.shared.printed .stdout) ∧
      (c.shared.opened = true → PrintsAll (messages c.shared) (c.shared.printed .file)) ∧
      ∃ before, messages c.shared = before ++ [exitMessage setup.mainPid] ∧
        ∀ m ∈ before, LogMessage.isExit m = false) := by
  have hbounded := bounded_of_run hkill hrun
  have hI := hbounded.1
  refine ⟨hI.log.printed, fun i outs houts => ⟨?_, fun hret => ?_⟩, fun hret => ?_⟩
  · rw [← filterMap_record_log]
    exact hI.script i outs houts .log
  · have hsent : HasSent i outs c.shared := by
      have hleft := hbounded.returned hret
      cases i with
      | monitor => exact hleft outs houts
      | worker id => exact hleft outs houts
      | _ => cases houts
    rw [← filterMap_record_log]
    exact hsent.log
  · obtain ⟨hexit, hdead⟩ := hbounded.returned hret
    obtain ⟨before, hmessages, hlevel⟩ := hexit.last
    have hcomplete := hI.log.complete hdead
    have hall : upTo LogMessage.isExit (messages c.shared) = messages c.shared := by
      rw [hmessages, upTo_append_of_forall hlevel]
      rfl
    refine ⟨?_, fun hopened => ?_, before, hmessages, hlevel⟩
    · rw [← hall]
      exact hcomplete.stdout
    · rw [← hall]
      exact hcomplete.file hopened

theorem exec_writeLogRecord (halive : s.dead .logger = false) (out : LogOut) (time : Bytes) :
    Exec (clientKernel killable capacity .logger) (writeLogRecord out msg) s .ok
      (s.print out (logLine time msg)) := by
  have hstep : clientKernel killable capacity .logger .formatTime s time s := ⟨halive, rfl⟩
  have hstep' : clientKernel killable capacity .logger (.fprintf out (logLine time msg)) s Rc.ok
      (s.print out (logLine time msg)) := ⟨halive, rfl⟩
  exact .call hstep (.call hstep' (.ret _ _))

/-- The logger opens its file and prints the message that waits. -/
theorem exists_run_logger {c₀ c : System ThreadId ClientCall ClientResp Unit ClientState}
    (hrun : Run (clientKernel killable capacity) c₀ c)
    (hlogger : c.progs .logger = loggerProcess (fuel + 2))
    (hwaiting : (c.shared.pipe .log).waiting = msg.encode) (halive : c.shared.dead .logger = false)
    (time : Bytes) :
    ∃ c', Run (clientKernel killable capacity) c₀ c' ∧
      ∀ out, c'.shared.printed out = c.shared.printed out ++ [logLine time msg] := by
  have hopen : clientKernel killable capacity .logger .openLog c.shared true
      { c.shared with opened := true } := ⟨halive, rfl⟩
  obtain ⟨c₁, hrun, hopened, hlogger, -⟩ := hrun.exec hlogger (.call hopen (.ret _ _))
  change c₁.progs .logger = (loggerLoop (fuel + 2) .file (fuel + 1 + 1) >>= _) at hlogger
  rw [loggerLoop, ← msg.length_encode] at hlogger
  obtain ⟨c₂, hrun, hread, hlogger, -⟩ := hrun.exec (hlogger.trans (Prog.bind_assoc _ _ _))
    (exec_readnPipe msg.encode_ne_nil (by rw [hopened]; exact hwaiting)
      (by rw [hopened]; exact halive))
  dsimp only at hlogger
  rw [if_neg msg.encode_ne_nil, if_neg (not_not.mpr rfl), msg.decode_encode] at hlogger
  obtain ⟨c₃, hrun, hfile, hlogger, -⟩ := hrun.exec (hlogger.trans (Prog.bind_assoc _ _ _))
    (exec_writeLogRecord (by rw [hread, hopened]; exact halive) .file time)
  rw [if_pos (by decide)] at hlogger
  obtain ⟨c₄, hrun, hstdout, -, -⟩ := hrun.exec (hlogger.trans (Prog.bind_assoc _ _ _))
    (exec_writeLogRecord (by rw [hfile, hread, hopened]; exact halive) .stdout time)
  refine ⟨c₄, hrun, fun out => ?_⟩
  rw [hstdout, hfile, hread, hopened]
  cases out with
  | file => rw [print_of_ne (by decide), print_self]; rfl
  | stdout => rw [print_self, print_of_ne (by decide)]; rfl

/-- `main` logs its first message, and the logger prints it. -/
theorem client_log_is_complete_oneDeletion : ∃ c time,
    Run (clientKernel (fun x => x = .monitor) 65536) (oneDeletion.system 9) c ∧
      (∀ out, c.shared.printed out = [logLine time (.of 7 logInfo oneDeletion.started)]) ∧
      ∀ out, ∃ ms, ms <+: upTo LogMessage.isExit (messages c.shared) ∧
        PrintsAll ms (c.shared.printed out) := by
  have hmain : (oneDeletion.system 9).progs .main = clientMain 9 7 oneDeletion.started := rfl
  unfold clientMain logMessage at hmain
  rw [Prog.bind_assoc] at hmain
  generalize LogMessage.of 7 logInfo oneDeletion.started = msg at hmain ⊢
  have hroom : ((oneDeletion.system 9).shared.pipe .log).waiting.length + msg.encode.length ≤
      65536 := by
    rw [msg.length_encode]
    decide
  have hstart : Run (clientKernel (fun x => x = .monitor) 65536) (oneDeletion.system 9) _ := .refl
  obtain ⟨c₁, hrun, hshared, -, hothers⟩ := hstart.exec hmain
    (exec_writePipe msg.encode_ne_nil hroom ⟨by decide, rfl, fun _ => rfl⟩ rfl)
  have hwaiting : (c₁.shared.pipe .log).waiting = msg.encode := by
    rw [hshared, setPipe_self, Pipe.waiting, Pipe.written_push]
    rfl
  obtain ⟨c, hrun, hprinted⟩ := exists_run_logger hrun (hothers .logger (by decide)) hwaiting
    (by rw [hshared]; rfl) (ascii "2026-01-02 03:04:05")
  refine ⟨c, ascii "2026-01-02 03:04:05", hrun, fun out => ?_,
    (client_log_is_complete (by decide) hrun).1⟩
  rw [hprinted, hshared]
  rfl

/-! ## From the monitor to the queue -/

/-- The tasks of the monitor, from the first, and after them perhaps `main`'s EXIT. -/
def Emitted (setup : ClientSetup) (read : List SyncTask) : Prop :=
  ∃ ts, ts <+: emitted setup.load.monitor ∧
    (read = ts.map TaskRecord.toSyncTask ∨
      read = ts.map TaskRecord.toSyncTask ++ [TaskRecord.exit.toSyncTask])

theorem Emitted.of_front {read read' : List SyncTask} (h : Emitted setup read)
    (hle : read' <+: read) : Emitted setup read' := by
  have hfront : ∀ ts, ts <+: emitted setup.load.monitor →
      read' <+: ts.map TaskRecord.toSyncTask → Emitted setup read' := by
    intro ts hts hread
    obtain ⟨ts', hts', rfl⟩ := List.prefix_map_iff.mp hread
    exact ⟨ts', hts'.trans hts, Or.inl rfl⟩
  obtain ⟨ts, hts, rfl | rfl⟩ := h
  · exact hfront ts hts hle
  · rcases List.prefix_concat_iff.mp hle with rfl | hread
    · exact ⟨ts, hts, Or.inr rfl⟩
    · exact hfront ts hts hread

/-- The writes of the monitor before anything that `main` writes. -/
theorem writes_split (writes : List (ThreadId × Bytes))
    (h : ∀ w ∈ writes, w.1 = .monitor ∨ w = (.main, TaskRecord.exit.encode)) :
    ∃ front back, writes = front ++ back ∧ (∀ w ∈ front, w.1 = .monitor) ∧
      (back = [] ∨ ∃ rest, back = (.main, TaskRecord.exit.encode) :: rest) := by
  induction writes with
  | nil => exact ⟨[], [], rfl, fun _ hw => absurd hw List.not_mem_nil, Or.inl rfl⟩
  | cons w writes ih =>
      rcases h w List.mem_cons_self with hmonitor | rfl
      · obtain ⟨front, back, rfl, hfront, hback⟩ := ih fun w hw => h w (List.mem_cons_of_mem _ hw)
        refine ⟨w :: front, back, rfl, fun w' hw' => ?_, hback⟩
        rcases List.mem_cons.mp hw' with rfl | hw'
        · exact hmonitor
        · exact hfront w' hw'
      · exact ⟨[], _, rfl, fun _ hw => absurd hw List.not_mem_nil, Or.inr ⟨writes, rfl⟩⟩

theorem isExitTask_exit : isExitTask TaskRecord.exit.toSyncTask = true := by
  simp only [isExitTask, TaskRecord.exit, TaskRecord.toSyncTask]
  decide

/-- The tasks in the pipe when it holds the monitor's first and then what is left. -/
theorem tasks_of_writes {front back : List (ThreadId × Bytes)} {ts : List TaskRecord}
    (hwrites : (s.pipe .event).writes = front ++ back)
    (hbytes : front.map Prod.snd = ts.map TaskRecord.encode) :
    tasks s = ts.map TaskRecord.toSyncTask ++
      (back.map Prod.snd).map fun bytes => (TaskRecord.decode bytes).toSyncTask := by
  have hdecode : ((fun bytes => (TaskRecord.decode bytes).toSyncTask) ∘ TaskRecord.encode) =
      TaskRecord.toSyncTask :=
    funext fun t => congrArg TaskRecord.toSyncTask t.decode_encode
  unfold tasks Pipe.records
  rw [hwrites, List.map_append, List.map_append, hbytes, List.map_map, hdecode]

theorem emitted_of_inv (hI : Inv setup.load debounce_ms s) :
    Emitted setup (upTo isExitTask (tasks s)) := by
  obtain ⟨front, back, hwrites, hfront, hback⟩ := writes_split _ hI.event.writers
  have hsent : (s.pipe .event).sentBy .monitor = front.map Prod.snd ++
      (back.filter fun w => decide (w.1 = .monitor)).map Prod.snd := by
    unfold Pipe.sentBy
    rw [hwrites, List.filter_append, List.map_append,
      List.filter_eq_self.mpr fun w hw => decide_eq_true (hfront w hw)]
  have hscript := hI.script .monitor _ rfl .event
  rw [filterMap_record_event, hsent] at hscript
  obtain ⟨ts, hts, hbytes⟩ := List.prefix_map_iff.mp ((List.prefix_append _ _).trans hscript)
  have hlevel : ∀ task ∈ ts.map TaskRecord.toSyncTask, isExitTask task = false := by
    intro task hmem
    obtain ⟨t, ht, rfl⟩ := List.mem_map.mp hmem
    obtain ⟨out, hout, heq⟩ := List.mem_filterMap.mp (hts.subset ht)
    cases out with
    | log msg => cases heq
    | emit t' =>
        cases heq
        exact setup.load.monitor_type t hout
  refine ⟨ts, hts, ?_⟩
  rw [tasks_of_writes hwrites hbytes, upTo_append_of_forall hlevel]
  rcases hback with hnil | ⟨rest, hrest⟩
  · left
    rw [hnil, List.map_nil, List.map_nil, upTo, List.append_nil]
  · right
    rw [hrest, List.map_cons, List.map_cons, upTo, TaskRecord.decode_encode,
      if_pos isExitTask_exit]

theorem Inv.pushed_emitted (hI : Inv setup.load debounce_ms s) :
    ∃ turns, Emitted setup (turns.filterMap readTask) ∧
      s.pushed <+: schedulerThreadMain debounce_ms .empty turns := by
  obtain ⟨turns, hread, hpushed⟩ := hI.event.pushed
  exact ⟨turns, (emitted_of_inv hI).of_front hread, hpushed⟩

/-- What is queued is what the scheduler queues that reads the monitor's tasks, whole, in
order, each once and up to `main`'s EXIT.  When it has returned it has read all that came
before EXIT, or all that was ever written, unless `select` failed; and the monitor, when it
has returned, has all its tasks in the pipe, unless nobody was there to read them. -/
theorem scheduler_reads_what_is_emitted (hkill : ¬ killable .logger)
    (hrun : Run (clientKernel killable capacity) (setup.system fuel) c) :
    (∃ turns, Emitted setup (turns.filterMap readTask) ∧
      c.shared.pushed <+: schedulerThreadMain setup.debounce_ms .empty turns) ∧
    (c.progs .scheduler = .ret () → ∃ turns, Emitted setup (turns.filterMap readTask) ∧
      c.shared.pushed = schedulerThreadMain setup.debounce_ms .empty turns ∧
      (Exits turns ∧ turns.filterMap readTask = upTo isExitTask (tasks c.shared) ∨
        turns.filterMap readTask = tasks c.shared ∧ (∀ x, ¬ c.shared.CanWrite .event x) ∨
        ∃ turn, turns.getLast? = some turn ∧ turn.wakeup = .selectFailed)) ∧
    (c.progs .monitor = .ret () →
      (c.shared.pipe .event).sentBy .monitor =
          (emitted setup.load.monitor).map TaskRecord.encode ∨
        c.shared.dead .transfer = true) := by
  have hbounded := bounded_of_run hkill hrun
  have hemitted := emitted_of_inv hbounded.1
  refine ⟨hbounded.1.pushed_emitted, fun hret => ?_, fun hret => ?_⟩
  · have hfinished : Finished setup.debounce_ms c.shared := hbounded.returned hret
    cases hfinished with
    | @exit turns exits read pushed =>
        exact ⟨turns, read ▸ hemitted, pushed, Or.inl ⟨exits, read⟩⟩
    | @closed turns read all noMore pushed =>
        exact ⟨turns, read ▸ hemitted, pushed, Or.inr (Or.inl ⟨all, noMore⟩)⟩
    | @selectFailed turns read last pushed =>
        exact ⟨turns, hemitted.of_front read, pushed, Or.inr (Or.inr last)⟩
  · have hsent : HasSent .monitor setup.load.monitor c.shared :=
      hbounded.returned hret _ rfl
    rw [← filterMap_record_event]
    exact hsent.event

/-- The scheduler reads a deletion that waits, and queues it. -/
theorem exists_run_scheduler {c₀ c : System ThreadId ClientCall ClientResp Unit ClientState}
    {task : TaskRecord} (hrun : Run (clientKernel killable capacity) c₀ c)
    (hscheduler : c.progs .scheduler = schedulerThread (fuel + 2) pid debounce_ms)
    (hwaiting : (c.shared.pipe .event).waiting = task.encode)
    (halive : c.shared.dead .transfer = false) (hdelete : task.toSyncTask.event_type = .delete) :
    ∃ c', Run (clientKernel killable capacity) c₀ c' ∧
      c'.shared.pushed = c.shared.pushed ++ [task.toSyncTask] ∧
      c'.shared.dead = c.shared.dead ∧ ∀ i, i ≠ .scheduler → c'.progs i = c.progs i := by
  have hselect : clientKernel killable capacity .scheduler .select c.shared (Except.ok true)
      c.shared := ⟨halive, rfl⟩
  unfold schedulerThread at hscheduler
  rw [schedulerLoop] at hscheduler
  obtain ⟨c₁, hrun, hselected, hscheduler, hothers₁⟩ := hrun.exec
    (hscheduler.trans (Prog.bind_assoc _ _ _)) (.call hselect (.ret _ _))
  dsimp only at hscheduler
  rw [readPipe_eq, ← task.length_encode] at hscheduler
  obtain ⟨c₂, hrun, hread, hscheduler, hothers₂⟩ := hrun.exec
    (hscheduler.trans ((Prog.bind_assoc _ _ _).trans (Prog.bind_assoc _ _ _)))
    (exec_readnPipe task.encode_ne_nil (by rw [hselected]; exact hwaiting)
      (by rw [hselected]; exact halive))
  rw [Option.bind_some, if_pos rfl, Prog.ret_bind] at hscheduler
  dsimp only at hscheduler
  rw [task.decode_encode, if_neg (by rw [hdelete]; decide), scheduleTask,
    if_neg (by simp [shouldDebounce, hdelete]), if_pos (Or.inl hdelete), schedulerHandle,
    if_pos (Or.inl hdelete)] at hscheduler
  have hpush : clientKernel killable capacity .scheduler (.queuePush task.toSyncTask) c₂.shared ()
      { c₂.shared with pushed := c₂.shared.pushed ++ [task.toSyncTask] } :=
    ⟨by rw [hread, hselected]; exact halive, rfl⟩
  obtain ⟨c₃, hrun, hpushed, -, hothers₃⟩ := hrun.exec
    (p := pushAll [task.toSyncTask]) (hscheduler.trans ((congrArg (· >>= _)
      ((Prog.bind_assoc _ _ _).trans (Prog.bind_assoc _ _ _))).trans (Prog.bind_assoc _ _ _)))
    (.call hpush (.ret _ _))
  refine ⟨c₃, hrun, ?_, ?_, fun i hi => ?_⟩
  · rw [hpushed, hread, hselected]
    rfl
  · rw [hpushed, hread, hselected]
    rfl
  · rw [hothers₃ i hi, hothers₂ i hi, hothers₁ i hi]

/-- A monitor that reports one deletion sends the task, and the scheduler reads and queues it. -/
theorem exists_run_deletion {task : TaskRecord} (hload : setup.load.monitor = [.emit task])
    (hdelete : task.toSyncTask.event_type = .delete) :
    ∃ c, Run (clientKernel (fun x => x = .monitor) 65536) (setup.system 9) c ∧
      c.shared.pushed = [task.toSyncTask] ∧ c.progs .monitor = .ret () ∧
      c.shared.dead .transfer = false := by
  have hmonitor : (setup.system 9).progs .monitor =
      (writePipe (7 + 2) .event task.encode >>= fun _ => .ret ()) := by
    change daemon 9 setup.load.monitor = _
    rw [hload]
    rfl
  have hroom : ((setup.system 9).shared.pipe .event).waiting.length + task.encode.length ≤
      65536 := by
    rw [task.length_encode]
    change 0 + syncTaskSize ≤ 65536
    decide
  have hstart : Run (clientKernel (fun x => x = .monitor) 65536) (setup.system 9) _ := .refl
  obtain ⟨c₁, hrun, hshared, hreturned, hothers⟩ := hstart.exec hmonitor
    (exec_writePipe task.encode_ne_nil hroom ⟨by decide, rfl, fun h => absurd h (by decide)⟩ rfl)
  have hwaiting : (c₁.shared.pipe .event).waiting = task.encode := by
    rw [hshared, setPipe_self, Pipe.waiting, Pipe.written_push]
    rfl
  obtain ⟨c, hrun, hpushed, hdead, hsame⟩ := exists_run_scheduler hrun
    (hothers .scheduler (by decide)) hwaiting (by rw [hshared]; rfl) hdelete
  refine ⟨c, hrun, ?_, (hsame .monitor (by decide)).trans hreturned, ?_⟩
  · rw [hpushed, hshared]
    rfl
  · rw [hdead, hshared]
    rfl

/-- The monitor reports the deletion, and the scheduler reads the task and queues it. -/
theorem scheduler_reads_what_is_emitted_oneDeletion : ∃ c,
    Run (clientKernel (fun x => x = .monitor) 65536) (oneDeletion.system 9) c ∧
      c.shared.pushed = [deletedFile.toSyncTask] ∧
      (∃ turns, Emitted oneDeletion (turns.filterMap readTask) ∧
        c.shared.pushed <+: schedulerThreadMain oneDeletion.debounce_ms .empty turns) ∧
      (c.shared.pipe .event).sentBy .monitor =
        (emitted oneDeletion.load.monitor).map TaskRecord.encode := by
  obtain ⟨c, hrun, hpushed, hreturned, halive⟩ :=
    @exists_run_deletion oneDeletion deletedFile rfl (by decide)
  obtain ⟨hqueued, -, hsent⟩ := scheduler_reads_what_is_emitted (by decide) hrun
  refine ⟨c, hrun, hpushed, hqueued, (hsent hreturned).resolve_right ?_⟩
  rw [halive]
  decide

end MiniSync.Pipes
