import MiniSync.Pipes.Access
import MiniSync.Pipes.Invariant

/-!
# Threads that send

`log_message` and `emit_task` keep what holds of the pipes; a daemon thread has sent all
its messages and tasks when it returns, unless nobody was there to read them.
-/

namespace MiniSync.Pipes

open Prog Beside

variable {killable : Process → Prop} {capacity : Nat} {load : Workload} {debounce_ms : Int}
  {i : ThreadId} {fuel : Nat} {s s' : ClientState} {J J' : ClientState → Prop}

/-- A log message is sent where the logger is sure to be there. -/
theorem within_logMessage {msg : LogMessage} (hI : Inv load debounce_ms s)
    (hlevel : ∀ s, J s → LogMessage.isExit msg = true →
      i = .main ∧ s.dead .monitor = true ∧ s.dead .transfer = true)
    (halive : ∀ s, Inv load debounce_ms s → J s → s.dead i.process = false →
      s.dead .logger = false)
    (hJ : ∀ s s', Inv load debounce_ms s' → Others i s s' → J s → J s')
    (hJ' : ∀ s s', Inv load debounce_ms s' → Others i s s' → J' s → J' s')
    (hscript : ∀ s, J s → ∀ outs, load.outputs i = some outs →
      (s.pipe .log).sentBy i ++ [msg.encode] <+: outs.filterMap (Output.record .log))
    (hwritten : ∀ s, Inv load debounce_ms s → J s → s.CanWrite .log i.process →
      J' (s.setPipe .log ((s.pipe .log).push i msg.encode))) (hs : J s) :
    Within (clientKernel killable capacity i) (Inv load debounce_ms) (Others i) (Mine i)
      (fun _ s => J' s) (logMessage fuel msg) s := by
  have hsize : msg.encode.length ≤ pipeBuf := by
    rw [msg.length_encode]
    decide
  have hwrite : Within (clientKernel killable capacity i) (Inv load debounce_ms) (Others i)
      (Mine i) (fun _ s => J' s) (writePipe fuel .log msg.encode) s := by
    refine within_writePipe msg.encode_ne_nil hsize hJ (fun _ => hJ') ?_ ?_ hs fuel
    · intro s₁ hI₁ hJ₁ hopen hreader
      exact ⟨hI₁.push_log msg hopen hreader (hlevel s₁ hJ₁) (hscript s₁ hJ₁),
        hwritten s₁ hI₁ hJ₁ hopen⟩
    · intro s₁ hI₁ hJ₁ hself hdead
      exact absurd hdead (by rw [PipeName.reader, halive s₁ hI₁ hJ₁ hself]; decide)
  exact hwrite.bind hI fun _ s' _ h' => Within.ret fun s'' hI'' hE => hJ' s' s'' hI'' hE h'

theorem within_emitTask {task : TaskRecord} (htask : i = .monitor ∨ i = .main ∧ task = .exit)
    (hJ : ∀ s s', Inv load debounce_ms s' → Others i s s' → J s → J s')
    (hJ' : ∀ s s', Inv load debounce_ms s' → Others i s s' → J' s → J' s')
    (hscript : ∀ s, J s → s.dead .transfer = false → ∀ outs, load.outputs i = some outs →
      (s.pipe .event).sentBy i ++ [task.encode] <+: outs.filterMap (Output.record .event))
    (hwritten : ∀ s, Inv load debounce_ms s → J s → s.CanWrite .event i.process →
      s.dead .transfer = false → J' (s.setPipe .event ((s.pipe .event).push i task.encode)))
    (hbroken : ∀ s, J s → s.dead .transfer = true → J' s) (hs : J s) :
    Within (clientKernel killable capacity i) (Inv load debounce_ms) (Others i) (Mine i)
      (fun _ s => J' s) (emitTask fuel task) s := by
  have hsize : task.encode.length ≤ pipeBuf := by
    rw [task.length_encode]
    decide
  unfold emitTask
  refine within_writePipe task.encode_ne_nil hsize hJ (fun _ => hJ') ?_ ?_ hs fuel
  · intro s₁ hI₁ hJ₁ hopen hreader
    exact ⟨hI₁.push_event task hopen htask (hscript s₁ hJ₁ hreader),
      hwritten s₁ hI₁ hJ₁ hopen hreader⟩
  · exact fun s₁ _ hJ₁ _ hdead => hbroken s₁ hJ₁ hdead

/-! ## Daemons -/

/-- The thread has sent these; tasks may be lost where the transfer process is dead. -/
structure HasSent (i : ThreadId) (outs : List Output) (s : ClientState) : Prop where
  log : (s.pipe .log).sentBy i = outs.filterMap (Output.record .log)
  event : (s.pipe .event).sentBy i = outs.filterMap (Output.record .event) ∨
    s.dead .transfer = true

theorem HasSent.of_others {outs : List Output} (hE : Others i s s') (h : HasSent i outs s) :
    HasSent i outs s' := by
  refine ⟨(hE.own.sentBy .log).trans h.log, ?_⟩
  rcases h.event with hsent | hdead
  · exact Or.inl ((hE.own.sentBy .event).trans hsent)
  · exact Or.inr (hE.later.dead _ hdead)

theorem filterMap_record_append (name : PipeName) (outs : List Output) (out : Output) :
    (outs ++ [out]).filterMap (Output.record name) =
      outs.filterMap (Output.record name) ++ (Output.record name out).toList := by
  rw [List.filterMap_append]
  cases h : Output.record name out <;> simp [h]

theorem HasSent.push_log {outs : List Output} (h : HasSent i outs s) (msg : LogMessage) :
    HasSent i (outs ++ [.log msg])
      (s.setPipe .log ((s.pipe .log).push i msg.encode)) := by
  constructor
  · rw [setPipe_self, Pipe.sentBy_push_self, filterMap_record_append, h.log]
    rfl
  · rw [setPipe_of_ne (by decide), filterMap_record_append]
    exact h.event.imp_left fun hsent => hsent.trans (List.append_nil _).symm

theorem HasSent.push_event {outs : List Output} (h : HasSent i outs s) (task : TaskRecord)
    (halive : s.dead .transfer = false) :
    HasSent i (outs ++ [.emit task])
      (s.setPipe .event ((s.pipe .event).push i task.encode)) := by
  constructor
  · rw [setPipe_of_ne (by decide), filterMap_record_append, h.log]
    exact (List.append_nil _).symm
  · left
    rw [setPipe_self, Pipe.sentBy_push_self, filterMap_record_append,
      h.event.resolve_right (by rw [halive]; decide)]
    rfl

/-- A task that nobody reads is lost. -/
theorem HasSent.lost {outs : List Output} (h : HasSent i outs s) (task : TaskRecord)
    (hdead : s.dead .transfer = true) : HasSent i (outs ++ [.emit task]) s := by
  refine ⟨?_, Or.inr hdead⟩
  rw [filterMap_record_append, h.log]
  exact (List.append_nil _).symm

theorem Workload.level {outs : List Output} {msg : LogMessage}
    (houts : load.outputs i = some outs) (hmem : Output.log msg ∈ outs) :
    LogMessage.isExit msg = false := by
  cases i with
  | monitor =>
      cases houts
      exact load.monitor_level msg hmem
  | worker id =>
      cases houts
      obtain ⟨msg', hmem', heq⟩ := List.mem_map.mp hmem
      cases heq
      exact load.workers_level id msg hmem'
  | _ => cases houts

/-- Only the monitor emits tasks. -/
theorem Workload.emits {outs : List Output} {task : TaskRecord}
    (houts : load.outputs i = some outs) (hmem : Output.emit task ∈ outs) : i = .monitor := by
  cases i with
  | monitor => rfl
  | worker id =>
      cases houts
      obtain ⟨msg, -, heq⟩ := List.mem_map.mp hmem
      cases heq
  | _ => cases houts

/-- Daemons belong to the monitor or the transfer process. -/
theorem Workload.process {outs : List Output} (houts : load.outputs i = some outs) :
    i.process = .monitor ∨ i.process = .transfer := by
  cases i with
  | monitor => exact Or.inl rfl
  | worker id => exact Or.inr rfl
  | _ => cases houts

theorem within_daemon (done : List Output) {rest : List Output} (hI : Inv load debounce_ms s)
    (houts : load.outputs i = some (done ++ rest)) (hsent : HasSent i done s) :
    Within (clientKernel killable capacity i) (Inv load debounce_ms) (Others i) (Mine i)
      (fun _ s => HasSent i (done ++ rest) s) (daemon fuel rest) s := by
  induction rest generalizing done s with
  | nil =>
      rw [List.append_nil]
      exact Within.ret fun s' _ hE => hsent.of_others hE
  | cons out rest ih =>
      have hrest : ∀ s, Inv load debounce_ms s → HasSent i (done ++ [out]) s →
          Within (clientKernel killable capacity i) (Inv load debounce_ms) (Others i) (Mine i)
            (fun _ s => HasSent i (done ++ out :: rest) s) (daemon fuel rest) s := by
        intro s hI hs
        have hnext := ih (done ++ [out]) hI (by rw [List.append_assoc]; exact houts) hs
        rwa [List.append_assoc] at hnext
      have hfront : ∀ {name bytes}, Output.record name out = some bytes →
          ∀ outs, load.outputs i = some outs →
            done.filterMap (Output.record name) ++ [bytes] <+:
              outs.filterMap (Output.record name) := by
        intro name bytes hrecord outs heq
        cases houts.symm.trans heq
        rw [List.filterMap_append, List.prefix_append_right_inj, List.filterMap_cons_some hrecord]
        exact List.prefix_append [bytes] _
      cases out with
      | log msg =>
          have hlevel := load.level houts (List.mem_append_right done List.mem_cons_self)
          apply (within_logMessage (J := HasSent i done) hI
            (fun _ _ hexit => absurd hexit (by rw [hlevel]; decide))
            (fun _ hI _ hself => hI.logger_alive (load.process houts) hself)
            (fun _ _ _ hE h => h.of_others hE) (fun _ _ _ hE h => h.of_others hE)
            (fun s hs => ?_) (fun s _ hs _ => hs.push_log msg) hsent).bind hI
          · exact fun _ s hI hs => hrest s hI hs
          · rw [hs.log]
            exact hfront rfl
      | emit task =>
          have hmonitor := load.emits houts (List.mem_append_right done List.mem_cons_self)
          apply (within_emitTask (J := HasSent i done) (Or.inl hmonitor)
            (fun _ _ _ hE h => h.of_others hE) (fun _ _ _ hE h => h.of_others hE)
            (fun s hs halive => ?_) (fun s _ hs _ halive => hs.push_event task halive)
            (fun s hs hdead => hs.lost task hdead) hsent).bind hI
          · exact fun _ s hI hs => hrest s hI hs
          · rw [hs.event.resolve_right (by rw [halive]; decide)]
            exact hfront rfl

end MiniSync.Pipes
