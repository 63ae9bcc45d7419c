import MiniSync.Pipes.Access
import MiniSync.Pipes.Invariant

/-!
# The logger

`logger_process` prints the messages in the log pipe one after the other, until it has
printed one of level EXIT or nobody can send it any more.
-/

namespace MiniSync.Pipes

open Prog Beside

/-! ## `logger.c` -/

def writeLogRecord (out : LogOut) (msg : LogMessage) : ClientProg Rc := do
  let time : Bytes ← ccall .formatTime
  ccall (.fprintf out (logLine time msg))

/-- The loop of `logger_process`; `fp` is where it prints first. -/
def loggerLoop (fuel : Nat) (fp : LogOut) : Nat → ClientProg Unit
  | 0 => .spin
  | turns + 1 => do
      match ← readnPipe fuel .log logMessageSize with
      | none =>
          let errno : Errno ← ccall .errno
          if errno = .intr then loggerLoop fuel fp turns else return ()
      | some buf =>
          if buf = [] then return ()
          else if buf.length ≠ logMessageSize then
            let errno : Errno ← ccall .errno
            if errno = .intr then loggerLoop fuel fp turns else return ()
          else
            let msg := LogMessage.decode buf
            let _ ← writeLogRecord fp msg
            if fp ≠ .stdout then
              let _ ← writeLogRecord .stdout msg
              if msg.level = logExit then return () else loggerLoop fuel fp turns
            else if msg.level = logExit then return ()
            else loggerLoop fuel fp turns

def loggerProcess (fuel : Nat) : ClientProg Unit := do
  let opened : Bool ← ccall .openLog
  loggerLoop fuel (if opened then .file else .stdout) fuel
  ccall .exit

/-! ## What has been printed -/

variable {killable : Process → Prop} {capacity : Nat} {load : Workload} {debounce_ms : Int}
  {fp : LogOut} {k kf ks fuel turns : Nat} {m : LogMessage} {s s' : ClientState}

/-- The file, if it is open, has the first `kf` messages, and standard output the first
`ks`. -/
structure Logged (fp : LogOut) (kf ks : Nat) (s : ClientState) : Prop where
  alive : s.dead .logger = false
  opened : s.opened = true → fp = .file
  file : fp = .file → PrintsAll ((messages s).take kf) (s.printed .file)
  stdout : PrintsAll ((messages s).take ks) (s.printed .stdout)

/-- There are `k` messages and none of them is EXIT. -/
structure Front (k : Nat) (s : ClientState) : Prop where
  le : k ≤ (messages s).length
  level : ∀ m ∈ (messages s).take k, LogMessage.isExit m = false

theorem take_messages_of_later (h : Later s s') (hk : k ≤ (messages s).length) :
    (messages s').take k = (messages s).take k := by
  obtain ⟨more, hmore⟩ := messages_of_later h
  rw [hmore, List.take_append_of_le_length hk]

theorem Front.later (h : Front k s) (hlater : Later s s') : Front k s' := by
  refine ⟨?_, ?_⟩
  · obtain ⟨more, hmore⟩ := messages_of_later hlater
    have hle := h.le
    rw [hmore, List.length_append]
    omega
  · rw [take_messages_of_later hlater h.le]
    exact h.level

theorem getElem?_messages_of_later (h : Later s s') (hm : (messages s)[k]? = some m) :
    (messages s')[k]? = some m := by
  obtain ⟨more, hmore⟩ := messages_of_later h
  obtain ⟨hlt, -⟩ := List.getElem?_eq_some_iff.mp hm
  rw [hmore, List.getElem?_append_left hlt]
  exact hm

theorem Logged.of_others (h : Logged fp kf ks s) (hE : Others .logger s s')
    (hkf : kf ≤ (messages s).length) (hks : ks ≤ (messages s).length) :
    Logged fp kf ks s' := by
  obtain ⟨-, hprinted, hopened, hdead⟩ := hE.own.logger rfl
  refine ⟨hdead.trans h.alive, fun ho => h.opened (hopened ▸ ho), fun hfp => ?_, ?_⟩
  · rw [hprinted, take_messages_of_later hE.later hkf]
    exact h.file hfp
  · rw [hprinted, take_messages_of_later hE.later hks]
    exact h.stdout

theorem printsAll_append {ms : List LogMessage} {lines : List Bytes} {time : Bytes}
    (h : PrintsAll ms lines) : PrintsAll (ms ++ [m]) (lines ++ [logLine time m]) :=
  List.rel_append h (.cons ⟨time, rfl⟩ .nil)

theorem take_succ_of_getElem? (hm : (messages s)[k]? = some m) :
    (messages s).take (k + 1) = (messages s).take k ++ [m] := by
  rw [List.take_add_one, hm, Option.toList_some]

/-! ## Printing -/

/-- Printing a record, where its line comes next. -/
theorem within_writeLogRecord {J J' : ClientState → Prop} {out : LogOut}
    (hJ : ∀ s s', Inv load debounce_ms s' → Others .logger s s' → J s → J s')
    (hJ' : ∀ s s', Inv load debounce_ms s' → Others .logger s s' → J' s → J' s')
    (hprint : ∀ s time, Inv load debounce_ms s → J s →
      Inv load debounce_ms (s.print out (logLine time m)) ∧ J' (s.print out (logLine time m)))
    (hs : J s) :
    Within (clientKernel killable capacity .logger) (Inv load debounce_ms) (Others .logger)
      (Mine .logger) (fun _ s => J' s) (writeLogRecord out m) s := by
  refine Within.op_bind fun s₁ time s₂ hI₁ hE₁ hK₁ => ?_
  obtain rfl : s₂ = s₁ := hK₁.2
  refine ⟨hI₁, .refl _ s₂, fun s₃ r s₄ hI₃ hE₃ hK₃ => ?_⟩
  obtain rfl : s₄ = s₃.print out (logLine time m) := hK₃.2
  obtain ⟨hI₄, hJ₄⟩ := hprint s₃ time hI₃ (hJ s₂ s₃ hI₃ hE₃ (hJ s s₂ hI₁ hE₁ hs))
  refine ⟨hI₄, ?_, fun s₅ hI₅ hE₅ => hJ' _ s₅ hI₅ hE₅ hJ₄⟩
  exact mine_of_pipe_eq (later_print _ _) rfl (Or.inl rfl) (Or.inr rfl) (Or.inr rfl)

/-- What the logger knows while it prints message `k`. -/
structure Printing (fp : LogOut) (k kf ks : Nat) (m : LogMessage) (s : ClientState) : Prop where
  logged : Logged fp kf ks s
  front : Front k s
  next : (messages s)[k]? = some m
  read : (s.pipe .log).ReadTo logMessageSize (k + 1) []
  records : (s.pipe .log).InRecords logMessageSize
  kf_le : kf ≤ k + 1
  ks_le : ks ≤ k + 1

theorem Printing.of_others (h : Printing fp k kf ks m s) (hI : Inv load debounce_ms s')
    (hE : Others .logger s s') : Printing fp k kf ks m s' := by
  obtain ⟨hlt, -⟩ := List.getElem?_eq_some_iff.mp h.next
  have hkf := h.kf_le
  have hks := h.ks_le
  exact ⟨h.logged.of_others hE (by omega) (by omega), h.front.later hE.later,
    getElem?_messages_of_later hE.later h.next,
    readTo_of_others hE (Or.inl ⟨rfl, rfl⟩) h.records h.read, hI.log.records, hkf, hks⟩

theorem Printing.line (h : Printing fp k k ks m s) (time : Bytes) (hfp : fp = .file)
    (hI : Inv load debounce_ms s) :
    Inv load debounce_ms (s.print .file (logLine time m)) ∧
      Printing fp k (k + 1) ks m (s.print .file (logLine time m)) := by
  have hprints : PrintsAll _ (_ ++ [logLine time m]) := printsAll_append (h.logged.file hfp)
  refine ⟨hI.print h.logged.alive ⟨_, take_append_prefix_upTo h.front.level h.next, hprints⟩,
    ⟨h.logged.alive, h.logged.opened, fun _ => ?_, ?_⟩, h.front.later (later_print _ _),
    h.next, h.read, h.records, Nat.le_refl _, h.ks_le⟩
  · rw [print_self]
    change PrintsAll ((messages s).take (k + 1)) _
    rw [take_succ_of_getElem? h.next]
    exact hprints
  · rw [print_of_ne (by decide)]
    exact h.logged.stdout

theorem Printing.stdoutLine (h : Printing fp k kf k m s) (time : Bytes)
    (hI : Inv load debounce_ms s) :
    Inv load debounce_ms (s.print .stdout (logLine time m)) ∧
      Printing fp k kf (k + 1) m (s.print .stdout (logLine time m)) := by
  have hprints : PrintsAll _ (_ ++ [logLine time m]) := printsAll_append h.logged.stdout
  refine ⟨hI.print h.logged.alive ⟨_, take_append_prefix_upTo h.front.level h.next, hprints⟩,
    ⟨h.logged.alive, h.logged.opened, fun hfp => ?_, ?_⟩, h.front.later (later_print _ _),
    h.next, h.read, h.records, h.kf_le, Nat.le_refl _⟩
  · rw [print_of_ne (by decide)]
    exact h.logged.file hfp
  · rw [print_self]
    change PrintsAll ((messages s).take (k + 1)) _
    rw [take_succ_of_getElem? h.next]
    exact hprints

/-- After printing EXIT. -/
theorem Printing.complete (h : Printing fp k kf (k + 1) m s) (hkf : fp = .file → kf = k + 1)
    (hexit : LogMessage.isExit m = true) : Complete s := by
  have hall : upTo LogMessage.isExit (messages s) = (messages s).take (k + 1) := by
    rw [take_succ_of_getElem? h.next]
    exact upTo_eq_take_append h.front.level h.next hexit
  refine ⟨?_, fun hopened => ?_, Or.inl ⟨m, List.mem_of_getElem? h.next, hexit⟩⟩
  · rw [hall]
    exact h.logged.stdout
  · have hfp := h.logged.opened hopened
    rw [hall, ← hkf hfp]
    exact h.logged.file hfp

/-- After printing any other message. -/
theorem Printing.goesOn (h : Printing fp k kf (k + 1) m s) (hkf : fp = .file → kf = k + 1)
    (hexit : LogMessage.isExit m = false) : Logged fp (k + 1) (k + 1) s ∧ Front (k + 1) s := by
  obtain ⟨hlt, -⟩ := List.getElem?_eq_some_iff.mp h.next
  refine ⟨⟨h.logged.alive, h.logged.opened, fun hfp => ?_, h.logged.stdout⟩, hlt, ?_⟩
  · rw [← hkf hfp]
    exact h.logged.file hfp
  · rw [take_succ_of_getElem? h.next]
    intro m' hm'
    rcases List.mem_append.mp hm' with hm' | hm'
    · exact h.front.level m' hm'
    · rw [List.mem_singleton.mp hm']
      exact hexit

/-- Where all messages have been printed and no more can come. -/
theorem Logged.complete (h : Logged fp k k s) (hfront : Front k s)
    (hlength : (messages s).length = k) (hnone : ∀ x, ¬ s.CanWrite .log x) : Complete s := by
  have htake : (messages s).take k = messages s := List.take_of_length_le (by omega)
  have hlevel := hfront.level
  rw [htake] at hlevel
  have hall := upTo_of_forall hlevel
  refine ⟨?_, fun hopened => ?_, Or.inr hnone⟩
  · rw [hall, ← htake]
    exact h.stdout
  · rw [hall, ← htake]
    exact h.file (h.opened hopened)

/-! ## The loop -/

theorem messages_pull {n : Nat} :
    messages (s.setPipe .log ((s.pipe .log).pull n)) = messages s := by
  unfold messages
  rw [setPipe_self, Pipe.records_pull]

/-- What the logger leaves when it stops. -/
structure Stopped (s : ClientState) : Prop where
  complete : Complete s
  alive : s.dead .logger = false

theorem Stopped.of_others (h : Stopped s) (hE : Others .logger s s') : Stopped s' := by
  obtain ⟨-, hprinted, hopened, hdead⟩ := hE.own.logger rfl
  exact ⟨h.complete.later hE.later hprinted hopened, hdead.trans h.alive⟩

/-- Printing the message that has been read, and what follows. -/
theorem within_printing {rest : ClientProg Unit} (hI : Inv load debounce_ms s)
    (hs : Printing fp k k k m s)
    (hrest : ∀ s, Inv load debounce_ms s → Logged fp (k + 1) (k + 1) s → Front (k + 1) s →
      (s.pipe .log).ReadTo logMessageSize (k + 1) [] →
      Within (clientKernel killable capacity .logger) (Inv load debounce_ms) (Others .logger)
        (Mine .logger) (fun _ => Stopped) rest s) :
    Within (clientKernel killable capacity .logger) (Inv load debounce_ms) (Others .logger)
      (Mine .logger) (fun _ => Stopped)
      (writeLogRecord fp m >>= fun _ =>
        if fp ≠ .stdout then
          writeLogRecord .stdout m >>= fun _ => if m.level = logExit then .ret () else rest
        else if m.level = logExit then .ret () else rest) s := by
  have hend : ∀ kf s, Inv load debounce_ms s → (fp = .file → kf = k + 1) →
      Printing fp k kf (k + 1) m s →
      Within (clientKernel killable capacity .logger) (Inv load debounce_ms) (Others .logger)
        (Mine .logger) (fun _ => Stopped) (if m.level = logExit then .ret () else rest) s := by
    intro kf s hI hkf hprinting
    split_ifs with hexit
    · have hcomplete := hprinting.complete hkf (decide_eq_true hexit)
      exact Within.ret fun s' _ hE => (Stopped.mk hcomplete hprinting.logged.alive).of_others hE
    · obtain ⟨hlogged, hfront⟩ := hprinting.goesOn hkf (decide_eq_false hexit)
      exact hrest s hI hlogged hfront hprinting.read
  have hstable : ∀ kf ks s s', Inv load debounce_ms s' → Others .logger s s' →
      Printing fp k kf ks m s → Printing fp k kf ks m s' :=
    fun _ _ _ _ hI' hE h => h.of_others hI' hE
  cases fp with
  | file =>
      apply (within_writeLogRecord (hstable k k) (hstable (k + 1) k)
        (fun s time hI h => h.line time rfl hI) hs).bind hI
      intro _ s₁ hI₁ h₁
      rw [if_pos (by decide)]
      apply (within_writeLogRecord (hstable (k + 1) k) (hstable (k + 1) (k + 1))
        (fun s time hI h => h.stdoutLine time hI) h₁).bind hI₁
      exact fun _ s₂ hI₂ h₂ => hend (k + 1) s₂ hI₂ (fun _ => rfl) h₂
  | stdout =>
      apply (within_writeLogRecord (hstable k k) (hstable k (k + 1))
        (fun s time hI h => h.stdoutLine time hI) hs).bind hI
      intro _ s₁ hI₁ h₁
      rw [if_neg (by decide)]
      exact hend k s₁ hI₁ (by rintro ⟨⟩) h₁

theorem within_loggerLoop (turns : Nat) (hI : Inv load debounce_ms s) (hlogged : Logged fp k k s)
    (hfront : Front k s) (hread : (s.pipe .log).ReadTo logMessageSize k []) :
    Within (clientKernel killable capacity .logger) (Inv load debounce_ms) (Others .logger)
      (Mine .logger) (fun _ => Stopped) (loggerLoop fuel fp turns) s := by
  induction turns generalizing s k with
  | zero => trivial
  | succ turns ih =>
      have hreading : Within (clientKernel killable capacity .logger) (Inv load debounce_ms)
          (Others .logger) (Mine .logger)
          (fun r s => (Logged fp k k s ∧ Front k s) ∧ GotRecord logMessageSize k .log r s)
          (readnPipe fuel .log logMessageSize) s := by
        refine within_readnPipeLoop (Or.inl ⟨rfl, rfl⟩) (fun s h => h.log.records)
          (fun s n h hn => h.pull hn) ?_ ?_ hI ⟨hlogged, hfront⟩ hread rfl fuel
        · rintro s s' - hE ⟨hlogged, hfront⟩
          exact ⟨hlogged.of_others hE hfront.le hfront.le, hfront.later hE.later⟩
        · rintro s n ⟨hlogged, hfront⟩
          refine ⟨⟨hlogged.alive, hlogged.opened, ?_, ?_⟩, hfront.later later_pull⟩
          · rw [messages_pull]
            exact hlogged.file
          · rw [messages_pull]
            exact hlogged.stdout
      rw [loggerLoop]
      apply hreading.bind hI
      rintro r s₁ hI₁ ⟨⟨hlogged₁, hfront₁⟩, hgot⟩
      obtain ⟨buf, rfl, hread₁⟩ := hgot.got
      dsimp only
      by_cases hnil : buf = []
      · rw [if_pos hnil]
        rcases hgot.whole buf rfl with hlen | ⟨-, hlength, hnone⟩
        · rw [hnil] at hlen
          cases hlen
        · have hcomplete := hlogged₁.complete hfront₁
            (by rw [messages, List.length_map]; exact hlength) hnone
          exact Within.ret fun s' _ hE => (Stopped.mk hcomplete hlogged₁.alive).of_others hE
      · -- a record is never cut short
        have hlen : buf.length = logMessageSize :=
          (hgot.whole buf rfl).resolve_right fun h => hnil h.1
        have hnext : (messages s₁)[k]? = some (LogMessage.decode buf) := by
          unfold messages
          rw [List.getElem?_map, hread₁.record hI₁.log.records (by decide) hlen, Option.map_some]
        rw [if_neg hnil, if_neg (not_not.mpr hlen)]
        exact within_printing hI₁ ⟨hlogged₁, hfront₁, hnext, hread₁.next hlen, hI₁.log.records,
          Nat.le_succ k, Nat.le_succ k⟩ fun s hI hlogged hfront hread => ih hI hlogged hfront hread

/-- Nothing has been read or printed. -/
structure Fresh (s : ClientState) : Prop where
  alive : s.dead .logger = false
  opened : s.opened = false
  printed : ∀ out, s.printed out = []
  read : (s.pipe .log).ReadTo logMessageSize 0 []

theorem within_loggerProcess (hI : Inv load debounce_ms s) (hfresh : Fresh s) :
    Within (clientKernel killable capacity .logger) (Inv load debounce_ms) (Others .logger)
      (Mine .logger) (fun _ _ => True) (loggerProcess fuel) s := by
  refine Within.op_bind fun s₁ (opened : Bool) s₂ hI₁ hE₁ hK => ?_
  obtain rfl : s₂ = { s₁ with opened := opened } := hK.2
  obtain ⟨-, hprinted, -, hdead⟩ := hE₁.own.logger rfl
  have halive : s₁.dead .logger = false := hdead.trans hfresh.alive
  have hlater : Later s₁ { s₁ with opened := opened } :=
    later_of_pipe_eq rfl (fun _ h => h) fun _ h => h
  have hI₂ : Inv load debounce_ms { s₁ with opened := opened } :=
    hI₁.quiet hlater rfl rfl rfl (fun h => absurd h (by rw [halive]; decide)) fun h => h
  have hnone : ∀ out, s₁.printed out = [] := fun out => by rw [hprinted, hfresh.printed]
  refine ⟨hI₂, mine_of_pipe_eq hlater rfl (Or.inl rfl) (Or.inr rfl) (Or.inr rfl), ?_⟩
  have hlogged : Logged (if opened = true then .file else .stdout) 0 0
      { s₁ with opened := opened } := by
    refine ⟨halive, fun ho => if_pos ho, fun _ => ?_, ?_⟩
    · rw [hnone]
      exact .nil
    · rw [hnone]
      exact .nil
  have hread := readTo_of_others hE₁ (Or.inl ⟨rfl, rfl⟩) hI.log.records hfresh.read
  apply (within_loggerLoop fuel hI₂ hlogged ⟨Nat.zero_le _, fun m hm => by cases hm⟩ hread).bind hI₂
  intro _ s₃ hI₃ hstopped
  refine fun s₄ r s₅ hI₄ hE₄ hK₄ => ?_
  obtain rfl : s₅ = s₄.bury .logger := hK₄.2
  refine ⟨hI₄.bury .logger fun _ => (hstopped.of_others hE₄).complete, ?_,
    fun _ _ _ => trivial⟩
  exact mine_of_pipe_eq (later_bury s₄ .logger) rfl (Or.inl rfl) (Or.inr rfl) (Or.inr rfl)

end MiniSync.Pipes
