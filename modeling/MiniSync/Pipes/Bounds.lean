import MiniSync.Pipes.Processes

/-!
# What the processes leave to each other

Whatever a call does, writes are only added to a pipe, by threads that can write to it, and
the dead stay dead (`Later`).  Each thread has a part of the state that no other thread
changes (`Own`): what it has written, for the logger what has been printed and how far the
log pipe has been read, for the scheduler the same of the event pipe and the queue.
-/

namespace MiniSync.Pipes

open Prog Beside

variable {killable : Process → Prop} {capacity : Nat} {i j : ThreadId} {name other : PipeName}
  {s s' s'' : ClientState}

structure Later (s s' : ClientState) : Prop where
  writes : ∀ name, ∃ more, (s'.pipe name).writes = (s.pipe name).writes ++ more ∧
    ∀ w ∈ more, s.CanWrite name w.1.process
  dead : ∀ x, s.dead x = true → s'.dead x = true
  closed : ∀ name, s.closed name = true → s'.closed name = true

theorem ClientState.CanWrite.of_later (hdead : ∀ x, s.dead x = true → s'.dead x = true)
    (hclosed : ∀ name, s.closed name = true → s'.closed name = true) {x : Process}
    (h : s'.CanWrite name x) : s.CanWrite name x := by
  obtain ⟨hmem, halive, hopen⟩ := h
  refine ⟨hmem, ?_, fun hx => ?_⟩
  · cases hs : s.dead x with
    | false => rfl
    | true => exact absurd (hdead x hs) (by rw [halive]; exact Bool.false_ne_true)
  · cases hs : s.closed name with
    | false => rfl
    | true => exact absurd (hclosed name hs) (by rw [hopen hx]; exact Bool.false_ne_true)

instance : IsPreorder ClientState Later where
  refl s := ⟨fun _ => ⟨[], (List.append_nil _).symm, fun _ hw => absurd hw List.not_mem_nil⟩,
    fun _ h => h, fun _ h => h⟩
  trans s s' s'' h h' := by
    refine ⟨fun name => ?_, fun x hx => h'.dead x (h.dead x hx),
      fun name hc => h'.closed name (h.closed name hc)⟩
    obtain ⟨more, heq, hmore⟩ := h.writes name
    obtain ⟨more', heq', hmore'⟩ := h'.writes name
    refine ⟨more ++ more', by rw [heq', heq, List.append_assoc], fun w hw => ?_⟩
    rcases List.mem_append.mp hw with hw | hw
    · exact hmore w hw
    · exact (hmore' w hw).of_later h.dead h.closed

/-- Where only the given fields change. -/
theorem later_of_pipe_eq (hpipe : s'.pipe = s.pipe)
    (hdead : ∀ x, s.dead x = true → s'.dead x = true)
    (hclosed : ∀ name, s.closed name = true → s'.closed name = true) : Later s s' :=
  ⟨fun name => ⟨[], by rw [hpipe, List.append_nil], fun _ hw => absurd hw List.not_mem_nil⟩,
    hdead, hclosed⟩

theorem later_bury (s : ClientState) (x : Process) : Later s (s.bury x) := by
  refine later_of_pipe_eq rfl (fun y hy => ?_) fun _ h => h
  change Function.update s.dead x true y = true
  by_cases hxy : y = x
  · rw [hxy, Function.update_self]
  · rw [Function.update_of_ne hxy]
    exact hy

@[simp] theorem bury_self (x : Process) : (s.bury x).dead x = true := by
  unfold ClientState.bury
  exact Function.update_self ..

@[simp] theorem setPipe_self (p : Pipe ThreadId Byte) : (s.setPipe name p).pipe name = p := by
  unfold ClientState.setPipe
  exact Function.update_self ..

theorem setPipe_of_ne (h : other ≠ name) (p : Pipe ThreadId Byte) :
    (s.setPipe name p).pipe other = s.pipe other := by
  unfold ClientState.setPipe
  exact Function.update_of_ne h ..

@[simp] theorem print_self (out : LogOut) (line : Bytes) :
    (s.print out line).printed out = s.printed out ++ [line] := by
  unfold ClientState.print
  exact Function.update_self ..

theorem print_of_ne {out out' : LogOut} (h : out' ≠ out) (line : Bytes) :
    (s.print out line).printed out' = s.printed out' := by
  unfold ClientState.print
  exact Function.update_of_ne h ..

theorem later_print (out : LogOut) (line : Bytes) : Later s (s.print out line) :=
  later_of_pipe_eq rfl (fun _ h => h) fun _ h => h

theorem later_push {bytes : Bytes} (hopen : s.CanWrite name i.process) :
    Later s (s.setPipe name ((s.pipe name).push i bytes)) := by
  refine ⟨fun other => ?_, fun _ h => h, fun _ h => h⟩
  by_cases hname : other = name
  · subst hname
    rw [setPipe_self]
    refine ⟨[(i, bytes)], rfl, fun w hw => ?_⟩
    rw [List.mem_singleton] at hw
    subst hw
    exact hopen
  · rw [setPipe_of_ne hname]
    exact ⟨[], (List.append_nil _).symm, fun _ hw => absurd hw List.not_mem_nil⟩

theorem later_pull {n : Nat} : Later s (s.setPipe name ((s.pipe name).pull n)) := by
  refine ⟨fun other => ?_, fun _ h => h, fun _ h => h⟩
  by_cases hname : other = name
  · subst hname
    rw [setPipe_self]
    exact ⟨[], (List.append_nil _).symm, fun _ hw => absurd hw List.not_mem_nil⟩
  · rw [setPipe_of_ne hname]
    exact ⟨[], (List.append_nil _).symm, fun _ hw => absurd hw List.not_mem_nil⟩

/-! ## What is a thread's own -/

/-- How far the pipe has been read. -/
def taken (s : ClientState) (name : PipeName) : Nat := (s.pipe name).taken

/-- What is the own of thread `i` is the same. -/
structure Own (i : ThreadId) (s s' : ClientState) : Prop where
  sentBy : ∀ name, (s'.pipe name).sentBy i = (s.pipe name).sentBy i
  logger : i = .logger → taken s' .log = taken s .log ∧ s'.printed = s.printed ∧
    s'.opened = s.opened ∧ s'.dead .logger = s.dead .logger
  scheduler : i = .scheduler → taken s' .event = taken s .event ∧ s'.pushed = s.pushed
  main : i = .main → s'.closed = s.closed

theorem Own.refl (i : ThreadId) (s : ClientState) : Own i s s :=
  ⟨fun _ => rfl, fun _ => ⟨rfl, rfl, rfl, rfl⟩, fun _ => ⟨rfl, rfl⟩, fun _ => rfl⟩

theorem Own.trans (h : Own i s s') (h' : Own i s' s'') : Own i s s'' := by
  refine ⟨fun name => (h'.sentBy name).trans (h.sentBy name), fun hi => ?_, fun hi => ?_,
    fun hi => (h'.main hi).trans (h.main hi)⟩
  · obtain ⟨htaken, hprinted, hopened, hdead⟩ := h.logger hi
    obtain ⟨htaken', hprinted', hopened', hdead'⟩ := h'.logger hi
    exact ⟨htaken'.trans htaken, hprinted'.trans hprinted, hopened'.trans hopened,
      hdead'.trans hdead⟩
  · obtain ⟨htaken, hpushed⟩ := h.scheduler hi
    obtain ⟨htaken', hpushed'⟩ := h'.scheduler hi
    exact ⟨htaken'.trans htaken, hpushed'.trans hpushed⟩

/-- What the other threads do, as thread `i` sees it. -/
structure Others (i : ThreadId) (s s' : ClientState) : Prop where
  later : Later s s'
  own : Own i s s'

instance (i : ThreadId) : IsPreorder ClientState (Others i) where
  refl s := ⟨refl_of Later s, .refl i s⟩
  trans _ _ _ h h' := ⟨trans_of Later h.later h'.later, h.own.trans h'.own⟩

/-- What thread `i` does: the others keep what is theirs. -/
def Mine (i : ThreadId) (s s' : ClientState) : Prop := ∀ j, j ≠ i → Others j s s'

theorem Mine.refl (i : ThreadId) (s : ClientState) : Mine i s s :=
  fun j _ => refl_of (Others j) s

/-- Calls that do not use the pipes. -/
theorem mine_of_pipe_eq (hlater : Later s s') (hpipe : s'.pipe = s.pipe)
    (hlogger : i = .logger ∨ s'.printed = s.printed ∧ s'.opened = s.opened ∧
      s'.dead .logger = s.dead .logger)
    (hscheduler : i = .scheduler ∨ s'.pushed = s.pushed)
    (hmain : i = .main ∨ s'.closed = s.closed) : Mine i s s' := by
  intro j hj
  have htaken : ∀ name, taken s' name = taken s name := fun name => by
    unfold taken
    rw [hpipe]
  refine ⟨hlater, fun name => by rw [hpipe], fun h => ⟨htaken _, ?_⟩,
    fun h => ⟨htaken _, ?_⟩, fun h => ?_⟩
  · exact hlogger.resolve_left fun hi => hj (h.trans hi.symm)
  · exact hscheduler.resolve_left fun hi => hj (h.trans hi.symm)
  · exact hmain.resolve_left fun hi => hj (h.trans hi.symm)

theorem mine_push {bytes : Bytes} (hopen : s.CanWrite name i.process) :
    Mine i s (s.setPipe name ((s.pipe name).push i bytes)) := by
  intro j hj
  have htaken : ∀ other, taken (s.setPipe name ((s.pipe name).push i bytes)) other =
      taken s other := by
    intro other
    unfold taken
    by_cases hname : other = name
    · subst hname
      rw [setPipe_self, Pipe.taken_push]
    · rw [setPipe_of_ne hname]
  refine ⟨later_push hopen, fun other => ?_, fun _ => ⟨htaken _, rfl, rfl, rfl⟩,
    fun _ => ⟨htaken _, rfl⟩, fun _ => rfl⟩
  by_cases hname : other = name
  · subst hname
    rw [setPipe_self]
    exact Pipe.sentBy_push_of_ne (Ne.symm hj)
  · rw [setPipe_of_ne hname]

/-- A reader reads its own pipe. -/
theorem mine_pull {n : Nat} (hlog : name = .log → i = .logger)
    (hevent : name = .event → i = .scheduler) :
    Mine i s (s.setPipe name ((s.pipe name).pull n)) := by
  intro j hj
  have htaken : ∀ other, other ≠ name →
      taken (s.setPipe name ((s.pipe name).pull n)) other = taken s other := by
    intro other hname
    unfold taken
    rw [setPipe_of_ne hname]
  refine ⟨later_pull, fun other => ?_, fun hlogger => ?_, fun hscheduler => ?_, fun _ => rfl⟩
  · by_cases hname : other = name
    · subst hname
      rw [setPipe_self]
      exact Pipe.sentBy_pull
    · rw [setPipe_of_ne hname]
  · exact ⟨htaken .log fun h => hj (hlogger.trans (hlog h.symm).symm), rfl, rfl, rfl⟩
  · exact ⟨htaken .event fun h => hj (hscheduler.trans (hevent h.symm).symm), rfl⟩

end MiniSync.Pipes
