import MiniSync.Pipes.Bounds

/-!
# Records go through the pipes whole

A record that is written is in the pipe as one write, or nobody reads the pipe any more;
a record that is read is the next one, or there will be none.
-/

namespace MiniSync.Pipes

open Prog Beside

variable {killable : Process → Prop} {capacity : Nat} {i : ThreadId} {name : PipeName}
  {s s' : ClientState} {I J : ClientState → Prop} {buf : Bytes}

/-! ## Writing -/

theorem writePipe_succ (hbuf : buf ≠ []) (fuel : Nat) :
    writePipe (fuel + 1) name buf = (ccall (.write name buf) >>= fun r => match r with
      | .error .intr => writePipe fuel name buf
      | .error .again => writePipe fuel name buf
      | .error _ => .ret .err
      | .ok written => writePipe fuel name (buf.drop written)) := by
  unfold writePipe writeFull
  rw [writenLoop, if_neg hbuf]
  apply congrArg (Prog.call (ClientCall.write name buf))
  funext r
  rcases r with e | written
  · cases e <;> rfl
  · rfl

theorem writePipe_nil (name : PipeName) (fuel : Nat) :
    writePipe fuel name [] = .spin ∨ writePipe fuel name [] = .ret .ok := by
  cases fuel with
  | zero => exact Or.inl rfl
  | succ fuel => exact Or.inr rfl

/-- What writing one record does: it is written, or the reader is gone. -/
theorem within_writePipe {Q : Rc → ClientState → Prop} (hbuf : buf ≠ [])
    (hsize : buf.length ≤ pipeBuf) (hJ : ∀ s s', I s' → Others i s s' → J s → J s')
    (hQ : ∀ rc s s', I s' → Others i s s' → Q rc s → Q rc s')
    (hwritten : ∀ s, I s → J s → s.CanWrite name i.process → s.dead name.reader = false →
      I (s.setPipe name ((s.pipe name).push i buf)) ∧
        Q .ok (s.setPipe name ((s.pipe name).push i buf)))
    (hbroken : ∀ s, I s → J s → s.dead i.process = false → s.dead name.reader = true → Q .err s)
    (hs : J s) (fuel : Nat) :
    Within (clientKernel killable capacity i) I (Others i) (Mine i) Q
      (writePipe fuel name buf) s := by
  induction fuel generalizing s with
  | zero => trivial
  | succ fuel ih =>
      rw [writePipe_succ hbuf]
      refine Within.op_bind fun s₁ r s' hI hE hK => ?_
      have hJ₁ := hJ s s₁ hI hE hs
      cases hK.2 with
      | @written n hpos hle hwhole hroom hopen hreader =>
          obtain rfl := hwhole hsize
          rw [List.take_length]
          obtain ⟨hI', hok⟩ := hwritten s₁ hI hJ₁ hopen hreader
          refine ⟨hI', mine_push hopen, ?_⟩
          dsimp only
          rw [List.drop_length]
          rcases writePipe_nil name fuel with hspin | hret
          · rw [hspin]
            trivial
          · rw [hret]
            exact Within.ret fun s₂ hI₂ hE₂ => hQ .ok _ s₂ hI₂ hE₂ hok
      | interrupted => exact ⟨hI, .refl i s₁, ih hJ₁⟩
      | broken hreader =>
          refine ⟨hI, .refl i s₁, Within.ret fun s₂ hI₂ hE₂ => ?_⟩
          exact hQ .err s₁ s₂ hI₂ hE₂ (hbroken s₁ hI hJ₁ hK.1 hreader)

/-! ## Reading -/

def readnPipeLoop (fuel : Nat) (name : PipeName) (left : Nat) (buf : Bytes) :
    ClientProg (Option Bytes) :=
  (@readnLoop Unit .socket fuel left buf).translate (onPipe name)

theorem readnPipeLoop_succ {left : Nat} (hleft : left ≠ 0) (fuel : Nat) :
    readnPipeLoop (fuel + 1) name left buf = (ccall (.read name left) >>= fun r => match r with
      | .error .intr => readnPipeLoop fuel name left buf
      | .error _ => .ret none
      | .ok piece =>
          if piece = [] then .ret (some buf)
          else readnPipeLoop fuel name (left - piece.length) (buf ++ piece)) := by
  unfold readnPipeLoop
  rw [readnLoop, if_neg hleft]
  apply congrArg (Prog.call (ClientCall.read name left))
  funext r
  rcases r with e | piece
  · cases e <;> rfl
  · change Prog.translate (onPipe name) (if piece = [] then .ret (some buf)
        else readnLoop .socket fuel (left - piece.length) (buf ++ piece)) =
      if piece = [] then .ret (some buf)
        else (readnLoop .socket fuel (left - piece.length) (buf ++ piece)).translate (onPipe name)
    split_ifs <;> rfl

/-- The only reader of the pipe has read `k` records and `buf` of the next. -/
theorem readTo_of_others {size k : Nat} (hE : Others i s s')
    (hreader : name = .log ∧ i = .logger ∨ name = .event ∧ i = .scheduler)
    (hp : (s.pipe name).InRecords size) (h : (s.pipe name).ReadTo size k buf) :
    (s'.pipe name).ReadTo size k buf := by
  obtain ⟨more, hmore, -⟩ := hE.later.writes name
  refine h.grow hp hmore ?_
  rcases hreader with ⟨rfl, hi⟩ | ⟨rfl, hi⟩
  · exact (hE.own.logger hi).1
  · exact (hE.own.scheduler hi).1

/-- What reading one record gives: the record, or nothing where no more comes. -/
structure GotRecord (size k : Nat) (name : PipeName) (r : Option Bytes) (s : ClientState) :
    Prop where
  got : ∃ buf, r = some buf ∧ (s.pipe name).ReadTo size k buf
  whole : ∀ buf, r = some buf → buf.length = size ∨
    buf = [] ∧ (s.pipe name).records.length = k ∧ ∀ x, ¬ s.CanWrite name x

/-- Nothing more is read where nobody can write. -/
theorem GotRecord.of_others {size k : Nat} {r : Option Bytes} (hE : Others i s s')
    (hreader : name = .log ∧ i = .logger ∨ name = .event ∧ i = .scheduler)
    (hp : (s.pipe name).InRecords size) (h : GotRecord size k name r s) :
    GotRecord size k name r s' := by
  obtain ⟨buf, hr, hread⟩ := h.got
  refine ⟨⟨buf, hr, readTo_of_others hE hreader hp hread⟩, fun buf' hbuf' => ?_⟩
  refine (h.whole buf' hbuf').imp_right ?_
  rintro ⟨hnil, hlength, hnone⟩
  refine ⟨hnil, ?_, fun x hx => hnone x (hx.of_later hE.later.dead hE.later.closed)⟩
  obtain ⟨more, hmore, hcan⟩ := hE.later.writes name
  cases more with
  | nil =>
      rw [List.append_nil] at hmore
      rw [Pipe.records, hmore]
      exact hlength
  | cons w more => exact absurd (hcan w List.mem_cons_self) (hnone w.1.process)

theorem within_readnPipeLoop {size k left : Nat}
    (hreader : name = .log ∧ i = .logger ∨ name = .event ∧ i = .scheduler)
    (hin : ∀ s, I s → (s.pipe name).InRecords size)
    (hpull : ∀ s n, I s → n ≤ (s.pipe name).waiting.length →
      I (s.setPipe name ((s.pipe name).pull n)))
    (hJ : ∀ s s', I s' → Others i s s' → J s → J s')
    (hJpull : ∀ s n, J s → J (s.setPipe name ((s.pipe name).pull n)))
    (hI : I s) (hs : J s) (hread : (s.pipe name).ReadTo size k buf)
    (hleft : left + buf.length = size) (fuel : Nat) :
    Within (clientKernel killable capacity i) I (Others i) (Mine i)
      (fun r s => J s ∧ GotRecord size k name r s) (readnPipeLoop fuel name left buf) s := by
  induction fuel generalizing s left buf with
  | zero => trivial
  | succ fuel ih =>
      by_cases hzero : left = 0
      · subst hzero
        rw [Nat.zero_add] at hleft
        refine Within.ret fun s' hI' hE => ⟨hJ s s' hI' hE hs, ?_⟩
        apply GotRecord.of_others hE hreader (hin s hI)
        exact ⟨⟨buf, rfl, hread⟩, fun _ h => Or.inl (Option.some.inj h ▸ hleft)⟩
      · rw [readnPipeLoop_succ hzero]
        refine Within.op_bind fun s₁ r s' hI₁ hE hK => ?_
        have hread₁ := readTo_of_others hE hreader (hin s hI) hread
        have hJ₁ := hJ s s₁ hI₁ hE hs
        cases hK.2 with
        | @data n hpos hcount hle =>
            have hlen : ((s₁.pipe name).waiting.take n).length = n := by
              rw [List.length_take, Nat.min_eq_left hle]
            have hne : (s₁.pipe name).waiting.take n ≠ [] := by
              intro hnil
              rw [hnil, List.length_nil] at hlen
              omega
            have hI' := hpull s₁ n hI₁ hle
            refine ⟨hI', mine_pull ?_ ?_, ?_⟩
            · rintro rfl
              rcases hreader with ⟨-, hi⟩ | ⟨hname, -⟩
              · exact hi
              · cases hname
            · rintro rfl
              rcases hreader with ⟨hname, -⟩ | ⟨-, hi⟩
              · cases hname
              · exact hi
            · dsimp only
              rw [if_neg hne, hlen]
              refine ih hI' (hJpull s₁ n hJ₁) ?_ ?_
              · rw [setPipe_self]
                exact hread₁.pull hle
              · rw [List.length_append, hlen]
                omega
        | ended hwaiting hclosed =>
            refine ⟨hI₁, .refl i s₁, ?_⟩
            dsimp only
            rw [if_pos rfl]
            refine Within.ret fun s₂ hI₂ hE₂ => ⟨hJ s₁ s₂ hI₂ hE₂ hJ₁, ?_⟩
            apply GotRecord.of_others hE₂ hreader (hin s₁ hI₁)
            obtain ⟨rfl, hlength⟩ := hread₁.ended (hin s₁ hI₁) hwaiting (by omega)
            refine ⟨⟨[], rfl, hread₁⟩, fun buf' hbuf' => Or.inr ?_⟩
            exact ⟨(Option.some.inj hbuf').symm, hlength, hclosed⟩
        | interrupted => exact ⟨hI₁, .refl i s₁, ih hI₁ hJ₁ hread₁ hleft⟩

/-- `read_full` reports anything but a whole record as a failure. -/
theorem readPipe_eq (fuel size : Nat) :
    readPipe fuel name size = (readnPipe fuel name size >>= fun r =>
      .ret (r.bind fun buf => if buf.length = size then some buf else none)) := by
  unfold readPipe readnPipe readFull
  rw [translate_bind]
  apply congrArg (readnPipe fuel name size >>= ·)
  funext r
  cases r <;> rfl

end MiniSync.Pipes
