import MiniSync.FaultFree
import MiniSync.KernelCases

/-!
# Hashing a file while it is read

`hash_fd_range` reads through a buffer of 8192 bytes.  However the reads are cut short
or interrupted, a file whose content stays the same has the hash of that content, and a
range of it the hash of the bytes in that range, of which none outside is read.
-/

namespace MiniSync

open Prog

/-! ## Reads that are cut short or interrupted -/

/-- `read` may be interrupted; no other call goes wrong. -/
def Interruptible (c : Call TreePath) (e : Errno) : Prop :=
  ∃ fd pos count, c = .read fd pos count ∧ e = .intr

/-- One call, after which the file at `p` still holds `data`; the rest of the world may
have changed meanwhile. -/
def Streaming (cwd p : TreePath) (data : Bytes) (c : Call TreePath) (w : World) (r : Resp c)
    (w' : World) : Prop :=
  (∃ w₁, Kernel cwd Interruptible c w r w₁) ∧ w'.tree.content p = some data

/-- The response is that of an interrupted `read`. -/
def Interrupted : (c : Call TreePath) → Resp c → Prop
  | .read _ _ _, r => r = .error .intr
  | _, _ => False

/-- As `Streaming`, with a count of the interruptions still to come. -/
def FinitelyInterrupted (cwd p : TreePath) (data : Bytes) (c : Call TreePath) (s : World × Nat)
    (r : Resp c) (s' : World × Nat) : Prop :=
  Streaming cwd p data c s.1 r s'.1 ∧
    (s.2 = s'.2 + 1 ∨ s.2 = s'.2 ∧ ¬ Interrupted c r)

/-- The call reads nothing outside the bytes from `lo` up to `hi`. -/
def ReadsWithin (lo hi : Nat) : Call TreePath → Prop
  | .read _ pos count => lo ≤ pos ∧ pos + count ≤ hi
  | _ => True

variable {cwd p : TreePath} {data : Bytes} {w w' : World}

theorem Streaming.still {c : Call TreePath} {r : Resp c} (h : Streaming cwd p data c w r w') :
    w'.tree.content p = some data := h.2

/-- Interruptions are used up, never added. -/
theorem FinitelyInterrupted.le {c : Call TreePath} {r : Resp c} {s s' : World × Nat}
    (h : FinitelyInterrupted cwd p data c s r s') : s'.2 ≤ s.2 := by
  rcases h.2 with hone | ⟨hsame, -⟩
  · rw [hone]
    exact Nat.le_succ s'.2
  · exact hsame.ge

/-- A read is interrupted or returns at least one byte, unless there is none left. -/
theorem Streaming.readCases {pos count : Nat} {r : Resp (.read p pos count)}
    (h : Streaming cwd p data (.read p pos count) w r w') (hdata : w.tree.content p = some data)
    (hcount : 0 < count) :
    r = .error .intr ∨ ∃ n, 0 < n ∧ n ≤ count ∧ r = .ok ((data.drop pos).take n) := by
  have hread (n : Nat) : posixRead w.tree p pos n = .ok ((data.drop pos).take n) := by
    have hlookup := FileTree.content_eq_some.mp hdata
    simp only [posixRead, hlookup]
  obtain ⟨⟨w₁, ⟨now, hposix⟩ | ⟨-, hfault⟩⟩, -⟩ := h
  · right
    refine ⟨count, hcount, le_rfl, ?_⟩
    rw [← hread count]
    exact (congrArg Prod.fst hposix).symm
  · rcases hfault with ⟨e, ⟨_, _, _, -, rfl⟩, hr⟩ | ⟨n, data', hpos, hn, hok, hr⟩
    · exact Or.inl hr
    · right
      refine ⟨n, hpos, hn.le, ?_⟩
      rw [hr, ← hok, hread n]

theorem Streaming.openCases {path : Bytes} {r : Resp (.openFile path .readOnly)}
    (h : Streaming cwd p data (.openFile path .readOnly) w r w')
    (hpath : Readable cwd w.tree path data) : r = .ok (resolve cwd path) := by
  obtain ⟨⟨w₁, ⟨now, hposix⟩ | ⟨e, ⟨_, _, _, hc, -⟩, -⟩⟩, -⟩ := h
  · have hopen := @posix_openRead ⟨cwd, now⟩ w path data hpath
    exact (congrArg Prod.fst hposix).symm.trans (congrArg Prod.fst hopen)
  · cases hc

theorem Streaming.lseekCases {fd : TreePath} {pos : Int} {r : Resp (.lseek fd pos)}
    (h : Streaming cwd p data (.lseek fd pos) w r w') (hpos : 0 ≤ pos) : r = .ok () := by
  obtain ⟨⟨w₁, ⟨now, hposix⟩ | ⟨e, ⟨_, _, _, hc, -⟩, -⟩⟩, -⟩ := h
  · exact (congrArg Prod.fst hposix).symm.trans (if_neg (by omega))
  · cases hc

/-! ## The read loop -/

/-- What the loop has still to hash. -/
def unhashed (data : Bytes) (pos : Nat) : Option Nat → Bytes
  | none => data.drop pos
  | some len => (data.drop pos).take len

/-- What one read returns comes off the front. -/
theorem unhashed_eq_append {pos n : Nat} {len : Option Nat} (hn : ∀ l ∈ len, n ≤ l) :
    unhashed data pos len = (data.drop pos).take n ++
      unhashed data (pos + ((data.drop pos).take n).length)
        (len.map (· - ((data.drop pos).take n).length)) := by
  obtain ⟨rest, hrest⟩ := List.take_prefix n (data.drop pos)
  have hlen : ((data.drop pos).take n).length ≤ n := List.length_take_le _ _
  generalize (data.drop pos).take n = buf at hrest hlen ⊢
  have hdrop : data.drop (pos + buf.length) = rest := by
    rw [← List.drop_drop, ← hrest, List.drop_left]
  cases len with
  | none =>
      simp only [unhashed, Option.map_none]
      rw [hdrop, hrest]
  | some l =>
      simp only [unhashed, Option.map_some]
      rw [hdrop, ← hrest, List.take_append, List.take_of_length_le (hlen.trans (hn l rfl))]

theorem unhashed_of_drop_eq_nil {pos : Nat} {len : Option Nat} (h : data.drop pos = []) :
    unhashed data pos len = [] := by
  cases len with
  | none => exact h
  | some l =>
      simp only [unhashed, h, List.take_nil]

/-- The amount asked for is positive and within the limit. -/
theorem want_bounds {len : Option Nat} (hlen : len ≠ some 0) :
    0 < min ioBufSize (len.getD ioBufSize) ∧ ∀ l ∈ len, min ioBufSize (len.getD ioBufSize) ≤ l := by
  cases len with
  | none => exact ⟨by decide, nofun⟩
  | some l =>
      have hpos : l ≠ 0 := fun h => hlen (congrArg some h)
      refine ⟨?_, ?_⟩
      · exact lt_min (by decide) (Nat.pos_of_ne_zero hpos)
      · rintro l' ⟨⟩
        exact min_le_right _ _

theorem safe_hashFdLoop (fuel pos : Nat) (len : Option Nat) (hash : UInt64)
    (hdata : w.tree.content p = some data) :
    (hashFdLoop p fuel pos len hash).Safe (Streaming cwd p data) (fun _ => True)
      (fun h _ => h = (unhashed data pos len).foldl fnv1aStep hash) w := by
  induction fuel generalizing pos len hash w with
  | zero => trivial
  | succ fuel ih =>
      rw [hashFdLoop]
      by_cases hzero : len = some 0
      · rw [if_pos hzero, hzero, unhashed, List.take_zero]
        exact rfl
      · rw [if_neg hzero]
        obtain ⟨hpos, hwant⟩ := want_bounds hzero
        apply Safe.op_bind
        intro r w' hK
        refine ⟨trivial, ?_⟩
        rcases hK.readCases hdata hpos with rfl | ⟨n, hn, hle, rfl⟩
        · exact ih pos len hash hK.still
        · simp only
          split_ifs with hnil
          · have hdrop : data.drop pos = [] := by
              rcases List.take_eq_nil_iff.mp hnil with h | h
              · omega
              · exact h
            rw [unhashed_of_drop_eq_nil hdrop]
            exact rfl
          · rw [unhashed_eq_append fun l hl => hle.trans (hwant l hl), List.foldl_append]
            exact ih _ _ _ hK.still

/-- Whatever holds of the calls that read between here and the limit holds of all. -/
theorem calls_hashFdLoop {P : Call TreePath → Prop} (fuel pos : Nat) (len : Option Nat)
    (hash : UInt64) (hdata : w.tree.content p = some data)
    (hP : ∀ pos' count, pos ≤ pos' → (∀ l ∈ len, pos' + count ≤ pos + l) →
      P (.read p pos' count)) :
    (hashFdLoop p fuel pos len hash).Calls (Streaming cwd p data) P w := by
  induction fuel generalizing pos len hash w with
  | zero => trivial
  | succ fuel ih =>
      rw [hashFdLoop]
      by_cases hzero : len = some 0
      · rw [if_pos hzero]
        trivial
      · rw [if_neg hzero]
        obtain ⟨hpos, hwant⟩ := want_bounds hzero
        refine Calls.op_bind (hP pos _ le_rfl fun l hl => ?_) fun r w' hK => ?_
        · exact Nat.add_le_add_left (hwant l hl) pos
        · rcases hK.readCases hdata hpos with rfl | ⟨n, hn, hle, rfl⟩
          · exact ih pos len hash hK.still hP
          · simp only
            split_ifs with hnil
            · trivial
            · refine ih _ _ _ hK.still fun pos' count hfrom hto => ?_
              refine hP pos' count (by omega) fun l hl => ?_
              have hlen : ((data.drop pos).take n).length ≤ l :=
                (List.length_take_le _ _).trans (hle.trans (hwant l hl))
              have hlimit := hto _ (Option.mem_map_of_mem _ hl)
              omega

/-- Each read that is not interrupted takes something off what is left of the file. -/
theorem finishes_hashFdLoop (fuel pos interruptions : Nat) (len : Option Nat) (hash : UInt64)
    (hdata : w.tree.content p = some data)
    (hfuel : data.length - pos + interruptions < fuel) :
    (hashFdLoop p fuel pos len hash).Finishes (FinitelyInterrupted cwd p data) (fun _ => True)
      (w, interruptions) := by
  induction fuel generalizing pos interruptions len hash w with
  | zero => omega
  | succ fuel ih =>
      rw [hashFdLoop]
      by_cases hzero : len = some 0
      · rw [if_pos hzero]
        trivial
      · rw [if_neg hzero]
        refine Finishes.op_bind trivial ?_
        rintro r ⟨w', left⟩ hstep
        have hmost : left ≤ interruptions := hstep.le
        obtain ⟨hK, hleft⟩ := hstep
        rcases hK.readCases hdata (want_bounds hzero).1 with rfl | ⟨n, hn, hle, rfl⟩
        · have hone : interruptions = left + 1 := by
            rcases hleft with h | ⟨-, h⟩
            · exact h
            · exact absurd rfl h
          exact ih pos left len hash hK.still (by omega)
        · simp only
          split_ifs with hnil
          · trivial
          · have hpos : 0 < ((data.drop pos).take n).length := List.length_pos_of_ne_nil hnil
            refine ih _ left _ _ hK.still ?_
            rw [List.length_take, List.length_drop] at hpos ⊢
            omega

/-! ## Files -/

theorem safe_hashFdRange {offset : Int} (hoffset : 0 ≤ offset) (fuel : Nat) (len : Option Nat)
    (hdata : w.tree.content p = some data) :
    (hashFdRange fuel p offset len).Safe (Streaming cwd p data) (fun _ => True)
      (fun h _ => h = hashBufferFnv1a (unhashed data offset.toNat len)) w := by
  unfold hashFdRange
  split_ifs with hpos
  · apply Safe.op_bind
    intro r w' hK
    rw [hK.lseekCases hoffset]
    exact ⟨trivial, safe_hashFdLoop fuel _ len _ hK.still⟩
  · obtain rfl : offset = 0 := by omega
    exact safe_hashFdLoop fuel 0 len _ hdata

theorem calls_hashFdRange {offset : Int} (hoffset : 0 ≤ offset) (fuel len : Nat)
    (hdata : w.tree.content p = some data) :
    (hashFdRange fuel p offset (some len)).Calls (Streaming cwd p data)
      (ReadsWithin offset.toNat (offset.toNat + len)) w := by
  have hwithin (pos count : Nat) (hfrom : offset.toNat ≤ pos)
      (hto : ∀ l ∈ some len, pos + count ≤ offset.toNat + l) :
      ReadsWithin offset.toNat (offset.toNat + len) (.read p pos count) :=
    ⟨hfrom, hto len rfl⟩
  unfold hashFdRange
  split_ifs with hpos
  · refine Calls.op_bind trivial fun r w' hK => ?_
    rw [hK.lseekCases hoffset]
    exact calls_hashFdLoop fuel _ _ _ hK.still hwithin
  · obtain rfl : offset = 0 := by omega
    exact calls_hashFdLoop fuel 0 _ _ hdata hwithin

theorem finishes_hashFdRange (offset : Int) (fuel interruptions : Nat) (len : Option Nat)
    (hdata : w.tree.content p = some data) (hfuel : data.length + interruptions < fuel) :
    (hashFdRange fuel p offset len).Finishes (FinitelyInterrupted cwd p data) (fun _ => True)
      (w, interruptions) := by
  unfold hashFdRange
  split_ifs with hpos
  · refine Finishes.op_bind trivial ?_
    rintro r ⟨w', left⟩ hstep
    have hmost : left ≤ interruptions := hstep.le
    cases r with
    | error e => trivial
    | ok _ => exact finishes_hashFdLoop fuel _ left len _ hstep.1.still (by omega)
  · exact finishes_hashFdLoop fuel 0 interruptions len _ hdata (by omega)

section Files

variable {path : Bytes}

theorem safe_hashFileFnv1a (hpath : Readable cwd w.tree path data) (fuel : Nat) :
    (hashFileFnv1a fuel path).Safe (Streaming cwd (resolve cwd path) data) (fun _ => True)
      (fun h _ => h = hashBufferFnv1a data) w := by
  apply Safe.op_bind
  intro r w' hK
  refine ⟨trivial, ?_⟩
  rw [hK.openCases hpath]
  apply (safe_hashFdRange le_rfl fuel none hK.still).bind
  intro h w'' hh
  exact Safe.op_bind fun _ _ _ => ⟨trivial, hh⟩

theorem safe_hashFileRangeFnv1a (hpath : Readable cwd w.tree path data) {offset : Int}
    (hoffset : 0 ≤ offset) (fuel len : Nat) :
    (hashFileRangeFnv1a fuel path offset len).Safe (Streaming cwd (resolve cwd path) data)
      (fun _ => True) (fun h _ => h = hashBufferFnv1a ((data.drop offset.toNat).take len)) w := by
  apply Safe.op_bind
  intro r w' hK
  refine ⟨trivial, ?_⟩
  rw [hK.openCases hpath]
  apply (safe_hashFdRange hoffset fuel (some len) hK.still).bind
  intro h w'' hh
  exact Safe.op_bind fun _ _ _ => ⟨trivial, hh⟩

/-- No byte outside the range is read. -/
theorem calls_hashFileRangeFnv1a (hpath : Readable cwd w.tree path data) {offset : Int}
    (hoffset : 0 ≤ offset) (fuel len : Nat) :
    (hashFileRangeFnv1a fuel path offset len).Calls (Streaming cwd (resolve cwd path) data)
      (ReadsWithin offset.toNat (offset.toNat + len)) w := by
  refine Calls.op_bind trivial fun r w' hK => ?_
  rw [hK.openCases hpath]
  apply (calls_hashFdRange hoffset fuel len hK.still).bind_any
  intro h w''
  exact Calls.op_bind trivial fun _ _ _ => trivial

theorem finishes_hashFileFnv1a (hpath : Readable cwd w.tree path data) {fuel interruptions : Nat}
    (hfuel : data.length + interruptions < fuel) :
    (hashFileFnv1a fuel path).Finishes (FinitelyInterrupted cwd (resolve cwd path) data)
      (fun _ => True) (w, interruptions) := by
  refine Finishes.op_bind trivial ?_
  rintro r ⟨w', left⟩ hstep
  have hmost : left ≤ interruptions := hstep.le
  rw [hstep.1.openCases hpath]
  apply (finishes_hashFdRange 0 fuel left none hstep.1.still (by omega)).bind
  intro h s
  exact Finishes.op_bind trivial fun _ _ _ => trivial

theorem finishes_hashFileRangeFnv1a (hpath : Readable cwd w.tree path data) (offset : Int)
    (len : Nat) {fuel interruptions : Nat} (hfuel : data.length + interruptions < fuel) :
    (hashFileRangeFnv1a fuel path offset len).Finishes
      (FinitelyInterrupted cwd (resolve cwd path) data) (fun _ => True) (w, interruptions) := by
  refine Finishes.op_bind trivial ?_
  rintro r ⟨w', left⟩ hstep
  have hmost : left ≤ interruptions := hstep.le
  rw [hstep.1.openCases hpath]
  apply (finishes_hashFdRange offset fuel left (some len) hstep.1.still (by omega)).bind
  intro h s
  exact Finishes.op_bind trivial fun _ _ _ => trivial

/-- A file that does not change has the hash of its content, a range of it the hash of
the bytes in that range, and none outside is read.  Both functions return, unless `read`
is interrupted forever. -/
theorem hashFile_streaming (hpath : Readable cwd w.tree path data) {offset : Int}
    (hoffset : 0 ≤ offset) (len : Nat) :
    (∀ fuel,
      (hashFileFnv1a fuel path).Safe (Streaming cwd (resolve cwd path) data) (fun _ => True)
        (fun h _ => h = hashBufferFnv1a data) w ∧
      (hashFileRangeFnv1a fuel path offset len).Safe (Streaming cwd (resolve cwd path) data)
        (fun _ => True) (fun h _ => h = hashBufferFnv1a ((data.drop offset.toNat).take len)) w ∧
      (hashFileRangeFnv1a fuel path offset len).Calls (Streaming cwd (resolve cwd path) data)
        (ReadsWithin offset.toNat (offset.toNat + len)) w) ∧
    ∀ interruptions fuel, data.length + interruptions < fuel →
      (hashFileFnv1a fuel path).Finishes (FinitelyInterrupted cwd (resolve cwd path) data)
        (fun _ => True) (w, interruptions) ∧
      (hashFileRangeFnv1a fuel path offset len).Finishes
        (FinitelyInterrupted cwd (resolve cwd path) data) (fun _ => True) (w, interruptions) := by
  constructor
  · intro fuel
    exact ⟨safe_hashFileFnv1a hpath fuel, safe_hashFileRangeFnv1a hpath hoffset fuel len,
      calls_hashFileRangeFnv1a hpath hoffset fuel len⟩
  · intro interruptions fuel hfuel
    exact ⟨finishes_hashFileFnv1a hpath hfuel, finishes_hashFileRangeFnv1a hpath offset len hfuel⟩

end Files

def threeByteFile : World := ⟨⟨[([ascii "f"], .file [7, 8, 9])]⟩, ⟨fun _ => [], 0, []⟩⟩

/-- A range that begins inside the file and ends past it, with two interruptions. -/
theorem hashFile_streaming_past_end :
    (hashFileRangeFnv1a 6 (ascii "f") 1 5).Safe (Streaming [] [ascii "f"] [7, 8, 9])
        (fun _ => True) (fun h _ => h = hashBufferFnv1a [8, 9]) threeByteFile ∧
      (hashFileRangeFnv1a 6 (ascii "f") 1 5).Finishes
        (FinitelyInterrupted [] [ascii "f"] [7, 8, 9]) (fun _ => True) (threeByteFile, 2) := by
  have hpath : Readable [] threeByteFile.tree (ascii "f") [7, 8, 9] :=
    ⟨by decide, by decide, by decide⟩
  have hstream := @hashFile_streaming [] [7, 8, 9] threeByteFile (ascii "f") hpath 1 (by decide) 5
  exact ⟨(hstream.1 6).2.1, (hstream.2 2 6 (by decide)).2⟩

end MiniSync
