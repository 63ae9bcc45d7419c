import MiniSync.Grounded
import MiniSync.NetUtils

/-!
# Runs without faults

What the functions of the program return when every call is answered by `posix`
and there is fuel enough.
-/

namespace MiniSync

open Prog

theorem posix_covered {mayFail : Call TreePath → Errno → Prop} (env : Env) (c : Call TreePath)
    (w : World) : Kernel env.cwd mayFail c w (posix env c w).1 (posix env c w).2 :=
  Or.inl ⟨env.now, rfl⟩

section FaultFree

variable {env : Env} {w : World} {fuel : Nat}

/-- A run leaves a grounded tree grounded. -/
theorem Prog.Returns.grounded {α : Type} {p : Sys TreePath α} {Q : α → World → Prop}
    (h : p.Returns (posix env) Q w) (hg : w.tree.Grounded) :
    p.Returns (posix env) (fun a w' => Q a w' ∧ w'.tree.Grounded) w := by
  have hsafe : p.Safe (Kernel env.cwd fun _ _ => False) (fun w => w.tree.Grounded) _ w :=
    (all_true p).safe (fun _ _ _ _ _ hs hK => hK.grounded hs) hg
  exact (h.and_safe (fun c s => posix_covered env c s) hsafe).post
    fun _ _ hboth => ⟨hboth.1, hboth.2.2⟩

/-! ## The socket -/

/-- After `n` bytes have been read. -/
def World.take (w : World) (n : Nat) : World := { w with conn := w.conn.take n }

/-- After `buf` has been sent. -/
def World.push (w : World) (buf : Bytes) : World := { w with conn := w.conn.push buf }

@[simp] theorem World.take_tree (w : World) (n : Nat) : (w.take n).tree = w.tree := rfl

@[simp] theorem World.take_conn (w : World) (n : Nat) : (w.take n).conn = w.conn.take n := rfl

@[simp] theorem World.push_tree (w : World) (buf : Bytes) : (w.push buf).tree = w.tree := rfl

@[simp] theorem World.push_conn (w : World) (buf : Bytes) :
    (w.push buf).conn = w.conn.push buf := rfl

theorem World.take_of_input_nil {n : Nat} (h : w.conn.input = []) : w.take n = w := by
  unfold World.take Conn.take
  rw [h]
  simp

theorem World.push_nil (w : World) : w.push [] = w := by
  unfold World.push Conn.push
  rw [List.append_nil]

theorem World.push_push (w : World) (a b : Bytes) : (w.push a).push b = w.push (a ++ b) := by
  unfold World.push Conn.push
  rw [List.append_assoc]

/-- Everything that is asked for is read, unless the peer's stream ends before. -/
theorem returns_readFull (hfuel : 3 ≤ fuel) (n : Nat) :
    (readFull fuel .socket n).Returns (posix env)
      (fun r w' => w' = w.take n ∧
        r = if n ≤ w.conn.input.length then some (w.conn.input.take n) else none) w := by
  obtain ⟨fuel, rfl⟩ := Nat.exists_eq_add_of_le' hfuel
  unfold readFull readn
  by_cases hn : n = 0
  · subst hn
    refine ⟨_, _, rfl, ?_, ?_⟩
    · simp [World.take, Conn.take]
    · simp
  have hread : (readnLoop (.socket : Source TreePath) (fuel + 3) n []).Returns (posix env)
      (fun r w' => w' = w.take n ∧ r = some (w.conn.input.take n)) w := by
    rw [readnLoop, if_neg hn]
    refine returns_op_bind.mpr ?_
    change Returns (posix env) _ (if w.conn.input.take n = [] then _ else _) (w.take n)
    split_ifs with hnil
    · exact .ret ⟨rfl, by rw [hnil]⟩
    · rw [List.nil_append, List.length_take, readnLoop]
      split_ifs with hleft
      · exact .ret ⟨rfl, rfl⟩
      · have hend : (w.take n).conn.input = [] := by
          rw [World.take_conn, Conn.take_input, List.drop_eq_nil_iff]
          omega
        refine returns_op_bind.mpr ?_
        change Returns (posix env) _ (if (w.take n).conn.input.take _ = [] then _ else _)
          ((w.take n).take _)
        rw [hend, List.take_nil, if_pos rfl, World.take_of_input_nil hend]
        exact .ret ⟨rfl, rfl⟩
  apply hread.bind
  rintro r w' ⟨rfl, rfl⟩
  refine .ret ⟨rfl, ?_⟩
  have hlen : (w.conn.input.take n).length = n ↔ n ≤ w.conn.input.length := by
    rw [List.length_take]
    omega
  by_cases hle : n ≤ w.conn.input.length
  · simp [hle]
  · simp [hle]

/-- The valid header at the front of a byte string. -/
def headerAt (input : Bytes) : Option SyncHeader :=
  if headerSize ≤ input.length ∧ validateSyncHeader (.decode (input.take headerSize)) = .ok then
    some (.decode (input.take headerSize))
  else none

theorem headerAt_encode {h : SyncHeader} (hvalid : validateSyncHeader h = .ok) (rest : Bytes) :
    headerAt (h.encode ++ rest) = some h := by
  have htake : (h.encode ++ rest).take headerSize = h.encode := by
    rw [List.take_append_of_le_length (by simp), List.take_of_length_le (by simp)]
  have hdecode : SyncHeader.decode h.encode = h := by
    have hroundtrip := SyncHeader.decode_encode h []
    rwa [List.append_nil] at hroundtrip
  unfold headerAt
  rw [htake, hdecode, if_pos]
  refine ⟨?_, hvalid⟩
  rw [List.length_append, SyncHeader.length_encode]
  omega

theorem headerAt_short {input : Bytes} (h : input.length < headerSize) : headerAt input = none := by
  unfold headerAt
  rw [if_neg (fun h' => by omega)]

theorem returns_recvHeader (hfuel : 3 ≤ fuel) :
    (recvHeader fuel).Returns (posix env)
      (fun r w' => w' = w.take headerSize ∧ r = headerAt w.conn.input) w := by
  apply (returns_readFull hfuel headerSize).bind
  rintro r w' ⟨rfl, rfl⟩
  unfold headerAt
  by_cases hle : headerSize ≤ w.conn.input.length
  · simp only [hle, true_and]
    exact .ret ⟨rfl, rfl⟩
  · simp only [hle, false_and, if_false]
    exact .ret ⟨rfl, rfl⟩

theorem returns_writeFull (hfuel : 2 ≤ fuel) (buf : Bytes) :
    (writeFull fuel buf).Returns (posix env) (fun rc w' => w' = w.push buf ∧ rc = .ok) w := by
  obtain ⟨fuel, rfl⟩ := Nat.exists_eq_add_of_le' hfuel
  unfold writeFull
  rw [writenLoop]
  split_ifs with hnil
  · rw [hnil, World.push_nil]
    exact .ret ⟨rfl, rfl⟩
  · refine returns_op_bind.mpr ?_
    change Returns (posix env) _ (writenLoop (fuel + 1) (buf.drop buf.length)) (w.push buf)
    rw [List.drop_length, writenLoop, if_pos rfl]
    exact .ret ⟨rfl, rfl⟩

theorem returns_sendHeader (hfuel : 2 ≤ fuel) (header : SyncHeader) :
    (sendHeader fuel header).Returns (posix env)
      (fun rc w' => w' = w.push header.encode ∧ rc = .ok) w :=
  returns_writeFull hfuel header.encode

/-! ## Reading files -/

/-- The path names a regular file that holds `data`. -/
structure Readable (cwd : TreePath) (tree : Tree) (path data : Bytes) : Prop where
  ne_nil : path ≠ []
  names_file : asksForDir path = false
  content : tree.content (resolve cwd path) = some data

theorem posix_openRead {path data : Bytes} (h : Readable env.cwd w.tree path data) :
    posix env (.openFile path .readOnly) w = (.ok (resolve env.cwd path), w) := by
  have hlookup := FileTree.content_eq_some.mp h.content
  simp [posix, posixOpen, posixOpenRead, h.ne_nil, hlookup, h.names_file]

theorem posix_read {fd : TreePath} {data : Bytes} (h : w.tree.content fd = some data)
    (pos count : Nat) :
    posix env (.read fd pos count) w = (.ok ((data.drop pos).take count), w) := by
  have hlookup := FileTree.content_eq_some.mp h
  simp [posix, posixRead, hlookup]

theorem posix_lseek_neg {fd : TreePath} {pos : Int} (h : pos < 0) :
    posix env (.lseek fd pos) w = (.error .inval, w) :=
  Prod.ext (if_pos h) rfl

theorem posix_lseek {fd : TreePath} {pos : Int} (h : ¬ pos < 0) :
    posix env (.lseek fd pos) w = (.ok (), w) :=
  Prod.ext (if_neg h) rfl

theorem returns_hashFdLoop {fd : TreePath} {data : Bytes} (hdata : w.tree.content fd = some data)
    (pos : Nat) (hash : UInt64) (hfuel : data.length - pos < fuel) :
    (hashFdLoop fd fuel pos none hash).Returns (posix env)
      (fun h w' => w' = w ∧ h = (data.drop pos).foldl fnv1aStep hash) w := by
  induction fuel generalizing pos hash with
  | zero => omega
  | succ fuel ih =>
      rw [hashFdLoop, if_neg (by simp)]
      refine returns_op_bind.mpr ?_
      rw [posix_read hdata]
      simp only [Option.getD_none, min_self, Option.map_none]
      split_ifs with hnil
      · refine .ret ⟨rfl, ?_⟩
        rcases List.take_eq_nil_iff.mp hnil with h | h
        · exact absurd h (by decide)
        · rw [h]
          rfl
      · have hlen : 0 < ((data.drop pos).take ioBufSize).length := List.length_pos_of_ne_nil hnil
        apply (ih _ _ ?_).post
        · rintro h w' ⟨rfl, rfl⟩
          refine ⟨rfl, ?_⟩
          rw [← List.foldl_append, ← List.drop_drop, List.length_take]
          congr 1
          rcases Nat.le_total ioBufSize (data.drop pos).length with hle | hle
          · rw [Nat.min_eq_left hle, List.take_append_drop]
          · rw [Nat.min_eq_right hle, List.drop_length, List.append_nil,
              List.take_of_length_le hle]
        · rw [List.length_take, List.length_drop] at hlen ⊢
          omega

theorem returns_hashFileFnv1a {path data : Bytes} (h : Readable env.cwd w.tree path data)
    (hfuel : data.length < fuel) :
    (hashFileFnv1a fuel path).Returns (posix env)
      (fun hash w' => w' = w ∧ hash = hashBufferFnv1a data) w := by
  refine returns_op_bind.mpr ?_
  rw [posix_openRead h]
  have hloop : (hashFdRange fuel (resolve env.cwd path) 0 none).Returns (posix env) _ w :=
    returns_hashFdLoop h.content 0 fnv1a64OffsetBasis (by omega)
  apply hloop.bind
  rintro hash w' ⟨rfl, rfl⟩
  exact returns_op_bind.mpr (.ret ⟨rfl, rfl⟩)

end FaultFree

end MiniSync
