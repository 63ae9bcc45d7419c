import MiniSync.Resume.Connection

/-!
# Connections of one request

A client that sends one message with a path, and maybe more bytes for its handler,
gets one answer, after which the server closes the connection.
-/

namespace MiniSync

open Prog

section Request

variable {env : Env} {fuel : Nat} {root log path rest : Bytes}
  {header : SyncHeader} {Q : Rc → World → Prop}

/-- Requests after which the server closes the connection. -/
def IsLast (header : SyncHeader) : Prop :=
  header.msg_type ∉ [msgExit, msgHello, msgQueryOffset]

theorem returns_singleRequest {w : World} (hvalid : validateSyncHeader header = .ok)
    (hpath : header.path_len.toNat = path.length) (hne : path ≠ [])
    (hfits : path.length ≤ maxNetPath) (hlast : IsLast header) (hfuel : 4 ≤ fuel)
    (hinput : w.conn.input = header.encode ++ (path ++ rest))
    (hdispatch : ∀ w', w'.tree = w.tree → w'.conn.input = rest →
      w'.conn.output = w.conn.output →
        (dispatch fuel root header path (lastRelPath header path [])).Returns (posix env) Q w') :
    (serverHandleConnection fuel root log).Returns (posix env) Q w := by
  obtain ⟨fuel, rfl⟩ : ∃ f, fuel = f + 1 := ⟨fuel - 1, by omega⟩
  unfold IsLast at hlast
  simp only [List.mem_cons, List.not_mem_nil, or_false, not_or] at hlast
  obtain ⟨hexit, hhello, hquery⟩ := hlast
  have hpos : header.path_len ≠ 0 := by
    intro h0
    rw [h0] at hpath
    exact hne (List.length_eq_zero_iff.mp hpath.symm)
  have hlong : ¬ (path.length ≥ maxNetPath + 1 ∨ path.length > maxNetPath) := by omega
  unfold serverHandleConnection
  rw [serverHandleConnectionLoop]
  apply (returns_recvHeader (by omega)).bind
  rintro r w1 ⟨rfl, rfl⟩
  rw [hinput, headerAt_encode hvalid]
  unfold recvRelPath recvPath
  simp only [if_neg hexit, if_neg hpos, hpath, if_neg hlong]
  have hinput1 : (w.take headerSize).conn.input = path ++ rest := by
    rw [World.take_conn, Conn.take_input, hinput, ← SyncHeader.length_encode header, List.drop_left]
  apply (returns_readFull (by omega) path.length).bind
  rintro r w2 ⟨rfl, rfl⟩
  have hall : path.length ≤ (path ++ rest).length := by
    rw [List.length_append]
    omega
  rw [hinput1, if_pos hall, List.take_left]
  have hinput2 : ((w.take headerSize).take path.length).conn.input = rest := by
    rw [World.take_conn, Conn.take_input, hinput1, List.drop_left]
  simp only
  apply (hdispatch ((w.take headerSize).take path.length) rfl hinput2 rfl).bind
  intro rc w3 hQ
  refine returns_op_bind.mpr ?_
  cases rc with
  | err => exact .ret hQ
  | ok =>
      simp only [reduceCtorEq, if_false]
      rw [if_pos ⟨hhello, hquery⟩]
      exact .ret hQ

end Request

end MiniSync
