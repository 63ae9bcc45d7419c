import MiniSync.FaultFree
import MiniSync.Server

/-!
# Sessions

One connection between a client and the server, without faults on either side.
The network may cut off what the client sends.
-/

namespace MiniSync

/-- The bytes `answer` arrive, whatever is sent. -/
def hearing (answer : Bytes) : Conn := ⟨fun _ => answer, 0, []⟩

/-- The end of a connection at which `peer` listens and sends. -/
def connectedTo (peer : Bytes → Bytes) : Conn := ⟨peer, 0, []⟩

/-- What a client has sent once it has received `answer`.  A client of the program
sends nothing after a receive has failed, so this is also what it has sent while
it waits for more. -/
def sentBy (env : Env) (client : Sys TreePath Rc) (source : Tree) (answer : Bytes) : Bytes :=
  match client.run (posix env) ⟨source, hearing answer⟩ with
  | some (_, w) => w.conn.output
  | none => []

/-- The server of a store, the machine it runs on, and its files for paths and logs. -/
structure ServerSite where
  env : Env
  root : Bytes
  log_path : Bytes

/-- A client with its files, and the machine it runs on. -/
structure ClientSite where
  env : Env
  source : Tree

/-- What the client returns, and the store afterwards.  Of what the client sends,
`wire` arrives. -/
def session (fuel : Nat) (server : ServerSite) (site : ClientSite) (wire : Bytes → Bytes)
    (client : Sys TreePath Rc) (store : Tree) : Option (Rc × Tree) := do
  let peer := fun answer => wire (sentBy site.env client site.source answer)
  let served ← (serverHandleConnection fuel server.root server.log_path).run (posix server.env)
    ⟨store, connectedTo peer⟩
  let sent ← client.run (posix site.env) ⟨site.source, hearing served.2.conn.output⟩
  return (sent.1, served.2.tree)

/-- A session on both of whose sides the runs are known. -/
theorem session_eq {fuel : Nat} {server : ServerSite} {site : ClientSite} {wire : Bytes → Bytes}
    {client : Sys TreePath Rc} {store : Tree} {result : Bytes → Rc} {sends : Bytes → Bytes}
    {Q : Rc → World → Prop}
    (hclient : ∀ answer, client.Returns (posix site.env)
      (fun rc w => rc = result answer ∧ w.conn.output = sends answer)
      ⟨site.source, hearing answer⟩)
    (hserver : (serverHandleConnection fuel server.root server.log_path).Returns
      (posix server.env) Q ⟨store, connectedTo fun answer => wire (sends answer)⟩) :
    ∃ answer store', session fuel server site wire client store = some (result answer, store') ∧
      ∃ rc conn, conn.output = answer ∧ Q rc ⟨store', conn⟩ := by
  have hpeer : (fun answer => wire (sentBy site.env client site.source answer)) =
      fun answer => wire (sends answer) := by
    funext answer
    obtain ⟨rc, w, hrun, -, hout⟩ := hclient answer
    unfold sentBy
    rw [hrun, ← hout]
  obtain ⟨rc, w, hrun, hQ⟩ := hserver
  obtain ⟨rc', w', hrun', hrc, -⟩ := hclient w.conn.output
  refine ⟨w.conn.output, w.tree, ?_, rc, w.conn, rfl, hQ⟩
  unfold session
  simp only [hpeer, hrun, Option.bind_eq_bind, Option.bind_some]
  rw [hrun', ← hrc]
  rfl

end MiniSync
