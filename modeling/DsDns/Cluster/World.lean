/-
  Several data-plane nodes and the network between them.

  `_send_raw` opens a connection per message, so messages in flight are a list from which the network
  takes any one: `deliver` hands it to its node, `lose` drops it. A handler runs to its end in one
  step (`act`) and what it sent joins the messages in flight.
-/
import DsDns.DataPlane.Lifetime

namespace DsDns

/-- The nodes that are up, by address, and the messages in flight. -/
structure World where
  node : Str → Option Node
  net : List Packet

/-- The node `ip` runs a handler. Nothing happens if it is down. -/
def World.act (w : World) (ip : Str) (handler : Node → Node) : World :=
  match w.node ip with
  | none => w
  | some n =>
    -- The outbox is emptied first, so that it holds what this handler sends.
    let m := handler { n with outbox := [] }
    { node := fun x => if x = ip then some m else w.node x
      net := w.net ++ m.outbox }

/-- The message number `k` gets lost. -/
def World.lose (w : World) (k : ℕ) : World := { w with net := w.net.eraseIdx k }

/-- The update of the line `1;line`. -/
def lineUpdate (line : Str) : Str := (split ';' (rstrip line)).headD []

variable [Unicode]

/-- A node handles one message: the port decides which server gets it. -/
def Node.receive (n : Node) (p : Packet) (now : Time) : Node :=
  if p.port = 9000 then n.handleWrite p.text
  else if p.port = 7001 then n.handleSync p.text now
  else n

/-- The message number `k` arrives at the time `now`. -/
def World.deliver (w : World) (k : ℕ) (now : Time) : World :=
  match w.net[k]? with
  | none => w
  | some p => (w.lose k).act p.dst fun n => n.receive p now

/-- What can happen in a cluster of running nodes. Lines that no node sends (a type 4, a type 2 or 3 of a client) are
added in `DsDns.Cluster.Volumes`. -/
inductive ClusterEvent where
  /-- A client sends a new write `1;line` to the node `ip`. -/
  | write (ip : Str) (line : Line)
  /-- A read makes the node `ip` resolve `domain`, and `gethostbyname` returns `answer`. -/
  | newRecord (ip : Str) (domain answer : Line)
  /-- One turn of `raftHeart` at the node `ip`. -/
  | tick (ip : Str) (now : Time)
  | deliver (k : ℕ) (now : Time)
  | lose (k : ℕ)

/-- The cluster after one event. -/
def World.step (w : World) : ClusterEvent → World
  | .write ip line => w.act ip fun n => (n.writeHandler ('1' :: ';' :: line.val)).1
  | .newRecord ip domain answer =>
    w.act ip fun n => (n.newRecord (fun _ => some answer.val) domain.val).1
  | .tick ip now => w.act ip fun n => n.raftHeart now
  | .deliver k now => w.deliver k now
  | .lose k => w.lose k

end DsDns
