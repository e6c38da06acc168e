/-
  The record directories of a cluster, and lines on the write ports that come from no node.

  `docker_compose.yml` mounts one project directory into all nodes, so that `../records` is one directory;
  nodes on machines of their own have one each. A `Mount` names the directory of every node, and a handler
  that has run leaves its files to all nodes of its directory. No node sends a line of type 1 or 4, but the
  write port is open: `OpenEvent.line` is any line from outside.
-/
import DsDns.Cluster.World

namespace DsDns

/-- The record directory of each node. -/
abbrev Mount := Str → Str

/-- The nodes that share the directory of the node `ip` find the files as `ip` has them. -/
def World.remount (mount : Mount) (w : World) (ip : Str) : World :=
  match w.node ip with
  | none => w
  | some m =>
    { w with node := fun x =>
        (w.node x).map fun n => if mount x = mount ip then { n with disk := m.disk } else n }

/-- Nodes of one directory see the same files. -/
def Mounted (mount : Mount) (w : World) : Prop :=
  ∀ x y n m, mount x = mount y → w.node x = some n → w.node y = some m → n.disk = m.disk

/-- What can happen in a cluster whose write ports are open to everybody. -/
inductive OpenEvent where
  | inside (e : ClusterEvent)
  /-- A line from outside on the write port of the node `ip`. -/
  | line (ip : Str) (line : Line)

/-- The node that runs a handler in an event. -/
def World.host (w : World) : OpenEvent → Option Str
  | .inside (.write ip _) => some ip
  | .inside (.newRecord ip _ _) => some ip
  | .inside (.tick ip _) => some ip
  | .inside (.deliver k _) => (w.net[k]?).map Packet.dst
  | .inside (.lose _) => none
  | .line ip _ => some ip

variable [Unicode]

/-- The handler an event runs. -/
def World.serve (w : World) : OpenEvent → World
  | .inside e => w.step e
  | .line ip line => w.act ip fun n => (n.writeHandler line.val).1

/-- The cluster after one event, with the files where the directories are. -/
def World.openStep (mount : Mount) (w : World) (e : OpenEvent) : World :=
  match w.host e with
  | none => w.serve e
  | some ip => (w.serve e).remount mount ip

end DsDns
