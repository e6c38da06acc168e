/-
  One leader and one follower: the writes the leader starts and the replication messages the
  follower receives, in an order the network chooses.

  Every message `2;num;update` travels on its own connection, so what the follower handles is any
  permutation of the messages sent to it (`inbox`).
-/
import DsDns.DataPlane.Server

namespace DsDns

/-- A write the leader starts: a line `1;update` on port 9000, or the live resolution of a domain
by `newRecord`, where `ip` is what `gethostbyname` returns. -/
inductive Start where
  | line (update : Str)
  | resolve (domain ip : Str)
  deriving DecidableEq

/-- The update text that is logged and replicated. `handle_write` strips the line. -/
def Start.update : Start → Str
  | .line update => rstrip update
  | .resolve domain ip => domain ++ ",A,".toList ++ ip

/-- The updates of a sequence of starts that are started indeed: `newRecord` starts nothing before
the writer is linked to its coordinator, which the first line on port 9000 does. -/
def startedUpdates (linked : Bool) : List Start → List Str
  | [] => []
  | .line update :: starts => (Start.line update).update :: startedUpdates true starts
  | .resolve domain ip :: starts =>
    if linked then (Start.resolve domain ip).update :: startedUpdates true starts
    else startedUpdates false starts

/-- The texts that were sent to port 9000 of the node `ip`. -/
def inbox (ip : Str) (net : List Packet) : List Str :=
  (net.filter fun p => p.dst = ip ∧ p.port = 9000).map Packet.text

variable [Unicode]

/-- The leader handles one start. -/
def Start.run (n : Node) : Start → Node
  | .line update => n.handleWrite ('1' :: ';' :: (update ++ ['\n']))
  | .resolve domain ip => (n.newRecord (fun _ => some ip) domain).1

/-- The leader handles a sequence of starts. -/
def runStarts (n : Node) (starts : List Start) : Node := starts.foldl Start.run n

/-- The follower handles the messages in the order of their arrival. -/
def deliverAll (n : Node) (delivered : List Str) : Node := delivered.foldl Node.handleWrite n

end DsDns
