/-
  The life of one data-plane node after its start: every handler and every operation of `States`, in
  any order.
-/
import DsDns.Transition
import DsDns.DataPlane.Server

namespace DsDns

/-- What one `readline` of a connection leaves after stripping: a text without line breaks. -/
abbrev Line := { s : Str // '\n' ∉ s ∧ '\r' ∉ s }

/-- What can happen to a node. -/
inductive NodeEvent where
  /-- A line on the sync port, at its time. -/
  | beat (line : Line) (now : Time)
  /-- One turn of `raftHeart`. -/
  | tick (now : Time)
  /-- A line on the write port. -/
  | write (line : Line)
  /-- A read that no node can answer and that `gethostbyname` resolves to `ip`. -/
  | newRecord (domain ip : Line)
  | addNodes (ip : Str)
  | removeNode (ip : Str)
  | updateRank (rank lastRank : ℤ)

/-- An event of the life of a node, or `setLeaderIp`, which no handler calls. -/
inductive StateEvent where
  | node (e : NodeEvent)
  | setLeaderIp (ip : Str)

variable [Unicode]

/-- The node after one event. -/
def Node.step (n : Node) : NodeEvent → Node
  | .beat line now => n.beatHandler line now
  | .tick now => n.raftHeart now
  | .write line => (n.writeHandler line).1
  | .newRecord domain ip => (n.newRecord (fun _ => some ip.val) domain).1
  | .addNodes ip => { n with states := n.states.addNodes ip }
  | .removeNode ip => { n with states := n.states.removeNode ip }
  | .updateRank rank lastRank => { n with states := n.states.updateRank rank lastRank }

/-- The node after one operation. -/
def Node.stateStep (n : Node) : StateEvent → Node
  | .node e => n.step e
  | .setLeaderIp ip => { n with states := n.states.setLeaderIp ip }

end DsDns
