/-
  The write protocol with its handlers cut where other messages can come between.

  `writeStarter` logs an update, sends it to the followers, and only then runs `commitHandler`; while
  it sends, other threads handle other messages. So a write is two steps here: `announce`, and later
  the `commit` of the same handler. Together they are the type-1 branch of `writeHandler`
  (`Node.startWrite_eq`).
-/
import DsDns.Cluster.World
import DsDns.DataPlane.Message

namespace DsDns

/-- A cluster in the middle of its writes. The last three fields record what has happened: the commits
that announced writes still have to make, the entries nodes have handled as replicas, and the updates
nodes have applied to their record file and records. -/
structure WriteState where
  world : World
  pending : List (Str × Str)
  handled : List (Str × Str)
  applied : List (Str × Str × Str)

/-- One step of the write protocol. -/
inductive WriteEvent where
  /-- The node `ip` handles `1;line` up to its commit. -/
  | announce (ip : Str) (line : Line)
  /-- The handler of the write `num` at the node `ip` goes on to its commit. -/
  | commit (ip num : Str)
  | deliver (k : ℕ) (now : Time)
  | lose (k : ℕ)

/-- The node and the number of a copy of an entry that arrives as message `k`. -/
def World.replicaAt (w : World) (k : ℕ) : Option (Str × Str) :=
  match w.net[k]? with
  | none => none
  | some p =>
    match w.node p.dst, Node.parseWrite p.text with
    | some _, .replica num _ => if p.port = 9000 then some (p.dst, num) else none
    | _, _ => none

variable [Unicode]

/-- The update the node applies when it commits the entry `num`. -/
def Node.applies (n : Node) (num : Str) : Option Str :=
  (n.writer.logs num).filter fun u => (Node.committed n.disk u).isSome

/-- The update the node `ip` applies when it commits the entry `num`. -/
def World.applies (w : World) (ip num : Str) : Option Str :=
  (w.node ip).bind fun n => n.applies num

/-- The state after one step. A commit without an announced write does not happen. -/
def WriteState.step (s : WriteState) : WriteEvent → WriteState
  | .announce ip line =>
    match s.world.node ip with
    | none => s
    | some n =>
      { s with
        world := s.world.act ip fun n => n.link.announce (lineUpdate line.val)
        pending := (ip, n.nextNum) :: s.pending }
  | .commit ip num =>
    if (ip, num) ∈ s.pending then
      { s with
        world := s.world.act ip fun n => (n.commitHandler num).1
        pending := s.pending.erase (ip, num)
        -- The commit asks nobody whether the entry has arrived.
        applied := ((s.world.applies ip num).map fun u => (ip, num, u)).toList ++ s.applied }
    else s
  | .deliver k now =>
    { s with
      world := s.world.deliver k now
      handled := (s.world.replicaAt k).toList ++ s.handled }
  | .lose k => { s with world := s.world.lose k }

end DsDns
