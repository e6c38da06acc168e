/-
  One client read on its way through a cluster that goes on living.

  `resolve` runs a read in one go. Here the read takes one step at a time, and between two steps
  anything may happen at any node. `onRead` is what `handle_read` does with a line up to the next
  message it sends; a forward is a line that arrives at the leader's address, and a fan-out asks one
  peer per step. A peer that does not answer within the two seconds of `sendRead` is a `late` step.

  The nodes that have forwarded the read do nothing but pass its answer back (`relayed`), so what
  happens there, also when one of them gives up after its five seconds, is no part of the steps.
-/
import DsDns.Cluster.Life
import DsDns.DataPlane.Server

namespace DsDns

/-- What `handle_read` does with one line, up to the next message it sends. -/
inductive ReadAction where
  | reply (answer : Str)
  /-- `sendRead`: ask the peers in this order, and resolve the domain if none knows it. -/
  | ask (domain : Str) (peers : List Str)
  /-- `_forward_to_leader`. -/
  | forward (domain leaderIp : Str)

/-- Where the read is. -/
inductive ReadPhase where
  /-- A line is sent to the address `ip`. -/
  | arriving (ip text : Str)
  /-- The leader `ip` still has to ask these peers. -/
  | asking (ip domain : Str) (peers : List Str)
  /-- The last node on the way has its answer. -/
  | answered (answer : Str)

/-- A cluster and one read in it, with the nodes that have handled the read so far and the peers that
were asked for it. -/
structure ReadWorld where
  cluster : Cluster
  phase : ReadPhase
  visited : List Str
  lookups : List Str

/-- What can happen. -/
inductive ReadEvent where
  /-- An event of the life of the node `ip`. -/
  | node (ip : Str) (e : NodeEvent)
  /-- The next step of the read. -/
  | go
  /-- The next step of the read; a peer that is asked in it does not answer in time. -/
  | late

/-- Whether the event is a step of the read. -/
def ReadEvent.isGo : ReadEvent → Bool
  | .node _ _ => false
  | .go => true
  | .late => true

/-- The forwards between the nodes that have handled the read. -/
def ReadWorld.forwards (w : ReadWorld) : ℕ := w.visited.length - 1

/-- A client sends the line `text` to the node `ip`. -/
def ReadWorld.start (cl : Cluster) (ip text : Str) : ReadWorld where
  cluster := cl
  phase := .arriving ip text
  visited := []
  lookups := []

namespace Node

/-- The nodes `sendRead` asks. -/
def peers (n : Node) : List Str := n.states.nodes.keys.filter fun ip => ip ≠ n.states.selfIp

variable [Unicode]

/-- `Server.handle_read` on one line, with `Server._resolve`. -/
def onRead (n : Node) (text : Str) : ReadAction :=
  let line := strip text
  if line = [] then .reply notAvailable
  -- A peer answers from its own records and asks nobody.
  else if startsWith line "PEER:".toList then .reply (n.localLookup (line.drop 5))
  else if n.localLookup line ≠ notAvailable then .reply (n.localLookup line)
  else if n.raft.leader then .ask line n.peers
  else .forward line n.states.leaderIp

end Node

namespace ReadWorld

variable [Unicode] (gethostbyname : Str → Option Str)

/-- The line arrives. A connection that cannot be opened makes the sender answer `N/A`. -/
def arrive (w : ReadWorld) (ip text : Str) : ReadWorld :=
  match w.cluster ip with
  | none => { w with phase := .answered notAvailable }
  | some n =>
    { w with
      visited := w.visited ++ [ip]
      phase :=
        match n.onRead text with
        | .reply answer => .answered answer
        | .ask domain peers => .asking ip domain peers
        -- The line may find the leader changed when it arrives.
        | .forward domain leaderIp => .arriving leaderIp (domain ++ ['\n']) }

/-- One peer is asked. -/
def ask (w : ReadWorld) (ip domain peer : Str) (peers : List Str) : ReadWorld :=
  { w with
    lookups := w.lookups ++ [peer]
    phase :=
      match Node.askPeer w.cluster domain peer with
      | none => .asking ip domain peers
      | some response =>
        if response ≠ [] ∧ response ≠ notAvailable then .answered response
        else .asking ip domain peers }

omit [Unicode] in
/-- One peer is asked and does not answer in time. -/
def miss (w : ReadWorld) (ip domain peer : Str) (peers : List Str) : ReadWorld :=
  { w with lookups := w.lookups ++ [peer], phase := .asking ip domain peers }

/-- No peer knew the domain: the leader resolves it. -/
def giveUp (w : ReadWorld) (ip domain : Str) : ReadWorld :=
  match w.cluster ip with
  | none => { w with phase := .answered notAvailable }
  | some n =>
    let r := n.newRecord gethostbyname domain
    { w with cluster := w.cluster.set ip r.1, phase := .answered r.2 }

/-- The world after one event. -/
def step (w : ReadWorld) : ReadEvent → ReadWorld
  | .node ip e => { w with cluster := w.cluster.step (ip, e) }
  | .go =>
    match w.phase with
    | .arriving ip text => w.arrive ip text
    | .asking ip domain (peer :: peers) => w.ask ip domain peer peers
    | .asking ip domain [] => w.giveUp gethostbyname ip domain
    | .answered _ => w
  | .late =>
    match w.phase with
    | .arriving ip text => w.arrive ip text
    | .asking ip domain (peer :: peers) => w.miss ip domain peer peers
    | .asking ip domain [] => w.giveUp gethostbyname ip domain
    | .answered _ => w

end ReadWorld

/-- What `_forward_to_leader` makes of the answer of the leader, which comes as a line, in time or not. -/
def relayed (inTime : Bool) (answer : Str) : Str :=
  if inTime then
    let response := strip (firstLine (answer ++ ['\n']))
    if response = [] then notAvailable else response
  else notAvailable

/-- What comes back to the client, if the nodes on the way back get their answers in time or not. -/
def comesBack (answer : Str) (inTime : List Bool) : Str := run (fun a t => relayed t a) answer inTime

end DsDns
