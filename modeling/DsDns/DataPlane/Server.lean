/-
  `data_plane/main.py` and the read side of `data_plane/server.py`.

  A read may visit several nodes: the one that receives it, its leader, and the peers the leader
  asks. `Cluster` gives the reachable nodes by address, and `resolve` is `Server._resolve` at one of
  them. Forwarding to the leader runs the leader's `handle_read`, so `resolve` recurses across
  nodes; nothing in the code bounds the number of hops, and the model counts them with fuel (`none`
  is out of fuel).
-/
import DsDns.DataPlane.Writer

namespace DsDns

/-- The reachable nodes, by address. -/
abbrev Cluster := Str → Option Node

/-- No letter has two owners. -/
def Cluster.Disjoint (cl : Cluster) : Prop :=
  ∀ i j n m, cl i = some n → cl j = some m → i ≠ j → ∀ l ∈ n.states.selfRecords, l ∉ m.states.selfRecords

/-- **The shards are a partition**: no letter has two owners, and the letters that have one are those of
the alphabet. -/
def Cluster.Partitioned (cl : Cluster) : Prop :=
  cl.Disjoint ∧ ∀ l, l ∈ letters alphabet ↔ ∃ i n, cl i = some n ∧ l ∈ n.states.selfRecords

/-- Replace one node. -/
def Cluster.set (cl : Cluster) (ip : Str) (n : Node) : Cluster :=
  fun x => if x = ip then some n else cl x

/-- The answer that stands for no record. -/
def notAvailable : Str := "N/A".toList

/-- `s.recv(limit).decode()` when the whole text has arrived; `none` when the cut falls inside a
character. -/
def recv : ℕ → Str → Option Str
  | _, [] => some []
  | limit, c :: s =>
    if c.utf8Size ≤ limit then (recv (limit - c.utf8Size) s).map (c :: ·)
    else if limit = 0 then some []
    else none

/-- `f.readline()` on a text. -/
def firstLine (text : Str) : Str := (readLines text).headD []

/-- `main`: `States()`, `Reader(states)`, `Writer(states)` and `Raft(states)`. The reader walks the
set of owned letters in the order `heads`. -/
def Node.main (selfIp : Str) (files : List (Option Str)) (disk : Disk) (heads : List Str)
    (now : Time) : Node :=
  let states := States.init selfIp files
  { states := { states with records := loadShards disk heads }
    raft := Node.initRaft states now
    writer := { logs := fun _ => none, logAck := fun _ => 0, linked := false }
    disk := disk
    outbox := [] }

variable [Unicode]

namespace Node

/-- `Server._local_lookup`. -/
def localLookup (n : Node) (domain : Str) : Str :=
  if n.states.owns domain then n.states.recordResponse domain ['A'] else notAvailable

/-- The answer of `Server.handle_read` to a line `PEER:domain`. -/
def handlePeer (n : Node) (line : Str) : Str := n.localLookup ((strip line).drop 5) ++ ['\n']

/-- One turn of the loop of `Raft.sendRead`; `none` is the exception it catches. -/
def askPeer (cl : Cluster) (domain ip : Str) : Option Str := do
  let peer ← cl ip
  let response ← recv 4096 (peer.handlePeer ("PEER:".toList ++ domain ++ ['\n']))
  some (strip response)

/-- The loop of `Raft.sendRead` over the other nodes of the map. -/
def sendReadTo (cl : Cluster) (domain : Str) : List Str → Str
  | [] => notAvailable
  | ip :: ips =>
    match askPeer cl domain ip with
    | none => sendReadTo cl domain ips
    | some response =>
      if response ≠ [] ∧ response ≠ notAvailable then response else sendReadTo cl domain ips

/-- `Raft.sendRead`. -/
def sendRead (n : Node) (cl : Cluster) (domain : Str) : Str :=
  if n.raft.leader then
    sendReadTo cl domain (n.states.nodes.keys.filter fun ip => ip ≠ n.states.selfIp)
  else notAvailable

end Node

/-- One line on the read port of the node `n`; `answer` is its `_resolve`. -/
def handleRead (answer : Str → Option (Str × Cluster)) (cl : Cluster) (n : Node) (text : Str) :
    Option (Str × Cluster) :=
  let line := strip text
  if line = [] then some (notAvailable ++ ['\n'], cl)
  else if startsWith line "PEER:".toList then some (n.handlePeer text, cl)
  else (answer line).map fun r => (r.1 ++ ['\n'], r.2)

/-- `Server._resolve` at the node `ip`, with `Server._forward_to_leader` as its last branch. -/
def resolve (gethostbyname : Str → Option Str) : ℕ → Cluster → Str → Str → Option (Str × Cluster)
  | 0, _, _, _ => none
  | fuel + 1, cl, ip, domain =>
    match cl ip with
    | none => some (notAvailable, cl)
    | some n =>
      if n.localLookup domain ≠ notAvailable then some (n.localLookup domain, cl)
      -- A leader asks its peers first, then the resolver.
      else if n.raft.leader then
        if n.sendRead cl domain ≠ notAvailable then some (n.sendRead cl domain, cl)
        else
          let r := n.newRecord gethostbyname domain
          some (r.2, cl.set ip r.1)
      else
        -- A follower asks the node it takes for its leader.
        match cl n.states.leaderIp with
        | none => some (notAvailable, cl)
        | some leader =>
          let answer := fun line => resolve gethostbyname fuel cl n.states.leaderIp line
          (handleRead answer cl leader (domain ++ ['\n'])).map fun r =>
            let response := strip (firstLine r.1)
            (if response = [] then notAvailable else response, r.2)

end DsDns
