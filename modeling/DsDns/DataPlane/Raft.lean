/-
  `data_plane/raft/_raft.py`: leader election by heartbeat, and the sending side of replication.

  `beatHandler` takes the time at which it runs, `raftHeart` is one turn of the endless loop at the
  reading `now` of the clock.
-/
import DsDns.DataPlane.Ipv4
import DsDns.DataPlane.Node

namespace DsDns

variable [Unicode]

omit [Unicode] in
/-- The fields of a heartbeat `leaderIp;rank;lastRank`, with the ranks as `int` reads them; `none` covers the
messages that `beatHandler` gives up on before it registers the sender. -/
def parseBeatWith (int : Str → Option ℤ) (beat : Str) : Option (Str × ℤ × ℤ) :=
  match split ';' (strip beat) with
  | leaderIp :: rank :: lastRank :: _ => do
    let rank ← int rank
    let lastRank ← int lastRank
    some (leaderIp, rank, lastRank)
  | _ => none

/-- The heartbeats of an interpreter that reads integers of any length. -/
def parseBeat (beat : Str) : Option (Str × ℤ × ℤ) := parseBeatWith parseInt beat

omit [Unicode] in
/-- The heartbeat for a node of rank `rank`: `f'{selfIp};{rank};{lastRank}\n'`. -/
def beatText (selfIp : Str) (rank lastRank : ℤ) : Str :=
  selfIp ++ ';' :: (intStr rank ++ ';' :: (intStr lastRank ++ ['\n']))

omit [Unicode] in
/-- The comparison of `beatHandler`: both addresses can be read and the first is greater. -/
def outranks (l m : Str) : Bool :=
  match ipv4 l, ipv4 m with
  | some ldIp, some myIp => myIp < ldIp
  | _, _ => false

namespace Node

/-- `Raft.__init__` at the time `now`. -/
def initRaft (states : States) (now : Time) : Raft where
  currLogNum := 0
  followerCount := states.nodes.length - 1
  leader := true
  beatSent := false
  lastBeatReceived := now
  nextBeatTime := now + beatInterval

/-- The part of `beatHandler` that registers the sender. -/
def registerSender (n : Node) (leaderIp : Str) : Node :=
  let states :=
    if n.states.nodes.contains leaderIp then n.states
    else { n.states with
      mLastRank := n.states.mLastRank + 1
      nodes := n.states.nodes.set leaderIp (n.states.mLastRank + 1) }
  { n with states := states, raft := { n.raft with followerCount := states.nodes.length - 1 } }

/-- The part of `beatHandler` that follows a higher address. -/
def followHigher (n : Node) (leaderIp : Str) (ldIp myIp : ℕ) : Node :=
  if myIp < ldIp then
    { n with
      states := { n.states with leaderIp := leaderIp }
      raft := { n.raft with leader := false } }
  else n

/-- The part of `beatHandler` that takes over the shard assignment. -/
def adoptRank (n : Node) (rank lastRank : ℤ) : Node :=
  if n.states.rank ≠ rank ∨ n.states.lastRank ≠ lastRank then
    { n with states := n.states.updateRank rank lastRank }
  else n

omit [Unicode] in
/-- `Raft.beatHandler` at the time `now`, with the ranks as `int` reads them. -/
def beatHandlerWith (int : Str → Option ℤ) (n : Node) (beat : Str) (now : Time) : Node :=
  -- Any line resets the timer, also one that is no heartbeat.
  let n := { n with raft := { n.raft with lastBeatReceived := now } }
  match parseBeatWith int beat with
  | none => n
  | some (leaderIp, rank, lastRank) =>
    let n := n.registerSender leaderIp
    match ipv4 leaderIp, ipv4 n.states.leaderIp with
    -- The ranks are taken over from lower senders too.
    | some ldIp, some myIp => (n.followHigher leaderIp ldIp myIp).adoptRank rank lastRank
    | _, _ => n

/-- `Raft.beatHandler` of an interpreter that reads integers of any length. -/
def beatHandler (n : Node) (beat : Str) (now : Time) : Node := n.beatHandlerWith parseInt beat now

omit [Unicode] in
/-- `Raft.sendBeat`. -/
def sendBeat (n : Node) : Node :=
  { n with
    raft := { n.raft with beatSent := true }
    outbox := n.outbox ++
      ((n.states.nodes.entries.filter fun e => e.1 ≠ n.states.selfIp).map
        fun e => ⟨e.1, 7001, beatText n.states.selfIp e.2 n.states.lastRank⟩) }

omit [Unicode] in
/-- The state changes of a leader timeout in `raftHeart`, up to the heartbeat it sends. -/
def promote (n : Node) : Node :=
  -- The silent leader leaves the map, and the ranks are given out anew.
  let s := n.states.removeNode n.states.leaderIp
  let s := { s with leaderIp := s.selfIp }
  { n with
    states := s.updateRank ((s.nodes.get? s.selfIp).getD 1) s.lastRank
    raft := { n.raft with leader := true } }

omit [Unicode] in
/-- The periodic heartbeat of `raftHeart`. -/
def periodicBeat (n : Node) (now : Time) : Node :=
  if n.raft.nextBeatTime ≤ now then
    -- A follower only moves its timer on.
    let n := if n.raft.leader then n.sendBeat else n
    { n with raft := { n.raft with nextBeatTime := now + beatInterval } }
  else n

omit [Unicode] in
/-- One turn of `Raft.raftHeart` at the time `now`. -/
def raftHeart (n : Node) (now : Time) : Node :=
  let n := n.periodicBeat now
  if n.raft.leader = false ∧ leaderDead ≤ now - n.raft.lastBeatReceived then
    -- This heartbeat is sent whether or not one was due.
    let n := n.promote.sendBeat
    { n with raft := { n.raft with nextBeatTime := now + beatInterval, lastBeatReceived := now } }
  else n

omit [Unicode] in
/-- The condition of the leader timeout in `raftHeart`. -/
def TimedOut (n : Node) (now : Time) : Prop :=
  n.raft.leader = false ∧ leaderDead ≤ now - n.raft.lastBeatReceived

omit [Unicode] in
instance (n : Node) (now : Time) : Decidable (n.TimedOut now) := inferInstanceAs (Decidable (_ ∧ _))

/-- `Raft.sendLog`; `int(num)` may raise. -/
def sendLog (n : Node) (log num : Str) : Node × Exit :=
  match parseInt num with
  | none => (n, .raised)
  -- The number that is sent becomes the current one, whatever was given away since.
  | some k =>
    (({ n with raft := { n.raft with currLogNum := k } } : Node).sendToFollower 9000
      ('2' :: ';' :: log), .ok)

omit [Unicode] in
/-- `Raft.sendAck`. -/
def sendAck (n : Node) (num : Str) : Node :=
  if n.raft.leader then n
  else n.sendRaw n.states.leaderIp 9000 ('3' :: ';' :: (num ++ ['\n']))

/-- `Server.handle_sync`: every non-blank line of the connection is a heartbeat. -/
def handleSync (n : Node) (text : Str) (now : Time) : Node :=
  (readLines text).foldl (fun n line =>
    if strip line = [] then n else n.beatHandler (strip line) now) n

end Node

end DsDns
