/-
  The life of one node as its election timer sees it: heartbeats from other nodes and turns of
  `raftHeart`, each at its time.
-/
import DsDns.Transition
import DsDns.DataPlane.Server

namespace DsDns

/-- What the timer sees: a message on the sync port, or one turn of the loop. -/
inductive TimerEvent where
  | beat (text : Str)
  | tick
  deriving DecidableEq

variable [Unicode]

/-- The node handles one event at its time. -/
def Node.timerStep (n : Node) (e : Time × TimerEvent) : Node :=
  match e.2 with
  | .beat text => n.beatHandler text e.1
  | .tick => n.raftHeart e.1

/-- The sender field of a well-formed heartbeat. -/
def TimerEvent.sender : TimerEvent → Option Str
  | .beat text => (parseBeat text).map Prod.fst
  | .tick => none

/-- Among the heartbeats of `es`, a well-formed one whose sender field is the leader of `n` was
received in `(now - leaderDead, now]`. -/
def HeardLeader (n : Node) (es : List (Time × TimerEvent)) (now : Time) : Prop :=
  ∃ e ∈ es, e.2.sender = some n.states.leaderIp ∧ now - leaderDead < e.1 ∧ e.1 ≤ now

/-- Every well-formed heartbeat received in `(now - leaderDead, now]` names the sender `s`. -/
def SoleSender (s : Str) (es : List (Time × TimerEvent)) (now : Time) : Prop :=
  ∀ e ∈ es, now - leaderDead < e.1 → e.1 ≤ now → ∀ l ∈ e.2.sender, l = s

instance (n : Node) (es : List (Time × TimerEvent)) (now : Time) : Decidable (HeardLeader n es now) :=
  inferInstanceAs (Decidable (∃ e ∈ es, _))

instance (s : Str) (es : List (Time × TimerEvent)) (now : Time) : Decidable (SoleSender s es now) :=
  inferInstanceAs (Decidable (∀ e ∈ es, _))

/-- A heartbeat that may restart the timer of the node `n`: while `n` follows a leader it is
well-formed, and it comes from that leader or from a node that takes its place. -/
def BeatsFromLeader (n : Node) (e : Time × TimerEvent) : Prop :=
  n.raft.leader = false → e.2 = .tick ∨
    ∃ l ∈ e.2.sender, l = n.states.leaderIp ∨ outranks l n.states.leaderIp = true

instance (n : Node) (e : Time × TimerEvent) : Decidable (BeatsFromLeader n e) :=
  inferInstanceAs (Decidable (_ → _ ∨ _))

end DsDns
