/-
  The nodes of a cluster, each living its own life.

  A step of the cluster is one event at one node; any node may go next, so a run is any interleaving.
  Nothing is taken from the outboxes: what was sent stays there, and a heartbeat that is handled may
  be any one of those that were ever sent (`Genuine`), so messages may be reordered, repeated and
  lost.
-/
import DsDns.DataPlane.Lifetime

namespace DsDns

/-- The address a heartbeat from a known or new node comes from; `none` for a text that is no
heartbeat, or whose sender field is no IPv4 address. -/
def beatSender [Unicode] (beat : Str) : Option Address :=
  match parseBeat beat with
  | some (l, _, _) => if h : (ipv4 l).isSome then some ⟨l, h⟩ else none
  | none => none

/-- The sender of the heartbeat an event handles. -/
def NodeEvent.sender [Unicode] : NodeEvent → Option Address
  | .beat line _ => beatSender line.val
  | _ => none

/-- The event is no leader timeout of the node. -/
def NodeEvent.Quiet (n : Node) (e : NodeEvent) : Prop := ∀ now, e = .tick now → ¬ n.TimedOut now

/-- The addresses the node `ip` has heard from in the run `es`. -/
def heardAt [Unicode] (ip : Str) (es : List (Str × NodeEvent)) : Set Address :=
  { a | ∃ e ∈ es, e.1 = ip ∧ e.2.sender = some a }

namespace Cluster

/-- Every node has an IPv4 address of its own, leads itself and has sent nothing. -/
structure Fresh (cl : Cluster) : Prop where
  valid : ∀ ip n, cl ip = some n → (ipv4 ip).isSome
  selfIp : ∀ ip n, cl ip = some n → n.states.selfIp = ip
  leaderIp : ∀ ip n, cl ip = some n → n.states.leaderIp = ip
  leader : ∀ ip n, cl ip = some n → n.raft.leader = true
  outbox : ∀ ip n, cl ip = some n → n.outbox = []

variable [Unicode]

/-- One event at one node. Nothing happens where there is no node. -/
def step (cl : Cluster) (e : Str × NodeEvent) : Cluster :=
  match cl e.1 with
  | none => cl
  | some n => cl.set e.1 (n.step e.2)

/-- The event is no leader timeout. -/
def NoTimeout (cl : Cluster) (e : Str × NodeEvent) : Prop := ∀ n, cl e.1 = some n → e.2.Quiet n

/-- A heartbeat with a sender is one that a node of the cluster has sent to the node that handles
it. -/
def Genuine (cl : Cluster) (e : Str × NodeEvent) : Prop :=
  ∀ line now, e.2 = .beat line now → (beatSender line.val).isSome →
    ∃ ip n, cl ip = some n ∧ ∃ p ∈ n.outbox, p.dst = e.1 ∧ p.port = 7001 ∧ line.val = strip p.text

end Cluster

end DsDns
