/-
  A cluster in which everything happens in time.

  The nodes have read the same `self_ip_*.txt` files (`boot`), and every heartbeat that one of them handles was sent
  to it by another (`Authentic`). `Timely` is what has to be in time: the loop of the node with the highest address,
  and the delivery of its heartbeats. Nothing is assumed of the other loops and of the other messages, which may be
  late, repeated or lost. The times are those of one clock.
-/
import DsDns.Cluster.Life

namespace DsDns

/-- The time of an event that reads the clock. -/
def NodeEvent.time : NodeEvent → Option Time
  | .beat _ now => some now
  | .tick now => some now
  | _ => none

/-- The time of a turn of the loop. -/
def NodeEvent.tickTime : NodeEvent → Option Time
  | .tick now => some now
  | _ => none

/-- The event is a run of a handler or a turn of the loop. The operations of `States` are no events of their own. -/
def NodeEvent.Handled : NodeEvent → Prop
  | .addNodes _ => False
  | .removeNode _ => False
  | .updateRank _ _ => False
  | _ => True

/-- The readings of the clock by the node `ip`, in the order of the run. -/
def timesAt (ip : Str) (es : List (Str × NodeEvent)) : List Time :=
  es.filterMap fun e => if e.1 = ip then e.2.time else none

namespace Cluster

/-- All nodes that the files name, each started at its time. -/
def boot (files : List (Option Str)) (disk : Str → Disk) (heads : Str → List Str) (start : Str → Time) : Cluster :=
  fun ip => if ip ∈ States.addresses files then some (Node.main ip files (disk ip) (heads ip) (start ip)) else none

variable [Unicode]

/-- A heartbeat that is handled is one that a node of the cluster has sent to the node that handles it. Lines that
are no heartbeats may come from anywhere. -/
def Authentic (cl : Cluster) (e : Str × NodeEvent) : Prop :=
  ∀ line now, e.2 = .beat line now → (parseBeat line.val).isSome →
    ∃ ip n, cl ip = some n ∧ ∃ p ∈ n.outbox, p.dst = e.1 ∧ p.port = 7001 ∧ line.val = strip p.text

/-- **What is in time** in the run `es`, which ends at the time `T`: the loop of the node `top` turns at least every
`δ` from `t₀` on, and what it sends to a node of the cluster is handled there within `Δ`. The clocks of the nodes
do not go back, and none of them is behind `t₀ - spread`. -/
structure Timely (cl : Cluster) (es : List (Str × NodeEvent)) (top : Str) (δ Δ spread t₀ T : Time) : Prop where
  sorted : ∀ ip, (timesAt ip es).Pairwise (· ≤ ·)
  from_start : ∀ e ∈ es, ∀ s ∈ e.2.time, t₀ - spread ≤ s
  to_end : ∀ e ∈ es, ∀ s ∈ e.2.time, s ≤ T
  turns : ∀ t, t₀ ≤ t → t + δ ≤ T → ∃ u, (top, NodeEvent.tick u) ∈ es ∧ t ≤ u ∧ u ≤ t + δ
  delivered : ∀ early now n, early ++ [(top, NodeEvent.tick now)] <+: es → run step cl early top = some n →
    now + Δ ≤ T → ∀ p ∈ (({ n with outbox := [] } : Node).raftHeart now).outbox, (cl p.dst).isSome →
      ∃ line r, (p.dst, NodeEvent.beat line r) ∈ es ∧ line.val = strip p.text ∧ now ≤ r ∧ r ≤ now + Δ

end Cluster

end DsDns
