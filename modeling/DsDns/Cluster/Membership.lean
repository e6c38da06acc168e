/-
  Nodes that crash, start, time out and beat: the membership protocol of a cluster.

  `Membership` is a cluster together with what its heartbeats have achieved so far: the text of the
  latest heartbeat each node has sent to each other one since its start, and who has handled it. The
  program keeps neither; `Quiescent` and `Steady` are stated with them.
-/
import DsDns.Cluster.World

namespace DsDns

/-- The texts of the `self_ip_*.txt` files of a cluster: distinct IPv4 addresses. -/
abbrev NodeFiles := { files : List Str //
  (files.map strip).Nodup ∧ ∀ file ∈ files, (ipv4 (strip file)).isSome }

/-- The addresses in the files. -/
def NodeFiles.ips (files : NodeFiles) : List Str := files.val.map strip

/-- The process that starts at the address `ip`. -/
def NodeFiles.main (files : NodeFiles) (ip : Str) (disk : Disk) (heads : List Str) (now : Time) :
    Node :=
  Node.main ip (files.val.map some) disk heads now

/-- A cluster and its heartbeats: `latest s d` is the last one that `s` has sent to `d`, and
`handled s d` says that `d` has handled it. -/
structure Membership where
  world : World
  latest : Str → Str → Option Str
  handled : Str → Str → Bool

/-- What can happen to the membership of a cluster. -/
inductive MembershipEvent where
  | crash (ip : Str)
  /-- A node starts or restarts at one of the addresses of the files it finds. -/
  | start (files : NodeFiles) (ip : { ip : Str // ip ∈ files.ips }) (disk : Disk)
      (heads : List Str) (now : Time)
  | tick (ip : Str) (now : Time)
  | deliver (k : ℕ) (now : Time)
  | lose (k : ℕ)

namespace Membership

/-- The process at the address `ip` ends, and `n` takes its place. -/
def replace (s : Membership) (ip : Str) (n : Option Node) : Membership where
  world := { s.world with node := fun x => if x = ip then n else s.world.node x }
  latest := fun a b => if a = ip then none else s.latest a b
  handled := fun a b => s.handled a b && (a ≠ ip && b ≠ ip)

/-- The text of the packet for `b` among those just sent. -/
def textFor (b : Str) (sent : List Packet) : Option Str :=
  (sent.find? fun p => p.dst = b).map Packet.text

/-- A turn of `raftHeart` at the node `ip`. -/
def tick (s : Membership) (ip : Str) (now : Time) : Membership :=
  let world := s.world.act ip fun n => n.raftHeart now
  let sent := world.net.drop s.world.net.length
  { world := world
    latest := fun a b => if a = ip then (textFor b sent).or (s.latest a b) else s.latest a b
    handled := fun a b => s.handled a b && !(a = ip && (textFor b sent).isSome) }

variable [Unicode]

/-- The message number `k` arrives. -/
def deliver (s : Membership) (k : ℕ) (now : Time) : Membership where
  world := s.world.deliver k now
  latest := s.latest
  handled := fun a b => s.handled a b || (s.world.node b).isSome &&
    (s.world.net[k]?.any fun p => p.dst = b && s.latest a b = some p.text)

/-- The membership after one event. -/
def step (s : Membership) : MembershipEvent → Membership
  | .crash ip => s.replace ip none
  | .start files ip disk heads now => s.replace ip (some (files.main ip disk heads now))
  | .tick ip now => s.tick ip now
  | .deliver k now => s.deliver k now
  | .lose k => { s with world := s.world.lose k }

omit [Unicode]

/-- All nodes of one list of files, freshly started. -/
def boot (files : NodeFiles) (disk : Str → Disk) (heads : Str → List Str) (now : Str → Time) :
    Membership where
  world :=
    { node := fun ip =>
        if ip ∈ files.ips then some (files.main ip (disk ip) (heads ip) (now ip)) else none
      net := [] }
  latest := fun _ _ => none
  handled := fun _ _ => false

/-- **Quiescent**: exactly one node leads, its map lists exactly the nodes that are up, and every other
node has handled its latest heartbeat. -/
def Quiescent (s : Membership) : Prop :=
  ∃ l n, s.world.node l = some n ∧ n.raft.leader = true ∧
    (∀ i, i ∈ n.states.nodes.keys ↔ (s.world.node i).isSome) ∧
    ∀ i m, s.world.node i = some m → i ≠ l → m.raft.leader = false ∧ s.handled l i = true

/-- The shards of the nodes that are up are a partition. -/
def Partitioned (s : Membership) : Prop := Cluster.Partitioned s.world.node

/-- Some other leader counts the node `ip` in, and `ip` has handled its latest heartbeat. -/
def Settled (s : Membership) (ip : Str) : Prop :=
  ∃ l n, s.world.node l = some n ∧ n.raft.leader = true ∧ l ≠ ip ∧ ip ∈ n.states.nodes.keys ∧
    s.handled l ip = true

end Membership

/-- The heartbeat of `l` with the ranks `r` and `lr` leaves the count of the node and, while it goes on
leading, its assignment alone: only a follower of two or more nodes registers a new one, and a leader
hears its own ranks from the nodes it does not follow. -/
structure Node.Admits (n : Node) (l : Str) (r lr : ℤ) : Prop where
  counted : l ∈ n.states.nodes.keys ∨ n.states.nodeCount ≠ 1
  leading : n.raft.leader = true → outranks l n.states.leaderIp = false →
    l ∈ n.states.nodes.keys ∧ n.states.rank = r ∧ n.states.lastRank = lr

variable [Unicode]

/-- **The steps that keep ownership in step with membership.** A heartbeat is admitted by its receiver,
and a node that has handled the latest heartbeat of a leader neither takes other ranks from a heartbeat
nor times out. -/
def Membership.Steady (s : Membership) : MembershipEvent → Prop
  | .deliver k _ => ∀ p n l r lr, s.world.net[k]? = some p → s.world.node p.dst = some n →
      parseBeat p.text = some (l, r, lr) →
      n.Admits l r lr ∧ (s.Settled p.dst → n.states.rank = r ∧ n.states.lastRank = lr)
  | .tick ip now => ∀ n, s.world.node ip = some n → n.TimedOut now → ¬ s.Settled ip
  | _ => True

end DsDns
