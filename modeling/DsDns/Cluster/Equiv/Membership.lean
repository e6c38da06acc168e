/-
  When the shards of a cluster are a partition.

  `Sound` is what every steady run keeps: all nodes are healthy, the network carries heartbeats, a
  leader has told every node of its map the rank the map has for it (`told`), and a node that has
  handled the latest heartbeat of a leader has the ranks in it (`heard`). In a quiescent state the two
  give every node the rank of its place in the leader's map, and `partitioned_of_quiescent` follows
  from the partition of the alphabet into shards. `shards_partition` puts it together.

  A run that is not steady can end in a quiescent state whose shards overlap: in
  `not_shards_partition` the higher of two nodes restarts after the lower has promoted itself, and the
  lower goes on counting one node.
-/
import DsDns.Cluster.Equiv.World
import DsDns.DataPlane.Equiv.Membership
import DsDns.DataPlane.Equiv.Shard

namespace DsDns

namespace Membership

/-- What every steady run keeps. -/
structure Sound (s : Membership) : Prop where
  healthy : ∀ ip n, s.world.node ip = some n → n.Healthy ip
  wired : ∀ p ∈ s.world.net, ∃ l r lr, (ipv4 l).isSome ∧ l ≠ p.dst ∧ p.port = 7001 ∧
    p.text = beatText l r lr
  told : ∀ l n, s.world.node l = some n → n.raft.leader = true → ∀ j r t, j ≠ l →
    n.states.nodes.get? j = some r → s.latest l j = some t → t = beatText l r n.states.lastRank
  heard : ∀ l n j m, s.world.node l = some n → n.raft.leader = true → s.world.node j = some m →
    j ≠ l → j ∈ n.states.nodes.keys → s.handled l j = true →
    s.latest l j = some (beatText l m.states.rank m.states.lastRank)

theorem sound_boot (files : NodeFiles) (disk : Str → Disk) (heads : Str → List Str)
    (now : Str → Time) : Sound (boot files disk heads now) := by
  constructor
  · intro ip n hn
    have hn' : (if ip ∈ files.ips then some (files.main ip (disk ip) (heads ip) (now ip)) else none) =
        some n := hn
    split at hn'
    · rename_i hip
      obtain rfl := Option.some.inj hn'
      exact healthy_main files hip _ _ _
    · exact absurd hn' (by simp)
  · intro p hp
    exact absurd hp (by simp [boot])
  · intro l n _ _ j r t _ _ ht
    exact absurd ht (by simp [boot])
  · intro l n j m _ _ _ _ _ hh
    exact absurd hh (by simp [boot])

/-- After a turn of one node that leaves it healthy, or down, every node is healthy. -/
theorem Sound.healthy_turn {s : Membership} (h : Sound s) {ip : Str} {n : Option Node}
    {node : Str → Option Node} (hnode : ∀ x, node x = if x = ip then n else s.world.node x)
    (hn : ∀ m, n = some m → m.Healthy ip) (x : Str) (m : Node) (hm : node x = some m) : m.Healthy x := by
  rcases node_after_turn hnode hm with ⟨rfl, hnew⟩ | ⟨-, hold⟩
  · exact hn m hnew
  · exact h.healthy x m hold

/-! ### Crashes, starts and losses -/

theorem replace_node (s : Membership) (ip : Str) (n : Option Node) (x : Str) :
    (s.replace ip n).world.node x = if x = ip then n else s.world.node x := rfl

theorem sound_replace {s : Membership} (h : Sound s) {ip : Str} {n : Option Node}
    (hn : ∀ m, n = some m → m.Healthy ip) : Sound (s.replace ip n) := by
  constructor
  · exact h.healthy_turn (replace_node s ip n) hn
  · exact h.wired
  · intro l m hm hlead j r t hj hr ht
    change (if l = ip then none else s.latest l j) = some t at ht
    rcases node_after_turn (replace_node s ip n) hm with ⟨hl, -⟩ | ⟨hl, hold⟩
    · rw [if_pos hl] at ht
      exact absurd ht (by simp)
    · rw [if_neg hl] at ht
      exact h.told l m hold hlead j r t hj hr ht
  · intro l m j m' hm hlead hm' hj hmem hh
    -- A node that has handled the latest heartbeat of another is none of those that were replaced.
    have hh' : (s.handled l j && (l ≠ ip && j ≠ ip)) = true := hh
    simp only [Bool.and_eq_true, decide_eq_true_eq] at hh'
    obtain ⟨hold, hl, hj'⟩ := hh'
    rw [replace_node, if_neg hl] at hm
    rw [replace_node, if_neg hj'] at hm'
    show (if l = ip then none else s.latest l j) = _
    rw [if_neg hl]
    exact h.heard l m j m' hm hlead hm' hj hmem hold

theorem sound_lose {s : Membership} (h : Sound s) (k : ℕ) :
    Sound { s with world := s.world.lose k } :=
  ⟨h.healthy, fun p hp => h.wired p (mem_net_of_lose hp), h.told, h.heard⟩

/-! ### Ticks -/

theorem tick_of_down {s : Membership} {ip : Str} (h : s.world.node ip = none) (now : Time) :
    s.tick ip now = s := by
  unfold tick textFor
  rw [act_of_down h]
  simp

/-- A turn of `raftHeart` at a node that is up, and what it does to the heartbeats. -/
theorem tick_of_up {s : Membership} {ip : Str} {n : Node} (h : s.world.node ip = some n) (now : Time) :
    ∃ m, m = ({ n with outbox := [] } : Node).raftHeart now ∧
      (∀ x, (s.tick ip now).world.node x = if x = ip then some m else s.world.node x) ∧
      (s.tick ip now).world.net = s.world.net ++ m.outbox ∧
      (∀ a b, (s.tick ip now).latest a b =
        if a = ip then (textFor b m.outbox).or (s.latest a b) else s.latest a b) ∧
      ∀ a b, (s.tick ip now).handled a b =
        (s.handled a b && !(a = ip && (textFor b m.outbox).isSome)) := by
  have hnet := act_net h fun n => n.raftHeart now
  have hsent : (s.world.act ip fun n => n.raftHeart now).net.drop s.world.net.length =
      (({ n with outbox := [] } : Node).raftHeart now).outbox := by
    rw [hnet, List.drop_left]
  refine ⟨_, rfl, act_node h _, hnet, fun a b => ?_, fun a b => ?_⟩
  · rw [← hsent]
    rfl
  · rw [← hsent]
    rfl

/-- What a turn of `raftHeart` sends, and what it keeps when it sends nothing. -/
theorem tick_sends {ip : Str} {n m : Node} {now : Time}
    (hm : m = ({ n with outbox := [] } : Node).raftHeart now) (hself : m.states.selfIp = ip) :
    (m.outbox = [] ∧ m.states = n.states ∧ m.raft.leader = n.raft.leader) ∨
    (m.outbox = Node.beats m.states ∧ ∀ b, b ≠ ip → textFor b m.outbox =
      (m.states.nodes.get? b).map fun r => beatText ip r m.states.lastRank) := by
  rcases raftHeart_sends n now with ⟨hnone, hout⟩ | ⟨hbeats, -⟩
  · obtain ⟨hstates, hleader⟩ := raftHeart_same (n := { n with outbox := [] }) hout
    rw [← hm] at hnone hstates hleader
    exact Or.inl ⟨hnone, hstates, hleader⟩
  · rw [← hm] at hbeats
    refine Or.inr ⟨hbeats, fun b hb => ?_⟩
    rw [textFor, hbeats, find?_beats, hself, if_neg hb, Option.map_map]
    rfl

/-- The heartbeats of a healthy node. -/
theorem wired_beats {ip : Str} {n : Node} (h : n.Healthy ip) {p : Packet} (hp : p ∈ Node.beats n.states) :
    ∃ l r lr, (ipv4 l).isSome ∧ l ≠ p.dst ∧ p.port = 7001 ∧ p.text = beatText l r lr := by
  obtain ⟨e, he, rfl⟩ := List.mem_map.mp hp
  have hne : e.1 ≠ n.states.selfIp := by simpa using (List.mem_filter.mp he).2
  rw [h.selfIp] at hne ⊢
  exact ⟨ip, e.2, n.states.lastRank, h.valid ip h.self_mem, Ne.symm hne, rfl, rfl⟩

theorem sound_tick {s : Membership} (h : Sound s) {ip : Str} {now : Time}
    (hok : ∀ n, s.world.node ip = some n → n.TimedOut now → ¬ s.Settled ip) :
    Sound (s.tick ip now) := by
  cases hn : s.world.node ip with
  | none =>
    rw [tick_of_down hn]
    exact h
  | some n =>
    obtain ⟨m, hm, hnode, hnet, hlatest, hhandled⟩ := tick_of_up hn now
    have hhealthy : m.Healthy ip := by
      rw [hm]
      exact healthy_raftHeart (n := { n with outbox := [] }) ((h.healthy ip n hn).congr rfl rfl) now
    have hsends := tick_sends hm hhealthy.selfIp
    constructor
    · exact h.healthy_turn hnode fun m' hm' => Option.some.inj hm' ▸ hhealthy
    · intro p hp
      rw [hnet, List.mem_append] at hp
      rcases hp with hp | hp
      · exact h.wired p hp
      · rcases hsends with ⟨hnone, -⟩ | ⟨hbeats, -⟩
        · rw [hnone] at hp
          exact absurd hp (by simp)
        · rw [hbeats] at hp
          exact wired_beats hhealthy hp
    · intro l m' hm' hlead j r t hj hr ht
      rw [hlatest] at ht
      rcases node_after_turn hnode hm' with ⟨rfl, htook⟩ | ⟨hl, hold⟩
      · rw [if_pos rfl] at ht
        obtain rfl := Option.some.inj htook
        rcases hsends with ⟨hnone, hstates, hleader⟩ | ⟨-, hbeats⟩
        · rw [hnone] at ht
          rw [hstates] at hr ⊢
          rw [hleader] at hlead
          exact h.told l n hn hlead j r t hj hr ht
        · rw [hbeats j hj, hr] at ht
          exact (Option.some.inj ht).symm
      · rw [if_neg hl] at ht
        exact h.told l m' hold hlead j r t hj hr ht
    · intro l m' j m'' hm' hlead hm'' hj hmem hh
      rw [hhandled, Bool.and_eq_true, Bool.not_eq_true'] at hh
      rw [hlatest]
      rcases node_after_turn hnode hm' with ⟨rfl, htook⟩ | ⟨hl, hold⟩
      · -- The leader of this turn: whoever it has sent a heartbeat to has not handled it yet.
        rw [if_pos rfl]
        rw [hnode, if_neg hj] at hm''
        obtain rfl := Option.some.inj htook
        rcases hsends with ⟨hnone, hstates, hleader⟩ | ⟨-, hbeats⟩
        · rw [hnone]
          rw [hstates] at hmem
          rw [hleader] at hlead
          exact h.heard l n j m'' hn hlead hm'' hj hmem hh.1
        · obtain ⟨r, hr⟩ := Option.isSome_iff_exists.mp (OrderedDict.get?_isSome_iff.mpr hmem)
          rw [hbeats j hj, hr] at hh
          exact absurd hh.2 (by simp)
      · rw [if_neg hl]
        rcases node_after_turn hnode hm'' with ⟨rfl, htook⟩ | ⟨-, hold'⟩
        · -- A node that has heard a leader of late does not time out, so it keeps its ranks.
          obtain rfl := Option.some.inj htook
          have hout : ¬ n.TimedOut now := fun hout =>
            hok n hn hout ⟨l, m', hold, hlead, hl, hmem, hh.1⟩
          have hstates : m.states = n.states := by
            rw [hm]
            exact (raftHeart_same (n := { n with outbox := [] }) hout).1
          rw [hstates]
          exact h.heard l m' j n hold hlead hn hj hmem hh.1
        · exact h.heard l m' j m'' hold hlead hold' hj hmem hh.1

/-! ### Heartbeats -/

variable [Unicode]

theorem deliver_of_absent {s : Membership} {k : ℕ} (h : s.world.net[k]? = none) (now : Time) :
    s.deliver k now = s := by
  unfold deliver World.deliver
  rw [h]
  simp

/-- A heartbeat for a node that is down. -/
theorem deliver_of_down {s : Membership} {k : ℕ} {p : Packet} (hp : s.world.net[k]? = some p)
    (h : s.world.node p.dst = none) (now : Time) :
    s.deliver k now = { s with world := s.world.lose k } := by
  unfold deliver World.deliver
  rw [hp]
  simp only
  rw [act_of_down (show (s.world.lose k).node p.dst = none from h)]
  congr 1
  funext a b
  by_cases hb : p.dst = b
  · subst hb
    simp [h]
  · simp [hb]

/-- A heartbeat for a node that is up. -/
theorem deliver_of_up {s : Membership} {k : ℕ} {p : Packet} {n : Node}
    (hp : s.world.net[k]? = some p) (h : s.world.node p.dst = some n) {l : Str} {r lr : ℤ}
    (hl : (ipv4 l).isSome) (hport : p.port = 7001) (htext : p.text = beatText l r lr) (now : Time) :
    ∃ m, m = ({ n with outbox := [] } : Node).beatHandler (beatBody l r lr) now ∧
      (∀ x, (s.deliver k now).world.node x = if x = p.dst then some m else s.world.node x) ∧
      (s.deliver k now).world.net = s.world.net.eraseIdx k ∧
      ∀ a b, (s.deliver k now).handled a b = true →
        s.handled a b = true ∨ b = p.dst ∧ s.latest a b = some p.text := by
  have hworld : (s.deliver k now).world =
      (s.world.lose k).act p.dst fun n => n.beatHandler (beatBody l r lr) now := by
    have hreceive : (fun n : Node => n.receive p now) =
        fun n : Node => n.beatHandler (beatBody l r lr) now := by
      funext n
      rw [Node.receive, hport, htext, if_neg (by decide), if_pos rfl, handleSync_beatText hl]
    show s.world.deliver k now = _
    unfold World.deliver
    rw [hp, ← hreceive]
  have hlose : (s.world.lose k).node p.dst = some n := h
  have hout : (({ n with outbox := [] } : Node).beatHandler (beatBody l r lr) now).outbox = [] :=
    (Node.beatHandler_frame _ _ now).2.2.2.2.2.2.2
  refine ⟨_, rfl, fun x => ?_, ?_, fun a b hh => ?_⟩
  · rw [hworld, act_node hlose]
    rfl
  · rw [hworld, act_net hlose, hout, List.append_nil]
    rfl
  · have hh' : (s.handled a b || (s.world.node b).isSome &&
        (s.world.net[k]?.any fun p => p.dst = b && s.latest a b = some p.text)) = true := hh
    rw [hp] at hh'
    simp only [Option.any_some, Bool.or_eq_true, Bool.and_eq_true, decide_eq_true_eq] at hh'
    rcases hh' with hh' | ⟨-, hb, ht⟩
    · exact Or.inl hh'
    · exact Or.inr ⟨hb.symm, ht⟩

/-- The latest heartbeat of a leader is its own. -/
theorem Sound.sender_of_latest {s : Membership} (h : Sound s) {l l' j : Str} {n : Node} {r lr : ℤ}
    (hn : s.world.node l' = some n) (hlead : n.raft.leader = true) (hj : j ≠ l')
    (hmem : j ∈ n.states.nodes.keys) (hl : (ipv4 l).isSome)
    (hlatest : s.latest l' j = some (beatText l r lr)) : l' = l := by
  obtain ⟨rank, hrank⟩ := Option.isSome_iff_exists.mp (OrderedDict.get?_isSome_iff.mpr hmem)
  have htold := h.told l' n hn hlead j rank _ hj hrank hlatest
  have hhealthy := h.healthy l' n hn
  have hvalid : (ipv4 l').isSome := hhealthy.valid l' hhealthy.self_mem
  exact (beatText_injective hl hvalid htold).1.symm

theorem sound_deliver {s : Membership} (h : Sound s) {k : ℕ} {now : Time}
    (hok : s.Steady (.deliver k now)) : Sound (s.deliver k now) := by
  cases hp : s.world.net[k]? with
  | none =>
    rw [deliver_of_absent hp]
    exact h
  | some p =>
    cases hn : s.world.node p.dst with
    | none =>
      rw [deliver_of_down hp hn]
      exact sound_lose h k
    | some n =>
      obtain ⟨l, r, lr, hl, hne, hport, htext⟩ := h.wired p (List.mem_of_getElem? hp)
      have hparse : parseBeat p.text = some (l, r, lr) := by
        rw [htext, beatText_eq, ← parseBeat_body hl r lr]
        unfold parseBeat parseBeatWith
        rw [strip_append_newline]
      obtain ⟨hadmits, hsettled⟩ := hok p n l r lr hp hn hparse
      obtain ⟨m, hm, hnode, hnet, hhandled⟩ := deliver_of_up hp hn hl hport htext now
      obtain ⟨hhealthy, htook⟩ := healthy_beat (n := { n with outbox := [] })
        ((h.healthy p.dst n hn).congr rfl rfl) hl hne ⟨hadmits.counted, hadmits.leading⟩ now
      rw [← hm] at hhealthy htook
      constructor
      · exact h.healthy_turn hnode fun m' hm' => Option.some.inj hm' ▸ hhealthy
      · intro q hq
        rw [hnet] at hq
        exact h.wired q (List.mem_of_mem_eraseIdx hq)
      · intro l' m' hm' hlead j r' t hj hr ht
        rcases node_after_turn hnode hm' with ⟨rfl, hturn⟩ | ⟨-, hold⟩
        · obtain rfl := Option.some.inj hturn
          obtain ⟨hwas, hnodes, hlast⟩ := htook.leading hlead
          rw [hnodes] at hr
          rw [htook.lastRank, ← hlast]
          exact h.told p.dst n hn hwas j r' t hj hr ht
        · exact h.told l' m' hold hlead j r' t hj hr ht
      · intro l' m' j m'' hm' hlead hm'' hj hmem hh
        rcases node_after_turn hnode hm' with ⟨rfl, hturn⟩ | ⟨-, hleader⟩
        · obtain rfl := Option.some.inj hturn
          rw [hnode, if_neg hj] at hm''
          obtain ⟨hwas, hnodes, -⟩ := htook.leading hlead
          rw [hnodes] at hmem
          rcases hhandled p.dst j hh with hold | ⟨hjp, -⟩
          · exact h.heard p.dst n j m'' hn hwas hm'' hj hmem hold
          · exact absurd hjp hj
        · rcases node_after_turn hnode hm'' with ⟨rfl, hturn⟩ | ⟨hjp, hold'⟩
          · -- The receiver: its new ranks are those of the heartbeat.
            obtain rfl := Option.some.inj hturn
            rw [htook.rank, htook.lastRank]
            rcases hhandled l' p.dst hh with hold | ⟨-, hlatest⟩
            · obtain ⟨rfl, rfl⟩ := hsettled ⟨l', m', hleader, hlead, Ne.symm hj, hmem, hold⟩
              exact h.heard l' m' p.dst n hleader hlead hn hj hmem hold
            · rw [htext] at hlatest
              obtain rfl := h.sender_of_latest hleader hlead hj hmem hl hlatest
              exact hlatest
          · rcases hhandled l' j hh with hold | ⟨hjp', -⟩
            · exact h.heard l' m' j m'' hleader hlead hold' hj hmem hold
            · exact absurd hjp' hjp

/-! ### Runs -/

/-- **The step lemma.** -/
theorem sound_step {s : Membership} (h : Sound s) (e : MembershipEvent) (hok : s.Steady e) :
    Sound (s.step e) := by
  cases e with
  | crash ip => exact sound_replace h fun m hm => absurd hm (by simp)
  | start files ip disk heads now =>
    refine sound_replace h fun m hm => ?_
    rw [← Option.some.inj hm]
    exact healthy_main files ip.property disk heads now
  | tick ip now => exact sound_tick h hok
  | deliver k now => exact sound_deliver h hok
  | lose k => exact sound_lose h k

/-! ### Quiescent states -/

omit [Unicode] in
/-- The letters of the node with the rank `r + 1` out of `k`, with or without the branch for a single
node. -/
theorem mem_recordSet_iff {c r k : ℕ} (hr : r < k) (hc : c = 1 → k = 1) {x : Str} :
    x ∈ recordSet c ((r : ℤ) + 1) k ↔ x ∈ shardLetters ((r : ℤ) + 1) k := by
  unfold recordSet
  by_cases h1 : c = 1
  · -- One node owns the alphabet either way.
    obtain rfl : k = 1 := hc h1
    obtain rfl : r = 0 := by omega
    rw [if_pos h1]
    constructor
    · intro hx
      obtain ⟨r', hr', hx'⟩ := exists_shardLetters (k := 1) (by omega) hx
      obtain rfl : r' = 0 := by omega
      exact hx'
    · exact shardLetters_subset hr
  · rw [if_neg h1, if_neg (by omega)]

omit [Unicode] in
/-- In a quiescent state every node owns the shard of its place in the leader's map. -/
theorem owned_of_quiescent {s : Membership} (h : Sound s) {l : Str} {n : Node}
    (hn : s.world.node l = some n) (hlead : n.raft.leader = true)
    (hothers : ∀ i m, s.world.node i = some m → i ≠ l → m.raft.leader = false ∧ s.handled l i = true)
    {i : Str} {m : Node} (hm : s.world.node i = some m) {r : ℕ}
    (hr : n.states.nodes.keys[r]? = some i) {x : Str} :
    x ∈ m.states.selfRecords ↔ x ∈ shardLetters ((r : ℤ) + 1) n.states.nodes.length := by
  obtain ⟨-, hranked, hcount, hlast, hrank⟩ := (h.healthy l n hn).leads hlead
  have hlt : r < n.states.nodes.length := by
    rw [← OrderedDict.length_keys]
    exact (List.getElem?_eq_some_iff.mp hr).1
  have hplace := hranked r i hr
  have hsharded := (h.healthy i m hm).sharded
  by_cases hi : i = l
  · subst hi
    obtain rfl : m = n := Option.some.inj (hm.symm.trans hn)
    rw [(h.healthy i m hm).selfIp] at hrank
    rw [hsharded, hcount, hlast, ← Option.some.inj (hplace.symm.trans hrank)]
    exact mem_recordSet_iff hlt id
  · obtain ⟨hfollow, hhandled⟩ := hothers i m hm hi
    have hheard := h.heard l n i m hn hlead hm hi (List.mem_of_getElem? hr) hhandled
    have htold := h.told l n hn hlead i _ _ hi hplace hheard
    have hvalid : (ipv4 l).isSome := (h.healthy l n hn).valid l (h.healthy l n hn).self_mem
    obtain ⟨-, hrm, hlm⟩ := @beatText_injective Unicode.ascii _ _ hvalid hvalid _ _ _ _ htold
    rw [hsharded, hrm, hlm, hlast]
    exact mem_recordSet_iff hlt fun hone => absurd hone ((h.healthy i m hm).follows hfollow).2

omit [Unicode] in
/-- **In a quiescent state the shards are a partition.** -/
theorem partitioned_of_quiescent {s : Membership} (h : Sound s) (hq : s.Quiescent) :
    s.Partitioned := by
  obtain ⟨l, n, hn, hlead, hkeys, hothers⟩ := hq
  have howned : ∀ {i : Str} {m : Node}, s.world.node i = some m → ∀ {r : ℕ},
      n.states.nodes.keys[r]? = some i → ∀ {x : Str},
      x ∈ m.states.selfRecords ↔ x ∈ shardLetters ((r : ℤ) + 1) n.states.nodes.length :=
    fun hm _ hr _ => owned_of_quiescent h hn hlead hothers hm hr
  have hplace : ∀ {i : Str} {m : Node}, s.world.node i = some m → ∃ r < n.states.nodes.length,
      n.states.nodes.keys[r]? = some i := by
    intro i m hm
    obtain ⟨r, hr⟩ := List.mem_iff_getElem?.mp ((hkeys i).mpr (by rw [hm]; rfl))
    refine ⟨r, ?_, hr⟩
    rw [← OrderedDict.length_keys]
    exact (List.getElem?_eq_some_iff.mp hr).1
  constructor
  · intro i j m m' hm hm' hij x hx hx'
    obtain ⟨r, hlt, hr⟩ := hplace hm
    obtain ⟨r', hlt', hr'⟩ := hplace hm'
    have hne : r ≠ r' := by
      rintro rfl
      exact hij (Option.some.inj (hr.symm.trans hr'))
    exact shardLetters_disjoint hlt hlt' hne ((howned hm hr).mp hx) ((howned hm' hr').mp hx')
  · intro x
    constructor
    · intro hx
      have hpos : 0 < n.states.nodes.length := by
        rw [← OrderedDict.length_keys]
        exact List.length_pos_of_mem (h.healthy l n hn).self_mem
      obtain ⟨r, hlt, hx'⟩ := exists_shardLetters hpos hx
      have hindex : r < n.states.nodes.keys.length := by
        rw [OrderedDict.length_keys]
        exact hlt
      have hr := List.getElem?_eq_getElem hindex
      obtain ⟨m, hm⟩ := Option.isSome_iff_exists.mp ((hkeys _).mp (List.mem_of_getElem? hr))
      exact ⟨_, m, hm, (howned hm hr).mpr hx'⟩
    · rintro ⟨i, m, hm, hx⟩
      obtain ⟨r, hlt, hr⟩ := hplace hm
      exact shardLetters_subset hlt ((howned hm hr).mp hx)

/-- **Ownership stays a partition.** In every run of a cluster from one list of files whose steps are all
steady, the shards are a partition in every quiescent state on the way. -/
theorem shards_partition (files : NodeFiles) (disk : Str → Disk) (heads : Str → List Str)
    (now : Str → Time) (es : List MembershipEvent)
    (hok : Along Steady step (boot files disk heads now) es) :
    Always (fun s => s.Quiescent → s.Partitioned) step (boot files disk heads now) es := by
  intro early hearly hq
  exact partitioned_of_quiescent
    ((hok.of_prefix hearly).invariant (sound_boot files disk heads now) fun _ e hs he =>
      sound_step hs e he) hq

/-! ### A cluster of two -/

omit [Unicode] in
theorem isSome_act (w : World) (ip : Str) (f : Node → Node) (x : Str) :
    ((w.act ip f).node x).isSome = (w.node x).isSome := by
  cases hn : w.node ip with
  | none => rw [act_of_down hn]
  | some n =>
    rw [act_node hn]
    split
    · rename_i hx
      rw [hx, hn]
      rfl
    · rfl

omit [Unicode] in
theorem isSome_tick (s : Membership) (ip : Str) (now : Time) (x : Str) :
    ((s.tick ip now).world.node x).isSome = (s.world.node x).isSome := isSome_act _ _ _ x

theorem isSome_deliver (s : Membership) (k : ℕ) (now : Time) (x : Str) :
    ((s.deliver k now).world.node x).isSome = (s.world.node x).isSome := by
  show ((s.world.deliver k now).node x).isSome = _
  unfold World.deliver
  split
  · rfl
  · exact isSome_act _ _ _ x

omit [Unicode] in
/-- Two nodes are up, and the one has handled the latest heartbeat of the other. -/
theorem quiescent_pair {s : Membership} {lower higher : Str}
    (hlive : ∀ x, (s.world.node x).isSome = true ↔ x = lower ∨ x = higher)
    (hleader : (s.world.node higher).map (fun n => (n.raft.leader, n.states.nodes.keys)) =
      some (true, [lower, higher]))
    (hfollower : (s.world.node lower).map (fun n => n.raft.leader) = some false)
    (hhandled : s.handled higher lower = true) : s.Quiescent := by
  obtain ⟨n, hn, hpair⟩ := Option.map_eq_some_iff.mp hleader
  obtain ⟨hlead, hkeys⟩ := Prod.mk.inj hpair
  refine ⟨higher, n, hn, hlead, fun i => ?_, fun i m hm hi => ?_⟩
  · rw [hkeys, hlive]
    simp
  · have hor : i = lower ∨ i = higher := (hlive i).mp (by rw [hm]; rfl)
    obtain rfl := hor.resolve_right hi
    rw [hm] at hfollower
    exact ⟨Option.some.inj hfollower, hhandled⟩

omit [Unicode] in
/-- The files of the nodes `10.0.0.1` and `10.0.0.2`. -/
def twoFiles : NodeFiles := ⟨["10.0.0.1".toList, "10.0.0.2".toList], by decide⟩

omit [Unicode] in
/-- Both nodes start at once, with no record files. -/
def twoNodes : Membership :=
  boot twoFiles (fun _ => { file := fun _ => none, denied := fun _ => false }) (fun _ => []) fun _ => 0

omit [Unicode] in
theorem isSome_twoNodes (x : Str) : (twoNodes.world.node x).isSome = true ↔
    x = "10.0.0.1".toList ∨ x = "10.0.0.2".toList := by
  have hmem : x ∈ twoFiles.ips ↔ x = "10.0.0.1".toList ∨ x = "10.0.0.2".toList := by
    rw [show twoFiles.ips = ["10.0.0.1".toList, "10.0.0.2".toList] by decide]
    simp
  rw [← hmem]
  show (if x ∈ twoFiles.ips then some _ else none).isSome = true ↔ _
  split
  · rename_i hx
    simp [hx]
  · rename_i hx
    simp [hx]

omit [Unicode] in
/-- The higher node beats, and the lower one follows it. -/
theorem shards_partition_followed :
    (run (@step Unicode.ascii) twoNodes
      [.tick "10.0.0.2".toList (100 * second), .deliver 0 (100 * second)]).Partitioned := by
  have hnet : (twoNodes.tick "10.0.0.2".toList (100 * second)).world.net =
      [⟨"10.0.0.1".toList, 7001, "10.0.0.2;1;2\n".toList⟩] := by decide
  have hok : Along (@Steady Unicode.ascii) (@step Unicode.ascii) twoNodes
      [.tick "10.0.0.2".toList (100 * second), .deliver 0 (100 * second)] := by
    refine ⟨?_, ?_, trivial⟩
    · intro n hn hout
      obtain rfl := Option.some.inj hn
      exact absurd hout.1 (by decide)
    · intro p n l r lr hp hn hparse
      have hp' : (twoNodes.tick "10.0.0.2".toList (100 * second)).world.net[0]? = some p := hp
      rw [hnet] at hp'
      obtain rfl := Option.some.inj hp'
      obtain rfl := Option.some.inj hn
      rw [show @parseBeat Unicode.ascii "10.0.0.2;1;2\n".toList = some ("10.0.0.2".toList, 1, 2) by
        decide] at hparse
      obtain ⟨rfl, rfl, rfl⟩ : "10.0.0.2".toList = l ∧ 1 = r ∧ 2 = lr := by simpa using hparse
      exact ⟨⟨Or.inl (by decide), fun _ h => absurd h (by decide)⟩, fun _ => ⟨by decide, by decide⟩⟩
  have hquiet : (run (@step Unicode.ascii) twoNodes
      [.tick "10.0.0.2".toList (100 * second), .deliver 0 (100 * second)]).Quiescent := by
    refine @quiescent_pair _ "10.0.0.1".toList "10.0.0.2".toList (fun x => ?_) (by decide)
      (by decide) (by decide)
    simp only [run_cons, run_nil, step, @isSome_deliver Unicode.ascii, isSome_tick]
    exact isSome_twoNodes x
  exact @shards_partition Unicode.ascii twoFiles _ _ _ _ hok _ (List.prefix_refl _) hquiet

omit [Unicode] in
/-- The lower node follows the higher one, which crashes; the lower one promotes itself; the higher one
starts again and beats. -/
def higherRejoins : List MembershipEvent :=
  [.tick "10.0.0.2".toList (100 * second), .deliver 0 (100 * second), .crash "10.0.0.2".toList,
    .tick "10.0.0.1".toList (400 * second),
    .start twoFiles ⟨"10.0.0.2".toList, by decide⟩
      { file := fun _ => none, denied := fun _ => false } [] (500 * second),
    .tick "10.0.0.2".toList (600 * second), .deliver 0 (600 * second)]

omit [Unicode] in
/-- The lower node has registered the higher one without counting it, so it owns the whole alphabet
although it follows a leader that owns half of it. -/
theorem not_shards_partition :
    (run (@step Unicode.ascii) twoNodes higherRejoins).Quiescent ∧
    ¬ (run (@step Unicode.ascii) twoNodes higherRejoins).Partitioned := by
  constructor
  · refine @quiescent_pair _ "10.0.0.1".toList "10.0.0.2".toList (fun x => ?_) (by decide)
      (by decide) (by decide)
    unfold higherRejoins
    simp only [run_cons, run_nil, step, @isSome_deliver Unicode.ascii, isSome_tick, replace_node]
    by_cases hx : x = "10.0.0.2".toList
    · simp [hx]
    · rw [if_neg hx, isSome_tick, replace_node, if_neg hx, @isSome_deliver Unicode.ascii, isSome_tick]
      exact isSome_twoNodes x
  · intro h
    obtain ⟨n, hn, hn'⟩ := Option.map_eq_some_iff.mp
      (show ((run (@step Unicode.ascii) twoNodes higherRejoins).world.node "10.0.0.1".toList).map
        (fun n => n.states.selfRecords.contains ['z']) = some true by decide)
    obtain ⟨m, hm, hm'⟩ := Option.map_eq_some_iff.mp
      (show ((run (@step Unicode.ascii) twoNodes higherRejoins).world.node "10.0.0.2".toList).map
        (fun n => n.states.selfRecords.contains ['z']) = some true by decide)
    exact h.1 _ _ n m hn hm (by decide) ['z'] (by simpa using hn') (by simpa using hm')

end Membership

end DsDns
