/-
  What one node keeps of the membership, through its start, its heartbeats and its timeouts.

  `Healthy ip n` collects it: the map holds valid addresses, the node's own and its leader's among
  them, the shard is the one of the node's ranks, a leader has the ranks of its own map (`Leads`), and
  a follower does not believe that it is alone. A start establishes it (`healthy_main`), a promotion
  renumbers the map and re-establishes it (`healthy_raftHeart`), and a heartbeat keeps it as long as it
  is admitted (`healthy_beat`): `registerSender` adds a node without counting it, which is harmless
  only while the node follows someone else and counts two or more.
-/
import DsDns.Cluster.Membership
import DsDns.DataPlane.Equiv.Beat
import DsDns.DataPlane.Equiv.Raft

namespace DsDns

/-- The node has the ranks of its own map. -/
structure States.Leads (s : States) : Prop where
  leaderIp : s.leaderIp = s.selfIp
  ranked : Ranked s.nodes
  nodeCount : s.nodeCount = s.nodes.length
  lastRank : s.lastRank = s.nodes.length
  rank : s.nodes.get? s.selfIp = some s.rank

/-- What holds of a running node at the address `ip`. -/
structure Node.Healthy (ip : Str) (n : Node) : Prop where
  selfIp : n.states.selfIp = ip
  self_mem : ip ∈ n.states.nodes.keys
  leader_mem : n.states.leaderIp ∈ n.states.nodes.keys
  valid : ∀ i ∈ n.states.nodes.keys, (ipv4 i).isSome
  sharded : n.states.Sharded
  leads : n.raft.leader = true → n.states.Leads
  follows : n.raft.leader = false → n.states.leaderIp ≠ ip ∧ n.states.nodeCount ≠ 1

/-! ### The start -/

theorem NodeFiles.valid (files : NodeFiles) {ip : Str} (h : ip ∈ files.ips) : (ipv4 ip).isSome := by
  obtain ⟨file, hfile, rfl⟩ := List.mem_map.mp h
  exact files.property.2 file hfile

theorem healthy_main (files : NodeFiles) {ip : Str} (hip : ip ∈ files.ips) (disk : Disk)
    (heads : List Str) (now : Time) : (files.main ip disk heads now).Healthy ip := by
  obtain ⟨hkeys, hranked, hlast⟩ := States.registerNodes_eq hip files.property.1
    fun file hfile => ne_nil_of_ipv4 (files.property.2 file hfile)
  have hmem : ip ∈ (States.registerNodes ip (files.val.map some)).1.keys := by
    rw [hkeys]
    exact hip
  have hrank : (States.registerNodes ip (files.val.map some)).1.get? ip =
      some (((States.registerNodes ip (files.val.map some)).1.get? ip).getD 1) := by
    obtain ⟨v, hv⟩ := Option.isSome_iff_exists.mp (OrderedDict.get?_isSome_iff.mpr hmem)
    rw [hv]
    rfl
  have hvalid : ∀ i ∈ (States.registerNodes ip (files.val.map some)).1.keys, (ipv4 i).isSome := by
    intro i hi
    rw [hkeys] at hi
    exact files.valid hi
  obtain ⟨p, hp⟩ := States.init_eq ip (files.val.map some)
  unfold NodeFiles.main Node.main
  simp only [hp]
  exact
    { selfIp := rfl
      self_mem := hmem
      leader_mem := hmem
      valid := hvalid
      sharded := rfl
      leads := fun _ => ⟨rfl, hranked, rfl, hlast, hrank⟩
      follows := fun h => absurd h (by simp [Node.initRaft]) }

/-! ### Heartbeats -/

variable [Unicode]

/-- What a heartbeat of a valid sender does to a node with a valid leader. -/
theorem beatHandler_body {n : Node} {l : Str} (hl : (ipv4 l).isSome)
    (hleader : (ipv4 n.states.leaderIp).isSome) (r lr : ℤ) (now : Time) :
    ∃ nodes m c p,
      nodes = (if n.states.nodes.contains l then n.states.nodes
        else n.states.nodes.set l (n.states.mLastRank + 1)) ∧
      n.beatHandler (beatBody l r lr) now =
        { n with
          states := { n.states with
            nodes := nodes
            mLastRank := m
            leaderIp := if outranks l n.states.leaderIp then l else n.states.leaderIp
            rank := r
            lastRank := lr
            selfRecords :=
              if n.states.rank ≠ r ∨ n.states.lastRank ≠ lr then recordSet n.states.nodeCount r lr
              else n.states.selfRecords
            published := p }
          raft := { n.raft with
            lastBeatReceived := now
            followerCount := c
            leader := if outranks l n.states.leaderIp then false else n.raft.leader } } := by
  rcases n.beatHandler_cases (beatBody l r lr) now with ⟨hp, -⟩ | ⟨l', r', lr', hp, hno, -⟩ |
    ⟨l', r', lr', ld, my, hp, hld, hmy, hrun⟩
  · rw [parseBeat_body hl] at hp
    exact absurd hp (by simp)
  · rw [parseBeat_body hl] at hp
    obtain ⟨rfl, -⟩ : l = l' ∧ _ := by simpa using hp
    rcases hno with hno | hno
    · rw [hno] at hl
      exact absurd hl (by simp)
    · rw [hno] at hleader
      exact absurd hleader (by simp)
  · rw [parseBeat_body hl] at hp
    obtain ⟨rfl, rfl, rfl⟩ : l = l' ∧ r = r' ∧ lr = lr' := by simpa using hp
    have hout : outranks l n.states.leaderIp = decide (my < ld) := by
      unfold outranks
      rw [hld, hmy]
    -- Four cases: the sender is known or new, and outranks the leader or not.
    obtain ⟨p, hadopt⟩ := (((n.heard now).registerSender l).followHigher l ld my).adoptRank_eq r lr
    rw [hrun, hadopt, hout]
    unfold Node.followHigher Node.registerSender
    by_cases hc : n.states.nodes.contains l = true
    · by_cases hlt : my < ld
      · simp only [hlt, hc, Node.heard, if_true, decide_true]
        exact ⟨_, _, _, _, rfl, rfl⟩
      · simp only [hlt, hc, Node.heard, if_true, if_false, decide_false, Bool.false_eq_true]
        exact ⟨_, _, _, _, rfl, rfl⟩
    · by_cases hlt : my < ld
      · simp only [hlt, hc, Node.heard, if_true, decide_true, Bool.false_eq_true, if_false]
        exact ⟨_, _, _, _, rfl, rfl⟩
      · simp only [hlt, hc, Node.heard, if_false, decide_false, Bool.false_eq_true]
        exact ⟨_, _, _, _, rfl, rfl⟩

/-- The node has taken the ranks `r` and `lr` from a heartbeat; if it goes on leading, they are its own
and its map is the one it had. -/
structure Took (n m : Node) (r lr : ℤ) : Prop where
  rank : m.states.rank = r
  lastRank : m.states.lastRank = lr
  leading : m.raft.leader = true → n.raft.leader = true ∧ m.states.nodes = n.states.nodes ∧
    n.states.lastRank = lr

omit [Unicode] in
/-- A heartbeat adds its sender to the map and nobody else. -/
theorem mem_keys_registered {nodes : OrderedDict Str ℤ} {l x : Str} {rank : ℤ} :
    x ∈ (if nodes.contains l then nodes else nodes.set l rank).keys ↔ x = l ∨ x ∈ nodes.keys := by
  split
  · rename_i hc
    rw [OrderedDict.contains_iff] at hc
    constructor
    · exact Or.inr
    · rintro (rfl | hx)
      · exact hc
      · exact hx
  · exact OrderedDict.mem_keys_set

omit [Unicode] in
/-- A node that admits the heartbeat of another does not count itself alone. -/
theorem nodeCount_ne_one {ip : Str} {n : Node} (h : n.Healthy ip) {l : Str} (hne : l ≠ ip) {r lr : ℤ}
    (hok : n.Admits l r lr) : n.states.nodeCount ≠ 1 := by
  rcases hok.counted with hmem | hcount
  · cases hleader : n.raft.leader with
    | false => exact (h.follows hleader).2
    | true =>
      -- A leader counts its map, which has the sender and the node itself.
      rw [(h.leads hleader).nodeCount, ← OrderedDict.length_keys]
      intro hone
      obtain ⟨x, hx⟩ := List.length_eq_one_iff.mp hone
      have hself := h.self_mem
      rw [hx, List.mem_singleton] at hmem hself
      exact hne (hmem.trans hself.symm)
  · exact hcount

/-- **A heartbeat** that is admitted keeps the node healthy. -/
theorem healthy_beat {ip : Str} {n : Node} (h : n.Healthy ip) {l : Str} (hl : (ipv4 l).isSome)
    (hne : l ≠ ip) {r lr : ℤ} (hok : n.Admits l r lr) (now : Time) :
    (n.beatHandler (beatBody l r lr) now).Healthy ip ∧
      Took n (n.beatHandler (beatBody l r lr) now) r lr := by
  obtain ⟨nodes, m, c, p, hnodes, hrun⟩ := beatHandler_body hl (h.valid _ h.leader_mem) r lr now
  have hkeys : ∀ x, x ∈ nodes.keys ↔ x = l ∨ x ∈ n.states.nodes.keys := by
    intro x
    rw [hnodes]
    exact mem_keys_registered
  -- A node that goes on leading is not outranked; it knew the sender, and hears its own ranks.
  have hlead : (if outranks l n.states.leaderIp then false else n.raft.leader) = true →
      outranks l n.states.leaderIp = false ∧ n.raft.leader = true ∧ nodes = n.states.nodes ∧
        n.states.rank = r ∧ n.states.lastRank = lr := by
    intro hleader
    cases hout : outranks l n.states.leaderIp with
    | true =>
      rw [hout] at hleader
      exact absurd hleader (by simp)
    | false =>
      rw [hout] at hleader
      obtain ⟨hmem, hr, hlr⟩ := hok.leading hleader hout
      rw [hnodes, if_pos (OrderedDict.contains_iff.mpr hmem)]
      exact ⟨rfl, hleader, rfl, hr, hlr⟩
  rw [hrun]
  refine ⟨?_, rfl, rfl, ?_⟩
  · constructor
    · exact h.selfIp
    · exact (hkeys ip).mpr (Or.inr h.self_mem)
    · show (if outranks l n.states.leaderIp then l else n.states.leaderIp) ∈ nodes.keys
      split
      · exact (hkeys l).mpr (Or.inl rfl)
      · exact (hkeys _).mpr (Or.inr h.leader_mem)
    · intro i hi
      rcases (hkeys i).mp hi with rfl | hi
      · exact hl
      · exact h.valid i hi
    · exact States.sharded_adopted h.sharded r lr
    · intro hleader
      obtain ⟨hout, hwas, hsame, rfl, rfl⟩ := hlead hleader
      obtain ⟨h1, h2, h3, h4, h5⟩ := h.leads hwas
      simp only [hout, hsame]
      exact ⟨h1, h2, h3, h4, h5⟩
    · intro hfollow
      simp only at hfollow ⊢
      cases hout : outranks l n.states.leaderIp with
      | true => exact ⟨hne, nodeCount_ne_one h hne hok⟩
      | false =>
        rw [hout] at hfollow
        exact h.follows hfollow
  · intro hleader
    obtain ⟨-, hwas, hsame, -, hlr⟩ := hlead hleader
    exact ⟨hwas, hsame, hlr⟩

/-! ### Ticks -/

omit [Unicode] in
/-- **A timeout** makes the node a leader of its renumbered map. -/
theorem healthy_promote {ip : Str} {n : Node} (h : n.Healthy ip) (hfollow : n.raft.leader = false) :
    n.promote.Healthy ip := by
  have hcontains : n.states.nodes.contains n.states.leaderIp = true :=
    OrderedDict.contains_iff.mpr h.leader_mem
  obtain ⟨p, hremove⟩ := States.removeNode_eq hcontains rfl
  obtain ⟨q, hrank⟩ := States.updateRank_eq
    { n.states.removeNode n.states.leaderIp with
      leaderIp := (n.states.removeNode n.states.leaderIp).selfIp }
    (((n.states.removeNode n.states.leaderIp).nodes.get?
      (n.states.removeNode n.states.leaderIp).selfIp).getD 1)
    (n.states.removeNode n.states.leaderIp).lastRank
  -- A follower names another node, so it is still in the map when that one is gone.
  have hmem : ∀ i, i ∈ (States.renumber (n.states.nodes.erase n.states.leaderIp)).keys ↔
      i ∈ n.states.nodes.keys ∧ i ≠ n.states.leaderIp := by
    intro i
    rw [States.keys_renumber]
    exact OrderedDict.mem_keys_erase
  have hself : ip ∈ (States.renumber (n.states.nodes.erase n.states.leaderIp)).keys :=
    (hmem ip).mpr ⟨h.self_mem, Ne.symm (h.follows hfollow).1⟩
  obtain ⟨v, hv⟩ := Option.isSome_iff_exists.mp (OrderedDict.get?_isSome_iff.mpr hself)
  have hip := h.selfIp
  unfold Node.promote
  simp only [hrank]
  rw [hremove]
  constructor
  · exact hip
  · exact hself
  · show n.states.selfIp ∈ _
    rw [hip]
    exact hself
  · intro i hi
    exact h.valid i ((hmem i).mp hi).1
  · rfl
  · intro _
    refine ⟨rfl, States.ranked_renumber _, ?_, rfl, ?_⟩
    · exact (States.length_renumber _).symm
    · show OrderedDict.get? _ n.states.selfIp = some (Option.getD (OrderedDict.get? _ n.states.selfIp) 1)
      rw [hip, hv]
      rfl
  · intro hfalse
    exact absurd hfalse (by simp)

omit [Unicode] in
/-- Health is about the `States` and the leader flag. -/
theorem Node.Healthy.congr {ip : Str} {n m : Node} (h : n.Healthy ip) (hs : m.states = n.states)
    (hl : m.raft.leader = n.raft.leader) : m.Healthy ip := by
  obtain ⟨h1, h2, h3, h4, h5, h6, h7⟩ := h
  rw [← hs] at h1 h2 h3 h4 h5 h6 h7
  rw [← hl] at h6 h7
  exact ⟨h1, h2, h3, h4, h5, h6, h7⟩

omit [Unicode] in
theorem raftHeart_leader {n : Node} {now : Time} (h : n.TimedOut now) :
    (n.raftHeart now).raft.leader = true := by
  rw [Node.raftHeart_promoted h]
  rfl

omit [Unicode] in
theorem raftHeart_same {n : Node} {now : Time} (h : ¬ n.TimedOut now) :
    (n.raftHeart now).states = n.states ∧ (n.raftHeart now).raft.leader = n.raft.leader := by
  rw [Node.raftHeart_kept h]
  exact ⟨n.periodicBeat_states now, (n.periodicBeat_frame now).1⟩

omit [Unicode] in
/-- **A tick** keeps the node healthy. -/
theorem healthy_raftHeart {ip : Str} {n : Node} (h : n.Healthy ip) (now : Time) :
    (n.raftHeart now).Healthy ip := by
  by_cases hout : n.TimedOut now
  · have hbeat : (n.periodicBeat now).Healthy ip :=
      h.congr (n.periodicBeat_states now) (n.periodicBeat_frame now).1
    have hfollow : (n.periodicBeat now).raft.leader = false := by
      rw [(n.periodicBeat_frame now).1]
      exact hout.1
    rw [Node.raftHeart_promoted hout]
    exact (healthy_promote hbeat hfollow).congr rfl rfl
  · exact h.congr (raftHeart_same hout).1 (raftHeart_same hout).2

omit [Unicode] in
/-- A tick sends nothing, or the heartbeats of the leader it leaves behind. -/
theorem raftHeart_sends (n : Node) (now : Time) :
    ((({ n with outbox := [] } : Node).raftHeart now).outbox = [] ∧ ¬ n.TimedOut now) ∨
    ((({ n with outbox := [] } : Node).raftHeart now).outbox =
        Node.beats (({ n with outbox := [] } : Node).raftHeart now).states ∧
      (({ n with outbox := [] } : Node).raftHeart now).raft.leader = true) := by
  have hout := ({ n with outbox := [] } : Node).raftHeart_outbox now
  rw [List.nil_append] at hout
  by_cases ht : ({ n with outbox := [] } : Node).TimedOut now
  · rw [if_pos ht] at hout
    exact Or.inr ⟨hout, raftHeart_leader ht⟩
  · rw [if_neg ht] at hout
    split at hout
    · rename_i hbeat
      right
      rw [(raftHeart_same ht).1, (raftHeart_same ht).2]
      exact ⟨hout, hbeat.2⟩
    · exact Or.inl ⟨hout, ht⟩

omit [Unicode] in
/-- The heartbeat for the node `j`. -/
theorem find?_beats (s : States) (j : Str) : (Node.beats s).find? (fun p => p.dst = j) =
    if j = s.selfIp then none
    else (s.nodes.get? j).map fun r => ⟨j, 7001, beatText s.selfIp r s.lastRank⟩ := by
  unfold Node.beats OrderedDict.get?
  induction s.nodes.entries with
  | nil =>
    show none = _
    split <;> rfl
  | cons e es ih =>
    obtain ⟨k, v⟩ := e
    by_cases hk : k = s.selfIp
    · rw [List.filter_cons_of_neg (by simpa using hk), ih, OrderedDict.lookup]
      by_cases hj : j = s.selfIp
      · rw [if_pos hj, if_pos hj]
      · rw [if_neg hj, if_neg hj, if_neg fun e => hj (e.symm.trans hk)]
    · rw [List.filter_cons_of_pos (by simpa using hk), List.map_cons, List.find?_cons,
        OrderedDict.lookup, ih]
      by_cases hj : k = j
      · subst hj
        simp [hk]
      · simp [hj]

end DsDns
