/-
  What `beatHandler` and `raftHeart` do, branch by branch.

  A heartbeat either cannot be read, or names a sender whose address (or the address of the leader
  it is compared with) is no IPv4 address, or is compared and adopted: `beatHandler_cases` says so
  once, and later proofs never unfold the handler. A tick of `raftHeart` either promotes the node or
  leaves its `States` alone (`raftHeart_promoted`, `raftHeart_kept`). The frame lemmas say what
  neither of them touches: records, logs, log number and record files.
-/
import DsDns.DataPlane.Raft
import DsDns.DataPlane.Equiv.State

namespace DsDns

variable [Unicode]

/-! ### Heartbeats -/

omit [Unicode] in
/-- What holds of the fields of a heartbeat. -/
theorem forall_parsed_iff {fields : Option (Str × ℤ × ℤ)} {l : Str} {r lr : ℤ} (hparse : fields = some (l, r, lr))
    (p : Str → ℤ → ℤ → Prop) : (∀ l r lr, fields = some (l, r, lr) → p l r lr) ↔ p l r lr := by
  constructor
  · exact fun hall => hall l r lr hparse
  · intro hp l' r' lr' hsome
    cases hparse.symm.trans hsome
    exact hp

namespace Node

omit [Unicode] in
/-- The node at the moment it takes note of a heartbeat. -/
def heard (n : Node) (now : Time) : Node := { n with raft := { n.raft with lastBeatReceived := now } }

omit [Unicode] in
/-- A text that cannot be parsed restarts the timer. -/
theorem beatHandlerWith_unparsed {int : Str → Option ℤ} {n : Node} {beat : Str} {now : Time}
    (h : parseBeatWith int beat = none) : n.beatHandlerWith int beat now = n.heard now := by
  unfold beatHandlerWith
  rw [h]
  rfl

theorem beatHandler_unparsed {n : Node} {beat : Str} {now : Time} (h : parseBeat beat = none) :
    n.beatHandler beat now = n.heard now := beatHandlerWith_unparsed h

omit [Unicode] in
/-- **The branches of `beatHandler`**, whatever `int` reads. -/
theorem beatHandlerWith_cases (int : Str → Option ℤ) (n : Node) (beat : Str) (now : Time) :
    (parseBeatWith int beat = none ∧ n.beatHandlerWith int beat now = n.heard now) ∨
    (∃ l r lr, parseBeatWith int beat = some (l, r, lr) ∧ (ipv4 l = none ∨ ipv4 n.states.leaderIp = none) ∧
      n.beatHandlerWith int beat now = (n.heard now).registerSender l) ∨
    (∃ l r lr ld my, parseBeatWith int beat = some (l, r, lr) ∧ ipv4 l = some ld ∧
      ipv4 n.states.leaderIp = some my ∧
      n.beatHandlerWith int beat now =
        (((n.heard now).registerSender l).followHigher l ld my).adoptRank r lr) := by
  -- The comparison reads `leaderIp` after the sender is registered, which does not change it.
  have hleader : ∀ l, ((n.heard now).registerSender l).states.leaderIp = n.states.leaderIp := by
    intro l
    unfold registerSender
    split <;> rfl
  rcases hp : parseBeatWith int beat with _ | ⟨l, r, lr⟩
  · exact Or.inl ⟨rfl, beatHandlerWith_unparsed hp⟩
  · right
    cases hl : ipv4 l with
    | none =>
      refine Or.inl ⟨l, r, lr, rfl, Or.inl hl, ?_⟩
      unfold beatHandlerWith
      simp only [hp, hl]
      rfl
    | some ld =>
      cases hm : ipv4 n.states.leaderIp with
      | none =>
        refine Or.inl ⟨l, r, lr, rfl, Or.inr rfl, ?_⟩
        have hm' := hm
        rw [← hleader l] at hm'
        unfold beatHandlerWith
        simp only [hp, hl]
        unfold heard at hm'
        rw [hm']
        rfl
      | some my =>
        refine Or.inr ⟨l, r, lr, ld, my, rfl, hl, rfl, ?_⟩
        have hm' := hm
        rw [← hleader l] at hm'
        unfold beatHandlerWith
        simp only [hp, hl]
        unfold heard at hm'
        rw [hm']
        rfl

theorem beatHandler_cases (n : Node) (beat : Str) (now : Time) :
    (parseBeat beat = none ∧ n.beatHandler beat now = n.heard now) ∨
    (∃ l r lr, parseBeat beat = some (l, r, lr) ∧ (ipv4 l = none ∨ ipv4 n.states.leaderIp = none) ∧
      n.beatHandler beat now = (n.heard now).registerSender l) ∨
    (∃ l r lr ld my, parseBeat beat = some (l, r, lr) ∧ ipv4 l = some ld ∧
      ipv4 n.states.leaderIp = some my ∧
      n.beatHandler beat now =
        (((n.heard now).registerSender l).followHigher l ld my).adoptRank r lr) :=
  beatHandlerWith_cases parseInt n beat now

omit [Unicode] in
/-- `registerSender` changes the map, the highest rank handed out and the follower count. -/
theorem registerSender_eq (n : Node) (l : Str) : ∃ nodes m c, n.registerSender l =
    { n with
      states := { n.states with nodes := nodes, mLastRank := m }
      raft := { n.raft with followerCount := c } } := by
  unfold registerSender
  split
  · exact ⟨_, _, _, rfl⟩
  · exact ⟨_, _, _, rfl⟩

omit [Unicode] in
/-- Only a known sender leaves the map as it is. -/
theorem registerSender_nodes_iff (n : Node) (l : Str) :
    (n.registerSender l).states.nodes = n.states.nodes ↔ l ∈ n.states.nodes.keys := by
  unfold registerSender
  by_cases hl : l ∈ n.states.nodes.keys
  · rw [if_pos (OrderedDict.contains_iff.mpr hl)]
    exact iff_of_true rfl hl
  · rw [if_neg fun hcontains => hl (OrderedDict.contains_iff.mp hcontains)]
    refine iff_of_false (fun hnodes => ?_) hl
    apply hl
    rw [← hnodes]
    exact OrderedDict.mem_keys_set.mpr (Or.inl rfl)

omit [Unicode] in
/-- `adoptRank` changes rank, last rank and shard. -/
theorem adoptRank_eq (n : Node) (r lr : ℤ) : ∃ p, n.adoptRank r lr =
    { n with states := { n.states with
      rank := r
      lastRank := lr
      selfRecords :=
        if n.states.rank ≠ r ∨ n.states.lastRank ≠ lr then recordSet n.states.nodeCount r lr
        else n.states.selfRecords
      published := p } } := by
  unfold adoptRank
  split
  · obtain ⟨p, hp⟩ := n.states.updateRank_eq r lr
    exact ⟨p, by rw [hp]⟩
  · rename_i h
    rw [not_or, not_not, not_not] at h
    obtain ⟨rfl, rfl⟩ := h
    exact ⟨n.states.published, rfl⟩

/-- `beatHandler` touches neither the records nor the write pipeline. -/
theorem beatHandler_frame (n : Node) (beat : Str) (now : Time) :
    (n.beatHandler beat now).states.records = n.states.records ∧
    (n.beatHandler beat now).states.selfIp = n.states.selfIp ∧
    (n.beatHandler beat now).states.nodeCount = n.states.nodeCount ∧
    (n.beatHandler beat now).raft.currLogNum = n.raft.currLogNum ∧
    (n.beatHandler beat now).raft.lastBeatReceived = now ∧
    (n.beatHandler beat now).writer = n.writer ∧
    (n.beatHandler beat now).disk = n.disk ∧
    (n.beatHandler beat now).outbox = n.outbox := by
  have hreg : ∀ l, ∃ nodes m c, (n.heard now).registerSender l =
      { n with
        states := { n.states with nodes := nodes, mLastRank := m }
        raft := { n.raft with followerCount := c, lastBeatReceived := now } } :=
    fun l => (n.heard now).registerSender_eq l
  rcases n.beatHandler_cases beat now with ⟨-, h⟩ | ⟨l, r, lr, -, -, h⟩ |
    ⟨l, r, lr, ld, my, -, -, -, h⟩
  · rw [h]
    exact ⟨rfl, rfl, rfl, rfl, rfl, rfl, rfl, rfl⟩
  · obtain ⟨nodes, m, c, hr⟩ := hreg l
    rw [h, hr]
    exact ⟨rfl, rfl, rfl, rfl, rfl, rfl, rfl, rfl⟩
  · obtain ⟨nodes, m, c, hr⟩ := hreg l
    obtain ⟨p, hp⟩ := (((n.heard now).registerSender l).followHigher l ld my).adoptRank_eq r lr
    rw [h, hp, hr]
    unfold followHigher
    split <;> exact ⟨rfl, rfl, rfl, rfl, rfl, rfl, rfl, rfl⟩

omit [Unicode] in
theorem outranks_iff {l m : Str} :
    outranks l m = true ↔ ∃ ld my, ipv4 l = some ld ∧ ipv4 m = some my ∧ my < ld := by
  unfold outranks
  constructor
  · intro h
    split at h
    · rename_i ld my hl hm
      exact ⟨ld, my, hl, hm, of_decide_eq_true h⟩
    · exact absurd h (by simp)
  · rintro ⟨ld, my, hl, hm, hlt⟩
    rw [hl, hm]
    exact decide_eq_true hlt

/-- The heartbeat replaces the leader of the node by `l`. -/
def Supersedes (n : Node) (beat l : Str) : Prop :=
  (parseBeat beat).map Prod.fst = some l ∧ outranks l n.states.leaderIp = true

/-- A heartbeat from a greater address makes its sender the leader. -/
theorem beatHandler_of_supersedes {n : Node} {beat l : Str} (h : n.Supersedes beat l) (now : Time) :
    (n.beatHandler beat now).raft.leader = false ∧
    (n.beatHandler beat now).states.leaderIp = l := by
  obtain ⟨hl, hgt⟩ := h
  obtain ⟨ld, my, hld, hmy, hlt⟩ := outranks_iff.mp hgt
  rcases n.beatHandler_cases beat now with ⟨hp, -⟩ | ⟨l', r, lr, hp, hno, -⟩ |
    ⟨l', r, lr, ld', my', hp, hld', hmy', hrun⟩
  · rw [hp] at hl
    exact absurd hl (by simp)
  · rw [hp] at hl
    obtain rfl : l' = l := Option.some.inj hl
    rcases hno with hno | hno
    · rw [hno] at hld
      exact absurd hld (by simp)
    · rw [hno] at hmy
      exact absurd hmy (by simp)
  · rw [hp] at hl
    obtain rfl : l' = l := Option.some.inj hl
    obtain rfl : ld' = ld := Option.some.inj (hld'.symm.trans hld)
    obtain rfl : my' = my := Option.some.inj (hmy'.symm.trans hmy)
    obtain ⟨p, hadopt⟩ := (((n.heard now).registerSender l').followHigher l' ld' my').adoptRank_eq r lr
    rw [hrun, hadopt]
    simp only [followHigher, if_pos hlt, and_self]

/-- Every other message leaves the leader as it was. -/
theorem beatHandler_of_not_supersedes {n : Node} {beat : Str} (h : ∀ l, ¬ n.Supersedes beat l)
    (now : Time) : (n.beatHandler beat now).raft.leader = n.raft.leader ∧
    (n.beatHandler beat now).states.leaderIp = n.states.leaderIp := by
  rcases n.beatHandler_cases beat now with ⟨-, hrun⟩ | ⟨l, r, lr, -, -, hrun⟩ |
    ⟨l, r, lr, ld, my, hp, hl, hm, hrun⟩
  · rw [hrun]
    exact ⟨rfl, rfl⟩
  · obtain ⟨nodes, m, c, hr⟩ := (n.heard now).registerSender_eq l
    rw [hrun, hr]
    exact ⟨rfl, rfl⟩
  · have hle : ¬ my < ld := fun hlt => h l ⟨by rw [hp]; rfl, outranks_iff.mpr ⟨ld, my, hl, hm, hlt⟩⟩
    obtain ⟨nodes, m, c, hr⟩ := (n.heard now).registerSender_eq l
    obtain ⟨p, hadopt⟩ := (((n.heard now).registerSender l).followHigher l ld my).adoptRank_eq r lr
    rw [hrun, hadopt, hr]
    simp only [followHigher, if_neg hle]
    exact ⟨rfl, rfl⟩

/-! ### Ticks -/

omit [Unicode] in
theorem periodicBeat_states (n : Node) (now : Time) : (n.periodicBeat now).states = n.states := by
  unfold periodicBeat
  split
  · split <;> rfl
  · rfl

omit [Unicode] in
/-- `periodicBeat` changes the outbox and its own clock. -/
theorem periodicBeat_frame (n : Node) (now : Time) :
    (n.periodicBeat now).raft.leader = n.raft.leader ∧
    (n.periodicBeat now).raft.lastBeatReceived = n.raft.lastBeatReceived ∧
    (n.periodicBeat now).raft.currLogNum = n.raft.currLogNum ∧
    (n.periodicBeat now).writer = n.writer ∧ (n.periodicBeat now).disk = n.disk := by
  unfold periodicBeat
  split
  · split <;> exact ⟨rfl, rfl, rfl, rfl, rfl⟩
  · exact ⟨rfl, rfl, rfl, rfl, rfl⟩

omit [Unicode] in
theorem raftHeart_kept {n : Node} {now : Time} (h : ¬ n.TimedOut now) :
    n.raftHeart now = n.periodicBeat now := by
  obtain ⟨h1, h2, -⟩ := n.periodicBeat_frame now
  unfold raftHeart
  rw [if_neg]
  show ¬ ((n.periodicBeat now).raft.leader = false ∧
    leaderDead ≤ now - (n.periodicBeat now).raft.lastBeatReceived)
  rw [h1, h2]
  exact h

omit [Unicode] in
theorem raftHeart_promoted {n : Node} {now : Time} (h : n.TimedOut now) :
    n.raftHeart now = { (n.periodicBeat now).promote.sendBeat with
      raft := { (n.periodicBeat now).promote.sendBeat.raft with
        nextBeatTime := now + beatInterval
        lastBeatReceived := now } } := by
  obtain ⟨h1, h2, -⟩ := n.periodicBeat_frame now
  unfold raftHeart
  rw [if_pos]
  show (n.periodicBeat now).raft.leader = false ∧
    leaderDead ≤ now - (n.periodicBeat now).raft.lastBeatReceived
  rw [h1, h2]
  exact h

omit [Unicode] in
/-- A tick touches neither the records nor the write pipeline. -/
theorem raftHeart_frame (n : Node) (now : Time) :
    (n.raftHeart now).states.records = n.states.records ∧
    (n.raftHeart now).states.selfIp = n.states.selfIp ∧
    (n.raftHeart now).raft.currLogNum = n.raft.currLogNum ∧
    (n.raftHeart now).writer = n.writer ∧
    (n.raftHeart now).disk = n.disk := by
  obtain ⟨-, -, h3, h4, h5⟩ := n.periodicBeat_frame now
  by_cases h : n.TimedOut now
  · -- A timeout removes the leader and renumbers, whether or not it is in the map.
    have hremove : ∀ ip, (n.states.removeNode ip).records = n.states.records ∧
        (n.states.removeNode ip).selfIp = n.states.selfIp := by
      intro ip
      cases hc : n.states.nodes.contains ip with
      | false =>
        rw [States.removeNode_of_not_mem hc]
        exact ⟨rfl, rfl⟩
      | true =>
        obtain ⟨p, hp⟩ := States.removeNode_eq hc rfl
        rw [hp]
        exact ⟨rfl, rfl⟩
    rw [raftHeart_promoted h]
    unfold promote
    rw [n.periodicBeat_states now]
    obtain ⟨p, hp⟩ := States.updateRank_eq
      { n.states.removeNode n.states.leaderIp with
        leaderIp := (n.states.removeNode n.states.leaderIp).selfIp }
      (((n.states.removeNode n.states.leaderIp).nodes.get?
        (n.states.removeNode n.states.leaderIp).selfIp).getD 1)
      (n.states.removeNode n.states.leaderIp).lastRank
    simp only [hp, sendBeat]
    exact ⟨(hremove _).1, (hremove _).2, h3, h4, h5⟩
  · rw [raftHeart_kept h, n.periodicBeat_states now]
    exact ⟨rfl, rfl, h3, h4, h5⟩

/-! ### What is sent -/

omit [Unicode] in
/-- The heartbeats of a node, one for every other node of its map. -/
def beats (s : States) : List Packet :=
  (s.nodes.entries.filter fun e => e.1 ≠ s.selfIp).map
    fun e => ⟨e.1, 7001, beatText s.selfIp e.2 s.lastRank⟩

omit [Unicode] in
/-- A leader whose time has come sends its heartbeats. -/
theorem periodicBeat_outbox (n : Node) (now : Time) : (n.periodicBeat now).outbox =
    n.outbox ++ if n.raft.nextBeatTime ≤ now ∧ n.raft.leader = true then beats n.states else [] := by
  unfold periodicBeat
  by_cases ht : n.raft.nextBeatTime ≤ now
  · cases hl : n.raft.leader with
    | true =>
      simp only [ht, and_self, if_true]
      rfl
    | false =>
      simp only [ht, if_true, Bool.false_eq_true, and_false, if_false, List.append_nil]
  · simp only [ht, false_and, if_false, List.append_nil]

omit [Unicode] in
/-- **What a tick sends**: the heartbeats of the node before it, or of the promoted node. -/
theorem raftHeart_outbox (n : Node) (now : Time) : (n.raftHeart now).outbox = n.outbox ++
    if n.TimedOut now then beats (n.raftHeart now).states
    else if n.raft.nextBeatTime ≤ now ∧ n.raft.leader = true then beats n.states else [] := by
  by_cases h : n.TimedOut now
  · rw [if_pos h, raftHeart_promoted h]
    show (n.periodicBeat now).outbox ++ beats (n.periodicBeat now).promote.states = _
    rw [n.periodicBeat_outbox now, if_neg fun hb => by rw [h.1] at hb; exact absurd hb.2 (by decide),
      List.append_nil]
    rfl
  · rw [if_neg h, raftHeart_kept h, n.periodicBeat_outbox now]

/-- Heartbeats on a connection touch neither the write pipeline nor the outbox. -/
theorem handleSync_frame (n : Node) (text : Str) (now : Time) :
    (n.handleSync text now).writer = n.writer ∧ (n.handleSync text now).outbox = n.outbox ∧
    (n.handleSync text now).raft.currLogNum = n.raft.currLogNum ∧
    (n.handleSync text now).states.selfIp = n.states.selfIp := by
  unfold handleSync
  induction readLines text generalizing n with
  | nil => exact ⟨rfl, rfl, rfl, rfl⟩
  | cons line lines ih =>
    rw [List.foldl_cons]
    by_cases hs : strip line = []
    · rw [if_pos hs]
      exact ih n
    · obtain ⟨-, hself, -, hnum, -, hwriter, -, hout⟩ := n.beatHandler_frame (strip line) now
      obtain ⟨h1, h2, h3, h4⟩ := ih (n.beatHandler (strip line) now)
      rw [if_neg hs]
      exact ⟨h1.trans hwriter, h2.trans hout, h3.trans hnum, h4.trans hself⟩

end Node

end DsDns
