/-
  The counters beside the node map.

  `nodeCount` and `followerCount` repeat the length of the map and the ranks are to be 1, 2, ..., but
  each is refreshed by some of the operations that change the map only: `registerSender` counts the
  followers and not the nodes, `addNodes` and `removeNode` the nodes and not the followers.
  `counted_step_iff` decides for every event whether the counters survive it, and
  `always_counted_iff` carries this over runs. `not_counted_new_sender` is the first heartbeat of a new
  node, after which it is not counted.
-/
import DsDns.DataPlane.Equiv.Election
import DsDns.DataPlane.Equiv.Step

namespace DsDns

/-- The ranks are 1, ..., n, each once, and the counters agree with the map. -/
structure Counted (n : Node) : Prop where
  distinct : n.states.nodes.values.Nodup
  ranks : ∀ r, r ∈ n.states.nodes.values ↔ 1 ≤ r ∧ r ≤ n.states.nodes.length
  nodeCount : n.states.nodeCount = n.states.nodes.length
  followerCount : n.raft.followerCount = n.states.nodes.length - 1

/-- The event changes no map, or every counter with it: heartbeats come from nodes of the map, a node
is added to an empty map only, and removed (by `removeNode` or by a leader timeout) from a map of one
only. -/
def NodeEvent.KeepsCounts [Unicode] (n : Node) : NodeEvent → Prop
  | .beat line _ => ∀ l r lr, parseBeat line.val = some (l, r, lr) → l ∈ n.states.nodes.keys
  | .tick now => n.TimedOut now → n.states.leaderIp ∈ n.states.nodes.keys →
      n.states.nodes.length = 1
  | .addNodes ip => ip ∈ n.states.nodes.keys ∨ n.states.nodes.length = 0
  | .removeNode ip => ip ∈ n.states.nodes.keys → n.states.nodes.length = 1
  | _ => True

/-! ### The start -/

/-- After its start a node is counted. -/
theorem counted_main {selfIp : Str} {files : List Str} (hself : selfIp ∈ files.map strip)
    (hnodup : (files.map strip).Nodup) (hne : ∀ file ∈ files, strip file ≠ []) (disk : Disk)
    (heads : List Str) (now : Time) :
    Counted (Node.main selfIp (files.map some) disk heads now) := by
  obtain ⟨-, hranked, -⟩ := States.registerNodes_eq hself hnodup hne
  obtain ⟨p, hp⟩ := States.init_eq selfIp (files.map some)
  obtain ⟨hdistinct, hranks⟩ := ranks_of_ranked hranked
  unfold Node.main Node.initRaft
  rw [hp]
  exact ⟨hdistinct, hranks, rfl, rfl⟩

/-! ### One event -/

/-- The counters depend on the map and on two numbers. -/
theorem counted_congr {n m : Node} (hnodes : m.states.nodes = n.states.nodes)
    (hcount : m.states.nodeCount = n.states.nodeCount)
    (hfollowers : m.raft.followerCount = n.raft.followerCount) : Counted m ↔ Counted n := by
  constructor
  · rintro ⟨h1, h2, h3, h4⟩
    rw [hnodes] at h1 h2 h3 h4
    exact ⟨h1, h2, hcount.symm.trans h3, hfollowers.symm.trans h4⟩
  · rintro ⟨h1, h2, h3, h4⟩
    rw [← hnodes] at h1 h2 h3 h4
    exact ⟨h1, h2, hcount.trans h3, hfollowers.trans h4⟩

/-- `removeNode` renumbers and counts the nodes; the followers are counted right only if the map had one
entry. -/
theorem counted_removeNode {n m : Node} (h : Counted n) {ip : Str} (hip : ip ∈ n.states.nodes.keys)
    (hnodes : m.states.nodes = (n.states.removeNode ip).nodes)
    (hcount : m.states.nodeCount = (n.states.removeNode ip).nodeCount)
    (hfollowers : m.raft.followerCount = n.raft.followerCount) :
    Counted m ↔ n.states.nodes.length = 1 := by
  obtain ⟨p, hp⟩ := States.removeNode_eq (OrderedDict.contains_iff.mpr hip) rfl
  rw [hp] at hnodes hcount
  have hlength : m.states.nodes.length = (n.states.nodes.erase ip).length := by
    rw [hnodes]
    exact States.length_renumber _
  have hone := OrderedDict.length_erase_of_mem hip
  have hbefore := h.followerCount
  constructor
  · intro hm
    have hafter := hm.followerCount
    omega
  · intro hsingle
    -- With one entry the map is empty afterwards, and no follower is missing.
    have hranked : States.Ranked m.states.nodes := by
      rw [hnodes]
      exact States.ranked_renumber _
    obtain ⟨hdistinct, hranks⟩ := ranks_of_ranked hranked
    exact ⟨hdistinct, hranks, by rw [hlength]; exact hcount, by omega⟩

/-- `addNodes` gives the next rank and counts the node; the followers are counted right only if the
node is the first. -/
theorem counted_addNodes {n m : Node} (h : Counted n) {ip : Str} (hip : ip ∉ n.states.nodes.keys)
    (hm : m = { n with states := n.states.addNodes ip }) :
    Counted m ↔ n.states.nodes.length = 0 := by
  obtain ⟨p, hp⟩ := States.addNodes_eq (OrderedDict.contains_eq_false_iff.mpr hip)
  have hnodes : m.states.nodes = n.states.nodes.set ip (n.states.nodeCount + 1) := by
    rw [hm]
    exact congrArg States.nodes hp
  have hcount : m.states.nodeCount = n.states.nodeCount + 1 := by
    rw [hm]
    exact congrArg States.nodeCount hp
  have hfollowers : m.raft.followerCount = n.raft.followerCount := by rw [hm]
  have hlength : m.states.nodes.length = n.states.nodes.length + 1 := by
    rw [hnodes, OrderedDict.length_set_of_not_mem hip]
  have hvalues : m.states.nodes.values = n.states.nodes.values ++ [(n.states.nodeCount : ℤ) + 1] := by
    rw [hnodes, OrderedDict.values_set_of_not_mem hip]
  have hbefore := h.followerCount
  have hnumber := h.nodeCount
  constructor
  · intro hcounted
    have hafter := hcounted.followerCount
    omega
  · intro hempty
    refine ⟨?_, fun r => ?_, by omega, by omega⟩
    · -- The new rank is above all old ones.
      rw [hvalues]
      refine List.nodup_append.mpr ⟨h.distinct, List.nodup_singleton _, fun a ha b hb => ?_⟩
      have hold := (h.ranks a).mp ha
      have hnew := List.mem_singleton.mp hb
      omega
    · rw [hvalues, List.mem_append, List.mem_singleton, h.ranks, hlength]
      omega

variable [Unicode]

/-- What a heartbeat makes of the map and of the followers, once it is read. -/
theorem beatHandler_registers {n : Node} {line : Str} {now : Time} {l : Str} {r lr : ℤ}
    (hp : parseBeat line = some (l, r, lr)) :
    (n.beatHandler line now).states.nodes = ((n.heard now).registerSender l).states.nodes ∧
      (n.beatHandler line now).raft.followerCount =
        ((n.heard now).registerSender l).states.nodes.length - 1 := by
  rcases n.beatHandler_cases line now with ⟨hnone, -⟩ | ⟨l', r', lr', hp', -, hrun⟩ |
    ⟨l', r', lr', ld, my, hp', -, -, hrun⟩
  · rw [hnone] at hp
    exact absurd hp (by simp)
  · rw [hp] at hp'
    cases hp'
    rw [hrun]
    exact ⟨rfl, rfl⟩
  · rw [hp] at hp'
    cases hp'
    obtain ⟨p, hadopt⟩ := (((n.heard now).registerSender l).followHigher l ld my).adoptRank_eq r lr
    rw [hrun, hadopt]
    unfold Node.followHigher
    split
    · exact ⟨rfl, rfl⟩
    · exact ⟨rfl, rfl⟩

/-- A heartbeat of a new node registers it without counting it. -/
theorem counted_beat {n : Node} (h : Counted n) (line : Line) (now : Time) :
    Counted (n.step (.beat line now)) ↔ (NodeEvent.beat line now).KeepsCounts n := by
  have hframe := (n.beatHandler_frame line now).2.2.1
  show Counted (n.beatHandler line now) ↔
    ∀ l r lr, parseBeat line.val = some (l, r, lr) → l ∈ n.states.nodes.keys
  cases hp : parseBeat line.val with
  | none =>
    rw [Node.beatHandler_unparsed hp]
    refine iff_of_true ?_ fun l r lr hsome => absurd hsome (by simp)
    exact (counted_congr (m := n.heard now) (n := n) rfl rfl rfl).mpr h
  | some p =>
    obtain ⟨l, r, lr⟩ := p
    obtain ⟨hnodes, hfollowers⟩ := @beatHandler_registers _ n line now l r lr hp
    by_cases hl : l ∈ n.states.nodes.keys
    · have hsame : ((n.heard now).registerSender l).states.nodes = n.states.nodes := by
        unfold Node.registerSender
        simp only [Node.heard, OrderedDict.contains_iff.mpr hl, if_true]
      rw [hsame] at hnodes hfollowers
      refine ⟨fun _ l' r' lr' hsome => ?_, fun _ => ?_⟩
      · cases hsome
        exact hl
      · exact (counted_congr hnodes hframe (hfollowers.trans h.followerCount.symm)).mpr h
    · have hset : ((n.heard now).registerSender l).states.nodes =
          n.states.nodes.set l (n.states.mLastRank + 1) := by
        unfold Node.registerSender
        simp only [Node.heard, OrderedDict.contains_eq_false_iff.mpr hl, Bool.false_eq_true, if_false]
      rw [hset] at hnodes
      constructor
      · intro hm
        have hafter := hm.nodeCount
        -- The map has grown, and `nodeCount` has not.
        rw [hnodes, OrderedDict.length_set_of_not_mem hl, hframe, h.nodeCount] at hafter
        omega
      · exact fun hall => absurd (hall l r lr rfl) hl

/-- A tick keeps the counters, unless it is a leader timeout: then the leader is removed. -/
theorem counted_tick {n : Node} (h : Counted n) (now : Time) :
    Counted (n.step (.tick now)) ↔ (NodeEvent.tick now).KeepsCounts n := by
  show Counted (n.raftHeart now) ↔ (n.TimedOut now → n.states.leaderIp ∈ n.states.nodes.keys →
    n.states.nodes.length = 1)
  have hstates : (n.periodicBeat now).states = n.states := n.periodicBeat_states now
  have hfollowers : (n.periodicBeat now).raft.followerCount = n.raft.followerCount := by
    unfold Node.periodicBeat
    split
    · split <;> rfl
    · rfl
  by_cases ht : n.TimedOut now
  · have hpromoted : Counted (n.raftHeart now) ↔ Counted (n.periodicBeat now).promote := by
      rw [Node.raftHeart_promoted ht]
      exact counted_congr rfl rfl rfl
    rw [hpromoted]
    -- A promotion is a `removeNode` of the leader; the followers are not counted again.
    have hnodes : (n.periodicBeat now).promote.states.nodes =
        (n.states.removeNode n.states.leaderIp).nodes := by
      unfold Node.promote
      rw [hstates]
      exact (States.updateRank_frame _ _ _).2.2.2.1
    have hcount : (n.periodicBeat now).promote.states.nodeCount =
        (n.states.removeNode n.states.leaderIp).nodeCount := by
      unfold Node.promote
      rw [hstates]
      exact (States.updateRank_frame _ _ _).2.2.2.2
    by_cases hip : n.states.leaderIp ∈ n.states.nodes.keys
    · rw [counted_removeNode h hip hnodes hcount hfollowers]
      exact ⟨fun hone _ _ => hone, fun hall => hall ht hip⟩
    · rw [States.removeNode_of_not_mem (OrderedDict.contains_eq_false_iff.mpr hip)] at hnodes hcount
      refine iff_of_true ?_ fun _ hmem => absurd hmem hip
      exact (counted_congr hnodes hcount hfollowers).mpr h
  · rw [Node.raftHeart_kept ht]
    refine iff_of_true ?_ fun hout => absurd hout ht
    exact (counted_congr (by rw [hstates]) (by rw [hstates]) hfollowers).mpr h

omit [Unicode] in
/-- The write pipeline does not touch the counters. -/
theorem counted_writeFrame {n m : Node} (hm : Node.WriteFrame n m) : Counted m ↔ Counted n :=
  counted_congr (by rw [hm.states]) (by rw [hm.states]) (by rw [hm.raft])

/-- **Which events the counters survive.** -/
theorem counted_step_iff {n : Node} (h : Counted n) (e : NodeEvent) :
    Counted (n.step e) ↔ e.KeepsCounts n := by
  cases e with
  | beat line now => exact counted_beat h line now
  | tick now => exact counted_tick h now
  | write line =>
    exact iff_of_true ((counted_writeFrame (n.writeFrame_writeHandler line)).mpr h) trivial
  | newRecord domain ip =>
    exact iff_of_true ((counted_writeFrame (n.writeFrame_newRecord domain ip)).mpr h) trivial
  | addNodes ip =>
    show Counted { n with states := n.states.addNodes ip } ↔ (ip ∈ n.states.nodes.keys ∨ _)
    by_cases hip : ip ∈ n.states.nodes.keys
    · rw [States.addNodes_of_mem (OrderedDict.contains_iff.mpr hip)]
      exact iff_of_true h (Or.inl hip)
    · rw [counted_addNodes h hip rfl]
      exact ⟨Or.inr, fun hor => hor.resolve_left hip⟩
  | removeNode ip =>
    show Counted { n with states := n.states.removeNode ip } ↔ (ip ∈ n.states.nodes.keys → _)
    by_cases hip : ip ∈ n.states.nodes.keys
    · have hremoved := counted_removeNode (m := { n with states := n.states.removeNode ip }) h hip rfl
        rfl rfl
      exact ⟨fun hm _ => hremoved.mp hm, fun hall => hremoved.mpr (hall hip)⟩
    · rw [States.removeNode_of_not_mem (OrderedDict.contains_eq_false_iff.mpr hip)]
      exact iff_of_true h fun hmem => absurd hmem hip
  | updateRank rank lastRank =>
    obtain ⟨-, -, -, hnodes, hcount⟩ := n.states.updateRank_frame rank lastRank
    refine iff_of_true ?_ trivial
    exact (counted_congr (m := { n with states := n.states.updateRank rank lastRank }) hnodes hcount
      rfl).mpr h

/-! ### Runs -/

/-- **When the counters stay right.** From any node whose counters are right, they are right in every
state of a run exactly if every event of the run keeps them. -/
theorem always_counted_iff {n : Node} (h : Counted n) (es : List NodeEvent) :
    Always Counted Node.step n es ↔ Along (fun n e => e.KeepsCounts n) Node.step n es :=
  always_iff_along h fun _ e hn => counted_step_iff hn e

omit [Unicode] in
theorem thirdNode_counted : Counted thirdNode :=
  @counted_main "10.0.0.1".toList ["10.0.0.1".toList, "10.0.0.2".toList, "10.0.0.3".toList]
    (by decide) (by decide) (by decide) _ _ _

omit [Unicode] in
/-- Heartbeats of the known nodes, and the addition of a node that is there, keep the counters of
`10.0.0.1` right. -/
theorem always_counted_iff_known : Always Counted (@Node.step Unicode.ascii) thirdNode
    [.beat ⟨"10.0.0.3;1;3".toList, by decide, by decide⟩ 0, .addNodes "10.0.0.2".toList] := by
  rw [@always_counted_iff Unicode.ascii _ thirdNode_counted]
  refine ⟨fun l r lr hp => ?_, Or.inl (by decide), trivial⟩
  have hparse : @parseBeat Unicode.ascii "10.0.0.3;1;3".toList = some ("10.0.0.3".toList, 1, 3) := by
    decide
  rw [hparse] at hp
  cases hp
  decide

omit [Unicode] in
/-- The first heartbeat of a fourth node: the map of `10.0.0.1` has four nodes with the ranks 1 to 4,
and `nodeCount` is still 3. After `removeNode`, `followerCount` is still 2 where one follower is left,
and the node that comes back by a heartbeat is given the rank 4 of three. -/
theorem not_counted_new_sender :
    (thirdNode.states.lastRank = 3 ∧ thirdNode.states.mLastRank = 3 ∧
      thirdNode.states.nodeCount = 3 ∧ "10.0.0.1".toList ∈ thirdNode.states.nodes.keys ∧
      Counted thirdNode) ∧
    ((run (@Node.step Unicode.ascii) thirdNode
        [.beat ⟨"10.0.0.4;1;3".toList, by decide, by decide⟩ 0]).states.nodeCount = 3 ∧
      (run (@Node.step Unicode.ascii) thirdNode
        [.beat ⟨"10.0.0.4;1;3".toList, by decide, by decide⟩ 0]).states.nodes.length = 4 ∧
      ¬ Counted (run (@Node.step Unicode.ascii) thirdNode
        [.beat ⟨"10.0.0.4;1;3".toList, by decide, by decide⟩ 0])) ∧
    (run (@Node.step Unicode.ascii) thirdNode [.removeNode "10.0.0.2".toList]).raft.followerCount =
      2 ∧
    (run (@Node.step Unicode.ascii) thirdNode [.removeNode "10.0.0.2".toList,
      .beat ⟨"10.0.0.2;1;2".toList, by decide, by decide⟩ 0]).states.nodes.values = [1, 2, 4] := by
  refine ⟨⟨by decide, by decide, by decide, by decide, thirdNode_counted⟩,
    ⟨by decide, by decide, fun h => ?_⟩, by decide, by decide⟩
  exact absurd h.nodeCount (by decide)

end DsDns
