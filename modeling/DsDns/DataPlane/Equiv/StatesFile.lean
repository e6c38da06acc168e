/-
  What a reader of `states.txt` gets.

  Reading the file gives back the dictionary that was written (`loads_text`). The file may be stale, but whatever
  a node does, it shows a state the node has been in: the letters in it are those that its numbers give
  (`snapshot_stateStep`).
-/
import DsDns.DataPlane.Equiv.Publication
import DsDns.DataPlane.StatesFile
import DsDns.Json.Equiv.RoundTrip

namespace DsDns

/-! ### The text -/

theorem plain_toJson (d : StateDict) : d.toJson.Plain := by
  have hnodes : (Json.obj (d.nodes.entries.map fun e => (e.1, .int e.2))).Plain := by
    refine .obj ?_ fun kv hkv => ?_
    · rw [List.map_map]
      exact d.nodes.nodupKeys
    · obtain ⟨e, -, rfl⟩ := List.mem_map.mp hkv
      exact .int e.2
  have hrecords : (Json.arr (d.selfRecords.map .str)).Plain := by
    refine .arr fun v hv => ?_
    obtain ⟨s, -, rfl⟩ := List.mem_map.mp hv
    exact .str s
  have hkeys : ["selfIp".toList, "nodes".toList, "rank".toList, "lastRank".toList, "leader".toList,
      "beatInterval".toList, "leaderDead".toList, "nodeCount".toList, "leaderIp".toList,
      "selfRecords".toList].Nodup := by decide
  refine .obj hkeys fun kv hkv => ?_
  simp only [List.mem_cons, List.not_mem_nil, or_false] at hkv
  rcases hkv with rfl | rfl | rfl | rfl | rfl | rfl | rfl | rfl | rfl | rfl
  · exact .str _
  · exact hnodes
  · exact .int _
  · exact .int _
  · exact .bool _
  · exact .int _
  · exact .int _
  · exact .int _
  · exact .str _
  · exact hrecords

theorem universalNewlines_text (d : StateDict) : universalNewlines d.text = d.text := by
  refine universalNewlines_of_not_mem fun h => ?_
  exact absurd (Json.printable_dump (plain_toJson d) 0 _ h) (by decide)

/-- **Reading `states.txt` gives the dictionary that was written.** -/
theorem loads_text (d : StateDict) : Json.loads (universalNewlines d.text) = some d.toJson := by
  rw [universalNewlines_text]
  exact Json.loads_dump 2 (plain_toJson d)

/-! ### What the file shows -/

/-- `states.txt` has been written, and shows the letters that its numbers give. -/
def States.Snapshot (s : States) : Prop :=
  ∃ d, s.published = some d ∧ d.selfIp = s.selfIp ∧ d.selfRecords = recordSet d.nodeCount d.rank d.lastRank

namespace States

theorem snapshot_of_current {s : States} (h : s.Current) (hs : s.Sharded) : s.Snapshot :=
  ⟨s.toStateDict, h, rfl, hs⟩

/-- The file does not change with what it does not show. -/
theorem Snapshot.of_eq {s t : States} (h : s.Snapshot) (hp : t.published = s.published) (hip : t.selfIp = s.selfIp) :
    t.Snapshot := by
  obtain ⟨d, hd, hself, hset⟩ := h
  exact ⟨d, hp.trans hd, hself.trans hip.symm, hset⟩

theorem Snapshot.updateRecordSet {s : States} (h : s.Snapshot) : s.updateRecordSet.Snapshot := by
  by_cases hd : Divides s.nodeCount s.rank s.lastRank
  · have hkept := kept_updateRecordSet hd
    exact snapshot_of_current hkept.current hkept.sharded
  · rw [updateRecordSet_silent hd]
    exact h.of_eq rfl rfl

theorem Snapshot.removeNode {s : States} (h : s.Snapshot) (ip : Str) : (s.removeNode ip).Snapshot := by
  unfold States.removeNode
  split
  · exact Snapshot.updateRecordSet (h.of_eq rfl rfl)
  · exact h

theorem Snapshot.addNodes {s : States} (h : s.Snapshot) (ip : Str) : (s.addNodes ip).Snapshot := by
  unfold States.addNodes
  split
  · exact h
  · exact Snapshot.updateRecordSet (h.of_eq rfl rfl)

theorem Snapshot.updateRank {s : States} (h : s.Snapshot) (rank lastRank : ℤ) :
    (s.updateRank rank lastRank).Snapshot :=
  Snapshot.updateRecordSet (h.of_eq rfl rfl)

end States

open States

variable [Unicode]

theorem snapshot_beatHandler {n : Node} (h : n.states.Snapshot) (line : Str) (now : Time) :
    (n.beatHandler line now).states.Snapshot := by
  rcases n.beatHandler_cases line now with ⟨-, hrun⟩ | ⟨l, r, lr, -, -, hrun⟩ |
    ⟨l, r, lr, ld, my, -, -, -, hrun⟩
  · rw [hrun]
    exact h
  · obtain ⟨nodes, m, c, hr⟩ := (n.heard now).registerSender_eq l
    rw [hrun, hr]
    exact h.of_eq rfl rfl
  · obtain ⟨nodes, m, hstates, -⟩ := followHigher_registerSender (n.heard now) l ld my
    have hfollowed : (((n.heard now).registerSender l).followHigher l ld my).states.Snapshot := by
      rw [hstates]
      exact h.of_eq rfl rfl
    rw [hrun]
    unfold Node.adoptRank
    split
    · exact hfollowed.updateRank r lr
    · exact hfollowed

/-- **The step lemma.** -/
theorem snapshot_stateStep {n : Node} (h : n.states.Snapshot) (hs : n.states.Sharded) (e : StateEvent) :
    (n.stateStep e).states.Snapshot := by
  cases e with
  | setLeaderIp ip => exact snapshot_of_current rfl hs
  | node e =>
    cases e with
    | beat line now => exact snapshot_beatHandler h line now
    | tick now =>
      show (n.raftHeart now).states.Snapshot
      by_cases htime : n.TimedOut now
      · rw [Node.raftHeart_promoted htime]
        show ((n.periodicBeat now).promote).states.Snapshot
        unfold Node.promote
        rw [n.periodicBeat_states now]
        have hself : ({ n.states.removeNode n.states.leaderIp with
            leaderIp := (n.states.removeNode n.states.leaderIp).selfIp } : States).Snapshot :=
          (h.removeNode n.states.leaderIp).of_eq rfl rfl
        exact hself.updateRank _ _
      · rw [Node.raftHeart_kept htime, n.periodicBeat_states now]
        exact h
    | write line =>
      show (n.writeHandler line).1.states.Snapshot
      rw [(n.writeFrame_writeHandler line).states]
      exact h.of_eq rfl rfl
    | newRecord domain ip =>
      show (n.newRecord (fun _ => some ip.val) domain).1.states.Snapshot
      rw [(n.writeFrame_newRecord domain ip).states]
      exact h.of_eq rfl rfl
    | addNodes ip => exact h.addNodes ip
    | removeNode ip => exact h.removeNode ip
    | updateRank rank lastRank => exact h.updateRank rank lastRank

/-- The file of a node shows a snapshot in every state of every run. -/
theorem snapshot_run (selfIp : Str) (files : List (Option Str)) (disk : Disk) (letters : List Str) (now : Time)
    (es : List StateEvent) : (run Node.stateStep (Node.main selfIp files disk letters now) es).states.Snapshot := by
  have hkept : (Node.main selfIp files disk letters now).states.Kept :=
    (kept_init selfIp files).with_records (loadShards disk letters)
  have hinv : ∀ n : Node, n.states.Snapshot ∧ n.states.Sharded → ∀ e,
      (n.stateStep e).states.Snapshot ∧ (n.stateStep e).states.Sharded := fun n hn e =>
    ⟨snapshot_stateStep hn.1 hn.2 e, sharded_stateStep hn.2 e⟩
  exact (run_invariant (P := fun n : Node => n.states.Snapshot ∧ n.states.Sharded)
    ⟨snapshot_of_current hkept.current hkept.sharded, hkept.sharded⟩ fun n e hn => hinv n hn e).1

end DsDns
