/-
  What one event of a node's life does, part by part.

  An invariant over a whole run needs to know how one event changes the part of the node it speaks
  about, and not which handler did it. `NodeEvent.leads` is the change of leadership an event makes
  (`step_leads`) and `NodeEvent.writes` the write to the records in memory (`step_records`); both are
  read off the node before the event. `step_outbox` says what may be sent: copies of log entries and
  acknowledgements to port 9000, and heartbeats of the node itself to port 7001.
-/
import DsDns.DataPlane.Lifetime
import DsDns.DataPlane.Equiv.Raft
import DsDns.DataPlane.Equiv.Writer

namespace DsDns

variable [Unicode]

/-! ### What an event is about to do -/

/-- The leadership an event gives to the node: whether it leads, and whom it follows. -/
def NodeEvent.leads (n : Node) : NodeEvent → Option (Bool × Str)
  | .beat line _ =>
    match parseBeat line.val with
    | some (l, _, _) => if outranks l n.states.leaderIp then some (false, l) else none
    | none => none
  | .tick now => if n.TimedOut now then some (true, n.states.selfIp) else none
  | _ => none

/-- The write a replicated update makes to the records of a follower. -/
def replicaWrite (s : States) (update : Str) : Option (Key × Str) :=
  match split ',' (strip update) with
  | [dom, _, _] => if s.owns dom then updateRecord update else none
  | _ => none

/-- The write an event makes to the records in memory. -/
def NodeEvent.writes (n : Node) : NodeEvent → Option (Key × Str)
  | .write line =>
    match Node.parseWrite line.val with
    | .start update => Node.committed n.disk update
    | .replica _ update => replicaWrite n.states update
    | .commit num => (n.writer.logs num).bind (Node.committed n.disk)
    | _ => none
  | .newRecord domain ip =>
    if n.writer.linked then Node.committed n.disk (domain.val ++ ",A,".toList ++ ip.val) else none
  | _ => none

/-! ### Membership -/

namespace States

omit [Unicode] in
/-- `removeNode` changes membership only. -/
theorem removeNode_frame (s : States) (ip : Str) :
    (s.removeNode ip).records = s.records ∧ (s.removeNode ip).selfIp = s.selfIp ∧
    (s.removeNode ip).leaderIp = s.leaderIp ∧ (s.removeNode ip).mLastRank = s.mLastRank := by
  cases hc : s.nodes.contains ip with
  | false =>
    rw [States.removeNode_of_not_mem hc]
    exact ⟨rfl, rfl, rfl, rfl⟩
  | true =>
    obtain ⟨p, hp⟩ := States.removeNode_eq hc rfl
    rw [hp]
    exact ⟨rfl, rfl, rfl, rfl⟩

omit [Unicode] in
/-- `addNodes` changes membership only. -/
theorem addNodes_frame (s : States) (ip : Str) :
    (s.addNodes ip).records = s.records ∧ (s.addNodes ip).selfIp = s.selfIp ∧
    (s.addNodes ip).leaderIp = s.leaderIp ∧ (s.addNodes ip).mLastRank = s.mLastRank := by
  cases hc : s.nodes.contains ip with
  | true =>
    rw [States.addNodes_of_mem hc]
    exact ⟨rfl, rfl, rfl, rfl⟩
  | false =>
    obtain ⟨p, hp⟩ := States.addNodes_eq hc
    rw [hp]
    exact ⟨rfl, rfl, rfl, rfl⟩

omit [Unicode] in
theorem updateRank_frame (s : States) (rank lastRank : ℤ) :
    (s.updateRank rank lastRank).records = s.records ∧
    (s.updateRank rank lastRank).selfIp = s.selfIp ∧
    (s.updateRank rank lastRank).leaderIp = s.leaderIp ∧
    (s.updateRank rank lastRank).nodes = s.nodes ∧
    (s.updateRank rank lastRank).nodeCount = s.nodeCount := by
  obtain ⟨p, hp⟩ := s.updateRank_eq rank lastRank
  rw [hp]
  exact ⟨rfl, rfl, rfl, rfl, rfl⟩

end States

namespace Node

/-! ### The write pipeline -/

/-- The write of a commit, logged or not. -/
theorem commitHandler_writes (n : Node) (num : Str) : (n.commitHandler num).1.states.records =
    put n.states.records ((n.writer.logs num).bind (committed n.disk)) := by
  cases hlog : n.writer.logs num with
  | none =>
    rw [commitHandler_spec, hlog]
    rfl
  | some u => rw [n.commitHandler_records hlog, Option.bind_some]

/-- What a handler of the write pipeline leaves alone: membership, leadership and timers, and which
files can be opened. It sends to port 9000 only. -/
structure WriteFrame (n m : Node) : Prop where
  states : m.states = { n.states with records := m.states.records }
  raft : m.raft = { n.raft with currLogNum := m.raft.currLogNum }
  denied : m.disk.denied = n.disk.denied
  outbox : ∃ sent, m.outbox = n.outbox ++ sent ∧ ∀ p ∈ sent, p.port = 9000

omit [Unicode] in
theorem WriteFrame.refl (n : Node) : WriteFrame n n :=
  ⟨rfl, rfl, rfl, [], (List.append_nil _).symm, by simp⟩

theorem writeFrame_startWrite (n : Node) (u : Str) : WriteFrame n (n.startWrite u).1 := by
  obtain ⟨hstates, -, -, hdenied, hout⟩ := startWrite_effects n u
  refine ⟨by rw [hstates], ?_, hdenied, _, hout.trans (n.announce_outbox u), ?_⟩
  · rw [startWrite_eq, commitHandler_raft]
    rfl
  · intro p hp
    obtain ⟨ip, -, rfl⟩ := List.mem_map.mp hp
    rfl

theorem writeFrame_commitHandler (n : Node) (num : Str) : WriteFrame n (n.commitHandler num).1 := by
  obtain ⟨hraft, -, hout, hdenied, hstates⟩ := n.commitHandler_frame num
  exact ⟨hstates, by rw [hraft], hdenied, [], by rw [hout, List.append_nil], by simp⟩

theorem writeFrame_replicate (n : Node) (num u : Str) : WriteFrame n (n.replicate num u) := by
  refine ⟨?_, by rw [replicate_raft], ?_, _, n.replicate_outbox num u, ?_⟩
  · rw [replicate_states, applyReplica_eq]
  · rw [replicate, sendAck_disk]
  · intro p hp
    cases hl : n.raft.leader with
    | true => simp [hl] at hp
    | false =>
      rw [hl] at hp
      rw [List.mem_singleton.mp hp]

theorem writeFrame_writeHandler (n : Node) (query : Str) : WriteFrame n (n.writeHandler query).1 := by
  -- Setting the link to the coordinator is outside the frame.
  have hlink : ∀ {m : Node}, WriteFrame n.link m → WriteFrame n m := fun h =>
    ⟨h.states, h.raft, h.denied, h.outbox⟩
  rw [writeHandler_eq]
  cases parseWrite query with
  | start u => exact hlink (writeFrame_startWrite n.link u)
  | replica num u => exact hlink (writeFrame_replicate n.link num u)
  | ack num => exact hlink ⟨rfl, rfl, rfl, [], (List.append_nil _).symm, by simp⟩
  | commit num => exact hlink (writeFrame_commitHandler n.link num)
  | ignored => exact hlink (WriteFrame.refl n.link)

theorem newRecord_eq (n : Node) (domain ip : Str) : (n.newRecord (fun _ => some ip) domain).1 =
    if n.writer.linked then (n.startWrite (domain ++ ",A,".toList ++ ip)).1 else n := by
  unfold newRecord
  cases n.writer.linked with
  | false => rfl
  | true =>
    simp only [if_true]
    rcases n.startWrite (domain ++ ",A,".toList ++ ip) with ⟨m, _ | _⟩ <;> rfl

theorem writeFrame_newRecord (n : Node) (domain ip : Str) :
    WriteFrame n (n.newRecord (fun _ => some ip) domain).1 := by
  rw [newRecord_eq]
  cases n.writer.linked with
  | false => exact WriteFrame.refl n
  | true => exact writeFrame_startWrite n _

/-! ### The parts of a step -/

/-- A node keeps its address. -/
theorem step_selfIp (n : Node) (e : NodeEvent) : (n.step e).states.selfIp = n.states.selfIp := by
  cases e with
  | beat line now => exact (n.beatHandler_frame line now).2.1
  | tick now => exact (n.raftHeart_frame now).2.1
  | write line =>
    show (n.writeHandler line).1.states.selfIp = _
    rw [(writeFrame_writeHandler n line).states]
  | newRecord domain ip =>
    show (n.newRecord (fun _ => some ip.val) domain).1.states.selfIp = _
    rw [(writeFrame_newRecord n domain ip).states]
  | addNodes ip => exact (n.states.addNodes_frame ip).2.1
  | removeNode ip => exact (n.states.removeNode_frame ip).2.1
  | updateRank r lr => exact (n.states.updateRank_frame r lr).2.1

omit [Unicode] in
/-- A promoted node leads, and names itself. -/
theorem raftHeart_leads (n : Node) (now : Time) :
    ((n.raftHeart now).raft.leader, (n.raftHeart now).states.leaderIp) =
      if n.TimedOut now then (true, n.states.selfIp) else (n.raft.leader, n.states.leaderIp) := by
  by_cases h : n.TimedOut now
  · rw [if_pos h, raftHeart_promoted h]
    have hself := (n.states.removeNode_frame n.states.leaderIp).2.1
    show (true, (n.periodicBeat now).promote.states.leaderIp) = _
    unfold promote
    rw [n.periodicBeat_states now]
    simp only [(States.updateRank_frame _ _ _).2.2.1, hself]
  · rw [if_neg h, raftHeart_kept h, n.periodicBeat_states now, (n.periodicBeat_frame now).1]

theorem beatHandler_leads (n : Node) (line : Line) (now : Time) :
    ((n.beatHandler line now).raft.leader, (n.beatHandler line now).states.leaderIp) =
      ((NodeEvent.beat line now).leads n).getD (n.raft.leader, n.states.leaderIp) := by
  by_cases hsup : ∃ l, n.Supersedes line l
  · obtain ⟨l, hl⟩ := hsup
    obtain ⟨hleader, hip⟩ := beatHandler_of_supersedes hl now
    obtain ⟨hparse, hgt⟩ := hl
    obtain ⟨⟨l', r, lr⟩, hp, rfl⟩ := Option.map_eq_some_iff.mp hparse
    rw [hleader, hip, NodeEvent.leads, hp]
    simp only at hgt
    simp only [hgt, if_true, Option.getD_some]
  · obtain ⟨hleader, hip⟩ := beatHandler_of_not_supersedes (fun l hl => hsup ⟨l, hl⟩) now
    rw [hleader, hip, NodeEvent.leads]
    cases hp : parseBeat line.val with
    | none => rfl
    | some p =>
      have hno : ¬ outranks p.1 n.states.leaderIp = true := fun hgt =>
        hsup ⟨p.1, by rw [hp]; rfl, hgt⟩
      simp only [if_neg hno, Option.getD_none]

/-- **Leadership changes as `leads` says.** -/
theorem step_leads (n : Node) (e : NodeEvent) :
    ((n.step e).raft.leader, (n.step e).states.leaderIp) =
      (e.leads n).getD (n.raft.leader, n.states.leaderIp) := by
  have hframe : ∀ {m : Node}, WriteFrame n m →
      (m.raft.leader, m.states.leaderIp) = (n.raft.leader, n.states.leaderIp) := by
    intro m h
    rw [h.raft, h.states]
  cases e with
  | beat line now => exact n.beatHandler_leads line now
  | tick now =>
    show ((n.raftHeart now).raft.leader, (n.raftHeart now).states.leaderIp) = _
    rw [n.raftHeart_leads now, NodeEvent.leads]
    split <;> rfl
  | write line => exact hframe (writeFrame_writeHandler n line)
  | newRecord domain ip => exact hframe (writeFrame_newRecord n domain ip)
  | addNodes ip => exact Prod.ext rfl (n.states.addNodes_frame ip).2.2.1
  | removeNode ip => exact Prod.ext rfl (n.states.removeNode_frame ip).2.2.1
  | updateRank r lr => exact Prod.ext rfl (n.states.updateRank_frame r lr).2.2.1

/-- **Records change as `writes` says.** -/
theorem step_records (n : Node) (e : NodeEvent) :
    (n.step e).states.records = put n.states.records (e.writes n) := by
  cases e with
  | beat line now => exact (n.beatHandler_frame line now).1
  | tick now => exact (n.raftHeart_frame now).1
  | write line =>
    show (n.writeHandler line).1.states.records = _
    rw [writeHandler_eq, NodeEvent.writes]
    cases parseWrite line.val with
    | start u => exact congrArg States.records (startWrite_effects n.link u).1
    | replica num u =>
      show (n.link.replicate num u).states.records = _
      rw [replicate_states, applyReplica_records]
      rfl
    | ack num => rfl
    | commit num => exact n.link.commitHandler_writes num
    | ignored => rfl
  | newRecord domain ip =>
    show (n.newRecord (fun _ => some ip.val) domain).1.states.records = _
    rw [newRecord_eq, NodeEvent.writes]
    cases n.writer.linked with
    | false => rfl
    | true => exact congrArg States.records (startWrite_effects n _).1
  | addNodes ip => exact (n.states.addNodes_frame ip).1
  | removeNode ip => exact (n.states.removeNode_frame ip).1
  | updateRank r lr => exact (n.states.updateRank_frame r lr).1

/-- Which record files can be opened is not the node's business. -/
theorem step_denied (n : Node) (e : NodeEvent) : (n.step e).disk.denied = n.disk.denied := by
  cases e with
  | beat line now => exact congrArg Disk.denied (n.beatHandler_frame line now).2.2.2.2.2.2.1
  | tick now => exact congrArg Disk.denied (n.raftHeart_frame now).2.2.2.2
  | write line => exact (writeFrame_writeHandler n line).denied
  | newRecord domain ip => exact (writeFrame_newRecord n domain ip).denied
  | addNodes ip => rfl
  | removeNode ip => rfl
  | updateRank r lr => rfl

omit [Unicode] in
/-- A node signs its heartbeats with its own address. -/
theorem mem_beats {s : States} {p : Packet} (h : p ∈ beats s) :
    p.port = 7001 ∧ ∃ r lr, p.text = beatText s.selfIp r lr := by
  obtain ⟨e, -, rfl⟩ := List.mem_map.mp h
  exact ⟨rfl, e.2, s.lastRank, rfl⟩

/-- **What a step may send.** -/
theorem step_outbox (n : Node) (e : NodeEvent) : ∃ sent, (n.step e).outbox = n.outbox ++ sent ∧
    ∀ p ∈ sent, p.port = 9000 ∨ p.port = 7001 ∧ ∃ r lr, p.text = beatText n.states.selfIp r lr := by
  have hnone : ∃ sent, n.outbox = n.outbox ++ sent ∧ ∀ p ∈ sent, p.port = 9000 ∨
      p.port = 7001 ∧ ∃ r lr, p.text = beatText n.states.selfIp r lr :=
    ⟨[], (List.append_nil _).symm, by simp⟩
  have hwrite : ∀ {m : Node}, WriteFrame n m → ∃ sent, m.outbox = n.outbox ++ sent ∧
      ∀ p ∈ sent, p.port = 9000 ∨ p.port = 7001 ∧ ∃ r lr, p.text = beatText n.states.selfIp r lr := by
    intro m h
    obtain ⟨sent, hout, hport⟩ := h.outbox
    exact ⟨sent, hout, fun p hp => Or.inl (hport p hp)⟩
  cases e with
  | beat line now =>
    obtain ⟨-, -, -, -, -, -, -, hout⟩ := n.beatHandler_frame line now
    show ∃ sent, (n.beatHandler line now).outbox = _ ∧ _
    rw [hout]
    exact hnone
  | tick now =>
    refine ⟨_, n.raftHeart_outbox now, fun p hp => Or.inr ?_⟩
    by_cases ht : n.TimedOut now
    · rw [if_pos ht] at hp
      rw [← (n.raftHeart_frame now).2.1]
      exact mem_beats hp
    · rw [if_neg ht] at hp
      split at hp
      · exact mem_beats hp
      · exact absurd hp (by simp)
  | write line => exact hwrite (writeFrame_writeHandler n line)
  | newRecord domain ip => exact hwrite (writeFrame_newRecord n domain ip)
  | addNodes ip => exact hnone
  | removeNode ip => exact hnone
  | updateRank r lr => exact hnone

end Node

end DsDns
