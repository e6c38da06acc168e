/-
  When a follower notices that its leader is silent.

  `beatHandler` restarts the timer on every message, before it looks at who sent it. As long as the
  messages a following node handles come from its leader or from a node that replaces it
  (`BeatsFromLeader`), the timer does measure the silence of the leader: `tracked_run` carries, over
  every run, that the last restart is a heartbeat of the current leader, and `heard_leader` reads off
  that a tick which leaves the node a follower has heard it in time. `not_heard_leader_lower` is a
  run in which a node with a lower address keeps the timer of a dead leader alive.
-/
import DsDns.DataPlane.Election
import DsDns.DataPlane.Equiv.Raft

namespace DsDns

variable [Unicode]

/-- While the node follows, the last restart of its timer was a heartbeat of its leader. -/
def Tracked (past : List (Time × TimerEvent)) (n : Node) : Prop :=
  n.raft.leader = false →
    ∃ e ∈ past, e.1 = n.raft.lastBeatReceived ∧ e.2.sender = some n.states.leaderIp

/-- A heartbeat keeps the timer on the leader. -/
theorem tracked_beat {past : List (Time × TimerEvent)} {n : Node} {text : Str} {now : Time}
    (hok : BeatsFromLeader n (now, .beat text)) :
    Tracked (past ++ [(now, .beat text)]) (n.beatHandler text now) := by
  obtain ⟨-, -, -, -, hlast, -⟩ := n.beatHandler_frame text now
  intro hfollow
  refine ⟨(now, .beat text), by simp, hlast.symm, ?_⟩
  by_cases hsup : ∃ l, n.Supersedes text l
  · obtain ⟨l, hl⟩ := hsup
    rw [(Node.beatHandler_of_supersedes hl now).2]
    exact hl.1
  · -- The leader stays, so the sender is the leader: a greater address would have replaced it.
    have hkept := Node.beatHandler_of_not_supersedes (fun l hl => hsup ⟨l, hl⟩) now
    rw [hkept.1] at hfollow
    rw [hkept.2]
    rcases hok hfollow with h | ⟨l, hl, rfl | hgt⟩
    · exact absurd h (by simp)
    · exact hl
    · exact absurd ⟨l, hl, hgt⟩ hsup

omit [Unicode] in
/-- A tick that leaves the node a follower changes neither its leader nor its timer, and the timer
has not run out. -/
theorem raftHeart_follower {n : Node} {now : Time} (h : (n.raftHeart now).raft.leader = false) :
    n.raft.leader = false ∧ (n.raftHeart now).states = n.states ∧
      (n.raftHeart now).raft.lastBeatReceived = n.raft.lastBeatReceived ∧
      now - leaderDead < n.raft.lastBeatReceived := by
  by_cases hout : n.TimedOut now
  · rw [Node.raftHeart_promoted hout] at h
    exact absurd h (by simp [Node.sendBeat, Node.promote])
  · obtain ⟨h1, h2, -⟩ := n.periodicBeat_frame now
    rw [Node.raftHeart_kept hout] at h ⊢
    rw [h1] at h
    have hnot : ¬ leaderDead ≤ now - n.raft.lastBeatReceived := fun hle => hout ⟨h, hle⟩
    exact ⟨h, n.periodicBeat_states now, h2, Int.sub_lt_of_sub_lt (Int.not_le.mp hnot)⟩

/-- **The timer measures the leader's silence**, on every run whose messages to a following node
come from its leader or from a node that replaces it. -/
theorem tracked_run {start : Node} (hstart : start.raft.leader = true)
    (es : List (Time × TimerEvent)) (hok : Along BeatsFromLeader Node.timerStep start es) :
    Tracked es (run Node.timerStep start es) := by
  induction es using List.reverseRecOn with
  | nil =>
    intro hfollow
    rw [run_nil, hstart] at hfollow
    exact absurd hfollow (by simp)
  | append_singleton es e ih =>
    obtain ⟨hes, he⟩ := (along_concat e).mp hok
    rw [run_concat]
    obtain ⟨now, text | _⟩ := e
    · exact tracked_beat he
    · intro hfollow
      obtain ⟨hbefore, hstates, hlast, -⟩ := raftHeart_follower hfollow
      obtain ⟨b, hb, htime, hsender⟩ := ih hes hbefore
      show ∃ e ∈ es ++ _, e.1 = ((run Node.timerStep start es).raftHeart now).raft.lastBeatReceived ∧
        e.2.sender = some ((run Node.timerStep start es).raftHeart now).states.leaderIp
      rw [hlast, hstates]
      exact ⟨b, List.mem_append_left _ hb, htime, hsender⟩

/-- **A follower has heard its leader.** In every run of a freshly started node whose messages to a
following node come from its leader or from a node that replaces it, a tick that leaves the node a
follower finds a heartbeat of its current leader in the last `leaderDead`; a node that is the only
one beating there is that leader. -/
theorem heard_leader (selfIp : Str) (files : List (Option Str)) (disk : Disk) (heads : List Str)
    (t₀ now : Time) (es : List (Time × TimerEvent))
    (htimes : ((es ++ [(now, TimerEvent.tick)]).map Prod.fst).Pairwise (· ≤ ·))
    (hok : Along BeatsFromLeader Node.timerStep (Node.main selfIp files disk heads t₀) es) :
    let n := run Node.timerStep (Node.main selfIp files disk heads t₀) (es ++ [(now, .tick)])
    n.raft.leader = false →
      HeardLeader n es now ∧ ∀ s, SoleSender s es now → n.states.leaderIp = s := by
  intro n hfollow
  have hn : n = (run Node.timerStep (Node.main selfIp files disk heads t₀) es).raftHeart now :=
    run_concat _
  rw [hn] at hfollow ⊢
  obtain ⟨hbefore, hstates, -, hrecent⟩ := raftHeart_follower hfollow
  obtain ⟨e, he, htime, hsender⟩ := tracked_run rfl es hok hbefore
  have hle : e.1 ≤ now := by
    rw [List.map_append] at htimes
    exact (List.pairwise_append.mp htimes).2.2 _ (List.mem_map_of_mem he) _ (by simp)
  rw [← htime] at hrecent
  rw [← hstates] at hsender
  exact ⟨⟨e, he, hsender, hrecent, hle⟩, fun s hs => hs e he hrecent hle _ hsender⟩

omit [Unicode] in
/-- The node `10.0.0.1` of a cluster of three, freshly started. -/
def thirdNode : Node :=
  Node.main "10.0.0.1".toList
    [some "10.0.0.1".toList, some "10.0.0.2".toList, some "10.0.0.3".toList]
    { file := fun _ => none, denied := fun _ => false } [] 0

omit [Unicode] in
/-- `10.0.0.3` beats, then the node's leader is alive until the tick. -/
theorem heard_leader_alive :
    @HeardLeader Unicode.ascii
      (run (@Node.timerStep Unicode.ascii) thirdNode
        [(0, .beat "10.0.0.3;1;3".toList), (200 * second, .beat "10.0.0.3;1;3".toList),
          (400 * second, .tick)])
      [(0, .beat "10.0.0.3;1;3".toList), (200 * second, .beat "10.0.0.3;1;3".toList)]
      (400 * second) :=
  (@heard_leader Unicode.ascii "10.0.0.1".toList
    [some "10.0.0.1".toList, some "10.0.0.2".toList, some "10.0.0.3".toList]
    { file := fun _ => none, denied := fun _ => false } [] 0 (400 * second)
    [(0, .beat "10.0.0.3;1;3".toList), (200 * second, .beat "10.0.0.3;1;3".toList)]
    (by decide) (by decide) (by decide)).1

omit [Unicode] in
/-- `10.0.0.3` beats once and dies, and `10.0.0.2` promotes itself. -/
def lowerTakesOver : List (Time × TimerEvent) :=
  [(0, .beat "10.0.0.3;1;3".toList), (200 * second, .beat "10.0.0.2;1;2".toList)]

omit [Unicode] in
/-- `10.0.0.2` is the only one beating, and `10.0.0.1` neither adopts it nor promotes itself: it
keeps following the silent `10.0.0.3`. -/
theorem not_heard_leader_lower :
    (run (@Node.timerStep Unicode.ascii) thirdNode
      (lowerTakesOver ++ [(400 * second, .tick)])).raft.leader = false ∧
    (run (@Node.timerStep Unicode.ascii) thirdNode
      (lowerTakesOver ++ [(400 * second, .tick)])).states.leaderIp = "10.0.0.3".toList ∧
    @SoleSender Unicode.ascii "10.0.0.2".toList lowerTakesOver (400 * second) ∧
    ¬ @HeardLeader Unicode.ascii (run (@Node.timerStep Unicode.ascii) thirdNode
      (lowerTakesOver ++ [(400 * second, .tick)])) lowerTakesOver (400 * second) := by
  decide

end DsDns
