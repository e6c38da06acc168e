/-
  A live leader is not suspected.

  A leader is the sender of a watchdog (`pulse_leader`), and its loop sends a heartbeat to every node of its map
  when one is due; a node is a receiver (`watch_follower`), since every line on the sync port restarts its timer. So
  a follower that gets each heartbeat within `Δ` does not time out, if `beatInterval + δ + Δ` is less than
  `leaderDead` (`leader_not_suspected`). The times are those of the two runs, read off one clock.
-/
import DsDns.Watchdog
import DsDns.DataPlane.Equiv.Election

namespace DsDns

variable [Unicode]

/-- What a node sends in one event. -/
def Node.sentBy (n : Node) (e : Time × TimerEvent) : List Packet :=
  (({ n with outbox := [] } : Node).timerStep e).outbox

/-! ### The leader -/

/-- A message on the sync port moves no heartbeat and removes no node. -/
theorem beatHandler_timer (n : Node) (beat : Str) (now : Time) :
    (n.beatHandler beat now).raft.nextBeatTime = n.raft.nextBeatTime ∧
      ∀ x ∈ n.states.nodes.keys, x ∈ (n.beatHandler beat now).states.nodes.keys := by
  have hregister : ∀ l, ∀ x ∈ n.states.nodes.keys, x ∈ ((n.heard now).registerSender l).states.nodes.keys := by
    intro l x hx
    unfold Node.registerSender
    by_cases hl : (n.heard now).states.nodes.contains l = true
    · simp only [if_pos hl]
      exact hx
    · simp only [if_neg hl]
      exact OrderedDict.mem_keys_set.mpr (Or.inr hx)
  rcases n.beatHandler_cases beat now with ⟨-, hrun⟩ | ⟨l, r, lr, -, -, hrun⟩ |
    ⟨l, r, lr, ld, my, -, -, -, hrun⟩
  · rw [hrun]
    exact ⟨rfl, fun _ hx => hx⟩
  · rw [hrun]
    exact ⟨by unfold Node.registerSender; split <;> rfl, hregister l⟩
  · obtain ⟨p, hadopt⟩ := (((n.heard now).registerSender l).followHigher l ld my).adoptRank_eq r lr
    rw [hrun, hadopt]
    have hfollow : (((n.heard now).registerSender l).followHigher l ld my).states.nodes =
        ((n.heard now).registerSender l).states.nodes := by
      unfold Node.followHigher
      split <;> rfl
    refine ⟨?_, ?_⟩
    · show (((n.heard now).registerSender l).followHigher l ld my).raft.nextBeatTime = _
      unfold Node.followHigher Node.registerSender
      split <;> split <;> rfl
    · show ∀ x ∈ _, x ∈ (((n.heard now).registerSender l).followHigher l ld my).states.nodes.keys
      rw [hfollow]
      exact hregister l

omit [Unicode] in
/-- A turn of the loop of a leader. -/
theorem raftHeart_beats {n : Node} (h : n.raft.leader = true) (now : Time) :
    (n.raftHeart now).states = n.states ∧ (n.raftHeart now).raft.nextBeatTime =
      if n.raft.nextBeatTime ≤ now then now + beatInterval else n.raft.nextBeatTime := by
  have hlive : ¬ n.TimedOut now := fun ht => absurd ht.1 (by rw [h]; decide)
  rw [Node.raftHeart_kept hlive, n.periodicBeat_states now]
  refine ⟨rfl, ?_⟩
  unfold Node.periodicBeat
  split <;> rfl

omit [Unicode] in
/-- A leader whose heartbeat is due sends one to every other node of its map. -/
theorem raftHeart_beats_to {n : Node} (h : n.raft.leader = true) {now : Time} (hdue : n.raft.nextBeatTime ≤ now)
    {x : Str} (hx : x ∈ n.states.nodes.keys) (hne : x ≠ n.states.selfIp) :
    ∃ p ∈ (({ n with outbox := [] } : Node).raftHeart now).outbox, p.dst = x ∧
      ∃ r lr, p.text = beatText n.states.selfIp r lr := by
  have hlive : ¬ ({ n with outbox := [] } : Node).TimedOut now := fun ht => absurd ht.1 (by rw [h]; decide)
  rw [Node.raftHeart_outbox, if_neg hlive, if_pos ⟨hdue, h⟩, List.nil_append]
  obtain ⟨e, he, rfl⟩ := List.mem_map.mp hx
  refine ⟨_, List.mem_map.mpr ⟨e, List.mem_filter.mpr ⟨he, ?_⟩, rfl⟩, rfl, e.2, n.states.lastRank, rfl⟩
  simpa using hne

omit [Unicode] in
/-- The time of a turn of the loop. -/
def tickTime (e : Time × TimerEvent) : Option Time :=
  match e.2 with
  | .tick => some e.1
  | .beat _ => none

/-- A node that leads is the sender of a watchdog. -/
theorem pulse_leader {L : Node} {es : List (Time × TimerEvent)}
    (hleads : Always (fun n => n.raft.leader = true) Node.timerStep L es)
    (hordered : (es.map Prod.fst).Pairwise (· ≤ ·)) :
    Pulse beatInterval Node.timerStep tickTime (fun n => n.raft.nextBeatTime) L es where
  idle early e _ hturn := by
    rw [run_concat]
    obtain ⟨now, text | _⟩ := e
    · exact (beatHandler_timer _ text now).1
    · exact absurd hturn (by simp [tickTime])
  next early e now hp hturn := by
    rw [run_concat]
    obtain ⟨s, text | _⟩ := e
    · exact absurd hturn (by simp [tickTime])
    · obtain rfl : s = now := Option.some.inj hturn
      exact (raftHeart_beats (hleads early ((List.prefix_append early _).trans hp)) s).2
  sorted := by
    have hsub : (es.filterMap tickTime).Sublist (es.filterMap fun e => some e.1) := by
      apply sublist_filterMap
      rintro ⟨s, text | _⟩ t ht
      · exact absurd ht (by simp [tickTime])
      · exact ht
    rw [List.filterMap_eq_map'] at hsub
    exact hordered.sublist hsub

theorem keys_run {L : Node} {es : List (Time × TimerEvent)}
    (hleads : Always (fun n => n.raft.leader = true) Node.timerStep L es) {early : List (Time × TimerEvent)}
    (hp : early <+: es) : (run Node.timerStep L early).states.selfIp = L.states.selfIp ∧
      ∀ x ∈ L.states.nodes.keys, x ∈ (run Node.timerStep L early).states.nodes.keys := by
  induction early using List.reverseRecOn with
  | nil => exact ⟨rfl, fun _ hx => hx⟩
  | append_singleton early e ih =>
    have hbefore : early <+: es := (List.prefix_append early [e]).trans hp
    obtain ⟨hself, hkeys⟩ := ih hbefore
    rw [run_concat]
    obtain ⟨s, text | _⟩ := e
    · obtain ⟨-, hself', -⟩ := (run Node.timerStep L early).beatHandler_frame text s
      exact ⟨hself'.trans hself, fun x hx => (beatHandler_timer _ text s).2 x (hkeys x hx)⟩
    · have hstates := (raftHeart_beats (hleads early hbefore) s).1
      show (Node.raftHeart _ s).states.selfIp = _ ∧ ∀ x ∈ _, x ∈ (Node.raftHeart _ s).states.nodes.keys
      rw [hstates]
      exact ⟨hself, hkeys⟩

/-! ### The follower -/

omit [Unicode] in
/-- A turn of the loop leaves the timer alone, or sets it to its own time. -/
theorem raftHeart_last (n : Node) (now : Time) :
    (n.raftHeart now).raft.lastBeatReceived = n.raft.lastBeatReceived ∨
      (n.raftHeart now).raft.lastBeatReceived = now := by
  by_cases htime : n.TimedOut now
  · rw [Node.raftHeart_promoted htime]
    exact Or.inr rfl
  · rw [Node.raftHeart_kept htime]
    exact Or.inl (n.periodicBeat_frame now).2.1

/-- Every node is the receiver of a watchdog. -/
theorem watch_follower (F : Node) {fs : List (Time × TimerEvent)} (hsorted : (fs.map Prod.fst).Pairwise (· ≤ ·)) :
    Watch Node.timerStep (fun f => some f.1) (fun f => f.2 ≠ .tick) (fun n => n.raft.lastBeatReceived) F fs where
  next early f _ := by
    rw [run_concat]
    obtain ⟨now, text | _⟩ := f
    · obtain ⟨-, -, -, -, hlast, -⟩ := (run Node.timerStep F early).beatHandler_frame text now
      exact Or.inr (congrArg some hlast.symm)
    · rcases raftHeart_last (run Node.timerStep F early) now with hlast | hlast
      · exact Or.inl hlast
      · exact Or.inr (congrArg some hlast.symm)
  sign early f _ hsign := by
    rw [run_concat]
    obtain ⟨now, text | _⟩ := f
    · obtain ⟨-, -, -, -, hlast, -⟩ := (run Node.timerStep F early).beatHandler_frame text now
      exact congrArg some hlast.symm
    · exact absurd rfl hsign
  sorted := by
    rw [List.filterMap_eq_map']
    exact hsorted

/-! ### The two together -/

/-- The leader's loop turns at least every `δ` from `t₀` on, until `T`. -/
def Turns (es : List (Time × TimerEvent)) (δ t₀ T : Time) : Prop :=
  ∀ t, t₀ ≤ t → t ≤ T → ∃ (k : ℕ) (u : Time), es[k]? = some (u, TimerEvent.tick) ∧ t ≤ u ∧ u ≤ t + δ

/-- Whatever the leader sends to the node `ip` in its run is handled there within `Δ`. -/
def Delivered (L : Node) (es fs : List (Time × TimerEvent)) (ip : Str) (Δ : Time) : Prop :=
  ∀ k : Fin es.length, ∀ p ∈ (run Node.timerStep L (es.take k)).sentBy (es.get k), p.dst = ip →
    ∃ f ∈ fs, f.2 = .beat (strip p.text) ∧ (es.get k).1 ≤ f.1 ∧ f.1 ≤ (es.get k).1 + Δ

/-- **A live leader is not suspected.** A node that leads throughout its run `es`, whose loop turns at least
every `δ`, and whose messages to a node of its map arrive there within `Δ`: that node does not time out as long
as the leader's loop turns, whatever else it receives, if `beatInterval + δ + Δ < leaderDead`. -/
theorem leader_not_suspected {L F : Node} {es fs : List (Time × TimerEvent)} {ip : Str} {δ Δ t₀ T : Time}
    (hbound : beatInterval + δ + Δ < leaderDead)
    (hleads : Always (fun n => n.raft.leader = true) Node.timerStep L es)
    (hordered : (es.map Prod.fst).Pairwise (· ≤ ·)) (hturns : Turns es δ t₀ T)
    (hknown : ip ∈ L.states.nodes.keys) (hother : ip ≠ L.states.selfIp)
    (hfirst : L.raft.nextBeatTime ≤ t₀ + beatInterval) (hdelivered : Delivered L es fs ip Δ)
    (hsorted : (fs.map Prod.fst).Pairwise (· ≤ ·)) (hfrom : ∀ f ∈ fs, t₀ ≤ f.1)
    (hstart : t₀ ≤ F.raft.lastBeatReceived) {early late : List (Time × TimerEvent)} {now : Time}
    (hnow : fs = early ++ (now, .tick) :: late) (hT : now ≤ T) :
    ¬ (run Node.timerStep F early).TimedOut now := by
  rintro ⟨-, hsilent⟩
  have hpre : early ++ [(now, TimerEvent.tick)] <+: fs :=
    ⟨late, by rw [hnow, List.append_assoc, List.singleton_append]⟩
  have hticks : ∀ t, t₀ ≤ t → t ≤ T → t + δ + Δ < T → ∃ e ∈ es, ∃ u, tickTime e = some u ∧ t ≤ u ∧ u ≤ t + δ := by
    intro t ht htT _
    obtain ⟨k, u, hk, hu, hu'⟩ := hturns t ht htT
    exact ⟨_, List.mem_of_getElem? hk, u, rfl, hu, hu'⟩
  -- A heartbeat that is due goes to every node of the map, and is handled there.
  have harrive : ∀ before b sent, before ++ [b] <+: es → tickTime b = some sent →
      (run Node.timerStep L before).raft.nextBeatTime ≤ sent → sent + Δ < T →
      ∃ f ∈ fs, f.2 ≠ .tick ∧ ∃ r, some f.1 = some r ∧ sent ≤ r ∧ r ≤ sent + Δ := by
    intro before b sent hb hturn hdue _
    have hbefore : before <+: es := (List.prefix_append before [b]).trans hb
    obtain ⟨hself, hkeys⟩ := keys_run hleads hbefore
    obtain ⟨p, hp, hdst, -⟩ := raftHeart_beats_to (hleads before hbefore) hdue (hkeys ip hknown)
      (by rw [hself]; exact hother)
    obtain ⟨late', rfl⟩ := hb
    obtain ⟨s, text | _⟩ := b
    · exact absurd hturn (by simp [tickTime])
    · obtain rfl : s = sent := Option.some.inj hturn
      have htake : (before ++ [(s, TimerEvent.tick)] ++ late').take before.length = before := by simp
      have hget : (before ++ [(s, TimerEvent.tick)] ++ late').get ⟨before.length, by simp⟩ = (s, .tick) := by simp
      have hfollows := hdelivered ⟨before.length, by simp⟩ p
      rw [htake, hget] at hfollows
      obtain ⟨f, hf, htext, hsf, hfs⟩ := hfollows hp hdst
      exact ⟨f, hf, by rw [htext]; exact TimerEvent.noConfusion, f.1, rfl, hsf, hfs⟩
  have hzero : t₀ - 0 = t₀ := sub_zero t₀
  have halive : now - (run Node.timerStep F early).raft.lastBeatReceived < leaderDead :=
    (pulse_leader hleads hordered).watched (watch_follower F hsorted) (by decide) (by rw [zero_add]; exact hbound)
      (by decide) (le_refl 0) hticks hfirst harrive (by rw [hzero]; exact hstart)
      (fun f hf r hr => by rw [hzero, ← Option.some.inj hr]; exact hfrom f hf) hpre rfl hT
  exact absurd hsilent halive.not_ge

omit [Unicode] in
/-- The node `10.0.0.3` of the same cluster, freshly started. -/
def leadingNode : Node :=
  Node.main "10.0.0.3".toList
    [some "10.0.0.1".toList, some "10.0.0.2".toList, some "10.0.0.3".toList]
    { file := fun _ => none, denied := fun _ => false } [] 0

omit [Unicode] in
/-- Its loop turns every 100 seconds. -/
def leadingTicks : List (Time × TimerEvent) :=
  [(100 * second, .tick), (200 * second, .tick), (300 * second, .tick), (400 * second, .tick)]

omit [Unicode] in
/-- What `10.0.0.1` handles of it, up to the turn of its own loop at 350 seconds. -/
def thirdHears : List (Time × TimerEvent) :=
  [(101 * second, .beat "10.0.0.3;1;3".toList), (201 * second, .beat "10.0.0.3;1;3".toList),
    (301 * second, .beat "10.0.0.3;1;3".toList)]

omit [Unicode] in
theorem leadingTicks_turns : Turns leadingTicks (100 * second) 0 (350 * second) := by
  intro t h₀ hT
  have hsecond : second = 1000000000 := rfl
  rcases le_or_gt t (100 * second) with h | h
  · exact ⟨0, 100 * second, rfl, h, by linarith⟩
  rcases le_or_gt t (200 * second) with h | h
  · exact ⟨1, 200 * second, rfl, h, by linarith⟩
  rcases le_or_gt t (300 * second) with h | h
  · exact ⟨2, 300 * second, rfl, h, by linarith⟩
  · exact ⟨3, 400 * second, rfl, by linarith, by linarith⟩

omit [Unicode] in
theorem leadingTicks_leads :
    Always (fun n => n.raft.leader = true) (@Node.timerStep Unicode.ascii) leadingNode leadingTicks := by
  intro early hp
  have hbounded : ∀ k < 5,
      (run (@Node.timerStep Unicode.ascii) leadingNode (leadingTicks.take k)).raft.leader = true := by decide
  rw [List.prefix_iff_eq_take.mp hp]
  exact hbounded early.length (Nat.lt_succ_of_le hp.length_le)

omit [Unicode] in
theorem leader_not_suspected_third :
    ¬ (run (@Node.timerStep Unicode.ascii) thirdNode thirdHears).TimedOut (350 * second) :=
  @leader_not_suspected Unicode.ascii leadingNode thirdNode leadingTicks
    (thirdHears ++ [(350 * second, .tick), (401 * second, .beat "10.0.0.3;1;3".toList)]) "10.0.0.1".toList
    (100 * second) (10 * second) 0 (350 * second) (by decide) leadingTicks_leads (by decide) leadingTicks_turns
    (by decide) (by decide) (by decide) (by unfold Delivered; decide) (by decide) (by decide) (by decide)
    thirdHears [(401 * second, .beat "10.0.0.3;1;3".toList)] (350 * second) rfl (by decide)

end DsDns
