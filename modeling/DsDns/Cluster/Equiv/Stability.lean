/-
  Timely heartbeats keep a cluster in order.

  The node with the highest address leads from its start on and is never outranked (`top_run`), so it is the
  sender of a watchdog at every other node (`pulse_top`, `watch_node`), and nobody times out (`noTimeout_run`).
  Without timeouts all nodes keep the ranks that they gave each other at the start (`level_run`), since every
  heartbeat repeats them: the shards are a partition throughout. `cluster_stable` puts it together.
-/
import DsDns.Cluster.Stability
import DsDns.Cluster.Equiv.Election
import DsDns.DataPlane.Equiv.Bootstrap
import DsDns.DataPlane.Equiv.Suspicion

namespace DsDns

variable [Unicode]

/-! ### The timers of a node -/

/-- Only a turn of the loop moves the next heartbeat. -/
theorem step_nextBeatTime {n : Node} {e : NodeEvent} (h : e.tickTime = none) :
    (n.step e).raft.nextBeatTime = n.raft.nextBeatTime := by
  cases e with
  | beat line now => exact (beatHandler_timer n line now).1
  | tick now => exact absurd h (Option.some_ne_none now)
  | write line =>
    show (n.writeHandler line).1.raft.nextBeatTime = _
    rw [(Node.writeFrame_writeHandler n line).raft]
  | newRecord domain ip =>
    show (n.newRecord (fun _ => some ip.val) domain).1.raft.nextBeatTime = _
    rw [(Node.writeFrame_newRecord n domain ip).raft]
  | addNodes ip => rfl
  | removeNode ip => rfl
  | updateRank r lr => rfl

theorem step_lastBeatReceived (n : Node) (e : NodeEvent) :
    (n.step e).raft.lastBeatReceived = n.raft.lastBeatReceived ∨
      e.time = some (n.step e).raft.lastBeatReceived := by
  cases e with
  | beat line now =>
    obtain ⟨-, -, -, -, hlast, -⟩ := n.beatHandler_frame line now
    exact Or.inr (congrArg some hlast.symm)
  | tick now =>
    rcases raftHeart_last n now with hlast | hlast
    · exact Or.inl hlast
    · exact Or.inr (congrArg some hlast.symm)
  | write line =>
    left
    show (n.writeHandler line).1.raft.lastBeatReceived = _
    rw [(Node.writeFrame_writeHandler n line).raft]
  | newRecord domain ip =>
    left
    show (n.newRecord (fun _ => some ip.val) domain).1.raft.lastBeatReceived = _
    rw [(Node.writeFrame_newRecord n domain ip).raft]
  | addNodes ip => exact Or.inl rfl
  | removeNode ip => exact Or.inl rfl
  | updateRank r lr => exact Or.inl rfl

/-- A handler removes no node from the map of a leader. -/
theorem step_keys {n : Node} {e : NodeEvent} (hhandled : e.Handled) (hleads : n.raft.leader = true) :
    ∀ x ∈ n.states.nodes.keys, x ∈ (n.step e).states.nodes.keys := by
  cases e with
  | beat line now => exact (beatHandler_timer n line now).2
  | tick now =>
    intro x hx
    show x ∈ (n.raftHeart now).states.nodes.keys
    rw [(raftHeart_beats hleads now).1]
    exact hx
  | write line =>
    intro x hx
    show x ∈ (n.writeHandler line).1.states.nodes.keys
    rw [(Node.writeFrame_writeHandler n line).states]
    exact hx
  | newRecord domain ip =>
    intro x hx
    show x ∈ (n.newRecord (fun _ => some ip.val) domain).1.states.nodes.keys
    rw [(Node.writeFrame_newRecord n domain ip).states]
    exact hx
  | addNodes ip => exact hhandled.elim
  | removeNode ip => exact hhandled.elim
  | updateRank r lr => exact hhandled.elim

omit [Unicode] in
/-- The run of one node up to one of its events, as a part of the run of the cluster. -/
theorem exists_prefix_of_eventsAt {ip : Str} {es : List (Str × NodeEvent)} {before : List NodeEvent} {b : NodeEvent}
    (h : before ++ [b] <+: eventsAt ip es) : ∃ early, early ++ [(ip, b)] <+: es ∧ eventsAt ip early = before := by
  obtain ⟨late, hlate⟩ := h
  rw [List.append_assoc, List.singleton_append] at hlate
  obtain ⟨first, rest, rfl, hfirst, hrest⟩ := List.filterMap_eq_append_iff.mp hlate.symm
  obtain ⟨skipped, ⟨x, e⟩, last, rfl, hnone, hsome, -⟩ := List.filterMap_eq_cons_iff.mp hrest
  have hevent : x = ip ∧ e = b := by
    simp only at hsome
    split at hsome
    · rename_i hx
      exact ⟨hx, Option.some.inj hsome⟩
    · exact absurd hsome (Option.some_ne_none b).symm
  obtain ⟨rfl, rfl⟩ := hevent
  refine ⟨first ++ skipped, ⟨last, by simp⟩, ?_⟩
  unfold eventsAt
  rw [List.filterMap_append, List.filterMap_eq_nil_iff.mpr hnone, List.append_nil]
  exact hfirst

omit [Unicode] in
/-- The times of a node are those of its events. -/
theorem filterMap_eventsAt (ip : Str) (es : List (Str × NodeEvent)) :
    (eventsAt ip es).filterMap NodeEvent.time = timesAt ip es := by
  unfold eventsAt timesAt
  rw [List.filterMap_filterMap]
  congr 1
  ext ⟨x, e⟩
  by_cases hx : x = ip
  · simp [hx]
  · simp [hx]

/-! ### The node with the highest address -/

/-- A run of a cluster whose highest node is `n` at the address `top`. -/
structure Headed (cl : Cluster) (es : List (Str × NodeEvent)) (top : Address) (n : Node) : Prop where
  fresh : cl.Fresh
  up : cl top.ip = some n
  highest : ∀ a : Address, (cl a.ip).isSome → a ≤ top
  handled : ∀ e ∈ es, e.2.Handled
  authentic : Along Cluster.Authentic Cluster.step cl es

variable {cl : Cluster} {es : List (Str × NodeEvent)} {top : Address} {n₀ : Node}

theorem Headed.of_prefix (h : Headed cl es top n₀) {early : List (Str × NodeEvent)} (hp : early <+: es) :
    Headed cl early top n₀ where
  fresh := h.fresh
  up := h.up
  highest := h.highest
  handled e he := h.handled e (hp.subset he)
  authentic := h.authentic.of_prefix hp

theorem Headed.genuine (h : Headed cl es top n₀) : Along Cluster.Genuine Cluster.step cl es := by
  refine h.authentic.imp (P := fun _ => True) trivial (fun _ _ _ _ => trivial) ?_
  intro s e _ hauthentic line now hbeat hs
  apply hauthentic line now hbeat
  rw [beatSender] at hs
  split at hs
  · rename_i hparse
    rw [hparse]
    rfl
  · exact absurd hs Bool.false_ne_true

/-- **It leads throughout**, and keeps the nodes of its map. -/
theorem top_run (h : Headed cl es top n₀) : ∃ m, run Cluster.step cl es top.ip = some m ∧ Names m top top ∧
    ∀ x ∈ n₀.states.nodes.keys, x ∈ m.states.nodes.keys := by
  induction es using List.reverseRecOn with
  | nil =>
    refine ⟨n₀, h.up, ⟨h.fresh.selfIp top.ip n₀ h.up, h.fresh.leaderIp top.ip n₀ h.up, ?_, le_rfl⟩, fun _ => id⟩
    simp [h.fresh.leader top.ip n₀ h.up]
  | append_singleton es e ih =>
    obtain ⟨m, hm, hnames, hkeys⟩ := ih (h.of_prefix (List.prefix_append es [e]))
    have hleads : m.raft.leader = true := hnames.leader.mpr rfl
    rw [run_concat]
    obtain ⟨x, e⟩ := e
    by_cases hx : x = top.ip
    · subst hx
      refine ⟨m.step e, Cluster.step_self hm e, ?_, fun y hy => ?_⟩
      · have hstep := names_step hnames (e := e) fun now _ ht => absurd ht.1 (by rw [hleads]; decide)
        have hfollows : e.follows top = top := by
          rw [NodeEvent.follows]
          cases hs : e.sender with
          | none => rfl
          | some a =>
            have hgenuine := ((along_concat _).mp h.genuine).2
            have ha := isSome_of_genuine (signed_run (signed_fresh h.fresh) es) hgenuine hs
            rw [Cluster.isSome_run] at ha
            exact max_eq_left (h.highest a ha)
        rw [hfollows] at hstep
        exact hstep
      · exact step_keys (h.handled _ (List.mem_append_right _ List.mem_cons_self)) hleads y (hkeys y hy)
    · rw [Cluster.step_of_ne hx]
      exact ⟨m, hm, hnames, hkeys⟩

/-- The state of the highest node before one of its events. -/
theorem top_before (h : Headed cl es top n₀) {before : List NodeEvent} {b : NodeEvent}
    (hb : before ++ [b] <+: eventsAt top.ip es) : ∃ early, early ++ [(top.ip, b)] <+: es ∧
      run Cluster.step cl early top.ip = some (run Node.step n₀ before) ∧ Names (run Node.step n₀ before) top top ∧
      ∀ x ∈ n₀.states.nodes.keys, x ∈ (run Node.step n₀ before).states.nodes.keys := by
  obtain ⟨early, hearly, hevents⟩ := exists_prefix_of_eventsAt hb
  obtain ⟨m, hm, hnames, hkeys⟩ := top_run (h.of_prefix ((List.prefix_append early _).trans hearly))
  have hrun : m = run Node.step n₀ before := by
    rw [Cluster.run_step_apply, h.up, hevents] at hm
    exact (Option.some.inj hm).symm
  rw [hrun] at hm hnames hkeys
  exact ⟨early, hearly, hm, hnames, hkeys⟩

/-- **It is the sender of a watchdog.** -/
theorem pulse_top (h : Headed cl es top n₀) (hsorted : (timesAt top.ip es).Pairwise (· ≤ ·)) :
    Pulse beatInterval Node.step NodeEvent.tickTime (fun n => n.raft.nextBeatTime) n₀ (eventsAt top.ip es) where
  idle before b _ hturn := by
    rw [run_concat]
    exact step_nextBeatTime hturn
  next before b now hb hturn := by
    obtain ⟨-, -, -, hnames, -⟩ := top_before h hb
    rw [run_concat]
    cases b with
    | tick s =>
      obtain rfl : s = now := Option.some.inj hturn
      exact (raftHeart_beats (hnames.leader.mpr rfl) s).2
    | _ => exact absurd hturn (Option.some_ne_none now).symm
  sorted := by
    have hsub : ((eventsAt top.ip es).filterMap NodeEvent.tickTime).Sublist
        ((eventsAt top.ip es).filterMap NodeEvent.time) := by
      apply sublist_filterMap
      intro e t ht
      cases e with
      | tick now => exact ht
      | _ => exact absurd ht (Option.some_ne_none t).symm
    rw [filterMap_eventsAt] at hsub
    exact hsorted.sublist hsub

/-- **Every node is a receiver**: a heartbeat restarts its timer. -/
theorem watch_node (n : Node) {ip : Str} (hsorted : (timesAt ip es).Pairwise (· ≤ ·)) :
    Watch Node.step NodeEvent.time (fun e => e.sender = some top) (fun n => n.raft.lastBeatReceived) n
      (eventsAt ip es) where
  next early e _ := by
    rw [run_concat]
    exact step_lastBeatReceived _ e
  sign early e _ hsign := by
    rw [run_concat]
    cases e with
    | beat line now =>
      obtain ⟨-, -, -, -, hlast, -⟩ := (run Node.step n early).beatHandler_frame line now
      exact congrArg some hlast.symm
    | _ => exact absurd hsign (Option.some_ne_none top).symm
  sorted := by
    rw [filterMap_eventsAt]
    exact hsorted

/-- The sender of a heartbeat, as the receiver sees it. -/
theorem beatSender_beatText (a : Address) (r lr : ℤ) : beatSender (strip (beatText a.ip r lr)) = some a := by
  rw [beatText_eq, strip_append_newline, strip_beatBody a.valid, beatSender, parseBeat_body a.valid]
  exact dif_pos a.valid

/-! ### Nobody times out -/

variable {δ Δ spread t₀ T : Time}

/-- What it sends to a node of its map is handled there in time. -/
theorem exists_arrival (h : Headed cl es top n₀) (htimely : cl.Timely es top.ip δ Δ spread t₀ T) {ip : Str}
    (hip : (cl ip).isSome) (hne : ip ≠ top.ip) (hknown : ip ∈ n₀.states.nodes.keys) {before : List NodeEvent}
    {b : NodeEvent} {sent : Time} (hb : before ++ [b] <+: eventsAt top.ip es) (hturn : b.tickTime = some sent)
    (hdue : (run Node.step n₀ before).raft.nextBeatTime ≤ sent) (hend : sent + Δ ≤ T) :
    ∃ f ∈ eventsAt ip es, f.sender = some top ∧ ∃ r, f.time = some r ∧ sent ≤ r ∧ r ≤ sent + Δ := by
  obtain ⟨early, hearly, hm, hnames, hkeys⟩ := top_before h hb
  cases b with
  | tick s =>
    obtain rfl : s = sent := Option.some.inj hturn
    obtain ⟨p, hp, rfl, r, lr, htext⟩ := raftHeart_beats_to (hnames.leader.mpr rfl) hdue (hkeys ip hknown)
      (by rw [hnames.selfIp]; exact hne)
    obtain ⟨line, time, hmem, hline, hlow, hhigh⟩ := htimely.delivered early s _ hearly hm hend p hp hip
    refine ⟨.beat line time, mem_eventsAt.mpr hmem, ?_, time, rfl, hlow, hhigh⟩
    show beatSender line.val = some top
    rw [hline, htext, hnames.selfIp]
    exact beatSender_beatText top r lr
  | _ => exact absurd hturn (Option.some_ne_none sent).symm

/-- The loop of the highest node, as the watchdog needs it. -/
theorem turns_top (htimely : cl.Timely es top.ip δ Δ spread t₀ T) (hΔ : 0 ≤ Δ) :
    ∀ t, t₀ ≤ t → t ≤ T → t + δ + Δ < T →
      ∃ e ∈ eventsAt top.ip es, ∃ u, e.tickTime = some u ∧ t ≤ u ∧ u ≤ t + δ := by
  intro t ht _ hbefore
  obtain ⟨u, hu, hlow, hhigh⟩ := htimely.turns t ht (by linarith)
  exact ⟨.tick u, mem_eventsAt.mpr hu, u, rfl, hlow, hhigh⟩

/-- **Nobody times out.** -/
theorem noTimeout_run (h : Headed cl es top n₀) (htimely : cl.Timely es top.ip δ Δ spread t₀ T)
    (hbound : spread + beatInterval + δ + Δ < leaderDead) (hδ : 0 ≤ δ) (hΔ : 0 ≤ Δ) (hspread : 0 ≤ spread)
    (hfirst : n₀.raft.nextBeatTime ≤ t₀ + beatInterval)
    (hstart : ∀ ip n, cl ip = some n → t₀ - spread ≤ n.raft.lastBeatReceived)
    (hknown : ∀ ip, (cl ip).isSome → ip ∈ n₀.states.nodes.keys) : Along Cluster.NoTimeout Cluster.step cl es := by
  apply along_of_prefix
  rintro early ⟨ip, e⟩ hearly m hm now rfl ⟨hfollows, hsilent⟩
  have hbefore : early <+: es := (List.prefix_append early _).trans hearly
  by_cases hne : ip = top.ip
  · subst hne
    obtain ⟨m', hm', hnames, -⟩ := top_run (h.of_prefix hbefore)
    obtain rfl : m = m' := Option.some.inj (hm.symm.trans hm')
    rw [hnames.leader.mpr rfl] at hfollows
    exact absurd hfollows (by decide)
  · obtain ⟨n, hn, rfl⟩ := Cluster.exists_of_run hm
    have hip : (cl ip).isSome := by
      rw [hn]
      rfl
    have hlocal : eventsAt ip early ++ [.tick now] <+: eventsAt ip es := by
      obtain ⟨late, rfl⟩ := hearly
      refine ⟨eventsAt ip late, ?_⟩
      unfold eventsAt
      simp
    have hwatched := (pulse_top h (htimely.sorted top.ip)).watched (watch_node n (htimely.sorted ip)) (by decide)
      hbound (by linarith) hspread (turns_top htimely hΔ) hfirst
      (fun before b sent hb hturn hdue hend => exists_arrival h htimely hip hne (hknown ip hip) hb hturn hdue hend.le)
      (hstart ip n hn) (fun f hf r hr => htimely.from_start (ip, f) (mem_eventsAt.mp hf) r hr) hlocal rfl
      (htimely.to_end _ (hearly.subset (List.mem_append_right _ List.mem_cons_self)) now rfl)
    exact absurd hsilent hwatched.not_ge

/-- Whoever has turned late enough has heard the highest node. -/
theorem heard_top (h : Headed cl es top n₀) (htimely : cl.Timely es top.ip δ Δ spread t₀ T) (hδ : 0 ≤ δ)
    (hΔ : 0 ≤ Δ) (hfirst : n₀.raft.nextBeatTime ≤ t₀ + beatInterval)
    (hknown : ∀ ip, (cl ip).isSome → ip ∈ n₀.states.nodes.keys) {early : List (Str × NodeEvent)} (hp : early <+: es)
    {ip : Str} (hip : (cl ip).isSome) (hne : ip ≠ top.ip) {now : Time} (hnow : now ∈ timesAt ip early)
    (hlong : t₀ + beatInterval + δ + Δ < now) : top ∈ heardAt ip early := by
  obtain ⟨n, hn⟩ := Option.isSome_iff_exists.mp hip
  rw [← filterMap_eventsAt] at hnow
  obtain ⟨e, he, htime⟩ := List.mem_filterMap.mp hnow
  obtain ⟨before, hbefore⟩ := exists_early_of_mem he
  have hlocal : before ++ [e] <+: eventsAt ip es := by
    obtain ⟨late, rfl⟩ := hp
    exact hbefore.trans ⟨eventsAt ip late, (List.filterMap_append).symm⟩
  have hend : now ≤ T := htimely.to_end (ip, e) (mem_eventsAt.mp (hlocal.subset (List.mem_append_right _
    List.mem_cons_self))) now htime
  obtain ⟨x, hx, hsender, -⟩ := (pulse_top h (htimely.sorted top.ip)).sign_after (watch_node n (htimely.sorted ip))
    (by decide) (turns_top htimely hΔ) hfirst
    (fun first b sent hb hturn hdue hend => exists_arrival h htimely hip hne (hknown ip hip) hb hturn hdue hend.le)
    hlocal htime hend (le_refl t₀) (by linarith) hlong
  exact ⟨(ip, x), mem_eventsAt.mp (hbefore.subset (List.mem_append_left _ hx)), rfl, hsender⟩

/-! ### Nobody's share moves -/

omit [Unicode] in
/-- The map, the ranks and the shard of the node `m` are those of `n`. -/
structure SameShare (n m : Node) : Prop where
  nodes : m.states.nodes = n.states.nodes
  rank : m.states.rank = n.states.rank
  lastRank : m.states.lastRank = n.states.lastRank
  selfRecords : m.states.selfRecords = n.states.selfRecords

omit [Unicode] in
theorem SameShare.of_states {n m : Node} (h : m.states = n.states) : SameShare n m :=
  ⟨by rw [h], by rw [h], by rw [h], by rw [h]⟩

omit [Unicode] in
theorem SameShare.trans {n m k : Node} (h : SameShare n m) (h' : SameShare m k) : SameShare n k :=
  ⟨h'.nodes.trans h.nodes, h'.rank.trans h.rank, h'.lastRank.trans h.lastRank, h'.selfRecords.trans h.selfRecords⟩

/-- A heartbeat that repeats the ranks of a node. -/
theorem sameShare_beat {n : Node} {line : Line}
    (h : ∀ l r lr, parseBeat line.val = some (l, r, lr) →
      l ∈ n.states.nodes.keys ∧ r = n.states.rank ∧ lr = n.states.lastRank) (now : Time) :
    SameShare n (n.beatHandler line now) := by
  have hregister : ∀ l, l ∈ n.states.nodes.keys → ((n.heard now).registerSender l).states = n.states := by
    intro l hl
    show (if n.states.nodes.contains l then n.states else _) = n.states
    rw [if_pos (OrderedDict.contains_iff.mpr hl)]
  rcases n.beatHandler_cases line now with ⟨-, hrun⟩ | ⟨l, r, lr, hparse, -, hrun⟩ |
    ⟨l, r, lr, ld, my, hparse, -, -, hrun⟩
  · rw [hrun]
    exact SameShare.of_states rfl
  · rw [hrun]
    exact SameShare.of_states (hregister l (h l r lr hparse).1)
  · obtain ⟨hl, rfl, rfl⟩ := h l r lr hparse
    have hstates := hregister l hl
    have hfollow : SameShare n (((n.heard now).registerSender l).followHigher l ld my) := by
      apply (SameShare.of_states hstates).trans
      unfold Node.followHigher
      split
      · exact ⟨rfl, rfl, rfl, rfl⟩
      · exact SameShare.of_states rfl
    rw [hrun]
    unfold Node.adoptRank
    rw [if_neg]
    · exact hfollow
    · rintro (hne | hne)
      · exact hne hfollow.rank
      · exact hne hfollow.lastRank

theorem sameShare_step {n : Node} {e : NodeEvent} (hhandled : e.Handled) (hquiet : e.Quiet n)
    (hbeat : ∀ line now l r lr, e = .beat line now → parseBeat line.val = some (l, r, lr) →
      l ∈ n.states.nodes.keys ∧ r = n.states.rank ∧ lr = n.states.lastRank) : SameShare n (n.step e) := by
  have hframe : ∀ {m : Node}, Node.WriteFrame n m → SameShare n m := by
    intro m h
    exact ⟨by rw [h.states], by rw [h.states], by rw [h.states], by rw [h.states]⟩
  cases e with
  | beat line now => exact sameShare_beat (fun l r lr => hbeat line now l r lr rfl) now
  | tick now =>
    apply SameShare.of_states
    show (n.raftHeart now).states = n.states
    rw [Node.raftHeart_kept (hquiet now rfl)]
    exact n.periodicBeat_states now
  | write line => exact hframe (Node.writeFrame_writeHandler n line)
  | newRecord domain ip => exact hframe (Node.writeFrame_newRecord n domain ip)
  | addNodes ip => exact hhandled.elim
  | removeNode ip => exact hhandled.elim
  | updateRank r lr => exact hhandled.elim

omit [Unicode] in
/-- A heartbeat tells its receiver the rank that the map of the sender has for it. -/
theorem mem_beats_rank {s : States} {p : Packet} (h : p ∈ Node.beats s) :
    ∃ r, s.nodes.get? p.dst = some r ∧ p.text = beatText s.selfIp r s.lastRank := by
  obtain ⟨⟨ip, r⟩, he, rfl⟩ := List.mem_map.mp h
  exact ⟨r, OrderedDict.get?_of_mem (List.mem_filter.mp he).1, rfl⟩

/-- What a node sends as long as it does not time out: heartbeats with the ranks of its map. -/
theorem step_sends {n : Node} {e : NodeEvent} (hquiet : e.Quiet n) : ∃ sent, (n.step e).outbox = n.outbox ++ sent ∧
    ∀ p ∈ sent, p.port = 9000 ∨ p ∈ Node.beats n.states := by
  have hnone : ∃ sent, n.outbox = n.outbox ++ sent ∧ ∀ p ∈ sent, p.port = 9000 ∨ p ∈ Node.beats n.states :=
    ⟨[], (List.append_nil _).symm, fun p hp => absurd hp List.not_mem_nil⟩
  have hframe : ∀ {m : Node}, Node.WriteFrame n m → ∃ sent, m.outbox = n.outbox ++ sent ∧
      ∀ p ∈ sent, p.port = 9000 ∨ p ∈ Node.beats n.states := by
    intro m h
    obtain ⟨sent, hout, hport⟩ := h.outbox
    exact ⟨sent, hout, fun p hp => Or.inl (hport p hp)⟩
  cases e with
  | beat line now =>
    obtain ⟨-, -, -, -, -, -, -, hout⟩ := n.beatHandler_frame line now
    show ∃ sent, (n.beatHandler line now).outbox = _ ∧ _
    rw [hout]
    exact hnone
  | tick now =>
    refine ⟨_, n.raftHeart_outbox now, fun p hp => Or.inr ?_⟩
    rw [if_neg (hquiet now rfl)] at hp
    split at hp
    · exact hp
    · exact absurd hp List.not_mem_nil
  | write line => exact hframe (Node.writeFrame_writeHandler n line)
  | newRecord domain ip => exact hframe (Node.writeFrame_newRecord n domain ip)
  | addNodes ip => exact hnone
  | removeNode ip => exact hnone
  | updateRank r lr => exact hnone

omit [Unicode] in
/-- The nodes of a cluster have one map between them and the ranks in it, and tell each other so. -/
structure Level (map : OrderedDict Str ℤ) (last : ℤ) (cl : Cluster) : Prop where
  nodes : ∀ ip n, cl ip = some n → n.states.nodes = map
  rank : ∀ ip n, cl ip = some n → map.get? ip = some n.states.rank
  lastRank : ∀ ip n, cl ip = some n → n.states.lastRank = last
  told : ∀ ip n, cl ip = some n → ∀ p ∈ n.outbox, p.port = 7001 →
    ∃ r, map.get? p.dst = some r ∧ p.text = beatText ip r last

/-- **The step lemma**: nothing that is told moves a share. -/
theorem level_step {map : OrderedDict Str ℤ} {last : ℤ} (h : Level map last cl) (hsigned : Signed cl)
    {e : Str × NodeEvent} (hhandled : e.2.Handled) (hquiet : cl.NoTimeout e) (hauthentic : cl.Authentic e) :
    Level map last (cl.step e) ∧ ∀ ip m, cl.step e ip = some m → ∃ n, cl ip = some n ∧ SameShare n m := by
  obtain ⟨x, e⟩ := e
  have hshare : ∀ n, cl x = some n → SameShare n (n.step e) := by
    intro n hn
    apply sameShare_step hhandled (hquiet n hn)
    intro line now l r lr hevent hparse
    obtain ⟨ip, s, hs, p, hp, hdst, hport, hline⟩ := hauthentic line now hevent (by rw [hparse]; rfl)
    obtain ⟨r', hr', htext⟩ := h.told ip s hs p hp hport
    obtain ⟨hvalid, -, -⟩ := hsigned ip s hs
    rw [hline, htext, beatText_eq, strip_append_newline, strip_beatBody hvalid, parseBeat_body hvalid] at hparse
    obtain ⟨rfl, rfl, rfl⟩ : ip = l ∧ r' = r ∧ last = lr := by simpa using hparse
    rw [hdst] at hr'
    have hrank := h.rank x n hn
    rw [h.nodes x n hn]
    refine ⟨OrderedDict.mem_keys_of_get?_eq_some (h.rank ip s hs), ?_, (h.lastRank x n hn).symm⟩
    exact Option.some.inj (hr'.symm.trans hrank)
  have hkept : ∀ ip m, cl.step (x, e) ip = some m → ∃ n, cl ip = some n ∧ SameShare n m := by
    intro ip m hm
    by_cases hx : x = ip
    · subst hx
      obtain ⟨n, hn, -⟩ := Cluster.exists_of_step hm
      rw [Cluster.step_self hn] at hm
      obtain rfl := Option.some.inj hm
      exact ⟨n, hn, hshare n hn⟩
    · rw [Cluster.step_of_ne hx] at hm
      exact ⟨m, hm, SameShare.of_states rfl⟩
  refine ⟨⟨?_, ?_, ?_, ?_⟩, hkept⟩
  · intro ip m hm
    obtain ⟨n, hn, hsame⟩ := hkept ip m hm
    exact hsame.nodes.trans (h.nodes ip n hn)
  · intro ip m hm
    obtain ⟨n, hn, hsame⟩ := hkept ip m hm
    rw [hsame.rank]
    exact h.rank ip n hn
  · intro ip m hm
    obtain ⟨n, hn, hsame⟩ := hkept ip m hm
    exact hsame.lastRank.trans (h.lastRank ip n hn)
  · intro ip m hm p hp hport
    by_cases hx : x = ip
    · subst hx
      obtain ⟨n, hn, -⟩ := Cluster.exists_of_step hm
      rw [Cluster.step_self hn] at hm
      obtain rfl := Option.some.inj hm
      obtain ⟨sent, hout, hsent⟩ := step_sends (hquiet n hn)
      rw [hout] at hp
      rcases List.mem_append.mp hp with hp | hp
      · exact h.told x n hn p hp hport
      · rcases hsent p hp with h9000 | hbeat
        · rw [hport] at h9000
          exact absurd h9000 (by decide)
        · obtain ⟨r, hr, htext⟩ := mem_beats_rank hbeat
          rw [h.nodes x n hn] at hr
          rw [(hsigned x n hn).2.1, h.lastRank x n hn] at htext
          exact ⟨r, hr, htext⟩
    · rw [Cluster.step_of_ne hx] at hm
      exact h.told ip m hm p hp hport

/-- **Without timeouts every node keeps its share.** -/
theorem level_run {map : OrderedDict Str ℤ} {last : ℤ} (h : Level map last cl) (hsigned : Signed cl)
    (hhandled : ∀ e ∈ es, e.2.Handled) (hquiet : Along Cluster.NoTimeout Cluster.step cl es)
    (hauthentic : Along Cluster.Authentic Cluster.step cl es) : Level map last (run Cluster.step cl es) ∧
      ∀ ip m, run Cluster.step cl es ip = some m → ∃ n, cl ip = some n ∧ SameShare n m := by
  induction es using List.reverseRecOn with
  | nil => exact ⟨h, fun ip m hm => ⟨m, hm, SameShare.of_states rfl⟩⟩
  | append_singleton es e ih =>
    obtain ⟨hquiet, he⟩ := (along_concat e).mp hquiet
    obtain ⟨hauthentic, he'⟩ := (along_concat e).mp hauthentic
    obtain ⟨hlevel, hshares⟩ := ih (fun x hx => hhandled x (List.mem_append_left _ hx)) hquiet hauthentic
    obtain ⟨hlevel', hshares'⟩ := level_step hlevel (signed_run hsigned es)
      (hhandled e (List.mem_append_right _ List.mem_cons_self)) he he'
    rw [run_concat]
    refine ⟨hlevel', fun ip m hm => ?_⟩
    obtain ⟨m', hm', hsame'⟩ := hshares' ip m hm
    obtain ⟨n, hn, hsame⟩ := hshares ip m' hm'
    exact ⟨n, hn, hsame.trans hsame'⟩

/-! ### The cluster of one set of files -/

namespace Cluster

variable {files : List (Option Str)} {disk : Str → Disk} {heads : Str → List Str} {start : Str → Time}

omit [Unicode] in
theorem boot_eq_some {ip : Str} {n : Node} : boot files disk heads start ip = some n ↔
    ip ∈ States.addresses files ∧ n = Node.main ip files (disk ip) (heads ip) (start ip) := by
  unfold boot
  split
  · rename_i hip
    rw [Option.some.injEq, eq_comm]
    exact (and_iff_right hip).symm
  · rename_i hip
    exact ⟨fun h => absurd h (Option.some_ne_none n).symm, fun h => absurd h.1 hip⟩

omit [Unicode] in
theorem isSome_boot {ip : Str} : (boot files disk heads start ip).isSome ↔ ip ∈ States.addresses files := by
  rw [Option.isSome_iff_exists]
  constructor
  · rintro ⟨n, hn⟩
    exact (boot_eq_some.mp hn).1
  · exact fun hip => ⟨_, boot_eq_some.mpr ⟨hip, rfl⟩⟩

omit [Unicode] in
theorem fresh_boot (hvalid : ∀ ip ∈ States.addresses files, (ipv4 ip).isSome) (disk : Str → Disk)
    (heads : Str → List Str) (start : Str → Time) : (boot files disk heads start).Fresh := by
  refine fresh_of_main fun ip n hn => ?_
  obtain ⟨hip, rfl⟩ := boot_eq_some.mp hn
  exact ⟨hvalid ip hip, _, _, _, _, rfl⟩

omit [Unicode] in
/-- The nodes of the map of a node are those that the files name. -/
theorem keys_main {ip : Str} (hip : ip ∈ States.addresses files) (x : Str) :
    x ∈ (States.init ip files).nodes.keys ↔ x ∈ States.addresses files := by
  rw [(States.init_ranking ip files).2.1]
  exact (States.registerNodes_keys (List.ne_nil_of_mem hip) ip).1 x

omit [Unicode] in
/-- At the start the nodes are level. -/
theorem level_boot {top : Str} (htop : top ∈ States.addresses files) :
    Level (States.init top files).nodes (States.init top files).lastRank (boot files disk heads start) where
  nodes ip n hn := by
    obtain ⟨hip, rfl⟩ := boot_eq_some.mp hn
    exact Bootstrap.nodes_init hip top
  rank ip n hn := by
    obtain ⟨hip, rfl⟩ := boot_eq_some.mp hn
    obtain ⟨v, hv⟩ := Option.isSome_iff_exists.mp (OrderedDict.get?_isSome_iff.mpr ((keys_main htop ip).mpr hip))
    obtain ⟨-, hnodes, hrank, -, -⟩ := States.init_ranking ip files
    show _ = some (States.init ip files).rank
    rw [hrank, ← hnodes, Bootstrap.nodes_init hip top, hv]
    rfl
  lastRank ip n hn := by
    obtain ⟨hip, rfl⟩ := boot_eq_some.mp hn
    show (States.init ip files).lastRank = _
    rw [(States.init_ranking ip files).2.2.2.1, (States.init_ranking top files).2.2.2.1,
      (States.registerNodes_keys (List.ne_nil_of_mem hip) ip).2,
      (States.registerNodes_keys (List.ne_nil_of_mem htop) top).2]
  told ip n hn p hp := by
    obtain ⟨hip, rfl⟩ := boot_eq_some.mp hn
    exact absurd hp List.not_mem_nil

omit [Unicode] in
/-- Where every node has the share it started with, the shards are a partition. -/
theorem partitioned_of_boot (hnodup : (States.addresses files).Nodup) (hne : States.addresses files ≠ [])
    {cl : Cluster} (hup : ∀ ip, (cl ip).isSome ↔ ip ∈ States.addresses files)
    (hshare : ∀ ip m, cl ip = some m → ∃ n, boot files disk heads start ip = some n ∧ SameShare n m) :
    cl.Partitioned := by
  have howned : ∀ ip m, cl ip = some m →
      ip ∈ States.addresses files ∧ m.states.selfRecords = (States.init ip files).selfRecords := by
    intro ip m hm
    obtain ⟨n, hn, hsame⟩ := hshare ip m hm
    obtain ⟨hip, rfl⟩ := boot_eq_some.mp hn
    exact ⟨hip, hsame.selfRecords⟩
  constructor
  · intro i j n m hn hm hij l hl
    obtain ⟨hi, hni⟩ := howned i n hn
    obtain ⟨hj, hmj⟩ := howned j m hm
    rw [hni] at hl
    rw [hmj]
    exact (Bootstrap.apart_init hnodup hi hj hij).2 l hl
  · intro l
    constructor
    · intro hl
      obtain ⟨ip, hip, hletter⟩ := Bootstrap.exists_owner_init hnodup hne hl
      obtain ⟨m, hm⟩ := Option.isSome_iff_exists.mp ((hup ip).mpr hip)
      rw [← (howned ip m hm).2] at hletter
      exact ⟨ip, m, hm, hletter⟩
    · rintro ⟨ip, m, hm, hletter⟩
      rw [(howned ip m hm).2, States.sharded_init ip files] at hletter
      exact recordSet_subset hletter

end Cluster

/-- **A cluster whose heartbeats are in time is stable.** All nodes that the files name have started, the one with
the highest address turns its loop at least every `δ`, its heartbeats are handled within `Δ`, and
`spread + beatInterval + δ + Δ < leaderDead`. Then, whatever else happens and in whatever order:
* nobody times out;
* in every state the map of every node has exactly the nodes of the files, and the shards are a partition;
* a node that reads its clock more than `beatInterval + δ + Δ` after the start follows the node with the highest
  address, and leads exactly if it is that node. -/
theorem cluster_stable {files : List (Option Str)} {disk : Str → Disk} {heads : Str → List Str} {start : Str → Time}
    (hnodup : (States.addresses files).Nodup) (hvalid : ∀ ip ∈ States.addresses files, (ipv4 ip).isSome)
    (htop : top.ip ∈ States.addresses files) (hhighest : ∀ a : Address, a.ip ∈ States.addresses files → a ≤ top)
    (hbound : spread + beatInterval + δ + Δ < leaderDead) (hδ : 0 ≤ δ) (hΔ : 0 ≤ Δ) (hspread : 0 ≤ spread)
    (hstart : ∀ ip ∈ States.addresses files, t₀ - spread ≤ start ip) (hfirst : start top.ip ≤ t₀)
    (hhandled : ∀ e ∈ es, e.2.Handled)
    (hauthentic : Along Cluster.Authentic Cluster.step (Cluster.boot files disk heads start) es)
    (htimely : (Cluster.boot files disk heads start).Timely es top.ip δ Δ spread t₀ T) :
    Along Cluster.NoTimeout Cluster.step (Cluster.boot files disk heads start) es ∧
    Always (fun cl => cl.Partitioned ∧ ∀ ip n, cl ip = some n → ∀ x, x ∈ n.states.nodes.keys ↔
      x ∈ States.addresses files) Cluster.step (Cluster.boot files disk heads start) es ∧
    ∀ early, early <+: es → ∀ ip n, run Cluster.step (Cluster.boot files disk heads start) early ip = some n →
      (∃ now ∈ timesAt ip early, t₀ + beatInterval + δ + Δ < now) →
        n.states.leaderIp = top.ip ∧ (n.raft.leader = true ↔ ip = top.ip) := by
  have hfresh := Cluster.fresh_boot hvalid disk heads start
  have hhead : Headed (Cluster.boot files disk heads start) es top (Node.main top.ip files (disk top.ip)
      (heads top.ip) (start top.ip)) :=
    ⟨hfresh, Cluster.boot_eq_some.mpr ⟨htop, rfl⟩, fun a ha => hhighest a (Cluster.isSome_boot.mp ha), hhandled,
      hauthentic⟩
  have hbeat : start top.ip + beatInterval ≤ t₀ + beatInterval := by linarith
  have hknown : ∀ ip, (Cluster.boot files disk heads start ip).isSome →
      ip ∈ (States.init top.ip files).nodes.keys :=
    fun ip hip => (Cluster.keys_main htop ip).mpr (Cluster.isSome_boot.mp hip)
  have hquiet : Along Cluster.NoTimeout Cluster.step (Cluster.boot files disk heads start) es := by
    refine noTimeout_run hhead htimely hbound hδ hΔ hspread hbeat (fun ip n hn => ?_) hknown
    obtain ⟨hip, rfl⟩ := Cluster.boot_eq_some.mp hn
    exact hstart ip hip
  refine ⟨hquiet, fun early hp => ?_, fun early hp ip m hm ⟨now, hnow, hlong⟩ => ?_⟩
  · obtain ⟨-, hshares⟩ := level_run (Cluster.level_boot htop) (signed_fresh hfresh)
      (fun e he => hhandled e (hp.subset he)) (hquiet.of_prefix hp) (hauthentic.of_prefix hp)
    have hup : ∀ ip, (run Cluster.step (Cluster.boot files disk heads start) early ip).isSome ↔
        ip ∈ States.addresses files := by
      intro ip
      rw [Cluster.isSome_run]
      exact Cluster.isSome_boot
    refine ⟨Cluster.partitioned_of_boot hnodup (List.ne_nil_of_mem htop) hup hshares, fun ip m hm x => ?_⟩
    obtain ⟨n, hn, hsame⟩ := hshares ip m hm
    obtain ⟨hip, rfl⟩ := Cluster.boot_eq_some.mp hn
    rw [hsame.nodes]
    exact Cluster.keys_main hip x
  · obtain ⟨own, named, rfl, hnamed, hnames⟩ := names_run hfresh (hquiet.of_prefix hp) hm
    have hown : (Cluster.boot files disk heads start own.ip).isSome := by
      rw [← Cluster.isSome_run _ early, hm]
      rfl
    obtain rfl := hnamed.unique (isGreatest_highest (signed_fresh hfresh) (hhead.genuine.of_prefix hp) hhead.highest
      hown fun hne => heard_top hhead htimely hδ hΔ hbeat hknown hp hown hne hnow hlong)
    refine ⟨hnames.leaderIp, ?_⟩
    rw [hnames.leader, eq_comm]
    exact ⟨fun heq => by rw [heq], Address.ext⟩

omit [Unicode] in
/-- A part of a run, and the event after it, by its length. -/
theorem take_of_concat_prefix {early es : List (Str × NodeEvent)} {e : Str × NodeEvent} (h : early ++ [e] <+: es) :
    early = es.take early.length ∧ es[early.length]? = some e := by
  obtain ⟨late, rfl⟩ := h
  constructor
  · simp
  · simp

omit [Unicode] in
/-- The nodes `10.0.0.1` and `10.0.0.2`, started at once. -/
def bootedPair : Cluster :=
  Cluster.boot [some "10.0.0.1".toList, some "10.0.0.2".toList]
    (fun _ => { file := fun _ => none, denied := fun _ => false }) (fun _ => []) fun _ => 0

omit [Unicode] in
/-- The heartbeat of `10.0.0.2`, as `10.0.0.1` reads it. -/
def pairLine : Line := ⟨"10.0.0.2;1;2".toList, pairHead_plain⟩

omit [Unicode] in
/-- The loop of `10.0.0.2` turns every 100 seconds, and its heartbeats take one. -/
def timelyBeats : List (Str × NodeEvent) :=
  [("10.0.0.2".toList, .tick (100 * second)),
    ("10.0.0.1".toList, .beat pairLine (101 * second)),
    ("10.0.0.2".toList, .tick (200 * second)),
    ("10.0.0.1".toList, .beat pairLine (201 * second)),
    ("10.0.0.1".toList, .tick (215 * second))]

omit [Unicode] in
theorem timelyBeats_cases {early : List (Str × NodeEvent)} {e : Str × NodeEvent}
    (h : early ++ [e] <+: timelyBeats) :
    (early = timelyBeats.take 0 ∧ e = ("10.0.0.2".toList, .tick (100 * second))) ∨
    (early = timelyBeats.take 1 ∧ e = ("10.0.0.1".toList, .beat pairLine (101 * second))) ∨
    (early = timelyBeats.take 2 ∧ e = ("10.0.0.2".toList, .tick (200 * second))) ∨
    (early = timelyBeats.take 3 ∧ e = ("10.0.0.1".toList, .beat pairLine (201 * second))) ∨
    (early = timelyBeats.take 4 ∧ e = ("10.0.0.1".toList, .tick (215 * second))) := by
  obtain ⟨htake, hget⟩ := take_of_concat_prefix h
  generalize early.length = k at htake hget
  subst htake
  rcases k with _ | _ | _ | _ | _ | k
  · exact Or.inl ⟨rfl, (Option.some.inj hget).symm⟩
  · exact Or.inr (Or.inl ⟨rfl, (Option.some.inj hget).symm⟩)
  · exact Or.inr (Or.inr (Or.inl ⟨rfl, (Option.some.inj hget).symm⟩))
  · exact Or.inr (Or.inr (Or.inr (Or.inl ⟨rfl, (Option.some.inj hget).symm⟩)))
  · exact Or.inr (Or.inr (Or.inr (Or.inr ⟨rfl, (Option.some.inj hget).symm⟩)))
  · exact absurd hget (Option.some_ne_none e).symm

omit [Unicode] in
/-- What `10.0.0.2` has sent by the time one of its heartbeats is handled. -/
theorem timelyBeats_sent : ∀ k ∈ [1, 3], ∃ n, run (@Cluster.step Unicode.ascii) bootedPair (timelyBeats.take k)
    "10.0.0.2".toList = some n ∧ ⟨"10.0.0.1".toList, 7001, "10.0.0.2;1;2\n".toList⟩ ∈ n.outbox := by
  intro k hk
  simp only [List.mem_cons, List.not_mem_nil, or_false] at hk
  rcases hk with rfl | rfl
  · exact ⟨_, rfl, by decide⟩
  · exact ⟨_, rfl, by decide⟩

omit [Unicode] in
theorem timelyBeats_authentic :
    Along (@Cluster.Authentic Unicode.ascii) (@Cluster.step Unicode.ascii) bootedPair timelyBeats := by
  have hline : pairLine.val = strip "10.0.0.2;1;2\n".toList := by decide
  apply along_of_prefix
  rintro early e hp line now hbeat -
  rcases timelyBeats_cases hp with ⟨rfl, rfl⟩ | ⟨rfl, rfl⟩ | ⟨rfl, rfl⟩ | ⟨rfl, rfl⟩ | ⟨rfl, rfl⟩
  · exact absurd hbeat NodeEvent.noConfusion
  · obtain ⟨rfl, rfl⟩ := NodeEvent.beat.inj hbeat
    obtain ⟨n, hn, hsent⟩ := timelyBeats_sent 1 (by decide)
    exact ⟨_, n, hn, _, hsent, rfl, rfl, hline⟩
  · exact absurd hbeat NodeEvent.noConfusion
  · obtain ⟨rfl, rfl⟩ := NodeEvent.beat.inj hbeat
    obtain ⟨n, hn, hsent⟩ := timelyBeats_sent 3 (by decide)
    exact ⟨_, n, hn, _, hsent, rfl, rfl, hline⟩
  · exact absurd hbeat NodeEvent.noConfusion

omit [Unicode] in
/-- A heartbeat of `10.0.0.2` goes to `10.0.0.1` only. -/
theorem pair_sends {k : ℕ} (hk : k = 0 ∨ k = 2) {n : Node} {now : Time}
    (hn : run (@Cluster.step Unicode.ascii) bootedPair (timelyBeats.take k) "10.0.0.2".toList = some n) {p : Packet}
    (hp : p ∈ (({ n with outbox := [] } : Node).raftHeart now).outbox) :
    p = ⟨"10.0.0.1".toList, 7001, "10.0.0.2;1;2\n".toList⟩ := by
  have hbeats : Node.beats n.states = [⟨"10.0.0.1".toList, 7001, "10.0.0.2;1;2\n".toList⟩] ∧
      n.raft.leader = true := by
    rcases hk with rfl | rfl
    · obtain rfl := Option.some.inj hn
      decide
    · obtain rfl := Option.some.inj hn
      decide
  rw [Node.raftHeart_outbox, if_neg fun ht => absurd ht.1 (by rw [hbeats.2]; decide), List.nil_append] at hp
  split at hp
  · exact List.mem_singleton.mp (hbeats.1 ▸ hp)
  · exact absurd hp List.not_mem_nil

omit [Unicode] in
theorem timelyBeats_timely : @Cluster.Timely Unicode.ascii bootedPair timelyBeats "10.0.0.2".toList (100 * second)
    (10 * second) 0 0 (215 * second) := by
  have hsecond : second = 1000000000 := rfl
  have htimes : ∀ e ∈ timelyBeats, ∀ s ∈ e.2.time, (0 : ℤ) ≤ s ∧ s ≤ 215 * second := by decide
  have hreceived : ∀ (now r : Time), now ≤ r → r ≤ now + 10 * second →
      ("10.0.0.1".toList, NodeEvent.beat pairLine r) ∈ timelyBeats →
      ∃ line r, ("10.0.0.1".toList, NodeEvent.beat line r) ∈ timelyBeats ∧
        line.val = strip "10.0.0.2;1;2\n".toList ∧ now ≤ r ∧ r ≤ now + 10 * second :=
    fun now r hlow hhigh hmem => ⟨pairLine, r, hmem, by decide, hlow, hhigh⟩
  refine @Cluster.Timely.mk Unicode.ascii _ _ _ _ _ _ _ _ ?sorted ?from_start ?to_end ?turns ?delivered
  case sorted =>
    intro ip
    have hall : (timelyBeats.filterMap fun e => e.2.time).Pairwise (· ≤ ·) := by decide
    refine List.Pairwise.sublist ?_ hall
    apply sublist_filterMap
    intro e t ht
    split at ht
    · exact ht
    · exact absurd ht (Option.some_ne_none t).symm
  case from_start => exact fun e he s hs => (sub_zero (0 : ℤ)).le.trans (htimes e he s hs).1
  case to_end => exact fun e he s hs => (htimes e he s hs).2
  case turns =>
    intro t h₀ hT
    rcases le_or_gt t (100 * second) with h | h
    · exact ⟨100 * second, List.mem_cons_self, h, by linarith⟩
    · exact ⟨200 * second, List.mem_of_getElem? (i := 2) rfl, by linarith, by linarith⟩
  case delivered =>
    intro early now n hp hn hend p hsent _
    rcases timelyBeats_cases hp with ⟨rfl, he⟩ | ⟨rfl, he⟩ | ⟨rfl, he⟩ | ⟨rfl, he⟩ | ⟨rfl, he⟩
    · obtain rfl := NodeEvent.tick.inj (Prod.mk.inj he).2
      obtain rfl := pair_sends (Or.inl rfl) hn hsent
      exact hreceived _ (101 * second) (by linarith) (by linarith) (List.mem_cons_of_mem _ List.mem_cons_self)
    · exact absurd (Prod.mk.inj he).2 NodeEvent.noConfusion
    · obtain rfl := NodeEvent.tick.inj (Prod.mk.inj he).2
      obtain rfl := pair_sends (Or.inr rfl) hn hsent
      exact hreceived _ (201 * second) (by linarith) (by linarith) (List.mem_of_getElem? (i := 3) rfl)
    · exact absurd (Prod.mk.inj he).2 NodeEvent.noConfusion
    · exact absurd (Prod.mk.inj he).1 (by decide)

omit [Unicode] in
/-- At the end `10.0.0.1` follows `10.0.0.2`, and each owns its half of the letters. -/
theorem cluster_stable_pair : (run (@Cluster.step Unicode.ascii) bootedPair timelyBeats).Partitioned ∧
    ((run (@Cluster.step Unicode.ascii) bootedPair timelyBeats "10.0.0.1".toList).map fun n =>
      (n.states.leaderIp, n.raft.leader)) = some ("10.0.0.2".toList, false) := by
  have haddresses : States.addresses [some "10.0.0.1".toList, some "10.0.0.2".toList] =
      ["10.0.0.1".toList, "10.0.0.2".toList] := by decide
  have hhighest : ∀ a : Address, a.ip ∈ States.addresses [some "10.0.0.1".toList, some "10.0.0.2".toList] →
      a ≤ ⟨"10.0.0.2".toList, by decide⟩ := by
    intro a ha
    rw [haddresses, List.mem_cons, List.mem_singleton] at ha
    rcases ha with h | h
    · obtain rfl : a = ⟨"10.0.0.1".toList, by decide⟩ := Address.ext h
      exact Address.le_iff.mpr (by decide)
    · exact le_of_eq (Address.ext h)
  have hhandled : ∀ e ∈ timelyBeats, e.2.Handled := by
    intro e he
    simp only [timelyBeats, List.mem_cons, List.not_mem_nil, or_false] at he
    rcases he with rfl | rfl | rfl | rfl | rfl <;> trivial
  obtain ⟨-, hpartitioned, hfollows⟩ := @cluster_stable Unicode.ascii timelyBeats ⟨"10.0.0.2".toList, by decide⟩
    (100 * second) (10 * second) 0 0 (215 * second) [some "10.0.0.1".toList, some "10.0.0.2".toList]
    (fun _ => { file := fun _ => none, denied := fun _ => false }) (fun _ => []) (fun _ => 0) (by decide) (by decide)
    (by decide) hhighest (by decide) (by decide) (by decide) (le_refl 0) (fun _ _ => by decide) (by decide) hhandled
    timelyBeats_authentic timelyBeats_timely
  refine ⟨(hpartitioned timelyBeats (List.prefix_refl _)).1, ?_⟩
  obtain ⟨n, hn⟩ := Option.isSome_iff_exists.mp (show
    (run (@Cluster.step Unicode.ascii) bootedPair timelyBeats "10.0.0.1".toList).isSome by decide)
  obtain ⟨hleader, hleads⟩ := hfollows timelyBeats (List.prefix_refl _) _ n hn ⟨215 * second, by decide, by decide⟩
  have hfollower : n.raft.leader = false := Bool.eq_false_iff.mpr fun h => absurd (hleads.mp h) (by decide)
  rw [hn, Option.map_some, hleader, hfollower]

end DsDns
