/-
  Reads climb the order of the addresses.

  A node that follows names a greater address than its own (`exists_names_step`: a heartbeat is only
  followed upwards, and a timeout makes the node name itself). A follower sends a read to that address,
  and no event in between lowers an address, so the nodes a read visits form a strictly increasing
  chain: `climbing_step` is the invariant, `read_forwarding_ends` what it gives. The same order is the
  measure by which `resolve` never runs out of fuel (`resolve_isSome`).
-/
import DsDns.Cluster.Reads
import DsDns.Cluster.Equiv.Election
import Mathlib.Data.Finset.Card

namespace DsDns

/-! ### The order of the addresses -/

theorem outranks_trans {a b c : Str} (h1 : outranks a b = true) (h2 : outranks b c = true) :
    outranks a c = true := by
  obtain ⟨x, y, hx, hy, hxy⟩ := Node.outranks_iff.mp h1
  obtain ⟨y', z, hy', hz, hyz⟩ := Node.outranks_iff.mp h2
  obtain rfl : y = y' := Option.some.inj (hy.symm.trans hy')
  exact Node.outranks_iff.mpr ⟨x, z, hx, hz, by omega⟩

theorem outranks_irrefl (a : Str) : ¬ outranks a a = true := by
  intro h
  obtain ⟨x, y, hx, hy, hlt⟩ := Node.outranks_iff.mp h
  obtain rfl : x = y := Option.some.inj (hx.symm.trans hy)
  omega

/-- A follower names a greater address than its own. -/
theorem Names.outranks_of_follower {n : Node} {own top : Address} (h : Names n own top)
    (hfollow : n.raft.leader = false) : outranks n.states.leaderIp n.states.selfIp = true := by
  rw [h.leaderIp, h.selfIp, outranks_address]
  apply lt_of_le_of_ne h.le
  intro he
  rw [h.leader.mpr he.symm] at hfollow
  exact absurd hfollow (by decide)

theorem Names.of_writeFrame {n m : Node} {own top : Address} (h : Names n own top)
    (hm : Node.WriteFrame n m) : Names m own top :=
  ⟨by rw [hm.states]; exact h.selfIp, by rw [hm.states]; exact h.leaderIp,
    by rw [hm.raft]; exact h.leader, h.le⟩

variable [Unicode]

/-- Every event, a leader timeout included, leaves the node with a leader of at least its own
address, and with a greater one while it follows. -/
theorem exists_names_step {n : Node} {own top : Address} (h : Names n own top) (e : NodeEvent) :
    ∃ top', Names (n.step e) own top' := by
  by_cases hquiet : e.Quiet n
  · exact ⟨_, names_step h hquiet⟩
  · unfold NodeEvent.Quiet at hquiet
    push Not at hquiet
    obtain ⟨now, rfl, hout⟩ := hquiet
    have hleads := n.step_leads (.tick now)
    rw [NodeEvent.leads, if_pos hout, Option.getD_some, Prod.mk.injEq] at hleads
    exact ⟨own, (n.step_selfIp _).trans h.selfIp, hleads.2.trans h.selfIp, by simp [hleads.1], le_rfl⟩

theorem names_newRecord {n : Node} {own top : Address} (h : Names n own top)
    (gethostbyname : Str → Option Str) (domain : Str) :
    Names (n.newRecord gethostbyname domain).1 own top := by
  cases hg : gethostbyname domain with
  | none =>
    have hsame : (n.newRecord gethostbyname domain).1 = n := by
      unfold Node.newRecord
      rw [hg]
    rw [hsame]
    exact h
  | some ip =>
    have hrun : n.newRecord gethostbyname domain = n.newRecord (fun _ => some ip) domain := by
      unfold Node.newRecord
      rw [hg]
    rw [hrun]
    exact h.of_writeFrame (n.writeFrame_newRecord domain ip)

/-! ### One line at one node -/

namespace Node

/-- **A `PEER:` request is answered on the spot.** -/
theorem onRead_peer (n : Node) {text : Str} (h : startsWith (strip text) "PEER:".toList = true) :
    n.onRead text = .reply (n.localLookup ((strip text).drop 5)) := by
  unfold onRead
  have hne : strip text ≠ [] := by
    intro he
    rw [he] at h
    exact absurd h (by decide)
  simp only [if_neg hne, if_pos h]

theorem onRead_ask {n : Node} {text d : Str} {ps : List Str} (h : n.onRead text = .ask d ps) :
    n.raft.leader = true ∧ ps = n.peers := by
  unfold onRead at h
  simp only at h
  repeat' split at h
  all_goals cases h
  exact ⟨‹_›, rfl⟩

theorem onRead_forward {n : Node} {text d l : Str} (h : n.onRead text = .forward d l) :
    n.raft.leader = false ∧ l = n.states.leaderIp := by
  unfold onRead at h
  simp only at h
  repeat' split at h
  all_goals cases h
  exact ⟨Bool.eq_false_iff.mpr ‹¬ n.raft.leader = true›, rfl⟩

/-- What a peer answers to `sendRead`, as a line of its own. -/
theorem handlePeer_onRead (n : Node) (domain : Str) :
    ∃ answer, n.onRead ("PEER:".toList ++ domain ++ ['\n']) = .reply answer ∧
      n.handlePeer ("PEER:".toList ++ domain ++ ['\n']) = answer ++ ['\n'] := by
  have hpeer : startsWith (strip ("PEER:".toList ++ domain ++ ['\n'])) "PEER:".toList = true := by
    rw [strip_append_newline]
    show startsWith (strip ('P' :: ("EER".toList ++ ':' :: domain))) _ = true
    rw [strip_cons_of_not_space (by decide), rstrip_append_cons (by decide)]
    rfl
  exact ⟨_, n.onRead_peer hpeer, rfl⟩

end Node

/-- `resolve` at a node does what `onRead` says the node does with the line. -/
theorem resolve_onRead (gethostbyname : Str → Option Str) (fuel : ℕ) {cl : Cluster} {ip d : Str}
    {n : Node} (hn : cl ip = some n) (hd : IsQuery d) :
    resolve gethostbyname (fuel + 1) cl ip d =
      match n.onRead d with
      | .reply answer => some (answer, cl)
      | .ask domain peers =>
        if Node.sendReadTo cl domain peers ≠ notAvailable then
          some (Node.sendReadTo cl domain peers, cl)
        else some ((n.newRecord gethostbyname domain).2,
          cl.set ip (n.newRecord gethostbyname domain).1)
      | .forward domain leaderIp =>
        match cl leaderIp with
        | none => some (notAvailable, cl)
        | some leader =>
          (handleRead (resolve gethostbyname fuel cl leaderIp) cl leader (domain ++ ['\n'])).map
            fun r => (if strip (firstLine r.1) = [] then notAvailable else strip (firstLine r.1), r.2)
    := by
  unfold Node.onRead
  simp only [resolve, hn, hd.trimmed, hd.ne_nil, hd.not_peer, if_false, Bool.false_eq_true]
  by_cases hlocal : n.localLookup d ≠ notAvailable
  · rw [if_pos hlocal, if_pos hlocal]
  · rw [if_neg hlocal, if_neg hlocal]
    cases hl : n.raft.leader with
    | true =>
      have hread : n.sendRead cl d = Node.sendReadTo cl d n.peers := if_pos hl
      simp only [if_true, hread]
    | false => rfl

/-! ### The way of a read -/

omit [Unicode] in
/-- Every node names an address of at least its own, and a greater one while it follows. -/
def Cluster.Named (cl : Cluster) : Prop :=
  ∀ ip n, cl ip = some n → ∃ own top : Address, own.ip = ip ∧ Names n own top

theorem named_step {cl : Cluster} (h : cl.Named) (e : Str × NodeEvent) : (cl.step e).Named := by
  obtain ⟨x, e⟩ := e
  intro ip m hm
  obtain ⟨n, hn, rfl | rfl⟩ := Cluster.exists_of_step hm
  · obtain ⟨own, top, hown, hnames⟩ := h ip n hn
    obtain ⟨top', hstep⟩ := exists_names_step hnames e
    exact ⟨own, top', hown, hstep⟩
  · exact h ip m hn

variable (gethostbyname : Str → Option Str)

omit [Unicode] in
/-- The nodes a read has visited are nodes of the cluster `cl` and climb, and the address it is sent
to is above all of them. -/
structure Climbing (cl : Cluster) (w : ReadWorld) : Prop where
  named : w.cluster.Named
  live : ∀ ip, (w.cluster ip).isSome = (cl ip).isSome
  visited : ∀ ip ∈ w.visited, (cl ip).isSome
  increasing : w.visited.Pairwise fun a b => outranks b a = true
  ahead : ∀ ip text, w.phase = .arriving ip text → ∀ v ∈ w.visited, outranks ip v = true

/-- A line arrives: the node joins the chain, and a forward goes above it. -/
theorem climbing_arrive {cl : Cluster} {w : ReadWorld} (h : Climbing cl w) {ip text : Str}
    (hphase : w.phase = .arriving ip text) : Climbing cl (w.arrive ip text) := by
  unfold ReadWorld.arrive
  cases hn : w.cluster ip with
  | none => exact ⟨h.named, h.live, h.visited, h.increasing, fun _ _ he => absurd he (by simp)⟩
  | some n =>
    have habove := h.ahead ip text hphase
    refine ⟨h.named, h.live, fun x hx => ?_, ?_, fun l t hl => ?_⟩
    · rcases List.mem_append.mp hx with hx | hx
      · exact h.visited x hx
      · rw [List.mem_singleton.mp hx, ← h.live ip, hn]
        rfl
    · refine List.pairwise_append.mpr ⟨h.increasing, List.pairwise_singleton _ _, fun v hv x hx => ?_⟩
      rw [List.mem_singleton.mp hx]
      exact habove v hv
    · -- A forward: the node follows, so its leader is above it and above all before it.
      cases hact : n.onRead text with
      | reply answer => simp [hact] at hl
      | ask domain peers => simp [hact] at hl
      | forward domain leaderIp =>
        simp only [hact, ReadPhase.arriving.injEq] at hl
        obtain ⟨hfollow, hleader⟩ := Node.onRead_forward hact
        obtain ⟨own, top, rfl, hnames⟩ := h.named ip n hn
        have hup : outranks l own.ip = true := by
          have hgreater := hnames.outranks_of_follower hfollow
          rw [hnames.selfIp, ← hleader, hl.1] at hgreater
          exact hgreater
        intro v hv
        rcases List.mem_append.mp hv with hv | hv
        · exact outranks_trans hup (habove v hv)
        · rw [List.mem_singleton.mp hv]
          exact hup

/-- A peer is asked: the chain stays. -/
theorem climbing_ask {cl : Cluster} {w : ReadWorld} (h : Climbing cl w) (ip domain peer : Str)
    (peers : List Str) : Climbing cl (w.ask ip domain peer peers) := by
  refine ⟨h.named, h.live, h.visited, h.increasing, fun l t hl => ?_⟩
  unfold ReadWorld.ask at hl
  simp only at hl
  repeat' split at hl
  all_goals exact absurd hl (by simp)

omit [Unicode] in
/-- A peer is asked in vain. -/
theorem climbing_miss {cl : Cluster} {w : ReadWorld} (h : Climbing cl w) (ip domain peer : Str)
    (peers : List Str) : Climbing cl (w.miss ip domain peer peers) :=
  ⟨h.named, h.live, h.visited, h.increasing, fun _ _ hl => ReadPhase.noConfusion hl⟩

/-- The leader resolves the domain: no leadership changes. -/
theorem climbing_giveUp {cl : Cluster} {w : ReadWorld} (h : Climbing cl w) (ip domain : Str) :
    Climbing cl (w.giveUp gethostbyname ip domain) := by
  unfold ReadWorld.giveUp
  cases hn : w.cluster ip with
  | none => exact ⟨h.named, h.live, h.visited, h.increasing, fun _ _ he => absurd he (by simp)⟩
  | some n =>
    refine ⟨fun x m hm => ?_, fun x => ?_, h.visited, h.increasing, fun _ _ he => absurd he (by simp)⟩
    · by_cases hx : x = ip
      · subst hx
        obtain rfl : (n.newRecord gethostbyname domain).1 = m := Option.some.inj ((if_pos rfl).symm.trans hm)
        obtain ⟨own, top, hown, hnames⟩ := h.named x n hn
        exact ⟨own, top, hown, names_newRecord hnames gethostbyname domain⟩
      · exact h.named x m ((if_neg hx).symm.trans hm)
    · rw [← h.live x]
      show (if x = ip then _ else w.cluster x).isSome = _
      split
      · rename_i hx
        rw [hx, hn]
        rfl
      · rfl

/-- A step in which a peer is late is a step like the others, or a lookup. -/
theorem step_late (w : ReadWorld) : w.step gethostbyname .late = w.step gethostbyname .go ∨
    ∃ ip domain peer peers, w.phase = .asking ip domain (peer :: peers) ∧
      w.step gethostbyname .late = w.miss ip domain peer peers := by
  unfold ReadWorld.step
  rcases w.phase with ⟨ip, text⟩ | ⟨ip, domain, _ | ⟨peer, peers⟩⟩ | answer
  · exact Or.inl rfl
  · exact Or.inl rfl
  · exact Or.inr ⟨ip, domain, peer, peers, rfl, rfl⟩
  · exact Or.inl rfl

theorem climbing_go {cl : Cluster} {w : ReadWorld} (h : Climbing cl w) :
    Climbing cl (w.step gethostbyname .go) := by
  unfold ReadWorld.step
  cases hphase : w.phase with
  | arriving ip text => exact climbing_arrive h hphase
  | asking ip domain peers =>
    cases peers with
    | nil => exact climbing_giveUp gethostbyname h ip domain
    | cons peer peers => exact climbing_ask h ip domain peer peers
  | answered answer => exact h

/-- **The chain of visited nodes keeps climbing.** -/
theorem climbing_step {cl : Cluster} {w : ReadWorld} (h : Climbing cl w) (e : ReadEvent) :
    Climbing cl (w.step gethostbyname e) := by
  cases e with
  | node ip e =>
    refine ⟨named_step h.named (ip, e), fun x => ?_, h.visited, h.increasing, h.ahead⟩
    rw [← h.live x]
    exact Cluster.isSome_run w.cluster [(ip, e)] x
  | go => exact climbing_go gethostbyname h
  | late =>
    rcases step_late gethostbyname w with hgo | ⟨ip, domain, peer, peers, -, hmiss⟩
    · rw [hgo]
      exact climbing_go gethostbyname h
    · rw [hmiss]
      exact climbing_miss h ip domain peer peers

theorem climbing_run {cl : Cluster} {w : ReadWorld} (h : Climbing cl w) (es : List ReadEvent) :
    Climbing cl (run (ReadWorld.step gethostbyname) w es) :=
  run_invariant h fun _ e hw => climbing_step gethostbyname hw e

/-! ### The fan-out and the length of the way -/

/-- In an earlier state of the run the last node visited led, and the peers asked since, with those
that are left, are those of its map. -/
def AskedFrom (start : ReadWorld) (es : List ReadEvent) (w : ReadWorld) (ip : Str)
    (rest : List Str) : Prop :=
  w.visited.getLast? = some ip ∧ ∃ early n, early <+: es ∧
    (run (ReadWorld.step gethostbyname) start early).cluster ip = some n ∧ n.raft.leader = true ∧
    w.lookups ++ rest = n.peers

/-- What the read has asked for, phase by phase. -/
def Asked (start : ReadWorld) (es : List ReadEvent) (w : ReadWorld) : Prop :=
  match w.phase with
  | .arriving _ _ => w.lookups = []
  | .asking ip _ peers => AskedFrom gethostbyname start es w ip peers
  | .answered _ => w.lookups = [] ∨ ∃ ip rest, AskedFrom gethostbyname start es w ip rest

theorem AskedFrom.concat {start w : ReadWorld} {es : List ReadEvent} {ip : Str} {rest : List Str}
    (h : AskedFrom gethostbyname start es w ip rest) (e : ReadEvent) :
    AskedFrom gethostbyname start (es ++ [e]) w ip rest := by
  obtain ⟨hlast, early, n, hp, hrun, hlead, hpeers⟩ := h
  exact ⟨hlast, early, n, hp.trans (List.prefix_append es [e]), hrun, hlead, hpeers⟩

theorem Asked.concat {start w : ReadWorld} {es : List ReadEvent} (h : Asked gethostbyname start es w)
    (e : ReadEvent) : Asked gethostbyname start (es ++ [e]) w := by
  revert h
  unfold Asked
  cases w.phase with
  | arriving ip text => exact id
  | asking ip domain peers => exact fun h => AskedFrom.concat gethostbyname h e
  | answered answer =>
    rintro (hnone | ⟨ip, rest, h⟩)
    · exact Or.inl hnone
    · exact Or.inr ⟨ip, rest, h.concat gethostbyname e⟩

/-- A line that arrives at a leader starts the fan-out over its map. -/
theorem asked_arrive {start w : ReadWorld} {es : List ReadEvent}
    (hw : run (ReadWorld.step gethostbyname) start es = w) (hnone : w.lookups = []) (ip text : Str)
    (e : ReadEvent) : Asked gethostbyname start (es ++ [e]) (w.arrive ip text) := by
  unfold ReadWorld.arrive Asked
  cases hn : w.cluster ip with
  | none => exact Or.inl hnone
  | some n =>
    cases hact : n.onRead text with
    | reply answer => simp only [hact, hnone, true_or]
    | forward domain leaderIp => simp only [hact, hnone]
    | ask domain peers =>
      simp only [hact]
      obtain ⟨hlead, hpeers⟩ := Node.onRead_ask hact
      -- The state before this step is the one in which the node leads.
      refine ⟨List.getLast?_concat, es, n, List.prefix_append es [e], ?_, hlead, ?_⟩
      · rw [hw]
        exact hn
      · rw [hnone, ← hpeers]
        rfl

/-- One peer is moved from those left to those asked. -/
theorem asked_miss {start w : ReadWorld} {es : List ReadEvent} {ip peer : Str} {peers : List Str}
    (h : AskedFrom gethostbyname start es w ip (peer :: peers)) (domain : Str) (e : ReadEvent) :
    AskedFrom gethostbyname start (es ++ [e]) (w.miss ip domain peer peers) ip peers := by
  obtain ⟨hlast, early, n, hp, hrun, hlead, hall⟩ := h.concat gethostbyname e
  refine ⟨hlast, early, n, hp, hrun, hlead, ?_⟩
  show w.lookups ++ [peer] ++ peers = n.peers
  rw [List.append_assoc]
  exact hall

/-- The same if it answers. -/
theorem asked_ask {start w : ReadWorld} {es : List ReadEvent} {ip peer : Str} {peers : List Str}
    (h : AskedFrom gethostbyname start es w ip (peer :: peers)) (domain : Str) (e : ReadEvent) :
    Asked gethostbyname start (es ++ [e]) (w.ask ip domain peer peers) := by
  obtain ⟨hlast, early, n, hp, hrun, hlead, hmoved⟩ := asked_miss gethostbyname h domain e
  unfold ReadWorld.ask Asked
  simp only
  cases Node.askPeer w.cluster domain peer with
  | none => exact ⟨hlast, early, n, hp, hrun, hlead, hmoved⟩
  | some response =>
    by_cases hr : response ≠ [] ∧ response ≠ notAvailable
    · simp only [if_pos hr]
      exact Or.inr ⟨ip, peers, hlast, early, n, hp, hrun, hlead, hmoved⟩
    · simp only [if_neg hr]
      exact ⟨hlast, early, n, hp, hrun, hlead, hmoved⟩

/-- The leader's own resolution asks nobody. -/
theorem asked_giveUp {start w : ReadWorld} {es : List ReadEvent} {ip : Str}
    (h : AskedFrom gethostbyname start es w ip []) (domain : Str) (e : ReadEvent) :
    Asked gethostbyname start (es ++ [e]) (w.giveUp gethostbyname ip domain) := by
  have hlater := h.concat gethostbyname e
  unfold ReadWorld.giveUp
  cases w.cluster ip with
  | none => exact Or.inr ⟨ip, [], hlater⟩
  | some m => exact Or.inr ⟨ip, [], hlater⟩

theorem asked_go {start w : ReadWorld} {es : List ReadEvent} (h : Asked gethostbyname start es w)
    (hw : run (ReadWorld.step gethostbyname) start es = w) (e : ReadEvent) :
    Asked gethostbyname start (es ++ [e]) (w.step gethostbyname .go) := by
  have hlater := h.concat gethostbyname e
  unfold ReadWorld.step
  unfold Asked at h
  cases hphase : w.phase with
  | arriving ip text =>
    rw [hphase] at h
    exact asked_arrive gethostbyname hw h ip text e
  | asking ip domain peers =>
    rw [hphase] at h
    cases peers with
    | nil => exact asked_giveUp gethostbyname h domain e
    | cons peer peers => exact asked_ask gethostbyname h domain e
  | answered answer => exact hlater

/-- **What a read asks for comes from the map of the leader it ends at.** -/
theorem asked_run {start : ReadWorld} (hstart : Asked gethostbyname start [] start)
    (es : List ReadEvent) :
    Asked gethostbyname start es (run (ReadWorld.step gethostbyname) start es) := by
  induction es using List.reverseRecOn with
  | nil => exact hstart
  | append_singleton es e ih =>
    rw [run_concat]
    generalize hw : run (ReadWorld.step gethostbyname) start es = w at ih ⊢
    cases e with
    | node ip e => exact ih.concat gethostbyname (.node ip e)
    | go => exact asked_go gethostbyname ih hw .go
    | late =>
      rcases step_late gethostbyname w with hgo | ⟨ip, domain, peer, peers, hphase, hmiss⟩
      · rw [hgo]
        exact asked_go gethostbyname ih hw .late
      · rw [hmiss]
        unfold Asked at ih
        rw [hphase] at ih
        exact asked_miss gethostbyname ih domain .late

/-- A step that leaves a read without an answer is a visit or a lookup. -/
theorem goes_step {v : ReadWorld}
    (hopen : ∀ answer, (v.step gethostbyname .go).phase ≠ .answered answer) :
    (∀ answer, v.phase ≠ .answered answer) ∧
      (v.step gethostbyname .go).visited.length + (v.step gethostbyname .go).lookups.length =
        v.visited.length + v.lookups.length + 1 := by
  unfold ReadWorld.step at hopen ⊢
  cases hphase : v.phase with
  | answered answer =>
    simp only [hphase] at hopen
    exact absurd rfl (hopen answer)
  | arriving ip text =>
    simp only [hphase] at hopen ⊢
    refine ⟨by simp, ?_⟩
    unfold ReadWorld.arrive at hopen ⊢
    cases hn : v.cluster ip with
    | none =>
      simp only [hn] at hopen
      exact absurd rfl (hopen notAvailable)
    | some n =>
      show (v.visited ++ [ip]).length + v.lookups.length = _
      rw [List.length_append, List.length_singleton]
      omega
  | asking ip domain peers =>
    cases peers with
    | nil =>
      -- The last step of the leader answers.
      simp only [hphase] at hopen
      unfold ReadWorld.giveUp at hopen
      split at hopen
      · exact absurd rfl (hopen notAvailable)
      · exact absurd rfl (hopen _)
    | cons peer peers =>
      refine ⟨by simp, ?_⟩
      show v.visited.length + (v.lookups ++ [peer]).length = _
      rw [List.length_append, List.length_singleton]
      omega

/-- While a read has no answer, each of its steps was a visit or a lookup. -/
theorem goes_run {start : ReadWorld} (hvisited : start.visited = []) (hlookups : start.lookups = [])
    (es : List ReadEvent) :
    let w := run (ReadWorld.step gethostbyname) start es
    (∀ answer, w.phase ≠ .answered answer) →
      es.countP ReadEvent.isGo = w.visited.length + w.lookups.length := by
  induction es using List.reverseRecOn with
  | nil =>
    intro w _
    show 0 = start.visited.length + start.lookups.length
    rw [hvisited, hlookups]
    rfl
  | append_singleton es e ih =>
    intro w hopen
    have hw : w = (run (ReadWorld.step gethostbyname) start es).step gethostbyname e := run_concat e
    rw [List.countP_append, List.countP_singleton]
    generalize run (ReadWorld.step gethostbyname) start es = v at ih hw
    rw [hw] at hopen ⊢
    cases e with
    | node ip e => exact ih hopen
    | go =>
      obtain ⟨hbefore, hone⟩ := goes_step gethostbyname hopen
      rw [hone, ← ih hbefore]
      rfl
    | late =>
      rcases step_late gethostbyname v with hgo | ⟨ip, domain, peer, peers, hphase, hmiss⟩
      · rw [hgo] at hopen ⊢
        obtain ⟨hbefore, hone⟩ := goes_step gethostbyname hopen
        rw [hone, ← ih hbefore]
        rfl
      · have hbefore : ∀ answer, v.phase ≠ .answered answer := by simp [hphase]
        rw [hmiss, ih hbefore]
        show _ = v.visited.length + (v.lookups ++ [peer]).length
        rw [List.length_append, List.length_singleton]
        rfl

/-- What is asked in one fan-out are entries of the map of the leader, each once. -/
theorem AskedFrom.bounds {start w : ReadWorld} {es : List ReadEvent} {ip : Str} {rest : List Str}
    (h : AskedFrom gethostbyname start es w ip rest) :
    ∃ ip n early, w.visited.getLast? = some ip ∧ early <+: es ∧
      (run (ReadWorld.step gethostbyname) start early).cluster ip = some n ∧
      n.raft.leader = true ∧ w.lookups <+: n.peers ∧ w.lookups.Nodup ∧
      w.lookups.length ≤ n.states.nodes.length := by
  obtain ⟨hlast, early, n, hp, hrun, hlead, hall⟩ := h
  have hasked : w.lookups <+: n.peers := ⟨rest, hall⟩
  have hpeers : n.peers.Sublist n.states.nodes.keys := List.filter_sublist
  have hsub : w.lookups.Sublist n.states.nodes.keys := hasked.sublist.trans hpeers
  exact ⟨ip, n, early, hlast, hp, hrun, hlead, hasked, n.states.nodes.keys_nodup.sublist hsub,
    hsub.length_le.trans n.states.nodes.length_keys.le⟩

omit [Unicode] in
/-- A read of a freshly started cluster has climbed nowhere yet. -/
theorem climbing_start {cl : Cluster} (hfresh : cl.Fresh) (ip text : Str) :
    Climbing cl (ReadWorld.start cl ip text) := by
  refine ⟨fun ip n hn => ?_, fun _ => rfl, by simp [ReadWorld.start], List.Pairwise.nil,
    fun _ _ _ v hv => absurd hv (by simp [ReadWorld.start])⟩
  have hvalid := hfresh.valid ip n hn
  exact ⟨⟨ip, hvalid⟩, ⟨ip, hvalid⟩, rfl, hfresh.selfIp ip n hn, hfresh.leaderIp ip n hn,
    by simp [hfresh.leader ip n hn], le_rfl⟩

/-- **Read forwarding never loops.** In every run of a cluster of freshly started nodes in which a
read is on its way, whatever happens at the nodes between its steps:
* a node that does not lead names a greater address than its own;
* the nodes the read visits have strictly increasing addresses, so none comes twice and `n` live nodes
  see at most `n - 1` forwards between them;
* the peers asked are entries of the map of the leader it ends at, each at most once;
* a `PEER:` request is answered by the node itself;
* until it is answered, every step of the read is a visit or a lookup, so it ends. -/
theorem read_forwarding_ends {cl : Cluster} (hfresh : cl.Fresh) (ip₀ text₀ : Str)
    (es : List ReadEvent) :
    let start := ReadWorld.start cl ip₀ text₀
    let w := run (ReadWorld.step gethostbyname) start es
    (∀ ip n, w.cluster ip = some n → n.raft.leader = false →
      outranks n.states.leaderIp n.states.selfIp = true) ∧
    (w.visited.Pairwise (fun a b => outranks b a = true) ∧ w.visited.Nodup ∧
      ∀ live : Finset Str, (∀ ip, ip ∈ live ↔ (w.cluster ip).isSome) →
        w.visited.length ≤ live.card ∧ w.forwards ≤ live.card - 1) ∧
    (w.lookups = [] ∨ ∃ ip n early, w.visited.getLast? = some ip ∧ early <+: es ∧
      (run (ReadWorld.step gethostbyname) start early).cluster ip = some n ∧
      n.raft.leader = true ∧ w.lookups <+: n.peers ∧ w.lookups.Nodup ∧
      w.lookups.length ≤ n.states.nodes.length) ∧
    (∀ (n : Node) (text : Str), startsWith (strip text) "PEER:".toList = true →
      ∃ answer, n.onRead text = .reply answer) ∧
    ((∀ answer, w.phase ≠ .answered answer) →
      es.countP ReadEvent.isGo = w.visited.length + w.lookups.length) := by
  intro start w
  have hstart : Climbing cl start := climbing_start hfresh ip₀ text₀
  have hw : Climbing cl w := climbing_run gethostbyname hstart es
  have hnodup : w.visited.Nodup := by
    refine List.Pairwise.imp ?_ hw.increasing
    rintro a b h rfl
    exact outranks_irrefl a h
  refine ⟨fun ip n hn hfollow => ?_, ⟨hw.increasing, hnodup, fun live hlive => ?_⟩, ?_,
    fun n text h => ⟨_, n.onRead_peer h⟩, goes_run gethostbyname rfl rfl es⟩
  · obtain ⟨own, top, -, hnames⟩ := hw.named ip n hn
    exact hnames.outranks_of_follower hfollow
  · have hle : w.visited.length ≤ live.card := by
      rw [← List.toFinset_card_of_nodup hnodup]
      apply Finset.card_le_card
      intro x hx
      rw [hlive, hw.live]
      exact hw.visited x (List.mem_toFinset.mp hx)
    exact ⟨hle, Nat.sub_le_sub_right hle 1⟩
  · have hasked₀ : Asked gethostbyname start [] start := rfl
    have hasked : Asked gethostbyname start es w := asked_run gethostbyname hasked₀ es
    unfold Asked at hasked
    split at hasked
    · exact Or.inl hasked
    · exact Or.inr (hasked.bounds gethostbyname)
    · exact hasked.imp_right fun ⟨_, _, h⟩ => h.bounds gethostbyname

omit [Unicode] in
/-- `10.0.0.1` hears of `10.0.0.2`, then a read of `b.com` reaches it and is forwarded. -/
def pairRead : List ReadEvent :=
  [.node "10.0.0.1".toList (.beat ⟨"10.0.0.2;1;2".toList, pairHead_plain⟩ 0), .go, .go, .go]

omit [Unicode] in
/-- The read visits the two nodes of the pair in the order of their addresses, and asks one peer. -/
theorem read_forwarding_ends_pair :
    let w := run (@ReadWorld.step Unicode.ascii fun _ => none)
      (.start startedPair "10.0.0.1".toList "b.com\n".toList) pairRead
    w.visited = ["10.0.0.1".toList, "10.0.0.2".toList] ∧
    w.lookups = ["10.0.0.1".toList] ∧
    w.visited.Pairwise (fun a b => outranks b a = true) ∧ w.visited.Nodup := by
  intro w
  have hends := @read_forwarding_ends Unicode.ascii (fun _ => none) startedPair startedPair_fresh
    "10.0.0.1".toList "b.com\n".toList pairRead
  exact ⟨by decide, by decide, hends.2.1.1, hends.2.1.2.1⟩

/-! ### A read in one go -/

/-- **`resolve` does not run out of fuel**: it climbs too, so as much fuel as there are nodes above
the one that is asked, and one more, is enough. -/
theorem resolve_isSome {cl : Cluster} (h : cl.Named) {live : Finset Str}
    (hlive : ∀ ip, (cl ip).isSome → ip ∈ live) (fuel : ℕ) : ∀ ip d,
    (live.filter fun x => outranks x ip = true).card < fuel →
      (resolve gethostbyname fuel cl ip d).isSome := by
  induction fuel with
  | zero => exact fun ip d hlt => absurd hlt (Nat.not_lt_zero _)
  | succ fuel ih =>
    intro ip d hlt
    rw [resolve]
    cases hn : cl ip with
    | none => rfl
    | some n =>
      simp only
      split
      · rfl
      split
      · split <;> rfl
      rename_i hfollow
      cases hl : cl n.states.leaderIp with
      | none => rfl
      | some leader =>
        -- One address less lies above the leader.
        obtain ⟨own, top, rfl, hnames⟩ := h ip n hn
        have hup : outranks n.states.leaderIp own.ip = true := by
          have hgreater := hnames.outranks_of_follower (Bool.eq_false_iff.mpr hfollow)
          rwa [hnames.selfIp] at hgreater
        have hfewer : (live.filter fun x => outranks x n.states.leaderIp = true) ⊂
            live.filter fun x => outranks x own.ip = true := by
          rw [Finset.ssubset_iff_of_subset]
          · refine ⟨n.states.leaderIp, Finset.mem_filter.mpr ⟨hlive _ (by rw [hl]; rfl), hup⟩, ?_⟩
            intro hmem
            exact outranks_irrefl _ (Finset.mem_filter.mp hmem).2
          · intro x hx
            obtain ⟨hx, habove⟩ := Finset.mem_filter.mp hx
            exact Finset.mem_filter.mpr ⟨hx, outranks_trans habove hup⟩
        -- So one unit of fuel less is enough there.
        have hcard := Finset.card_lt_card hfewer
        have hanswer : ∀ line, (resolve gethostbyname fuel cl n.states.leaderIp line).isSome :=
          fun line => ih n.states.leaderIp line (by omega)
        simp only [Option.isSome_map]
        unfold handleRead
        simp only
        split
        · rfl
        split
        · rfl
        · rw [Option.isSome_map]
          exact hanswer _

end DsDns
