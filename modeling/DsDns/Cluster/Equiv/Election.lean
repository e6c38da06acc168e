/-
  Leader election is the maximum of what was heard.

  Without leader timeouts a node follows the greatest address among its own and the senders of the
  heartbeats it has handled: one heartbeat takes the maximum with its sender (`names_step`), so a run
  takes the maximum of a set (`exists_isGreatest_run`), and neither order nor repetition matter. What is sent
  is signed by its sender (`Signed`), so where the heartbeats come from the cluster the maximum is over
  its nodes, and the node with the highest address leads once everybody has heard it.
-/
import DsDns.Cluster.Equiv.Life
import DsDns.DataPlane.Equiv.Address
import DsDns.DataPlane.Equiv.Server
import Mathlib.Order.Bounds.Basic

namespace DsDns

variable [Unicode]

/-! ### One node -/

omit [Unicode] in
/-- The node at `own` names `top` as its leader, and leads exactly if that is itself. -/
structure Names (n : Node) (own top : Address) : Prop where
  selfIp : n.states.selfIp = own.ip
  leaderIp : n.states.leaderIp = top.ip
  leader : n.raft.leader = true ↔ top = own
  le : own ≤ top

omit [Unicode] in
/-- It leads exactly if it names itself. -/
theorem Names.leader_iff {n : Node} {own top : Address} (h : Names n own top) :
    n.raft.leader = true ↔ n.states.leaderIp = n.states.selfIp := by
  rw [h.leader, h.leaderIp, h.selfIp]
  exact ⟨fun he => by rw [he], Address.ext⟩

/-- The address a node follows after an event, if it followed `top` before. -/
def NodeEvent.follows (e : NodeEvent) (top : Address) : Address :=
  match e.sender with
  | none => top
  | some a => max top a

omit [Unicode] in
theorem outranks_address (a b : Address) : outranks a.ip b.ip = true ↔ b < a := by
  rw [Node.outranks_iff]
  constructor
  · rintro ⟨ld, my, hld, hmy, hlt⟩
    obtain rfl : a.value = ld := Option.some.inj (a.ipv4_ip.symm.trans hld)
    obtain rfl : b.value = my := Option.some.inj (b.ipv4_ip.symm.trans hmy)
    exact hlt
  · exact fun hlt => ⟨a.value, b.value, a.ipv4_ip, b.ipv4_ip, hlt⟩

/-- Who a heartbeat makes the leader of a node that follows `top`. -/
theorem leads_beat {n : Node} {top : Address} (h : n.states.leaderIp = top.ip) (line : Line)
    (now : Time) : (NodeEvent.beat line now).leads n =
      match beatSender line.val with
      | some a => if top < a then some (false, a.ip) else none
      | none => none := by
  rw [NodeEvent.leads, beatSender, h]
  rcases parseBeat line.val with _ | ⟨l, r, lr⟩
  · rfl
  by_cases hl : (ipv4 l).isSome
  · simp only [dif_pos hl]
    have hiff := outranks_address ⟨l, hl⟩ top
    by_cases hlt : top < ⟨l, hl⟩
    · rw [if_pos hlt, if_pos (hiff.mpr hlt)]
    · rw [if_neg hlt, if_neg fun hgt => hlt (hiff.mp hgt)]
  · -- A sender that is no address outranks nobody.
    simp only [dif_neg hl]
    rw [if_neg]
    intro hgt
    obtain ⟨ld, my, hld, -⟩ := Node.outranks_iff.mp hgt
    rw [hld] at hl
    exact hl rfl

/-- **One event**: a heartbeat takes the maximum with its sender, nothing else moves the leader. -/
theorem names_step {n : Node} {own top : Address} (h : Names n own top) {e : NodeEvent}
    (hok : e.Quiet n) : Names (n.step e) own (e.follows top) := by
  have hself : (n.step e).states.selfIp = own.ip := (n.step_selfIp e).trans h.selfIp
  have hleads := n.step_leads e
  -- An event without a sender does not change the leader.
  have hkept : e.leads n = none → e.follows top = top → Names (n.step e) own (e.follows top) := by
    intro hnone hfollows
    rw [hnone, Option.getD_none, Prod.mk.injEq] at hleads
    rw [hfollows]
    exact ⟨hself, hleads.2.trans h.leaderIp, by rw [hleads.1]; exact h.leader, h.le⟩
  cases e with
  | beat line now =>
    have hbeat := leads_beat h.leaderIp line now
    cases hs : beatSender line.val with
    | none =>
      rw [hs] at hbeat
      apply hkept hbeat
      rw [NodeEvent.follows, NodeEvent.sender, hs]
    | some a =>
      have hfollows : (NodeEvent.beat line now).follows top = max top a := by
        rw [NodeEvent.follows, NodeEvent.sender, hs]
      rw [hs] at hbeat
      by_cases hlt : top < a
      · simp only [if_pos hlt] at hbeat
        rw [hbeat, Option.getD_some, Prod.mk.injEq] at hleads
        rw [hfollows, max_eq_right hlt.le]
        have hne : ¬ a = own := fun he => absurd (h.le.trans_lt hlt) (by rw [he]; exact lt_irrefl own)
        refine ⟨hself, hleads.2, ?_, h.le.trans hlt.le⟩
        rw [hleads.1]
        exact ⟨fun hf => absurd hf (by decide), fun he => absurd he hne⟩
      · simp only [if_neg hlt] at hbeat
        apply hkept hbeat
        rw [hfollows, max_eq_left (not_lt.mp hlt)]
  | tick now => exact hkept (if_neg (hok now rfl)) rfl
  | write line => exact hkept rfl rfl
  | newRecord domain ip => exact hkept rfl rfl
  | addNodes ip => exact hkept rfl rfl
  | removeNode ip => exact hkept rfl rfl
  | updateRank r lr => exact hkept rfl rfl

/-- **A run**: the node names the greatest address of its own and those it has heard. -/
theorem exists_isGreatest_run {n : Node} {own top : Address} (h : Names n own top) {s : Set Address}
    (hs : IsGreatest s top) {es : List NodeEvent}
    (hok : Along (fun n e => e.Quiet n) Node.step n es) :
    ∃ top', IsGreatest (s ∪ {a | ∃ e ∈ es, e.sender = some a}) top' ∧
      Names (run Node.step n es) own top' := by
  induction es generalizing n top s with
  | nil => exact ⟨top, by simpa using hs, h⟩
  | cons e es ih =>
    obtain ⟨he, hrest⟩ := hok
    have hstep := names_step h he
    have hset : IsGreatest (s ∪ {a | e.sender = some a}) (e.follows top) := by
      rw [NodeEvent.follows]
      cases e.sender with
      | none => simpa using hs
      | some a =>
        -- Hearing from `a` adds it to the set, and the greater of the two is named.
        have hinsert : s ∪ {b | some a = some b} = insert a s := by
          ext b
          simp only [Set.mem_union, Set.mem_ofPred_eq, Option.some.injEq, Set.mem_insert_iff]
          rw [or_comm, eq_comm]
        show IsGreatest _ (max top a)
        rw [hinsert, max_comm]
        exact hs.insert a
    obtain ⟨top', htop', hnames⟩ := ih hstep hset hrest
    refine ⟨top', ?_, hnames⟩
    have hsplit : s ∪ {a | ∃ x ∈ e :: es, x.sender = some a} =
        s ∪ {a | e.sender = some a} ∪ {a | ∃ x ∈ es, x.sender = some a} := by
      ext a
      simp [or_assoc]
    rw [hsplit]
    exact htop'

/-! ### What is on the wire -/

omit [Unicode] in
/-- Every node signs its heartbeats with its own address. -/
def Signed (cl : Cluster) : Prop :=
  ∀ ip n, cl ip = some n → (ipv4 ip).isSome ∧ n.states.selfIp = ip ∧
    ∀ p ∈ n.outbox, p.port = 7001 → ∃ r lr, p.text = beatText ip r lr

omit [Unicode] in
theorem signed_fresh {cl : Cluster} (h : cl.Fresh) : Signed cl := by
  intro ip n hn
  refine ⟨h.valid ip n hn, h.selfIp ip n hn, fun p hp => ?_⟩
  rw [h.outbox ip n hn] at hp
  exact absurd hp (by simp)

theorem signed_step {cl : Cluster} (h : Signed cl) (e : Str × NodeEvent) : Signed (cl.step e) := by
  obtain ⟨x, e⟩ := e
  intro ip m hm
  obtain ⟨n, hn, rfl | rfl⟩ := Cluster.exists_of_step hm
  · obtain ⟨hvalid, hself, hsigned⟩ := h ip n hn
    obtain ⟨sent, hout, hsent⟩ := n.step_outbox e
    refine ⟨hvalid, (n.step_selfIp e).trans hself, fun p hp hport => ?_⟩
    rw [hout] at hp
    rcases List.mem_append.mp hp with hp | hp
    · exact hsigned p hp hport
    · rcases hsent p hp with h9000 | ⟨-, hbeat⟩
      · rw [hport] at h9000
        exact absurd h9000 (by decide)
      · rw [← hself]
        exact hbeat
  · exact h ip m hn

theorem signed_run {cl : Cluster} (h : Signed cl) (es : List (Str × NodeEvent)) :
    Signed (run Cluster.step cl es) :=
  run_invariant h fun _ e hs => signed_step hs e

/-- A genuine heartbeat comes from a node of the cluster. -/
theorem isSome_of_genuine {cl : Cluster} (h : Signed cl) {e : Str × NodeEvent} (he : cl.Genuine e)
    {a : Address} (ha : e.2.sender = some a) : (cl a.ip).isSome := by
  obtain ⟨x, e⟩ := e
  cases e with
  | beat line now =>
    have ha : beatSender line.val = some a := ha
    obtain ⟨ip, n, hn, p, hp, -, hport, htext⟩ := he line now rfl (by rw [ha]; rfl)
    obtain ⟨hvalid, -, hsigned⟩ := h ip n hn
    obtain ⟨r, lr, hbeat⟩ := hsigned p hp hport
    have hparse : parseBeat line.val = some (ip, r, lr) := by
      rw [htext, hbeat, beatText_eq, strip_append_newline, strip_beatBody hvalid,
        parseBeat_body hvalid]
    have hsender : beatSender line.val = some ⟨ip, hvalid⟩ := by
      rw [beatSender, hparse]
      exact dif_pos hvalid
    obtain rfl : (⟨ip, hvalid⟩ : Address) = a := Option.some.inj (hsender.symm.trans ha)
    rw [hn]
    rfl
  | tick now => exact absurd ha (by simp [NodeEvent.sender])
  | write line => exact absurd ha (by simp [NodeEvent.sender])
  | newRecord domain ip => exact absurd ha (by simp [NodeEvent.sender])
  | addNodes ip => exact absurd ha (by simp [NodeEvent.sender])
  | removeNode ip => exact absurd ha (by simp [NodeEvent.sender])
  | updateRank r lr => exact absurd ha (by simp [NodeEvent.sender])

/-- Whoever is heard in a run of genuine heartbeats is a node of the cluster. -/
theorem isSome_of_heard {cl : Cluster} (h : Signed cl) {es : List (Str × NodeEvent)}
    (hok : Along Cluster.Genuine Cluster.step cl es) {ip : Str} {a : Address}
    (ha : a ∈ heardAt ip es) : (cl a.ip).isSome := by
  induction es using List.reverseRecOn with
  | nil =>
    obtain ⟨e, he, -⟩ := ha
    exact absurd he (by simp)
  | append_singleton es e ih =>
    obtain ⟨hes, he⟩ := (along_concat e).mp hok
    obtain ⟨e', hmem, hip, hsender⟩ := ha
    rcases List.mem_append.mp hmem with hold | hnew
    · exact ih hes ⟨e', hold, hip, hsender⟩
    · rw [List.mem_singleton.mp hnew] at hsender
      have hlast := isSome_of_genuine (signed_run h es) he hsender
      rwa [Cluster.isSome_run] at hlast

/-! ### The cluster -/

theorem heardAt_eq (ip : Str) (es : List (Str × NodeEvent)) :
    {a | ∃ e ∈ eventsAt ip es, e.sender = some a} = heardAt ip es := by
  apply Set.ext
  intro a
  constructor
  · rintro ⟨e, he, ha⟩
    exact ⟨(ip, e), mem_eventsAt.mp he, rfl, ha⟩
  · rintro ⟨⟨x, e⟩, he, rfl, ha⟩
    exact ⟨e, mem_eventsAt.mpr he, ha⟩

/-- Every node of a run names the greatest address of its own and those it has heard. -/
theorem names_run {cl : Cluster} (h : cl.Fresh) {es : List (Str × NodeEvent)}
    (hok : Along Cluster.NoTimeout Cluster.step cl es) {ip : Str} {m : Node}
    (hm : run Cluster.step cl es ip = some m) : ∃ own top : Address, own.ip = ip ∧
      IsGreatest (insert own (heardAt ip es)) top ∧ Names m own top := by
  obtain ⟨n, hn, rfl⟩ := Cluster.exists_of_run hm
  have hstart : Names n ⟨ip, h.valid ip n hn⟩ ⟨ip, h.valid ip n hn⟩ :=
    ⟨h.selfIp ip n hn, h.leaderIp ip n hn, by simp [h.leader ip n hn], le_rfl⟩
  have hnode := Cluster.along_eventsAt (fun n e => e.Quiet n) hok hn
  obtain ⟨top, htop, hnames⟩ := exists_isGreatest_run hstart isGreatest_singleton hnode
  rw [heardAt_eq, Set.singleton_union] at htop
  exact ⟨_, top, rfl, htop, hnames⟩

/-- What a node has heard in a run of genuine heartbeats, once the highest address is among it:
whatever is heard is a node of the cluster, so nothing is above the highest. -/
theorem isGreatest_highest {cl : Cluster} (h : Signed cl) {es : List (Str × NodeEvent)}
    (hok : Along Cluster.Genuine Cluster.step cl es) {own highest : Address}
    (hmax : ∀ a : Address, (cl a.ip).isSome → a ≤ highest) (hown : (cl own.ip).isSome)
    (hheard : own.ip ≠ highest.ip → highest ∈ heardAt own.ip es) :
    IsGreatest (insert own (heardAt own.ip es)) highest := by
  constructor
  · by_cases he : own = highest
    · exact Or.inl he.symm
    · exact Or.inr (hheard fun heq => he (Address.ext heq))
  · rintro a (rfl | ha)
    · exact hmax a hown
    · exact hmax a (isSome_of_heard h hok ha)

/-- **Leader election is order-independent and agrees.** In every run without leader timeouts from
freshly started nodes, whatever heartbeats, true or malformed, are handled in whatever order:
* every node names the greatest address of its own and those it has heard, and leads exactly if that
  is its own;
* so in any two such runs a node that has heard the same addresses has the same leader;
* where the heartbeats are those the nodes send, once every other node has heard the one with the
  highest address, all name it and it alone leads. -/
theorem leader_is_greatest_heard {cl : Cluster} (hfresh : cl.Fresh) (es : List (Str × NodeEvent))
    (hok : Along Cluster.NoTimeout Cluster.step cl es) :
    (∀ ip n, run Cluster.step cl es ip = some n → n.states.selfIp = ip ∧
      (∃ own top : Address, own.ip = ip ∧ top.ip = n.states.leaderIp ∧
        IsGreatest (insert own (heardAt ip es)) top) ∧
      (n.raft.leader = true ↔ n.states.leaderIp = n.states.selfIp)) ∧
    (∀ cl' : Cluster, cl'.Fresh → ∀ es', Along Cluster.NoTimeout Cluster.step cl' es' →
      ∀ ip n m, run Cluster.step cl es ip = some n → run Cluster.step cl' es' ip = some m →
        heardAt ip es = heardAt ip es' →
          n.raft.leader = m.raft.leader ∧ n.states.leaderIp = m.states.leaderIp) ∧
    (Along Cluster.Genuine Cluster.step cl es → ∀ highest : Address, (cl highest.ip).isSome →
      (∀ a : Address, (cl a.ip).isSome → a ≤ highest) →
      (∀ ip, (cl ip).isSome → ip ≠ highest.ip → highest ∈ heardAt ip es) →
      ∀ ip n, run Cluster.step cl es ip = some n →
        n.states.leaderIp = highest.ip ∧ (n.raft.leader = true ↔ ip = highest.ip)) := by
  refine ⟨fun ip n hn => ?_, fun cl' hfresh' es' hok' ip n m hn hm hheard => ?_,
    fun hgenuine highest _ hmax hall ip n hn => ?_⟩
  · obtain ⟨own, top, rfl, htop, hnames⟩ := names_run hfresh hok hn
    exact ⟨hnames.selfIp, ⟨own, top, rfl, hnames.leaderIp.symm, htop⟩, hnames.leader_iff⟩
  · obtain ⟨own, top, rfl, htop, hnames⟩ := names_run hfresh hok hn
    obtain ⟨own', top', hown, htop', hnames'⟩ := names_run hfresh' hok' hm
    obtain rfl := Address.ext hown
    rw [hheard] at htop
    obtain rfl := htop.unique htop'
    refine ⟨?_, hnames.leaderIp.trans hnames'.leaderIp.symm⟩
    rw [Bool.eq_iff_iff, hnames.leader, hnames'.leader]
  · obtain ⟨own, top, rfl, htop, hnames⟩ := names_run hfresh hok hn
    have hown : (cl own.ip).isSome := by
      rw [← Cluster.isSome_run cl es, hn]
      rfl
    obtain rfl := htop.unique
      (isGreatest_highest (signed_fresh hfresh) hgenuine hmax hown (hall own.ip hown))
    refine ⟨hnames.leaderIp, ?_⟩
    rw [hnames.leader, eq_comm]
    exact ⟨fun he => by rw [he], Address.ext⟩

omit [Unicode] in
/-- Two nodes that have just started. -/
def startedPair : Cluster := fun ip =>
  if ip = "10.0.0.1".toList ∨ ip = "10.0.0.2".toList then some (siteNode ip []) else none

omit [Unicode] in
theorem startedPair_cases {ip : Str} {n : Node} (h : startedPair ip = some n) :
    (ip = "10.0.0.1".toList ∨ ip = "10.0.0.2".toList) ∧ n = siteNode ip [] := by
  unfold startedPair at h
  split at h
  · rename_i hip
    exact ⟨hip, (Option.some.inj h).symm⟩
  · exact absurd h (by simp)

omit [Unicode] in
theorem startedPair_fresh : startedPair.Fresh := by
  refine Cluster.fresh_of_main fun ip n hn => ?_
  obtain ⟨hip, rfl⟩ := startedPair_cases hn
  refine ⟨?_, _, _, _, _, rfl⟩
  rcases hip with rfl | rfl <;> decide

omit [Unicode] in
/-- The head of a heartbeat is one line of text. -/
theorem pairHead_plain : '\n' ∉ "10.0.0.2;1;2".toList ∧ '\r' ∉ "10.0.0.2;1;2".toList := by decide

omit [Unicode] in
/-- `10.0.0.2` sends its heartbeat and `10.0.0.1` handles it. -/
def pairBeat : List (Str × NodeEvent) :=
  [("10.0.0.2".toList, .tick beatInterval),
    ("10.0.0.1".toList, .beat ⟨"10.0.0.2;1;2".toList, pairHead_plain⟩ beatInterval)]

omit [Unicode] in
theorem pairBeat_genuine :
    Along (@Cluster.NoTimeout) (@Cluster.step Unicode.ascii) startedPair pairBeat ∧
    Along (@Cluster.Genuine Unicode.ascii) (@Cluster.step Unicode.ascii) startedPair pairBeat := by
  refine ⟨⟨fun n hn now _ => ?_, fun n hn now htick => absurd htick (by simp), trivial⟩,
    ⟨fun line now hbeat => absurd hbeat (by simp), fun line now hbeat _ => ?_, trivial⟩⟩
  · obtain ⟨-, rfl⟩ := startedPair_cases hn
    rintro ⟨hfollow, -⟩
    exact absurd hfollow (by decide)
  · cases hbeat
    refine ⟨"10.0.0.2".toList, (siteNode "10.0.0.2".toList []).raftHeart beatInterval, rfl,
      ⟨"10.0.0.1".toList, 7001, "10.0.0.2;1;2\n".toList⟩, ?_, rfl, rfl, ?_⟩
    · decide
    · decide

omit [Unicode] in
/-- Both nodes of the pair name `10.0.0.2`, which alone leads. -/
theorem leader_is_greatest_heard_pair :
    ((run (@Cluster.step Unicode.ascii) startedPair pairBeat "10.0.0.1".toList).map fun n =>
      (n.states.leaderIp, n.raft.leader)) = some ("10.0.0.2".toList, false) ∧
    ((run (@Cluster.step Unicode.ascii) startedPair pairBeat "10.0.0.2".toList).map fun n =>
      (n.states.leaderIp, n.raft.leader)) = some ("10.0.0.2".toList, true) := by
  have hvalue : ∀ a : Address, (startedPair a.ip).isSome → a ≤ ⟨"10.0.0.2".toList, by decide⟩ := by
    intro a ha
    obtain ⟨n, hn⟩ := Option.isSome_iff_exists.mp ha
    rcases (startedPair_cases hn).1 with h | h
    · obtain rfl : a = ⟨"10.0.0.1".toList, by decide⟩ := Address.ext h
      exact Address.le_iff.mpr (by decide)
    · exact le_of_eq (Address.ext h)
  have hheard : ∀ ip, (startedPair ip).isSome → ip ≠ "10.0.0.2".toList →
      (⟨"10.0.0.2".toList, by decide⟩ : Address) ∈ @heardAt Unicode.ascii ip pairBeat := by
    intro ip hip hne
    obtain ⟨n, hn⟩ := Option.isSome_iff_exists.mp hip
    rcases (startedPair_cases hn).1 with rfl | rfl
    · exact ⟨_, List.mem_cons_of_mem _ List.mem_cons_self, rfl, by decide⟩
    · exact absurd rfl hne
  have hnames : ∀ ip n, run (@Cluster.step Unicode.ascii) startedPair pairBeat ip = some n →
      n.states.leaderIp = "10.0.0.2".toList ∧ (n.raft.leader = true ↔ ip = "10.0.0.2".toList) :=
    (@leader_is_greatest_heard Unicode.ascii startedPair startedPair_fresh pairBeat
      pairBeat_genuine.1).2.2 pairBeat_genuine.2 ⟨"10.0.0.2".toList, by decide⟩ rfl hvalue hheard
  constructor
  · obtain ⟨n, hn⟩ := Option.isSome_iff_exists.mp (show
      (run (@Cluster.step Unicode.ascii) startedPair pairBeat "10.0.0.1".toList).isSome by decide)
    obtain ⟨hleader, hlead⟩ := hnames _ n hn
    have hfollows : n.raft.leader = false := Bool.eq_false_iff.mpr fun h => absurd (hlead.mp h) (by decide)
    rw [hn, Option.map_some, hleader, hfollows]
  · obtain ⟨n, hn⟩ := Option.isSome_iff_exists.mp (show
      (run (@Cluster.step Unicode.ascii) startedPair pairBeat "10.0.0.2".toList).isSome by decide)
    obtain ⟨hleader, hlead⟩ := hnames _ n hn
    rw [hn, Option.map_some, hleader, hlead.mpr rfl]

end DsDns
