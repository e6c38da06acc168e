/-
  Acknowledgements decide nothing.

  `ackHandler` counts the acknowledgements of an entry and prints when they are a majority; no handler reads the
  counts. So a node with other counts does the same (`receive_recount` and its like), and a run of a cluster in
  which acknowledgements arrive can be replayed with each of them lost: the messages in flight stay the same, and
  the nodes but for their counts (`acks_decide_nothing`).
-/
import DsDns.Cluster.Equiv.Origin

namespace DsDns

namespace Node

/-- The node with other counts of acknowledgements. -/
def recount (n : Node) (acks : Str → ℕ) : Node := { n with writer := { n.writer with logAck := acks } }

variable (n : Node) (acks : Str → ℕ)

theorem link_of_linked {m : Node} (h : m.writer.linked = true) : m.link = m := by
  obtain ⟨states, raft, ⟨logs, logAck, linked⟩, disk, outbox⟩ := m
  cases h
  rfl

/-! ### No handler reads the counts -/

theorem commitRecordWith_recount (torn : Torn) (u d t ip s : Str) :
    (n.recount acks).commitRecordWith torn u d t ip s = (n.commitRecordWith torn u d t ip s).recount acks := by
  unfold commitRecordWith
  by_cases h : n.disk.denied s = true
  · rw [if_pos h]
    exact if_pos h
  · rw [if_neg h]
    cases torn <;> exact if_neg h

theorem periodicBeat_recount (now : Time) :
    (n.recount acks).periodicBeat now = (n.periodicBeat now).recount acks := by
  obtain ⟨states, ⟨num, count, leader, sent, last, next⟩, writer, disk, outbox⟩ := n
  by_cases hdue : next ≤ now
  · simp only [periodicBeat, recount, hdue, if_true]
    cases leader <;> rfl
  · simp only [periodicBeat, recount, hdue, if_false]

theorem raftHeart_recount (now : Time) : (n.recount acks).raftHeart now = (n.raftHeart now).recount acks := by
  unfold raftHeart
  simp only [periodicBeat_recount]
  by_cases htime : (n.periodicBeat now).raft.leader = false ∧
      leaderDead ≤ now - (n.periodicBeat now).raft.lastBeatReceived
  · rw [if_pos htime]
    exact if_pos htime
  · rw [if_neg htime]
    exact if_neg htime

variable [Unicode]

theorem commitHandler_recount (num : Str) :
    (n.recount acks).commitHandler num = ((n.commitHandler num).1.recount acks, (n.commitHandler num).2) := by
  unfold commitHandler commitHandlerWith
  show _ = (_, _)
  simp only [show (n.recount acks).writer.logs = n.writer.logs from rfl, commitRecordWith_recount]
  cases n.writer.logs num with
  | none => rfl
  | some u =>
    simp only
    by_cases hu : u = []
    · rw [if_pos hu, if_pos hu]
    rw [if_neg hu, if_neg hu]
    rcases split ',' (strip u) with _ | ⟨domain, _ | ⟨rtype, _ | ⟨ip, rest⟩⟩⟩
    · rfl
    · rfl
    · rfl
    simp only
    cases strip domain with
    | nil => rfl
    | cons c cs =>
      simp only
      split <;> rfl

theorem startWrite_recount (u : Str) : ((n.recount acks).startWrite u).1 = (n.startWrite u).1.recount acks := by
  rw [startWrite_eq, startWrite_eq]
  exact congrArg Prod.fst ((n.announce u).commitHandler_recount acks (n.nextNum))

theorem newRecord_recount (domain ip : Str) : ((n.recount acks).newRecord (fun _ => some ip) domain).1 =
    (n.newRecord (fun _ => some ip) domain).1.recount acks := by
  rw [newRecord_eq, newRecord_eq]
  show (if n.writer.linked then _ else _) = _
  cases n.writer.linked with
  | false => rfl
  | true => exact n.startWrite_recount acks _

theorem replicate_recount (num u : Str) : (n.recount acks).replicate num u = (n.replicate num u).recount acks := by
  unfold replicate sendAck
  show (if n.raft.leader then _ else _) = _
  cases n.raft.leader <;> rfl

omit [Unicode] in
theorem adoptRank_recount (r lr : ℤ) : (n.recount acks).adoptRank r lr = (n.adoptRank r lr).recount acks := by
  unfold adoptRank
  show (if n.states.rank ≠ r ∨ n.states.lastRank ≠ lr then _ else _) = _
  split <;> rfl

omit [Unicode] in
theorem followHigher_recount (l : Str) (ld my : ℕ) :
    (n.recount acks).followHigher l ld my = (n.followHigher l ld my).recount acks := by
  unfold followHigher
  split <;> rfl

theorem beatHandler_recount (beat : Str) (now : Time) :
    (n.recount acks).beatHandler beat now = (n.beatHandler beat now).recount acks := by
  unfold beatHandler beatHandlerWith
  cases parseBeatWith parseInt beat with
  | none => rfl
  | some fields =>
    obtain ⟨l, r, lr⟩ := fields
    rcases hl : ipv4 l with _ | ld
    · simp only [hl]
      rfl
    rcases hm : ipv4 ((n.heard now).registerSender l).states.leaderIp with _ | my
    · have hm' : ipv4 (((n.recount acks).heard now).registerSender l).states.leaderIp = none := hm
      simp only [heard] at hm hm'
      simp only [hl, hm, hm']
      rfl
    · have hm' : ipv4 (((n.recount acks).heard now).registerSender l).states.leaderIp = some my := hm
      simp only [heard] at hm hm'
      simp only [hl, hm, hm', ← adoptRank_recount, ← followHigher_recount]
      rfl

theorem handleSync_recount (text : Str) (now : Time) :
    (n.recount acks).handleSync text now = (n.handleSync text now).recount acks := by
  unfold handleSync
  induction readLines text generalizing n with
  | nil => rfl
  | cons line lines ih =>
    rw [List.foldl_cons, List.foldl_cons, ← ih]
    congr 1
    by_cases hs : strip line = []
    · rw [if_pos hs, if_pos hs]
    · rw [if_neg hs, if_neg hs, beatHandler_recount]

/-- Of a message on the write port, an acknowledgement alone touches the counts. -/
theorem obey_recount (m : WriteMsg) : ∃ acks', (n.recount acks).obey m = (n.obey m).recount acks' := by
  cases m with
  | start u => exact ⟨acks, n.startWrite_recount acks u⟩
  | replica num u => exact ⟨acks, n.replicate_recount acks num u⟩
  | ack num => exact ⟨_, rfl⟩
  | commit num => exact ⟨acks, congrArg Prod.fst (n.commitHandler_recount acks num)⟩
  | ignored => exact ⟨acks, rfl⟩

theorem writeHandler_recount (query : Str) :
    ∃ acks', ((n.recount acks).writeHandler query).1 = (n.writeHandler query).1.recount acks' := by
  rw [writeHandler_eq, writeHandler_eq]
  exact n.link.obey_recount acks (parseWrite query)

theorem receive_recount {us : List (Str × Str)} {p : Packet} (h : Carries us p) (now : Time) :
    ∃ acks', (n.recount acks).receive p now = (n.receive p now).recount acks' := by
  unfold receive
  rcases h with hport | ⟨hport, ⟨k, htext⟩ | ⟨k, j, u, htext, -, hn, hr⟩⟩
  · rw [if_neg (by rw [hport]; decide), if_pos hport, if_neg (by rw [hport]; decide), if_pos hport]
    exact ⟨acks, n.handleSync_recount acks p.text now⟩
  · rw [if_pos hport, if_pos hport, htext, handleWrite_ackText, handleWrite_ackText]
    exact ⟨_, rfl⟩
  · have hclean : ∀ c : Char, c.isDigit = false → c ≠ '-' → c ∉ intStr k := fun c hd hm =>
      not_mem_intStr hd hm k
    have hrun : ∀ m : Node, m.handleWrite p.text = m.link.replicate (intStr k) (storedUpdate u) := by
      intro m
      rw [htext, handleWrite_delivered m (hclean ';' (by decide) (by decide))
        ⟨hclean '\n' (by decide) (by decide), hn⟩ ⟨hclean '\r' (by decide) (by decide), hr⟩]
    rw [if_pos hport, if_pos hport, hrun, hrun]
    exact ⟨acks, n.link.replicate_recount acks _ _⟩

end Node

/-! ### Clusters -/

/-- The message is an acknowledgement. -/
def Packet.isAck (p : Packet) : Bool :=
  match Node.parseWrite p.text with
  | .ack _ => p.port == 9000
  | _ => false

/-- Message `k` is an acknowledgement for a node that is down, or has had a message on its write port before. -/
def World.ackDue (w : World) (k : ℕ) : Bool :=
  match w.net[k]? with
  | none => false
  | some p => p.isAck && (w.node p.dst).all fun n => n.writer.linked

/-- The event, with an acknowledgement that would arrive lost. -/
def World.dropAck (w : World) : ClusterEvent → ClusterEvent
  | .deliver k now => if w.ackDue k then .lose k else .deliver k now
  | e => e

/-- Two clusters that differ in the counts of acknowledgements only. An outbox, emptied before each handler, is no
part of the state. -/
structure SameButCounts (w w' : World) : Prop where
  net : w'.net = w.net
  down : ∀ ip, w.node ip = none → w'.node ip = none
  up : ∀ ip n, w.node ip = some n → ∃ acks sent, w'.node ip = some { n.recount acks with outbox := sent }

variable [Unicode]

/-- The run with every acknowledgement lost. -/
def World.dropAcks : World → List ClusterEvent → List ClusterEvent
  | _, [] => []
  | w, e :: es => w.dropAck e :: World.dropAcks (w.step e) es

omit [Unicode] in
theorem SameButCounts.refl (w : World) : SameButCounts w w :=
  ⟨rfl, fun _ h => h, fun _ n h => ⟨n.writer.logAck, n.outbox, h⟩⟩

omit [Unicode] in
theorem SameButCounts.lose {w w' : World} (h : SameButCounts w w') (k : ℕ) :
    SameButCounts (w.lose k) (w'.lose k) :=
  ⟨congrArg (List.eraseIdx · k) h.net, h.down, h.up⟩

omit [Unicode] in
/-- A handler that does not read the counts. -/
theorem SameButCounts.act {w w' : World} (h : SameButCounts w w') (ip : Str) {f : Node → Node}
    (hf : ∀ (n : Node) acks, ∃ acks', f (n.recount acks) = (f n).recount acks') :
    SameButCounts (w.act ip f) (w'.act ip f) := by
  cases hn : w.node ip with
  | none =>
    rw [act_of_down hn, act_of_down (h.down ip hn)]
    exact h
  | some n =>
    obtain ⟨acks, sent, hn'⟩ := h.up ip n hn
    obtain ⟨acks', hrun⟩ := hf { n with outbox := [] } acks
    have hrun' : f { ({ n.recount acks with outbox := sent } : Node) with outbox := [] } =
        (f { n with outbox := [] }).recount acks' := hrun
    refine ⟨?_, fun x hx => ?_, fun x m hm => ?_⟩
    · rw [act_net hn, act_net hn', h.net, hrun']
      rfl
    · rw [act_node hn] at hx
      rw [act_node hn']
      split at hx
      · exact absurd hx (by simp)
      · rename_i hne
        rw [if_neg hne]
        exact h.down x hx
    · rw [act_node hn] at hm
      rw [act_node hn']
      split at hm
      · rename_i heq
        obtain rfl := Option.some.inj hm
        exact ⟨acks', (f { n with outbox := [] }).outbox, by rw [if_pos heq, hrun']; rfl⟩
      · rename_i hne
        rw [if_neg hne]
        exact h.up x m hm

/-- The same event in both clusters. -/
theorem SameButCounts.step {w w' : World} {us : List (Str × Str)} (h : SameButCounts w w')
    (hnet : ∀ p ∈ w.net, Carries us p) (e : ClusterEvent) : SameButCounts (w.step e) (w'.step e) := by
  cases e with
  | write ip line =>
    exact h.act (f := fun n => (n.writeHandler ('1' :: ';' :: line.val)).1) ip fun n acks =>
      n.writeHandler_recount acks _
  | newRecord ip domain answer =>
    exact h.act (f := fun n => (n.newRecord (fun _ => some answer.val) domain.val).1) ip fun n acks =>
      ⟨acks, n.newRecord_recount acks _ _⟩
  | tick ip now =>
    exact h.act (f := fun n => n.raftHeart now) ip fun n acks => ⟨acks, n.raftHeart_recount acks now⟩
  | deliver k now =>
    show SameButCounts (w.deliver k now) (w'.deliver k now)
    unfold World.deliver
    rw [h.net]
    cases hp : w.net[k]? with
    | none => exact h
    | some p =>
      exact (h.lose k).act (f := fun n => n.receive p now) p.dst fun n acks =>
        n.receive_recount acks (hnet p (List.mem_of_getElem? hp)) now
  | lose k => exact h.lose k

/-- **An acknowledgement that arrives does what one that is lost does**, but for the counts. -/
theorem SameButCounts.dropAck {w w' : World} {us : List (Str × Str)} (h : SameButCounts w w')
    (hnet : ∀ p ∈ w.net, Carries us p) {k : ℕ} (hk : w.ackDue k = true) (now : Time) :
    SameButCounts (w.deliver k now) (w'.lose k) := by
  unfold World.ackDue at hk
  unfold World.deliver
  cases hp : w.net[k]? with
  | none =>
    rw [hp] at hk
    exact absurd hk (by simp)
  | some p =>
    rw [hp] at hk
    obtain ⟨hack, hlinked⟩ := (Bool.and_eq_true _ _).mp hk
    -- It is an acknowledgement in form, too.
    obtain ⟨hport, i, htext⟩ : p.port = 9000 ∧ ∃ i : ℤ, p.text = Node.ackText (intStr i) := by
      rcases hnet p (List.mem_of_getElem? hp) with hport | ⟨hport, hform | ⟨i, j, u, htext, -⟩⟩
      · unfold Packet.isAck at hack
        split at hack
        · rw [hport] at hack
          exact absurd hack (by decide)
        · exact absurd hack (by simp)
      · exact ⟨hport, hform⟩
      · have hnum : ';' ∉ intStr i := not_mem_intStr (by decide) (by decide) i
        have hreplica := Node.parseWrite_replica hnum u
        rw [Packet.isAck, htext, hreplica] at hack
        exact absurd hack (by simp)
    have hlose := h.lose k
    cases hn : (w.lose k).node p.dst with
    | none =>
      simp only
      rw [act_of_down hn]
      exact hlose
    | some n =>
      have hlink : n.writer.linked = true := by
        have hn' : w.node p.dst = some n := hn
        rw [hn'] at hlinked
        exact hlinked
      have hrun : ({ n with outbox := [] } : Node).receive p now =
          ({ n with outbox := [] } : Node).recount (n.ackHandler (intStr i)).writer.logAck := by
        unfold Node.receive
        rw [if_pos hport, htext, Node.handleWrite_ackText, Node.link_of_linked (by exact hlink)]
        rfl
      obtain ⟨acks, sent, hn'⟩ := hlose.up p.dst n hn
      simp only
      refine ⟨?_, fun x hx => ?_, fun x m hm => ?_⟩
      · rw [act_net hn, hrun, hlose.net]
        exact (List.append_nil _).symm
      · rw [act_node hn] at hx
        split at hx
        · exact absurd hx (by simp)
        · exact hlose.down x hx
      · rw [act_node hn] at hm
        split at hm
        · rename_i heq
          obtain rfl := Option.some.inj hm
          exact ⟨acks, sent, by rw [heq, hn', hrun]; rfl⟩
        · exact hlose.up x m hm

/-- **Acknowledgements decide nothing.** Take any run of a cluster whose nodes have logged nothing and have sent
nothing, and let every acknowledgement that arrives at a node, but for the first message on its write port, be
lost instead: the messages in flight are the same in every state, and so are the nodes, but for the counts. -/
theorem acks_decide_nothing {w : World} (hstart : Unlogged w) (es : List ClusterEvent) :
    SameButCounts (run World.step w es) (run World.step w (w.dropAcks es)) := by
  suffices h : ∀ (es : List ClusterEvent) (us : List (Str × Str)) (w₀ w w' : World), Sourced w₀ us w →
      SameButCounts w w' → SameButCounts (run World.step w es) (run World.step w' (w.dropAcks es)) from
    h es [] w w w (sourced_of_unlogged hstart) (SameButCounts.refl w)
  intro es
  induction es with
  | nil => exact fun _ _ _ _ _ h => h
  | cons e es ih =>
    intro us w₀ w w' hsource h
    rw [run_cons, World.dropAcks, run_cons]
    refine ih _ w₀ _ _ (sourced_step hsource e) ?_
    cases e with
    | deliver k now =>
      simp only [World.dropAck]
      by_cases hk : w.ackDue k = true
      · rw [if_pos hk]
        exact h.dropAck hsource.net hk now
      · rw [if_neg hk]
        exact h.step hsource.net (.deliver k now)
    | write ip line => exact h.step hsource.net _
    | newRecord ip domain answer => exact h.step hsource.net _
    | tick ip now => exact h.step hsource.net _
    | lose k => exact h.step hsource.net _

omit [Unicode] in
/-- `10.0.0.1` follows `10.0.0.3`, stores a copy and acknowledges it. -/
def acknowledgedA : List ClusterEvent :=
  [.tick "10.0.0.3".toList beatInterval, .deliver 0 beatInterval, .write "10.0.0.3".toList lineA,
    .deliver 1 beatInterval, .deliver 2 beatInterval]

omit [Unicode] in
/-- The leader counts one acknowledgement, or none, and everything else is the same. -/
theorem acks_decide_nothing_lost :
    SameButCounts (run (@World.step Unicode.ascii) freshTrio acknowledgedA)
      (run (@World.step Unicode.ascii) freshTrio (@World.dropAcks Unicode.ascii freshTrio acknowledgedA)) ∧
    ((run (@World.step Unicode.ascii) freshTrio acknowledgedA).node "10.0.0.3".toList).map
      (fun n => n.writer.logAck ['1']) = some 1 ∧
    ((run (@World.step Unicode.ascii) freshTrio
      (@World.dropAcks Unicode.ascii freshTrio acknowledgedA)).node "10.0.0.3".toList).map
      (fun n => n.writer.logAck ['1']) = some 0 :=
  ⟨@acks_decide_nothing Unicode.ascii _ freshTrio_unlogged acknowledgedA, by decide, by decide⟩

end DsDns
