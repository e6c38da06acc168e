/-
  Where the data of a cluster comes from.

  `started` lists the writes that the nodes start in a run, each with its node. Nothing else brings data into the
  cluster: what a node has in memory, what it has logged and what is in flight goes back to one of them
  (`Sourced`).
-/
import DsDns.Cluster.Equiv.Quorum
import DsDns.DataPlane.Equiv.Step

namespace DsDns

variable [Unicode]

/-! ### The writes of a run -/

/-- The write an event makes a node start: the node, and the update. -/
def World.starts (w : World) : ClusterEvent → Option (Str × Str)
  | .write ip line => (w.node ip).map fun _ => (ip, lineUpdate line.val)
  | .newRecord ip domain answer =>
    -- A writer that is not linked to its coordinator starts nothing.
    ((w.node ip).filter fun n => n.writer.linked).map fun _ => (ip, domain.val ++ ",A,".toList ++ answer.val)
  | _ => none

/-- The writes the nodes start in a run, in order. -/
def World.started : World → List ClusterEvent → List (Str × Str)
  | _, [] => []
  | w, e :: es => (w.starts e).toList ++ World.started (w.step e) es

/-! ### What one node does -/

theorem handleSync_data (n : Node) (text : Str) (now : Time) :
    (n.handleSync text now).states.records = n.states.records ∧ (n.handleSync text now).disk = n.disk := by
  unfold Node.handleSync
  induction readLines text generalizing n with
  | nil => exact ⟨rfl, rfl⟩
  | cons line lines ih =>
    rw [List.foldl_cons]
    by_cases hs : strip line = []
    · rw [if_pos hs]
      exact ih n
    · obtain ⟨hrecords, -, -, -, -, -, hdisk, -⟩ := n.beatHandler_frame (strip line) now
      obtain ⟨h1, h2⟩ := ih (n.beatHandler (strip line) now)
      rw [if_neg hs]
      exact ⟨h1.trans hrecords, h2.trans hdisk⟩

theorem startWrite_binding {n : Node} {u : Str} {key : Key} {v : Str}
    (h : (n.startWrite u).1.states.records key = some v) :
    n.states.records key = some v ∨ ∃ c, commitTarget u = some (c, key, v) := by
  rw [(startWrite_effects n u).1] at h
  refine (eq_or_of_put_eq_some h).imp_right fun hwrite => ?_
  unfold Node.committed at hwrite
  split at hwrite
  · exact absurd hwrite (by simp)
  · rename_i c key' v' htarget
    split at hwrite
    · cases hwrite
      exact ⟨c, htarget⟩
    · exact absurd hwrite (by simp)

theorem replicate_binding {n : Node} {num u : Str} {key : Key} {v : Str}
    (h : (n.replicate num u).states.records key = some v) :
    n.states.records key = some v ∨ updateRecord u = some (key, v) := by
  rw [Node.replicate_states, Node.applyReplica_records] at h
  refine (eq_or_of_put_eq_some h).imp_right fun hwrite => ?_
  split at hwrite
  · split at hwrite
    · exact hwrite
    · exact absurd hwrite (by simp)
  · exact absurd hwrite (by simp)

/-! ### The invariant -/

/-- The binding `key`, `v` of the node `ip` is read off a write: by the commit of one of its own, or by a follower
off the text it stores for one. -/
def Written (us : List (Str × Str)) (ip : Str) (key : Key) (v : Str) : Prop :=
  (∃ u c, (ip, u) ∈ us ∧ commitTarget u = some (c, key, v)) ∨
    ∃ j u, (j, u) ∈ us ∧ updateRecord (Node.storedUpdate u) = some (key, v)

/-- A message of the protocols: a heartbeat, an acknowledgement, or a copy of a write. -/
def Carries (us : List (Str × Str)) (p : Packet) : Prop :=
  p.port = 7001 ∨ p.port = 9000 ∧
    ((∃ k : ℤ, p.text = Node.ackText (intStr k)) ∨
      ∃ (k : ℤ) (j u : Str), p.text = Node.replicaText (intStr k) u ∧ (j, u) ∈ us ∧ '\n' ∉ u ∧ '\r' ∉ u)

/-- The log entry `u` of the node `ip` is one of its own writes, or what a follower stores for one. -/
def Logged (us : List (Str × Str)) (ip u : Str) : Prop :=
  (ip, u) ∈ us ∨ ∃ j u', (j, u') ∈ us ∧ u = Node.storedUpdate u'

/-- The node `n`, which started as `n₀` at the address `ip`, after the writes `us` of the cluster. -/
structure NodeSourced (us : List (Str × Str)) (ip : Str) (n₀ n : Node) : Prop where
  records : ∀ key v, n.states.records key = some v → n₀.states.records key = some v ∨ Written us ip key v
  logs : ∀ num u, n.writer.logs num = some u → Logged us ip u

/-- A cluster that started as `w₀`, after the writes `us`. -/
structure Sourced (w₀ : World) (us : List (Str × Str)) (w : World) : Prop where
  node : ∀ ip n, w.node ip = some n → ∃ n₀, w₀.node ip = some n₀ ∧ NodeSourced us ip n₀ n
  net : ∀ p ∈ w.net, Carries us p

section Mono

variable {us vs : List (Str × Str)} {ip : Str}

omit [Unicode] in
theorem Written.append {key : Key} {v : Str} (h : Written us ip key v) : Written (us ++ vs) ip key v := by
  rcases h with ⟨u, c, hu, hrest⟩ | ⟨j, u, hu, hrest⟩
  · exact Or.inl ⟨u, c, List.mem_append_left vs hu, hrest⟩
  · exact Or.inr ⟨j, u, List.mem_append_left vs hu, hrest⟩

omit [Unicode] in
theorem Logged.append {u : Str} (h : Logged us ip u) : Logged (us ++ vs) ip u := by
  rcases h with hu | ⟨j, u', hu, hrest⟩
  · exact Or.inl (List.mem_append_left vs hu)
  · exact Or.inr ⟨j, u', List.mem_append_left vs hu, hrest⟩

omit [Unicode] in
theorem Carries.append {p : Packet} (h : Carries us p) : Carries (us ++ vs) p := by
  rcases h with hport | ⟨hport, hack | ⟨k, j, u, htext, hu, hclean⟩⟩
  · exact Or.inl hport
  · exact Or.inr ⟨hport, Or.inl hack⟩
  · exact Or.inr ⟨hport, Or.inr ⟨k, j, u, htext, List.mem_append_left vs hu, hclean⟩⟩

end Mono

omit [Unicode] in
/-- A handler at the node `ip` that starts the writes `vs`. -/
theorem sourced_act {w₀ w : World} {us : List (Str × Str)} (h : Sourced w₀ us w) {ip : Str} {n : Node}
    (hn : w.node ip = some n) {f : Node → Node} {vs : List (Str × Str)}
    (hrecords : ∀ key v, (f { n with outbox := [] }).states.records key = some v →
      n.states.records key = some v ∨ Written (us ++ vs) ip key v)
    (hlogs : ∀ num u, (f { n with outbox := [] }).writer.logs num = some u →
      n.writer.logs num = some u ∨ Logged (us ++ vs) ip u)
    (hout : ∀ p ∈ (f { n with outbox := [] }).outbox, Carries (us ++ vs) p) :
    Sourced w₀ (us ++ vs) (w.act ip f) := by
  refine ⟨fun x m hm => ?_, fun p hp => ?_⟩
  · rw [act_node hn] at hm
    split at hm
    · rename_i hx
      subst hx
      obtain rfl := Option.some.inj hm
      obtain ⟨n₀, hn₀, hnode⟩ := h.node x n hn
      refine ⟨n₀, hn₀, fun key v hv => ?_, fun num u hu => ?_⟩
      · rcases hrecords key v hv with hold | hnew
        · exact (hnode.records key v hold).imp_right Written.append
        · exact Or.inr hnew
      · rcases hlogs num u hu with hold | hnew
        · exact (hnode.logs num u hold).append
        · exact hnew
    · obtain ⟨n₀, hn₀, hnode⟩ := h.node x m hm
      exact ⟨n₀, hn₀, fun key v hv => (hnode.records key v hv).imp_right Written.append,
        fun num u hu => (hnode.logs num u hu).append⟩
  · rw [act_net hn] at hp
    rcases List.mem_append.mp hp with hp | hp
    · exact (h.net p hp).append
    · exact hout p hp

/-- A node that starts the write `u`. -/
theorem sourced_startWrite {w₀ w : World} {us : List (Str × Str)} (h : Sourced w₀ us w) {ip : Str} {n m : Node}
    (hn : w.node ip = some n) {f : Node → Node} {u : Str} (hf : f { n with outbox := [] } = (m.startWrite u).1)
    (hstates : m.states = n.states) (hlogs : m.writer.logs = n.writer.logs) (hout : m.outbox = [])
    (hclean : '\n' ∉ u ∧ '\r' ∉ u) : Sourced w₀ (us ++ [(ip, u)]) (w.act ip f) := by
  have hmem : (ip, u) ∈ us ++ [(ip, u)] := List.mem_append_right us List.mem_cons_self
  refine sourced_act h hn (fun key v hv => ?_) (fun num v hv => ?_) fun p hp => ?_
  · rw [hf] at hv
    refine (startWrite_binding hv).imp (fun hold => by rwa [hstates] at hold) fun ⟨c, htarget⟩ => ?_
    exact Or.inl ⟨u, c, hmem, htarget⟩
  · rw [hf, startWrite_logs] at hv
    split at hv
    · obtain rfl := Option.some.inj hv
      exact Or.inr (Or.inl hmem)
    · rw [hlogs] at hv
      exact Or.inl hv
  · rw [hf, Node.startWrite_eq, Node.commitHandler_outbox, Node.announce_outbox, hout, List.nil_append] at hp
    obtain ⟨dst, -, rfl⟩ := List.mem_map.mp hp
    exact Or.inr ⟨rfl, Or.inr ⟨m.raft.currLogNum + 1, ip, u, rfl, hmem, hclean⟩⟩

/-! ### The steps -/

omit [Unicode] in
theorem not_mem_lineUpdate {c : Char} {line : Str} (h : c ∉ line) : c ∉ lineUpdate line := by
  unfold lineUpdate
  cases hs : split ';' (rstrip line) with
  | nil => exact absurd hs (split_ne_nil _ _)
  | cons u us =>
    exact fun hc => h (mem_of_mem_rstrip (mem_of_mem_split (f := u) (by rw [hs]; exact List.mem_cons_self) hc))

omit [Unicode] in
theorem sourced_tick {w₀ w : World} {us : List (Str × Str)} (h : Sourced w₀ us w) (ip : Str) (now : Time) :
    Sourced w₀ us (w.act ip fun n => n.raftHeart now) := by
  cases hn : w.node ip with
  | none =>
    rw [act_of_down hn]
    exact h
  | some n =>
    obtain ⟨hrecords, -, -, hwriter, -⟩ := ({ n with outbox := [] } : Node).raftHeart_frame now
    rw [← List.append_nil us]
    refine sourced_act h hn (fun key v hv => Or.inl (by rwa [hrecords] at hv))
      (fun num u hu => Or.inl (by rwa [hwriter] at hu)) fun p hp => ?_
    -- All it sends are heartbeats.
    rw [Node.raftHeart_outbox, List.nil_append] at hp
    split at hp
    · exact Or.inl (Node.mem_beats hp).1
    · split at hp
      · exact Or.inl (Node.mem_beats hp).1
      · exact absurd hp (by simp)

/-- **What a delivered message does**, if it is one of the protocols: it stores and logs what is read off a write,
and is answered with an acknowledgement at most. -/
theorem receive_carried {us : List (Str × Str)} {p : Packet} (h : Carries us p) (n : Node) (now : Time) :
    (∀ key v, (n.receive p now).states.records key = some v →
      n.states.records key = some v ∨ ∃ j u, (j, u) ∈ us ∧ updateRecord (Node.storedUpdate u) = some (key, v)) ∧
    (∀ num u, (n.receive p now).writer.logs num = some u →
      n.writer.logs num = some u ∨ ∃ j u', (j, u') ∈ us ∧ u = Node.storedUpdate u') ∧
    ∀ q ∈ (n.receive p now).outbox, q ∈ n.outbox ∨ q.port = 9000 ∧ ∃ k : ℤ, q.text = Node.ackText (intStr k) := by
  rcases h with hport | ⟨hport, ⟨k, htext⟩ | ⟨k, j, u, htext, hu, hn, hr⟩⟩
  · have hrun : n.receive p now = n.handleSync p.text now := by
      unfold Node.receive
      rw [if_neg (by rw [hport]; decide), if_pos hport]
    obtain ⟨hwriter, hout, -, -⟩ := n.handleSync_frame p.text now
    rw [hrun, hwriter, hout, (handleSync_data n p.text now).1]
    exact ⟨fun _ _ => Or.inl, fun _ _ => Or.inl, fun _ => Or.inl⟩
  · have hrun : n.receive p now = n.link.ackHandler (intStr k) := by
      unfold Node.receive
      rw [if_pos hport, htext, Node.handleWrite_ackText]
    rw [hrun]
    exact ⟨fun _ _ => Or.inl, fun _ _ => Or.inl, fun _ => Or.inl⟩
  · have hclean : ∀ c : Char, c.isDigit = false → c ≠ '-' → c ∉ intStr k := fun c hd hm =>
      not_mem_intStr hd hm k
    have hrun : n.receive p now = n.link.replicate (intStr k) (Node.storedUpdate u) := by
      unfold Node.receive
      rw [if_pos hport, htext, Node.handleWrite_delivered _ (hclean ';' (by decide) (by decide))
        ⟨hclean '\n' (by decide) (by decide), hn⟩ ⟨hclean '\r' (by decide) (by decide), hr⟩]
    rw [hrun]
    refine ⟨fun key v hv => ?_, fun num v hv => ?_, fun q hq => ?_⟩
    · exact (replicate_binding hv).imp_right fun hrecord => ⟨j, u, hu, hrecord⟩
    · rw [Node.replicate_logs] at hv
      split at hv
      · exact Or.inr ⟨j, u, hu, (Option.some.inj hv).symm⟩
      · exact Or.inl hv
    · rw [Node.replicate_outbox] at hq
      rcases List.mem_append.mp hq with hq | hq
      · exact Or.inl hq
      · cases hlead : n.link.raft.leader with
        | true =>
          rw [hlead] at hq
          exact absurd hq (by simp)
        | false =>
          rw [hlead] at hq
          obtain rfl := List.mem_singleton.mp hq
          exact Or.inr ⟨rfl, k, rfl⟩

theorem sourced_deliver {w₀ w : World} {us : List (Str × Str)} (h : Sourced w₀ us w) (k : ℕ) (now : Time) :
    Sourced w₀ us (w.deliver k now) := by
  unfold World.deliver
  cases hp : w.net[k]? with
  | none => exact h
  | some p =>
    have hcarried : Carries us p := h.net p (List.mem_of_getElem? hp)
    have hlose : Sourced w₀ us (w.lose k) := ⟨h.node, fun q hq => h.net q (mem_net_of_lose hq)⟩
    cases hn : (w.lose k).node p.dst with
    | none =>
      simp only
      rw [act_of_down hn]
      exact hlose
    | some n =>
      simp only
      obtain ⟨hrecords, hlogs, hout⟩ := receive_carried hcarried { n with outbox := [] } now
      rw [← List.append_nil us]
      refine sourced_act hlose hn (fun key v hv => ?_) (fun num u hu => ?_) fun q hq => ?_
      · exact (hrecords key v hv).imp_right fun hsource => Written.append (Or.inr hsource)
      · exact (hlogs num u hu).imp_right fun hsource => Logged.append (Or.inr hsource)
      · rcases hout q hq with hq | ⟨hport, hack⟩
        · exact absurd hq (by simp)
        · exact Or.inr ⟨hport, Or.inl hack⟩

/-- **The step lemma.** -/
theorem sourced_step {w₀ w : World} {us : List (Str × Str)} (h : Sourced w₀ us w) (e : ClusterEvent) :
    Sourced w₀ (us ++ (w.starts e).toList) (w.step e) := by
  have hnone : us ++ ([] : List (Str × Str)) = us := List.append_nil us
  cases e with
  | write ip line =>
    simp only [World.starts, World.step]
    cases hn : w.node ip with
    | none =>
      rw [act_of_down hn]
      exact hnone.symm ▸ h
    | some n =>
      refine sourced_startWrite (m := ({ n with outbox := [] } : Node).link) h hn ?_ rfl rfl rfl
        ⟨not_mem_lineUpdate line.prop.1, not_mem_lineUpdate line.prop.2⟩
      show (Node.writeHandler _ _).1 = _
      rw [Node.writeHandler_eq, parseWrite_typeOne]
      rfl
  | newRecord ip domain answer =>
    simp only [World.starts, World.step]
    cases hn : w.node ip with
    | none =>
      rw [act_of_down hn]
      exact hnone.symm ▸ h
    | some n =>
      rw [Option.filter_some]
      cases hlinked : n.writer.linked with
      | false =>
        have hsame : ((({ n with outbox := [] } : Node).newRecord (fun _ => some answer.val) domain.val).1) =
            { n with outbox := [] } := by
          rw [Node.newRecord_eq, if_neg (by rw [hlinked]; decide)]
        show Sourced w₀ (us ++ []) _
        refine sourced_act h hn (fun key v hv => ?_) (fun num u hu => ?_) fun p hp => ?_
        · rw [hsame] at hv
          exact Or.inl hv
        · rw [hsame] at hu
          exact Or.inl hu
        · rw [hsame] at hp
          exact absurd hp (by simp)
      | true =>
        have hcomma : '\n' ∉ ",A,".toList ∧ '\r' ∉ ",A,".toList := by decide
        refine sourced_startWrite (m := { n with outbox := [] }) h hn ?_ rfl rfl rfl ⟨?_, ?_⟩
        · show (Node.newRecord _ _ _).1 = _
          rw [Node.newRecord_eq, if_pos hlinked]
        · simp [domain.prop.1, answer.prop.1]
        · simp [domain.prop.2, answer.prop.2]
  | tick ip now => exact hnone.symm ▸ sourced_tick h ip now
  | deliver k now => exact hnone.symm ▸ sourced_deliver h k now
  | lose k => exact hnone.symm ▸ ⟨h.node, fun q hq => h.net q (mem_net_of_lose hq)⟩

/-- Along a run the writes add up. -/
theorem sourced_run {w₀ w : World} {us : List (Str × Str)} (h : Sourced w₀ us w) (es : List ClusterEvent) :
    Sourced w₀ (us ++ w.started es) (run World.step w es) := by
  induction es generalizing w us with
  | nil =>
    rw [World.started, List.append_nil]
    exact h
  | cons e es ih =>
    rw [World.started, ← List.append_assoc, run_cons]
    exact ih (sourced_step h e)

omit [Unicode] in
theorem sourced_of_unlogged {w : World} (h : Unlogged w) : Sourced w [] w := by
  refine ⟨fun ip n hn => ⟨n, hn, fun _ _ => Or.inl, fun num u hu => ?_⟩, fun p hp => ?_⟩
  · rw [h.logs ip n hn] at hu
    exact absurd hu (by simp)
  · rw [h.net] at hp
    exact absurd hp (by simp)

/-- **Nothing comes from nowhere.** In a cluster whose nodes have logged nothing and have sent nothing, after any
run: a binding in the memory of a node was there at the start, or one write that some node started binds this
key to this value; a log entry is such a write, or what a follower stores for one; and what is in flight are
heartbeats, acknowledgements and copies of such writes. -/
theorem data_sourced {w : World} (hstart : Unlogged w) (es : List ClusterEvent) :
    (∀ ip n, (run World.step w es).node ip = some n → ∃ n₀, w.node ip = some n₀ ∧
      (∀ key v, n.states.records key = some v →
        n₀.states.records key = some v ∨ Written (w.started es) ip key v) ∧
      ∀ num u, n.writer.logs num = some u → Logged (w.started es) ip u) ∧
    ∀ p ∈ (run World.step w es).net, Carries (w.started es) p := by
  have h := sourced_run (sourced_of_unlogged hstart) es
  refine ⟨fun ip n hn => ?_, h.net⟩
  obtain ⟨n₀, hn₀, hnode⟩ := h.node ip n hn
  exact ⟨n₀, hn₀, hnode.records, hnode.logs⟩

omit [Unicode] in
/-- `10.0.0.3` takes a write, and the copy for `10.0.0.1` arrives. -/
def writtenA : List ClusterEvent := [.write "10.0.0.3".toList lineA, .deliver 0 0]

omit [Unicode] in
/-- The replica of `10.0.0.1` goes back to the write at `10.0.0.3`. -/
theorem data_sourced_replica :
    ((run (@World.step Unicode.ascii) freshTrio writtenA).node "10.0.0.1".toList).bind
        (fun n => n.states.records ("a.com".toList, ['A'])) = some "1.1.1.1".toList ∧
      Written (@World.started Unicode.ascii freshTrio writtenA) "10.0.0.1".toList ("a.com".toList, ['A'])
        "1.1.1.1".toList := by
  have hstored : ((run (@World.step Unicode.ascii) freshTrio writtenA).node "10.0.0.1".toList).bind
      (fun n => n.states.records ("a.com".toList, ['A'])) = some "1.1.1.1".toList := by decide
  have hempty : (freshTrio.node "10.0.0.1".toList).bind
      (fun n => n.states.records ("a.com".toList, ['A'])) = none := by decide
  obtain ⟨n, hn, hv⟩ := Option.bind_eq_some_iff.mp hstored
  obtain ⟨n₀, hn₀, hrecords, -⟩ := (@data_sourced Unicode.ascii _ freshTrio_unlogged writtenA).1 _ n hn
  refine ⟨hstored, (hrecords _ _ hv).resolve_left fun h => ?_⟩
  rw [hn₀] at hempty
  exact absurd (hempty.symm.trans h) (by simp)

end DsDns
