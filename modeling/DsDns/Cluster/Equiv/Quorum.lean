/-
  When a committed entry stands at a majority.

  The leader commits a write when it has sent it, not when it has been received, so at the time of a
  commit nobody else may have the entry. If a majority of the cluster, the leader included, has the
  entry when the leader commits it (`Quorate`), a majority has it ever after: `quorum_step` keeps that
  every log entry anywhere is the leader's, that the leader's numbers are fresh, and that who has
  handled an entry holds it; `commit_replicated` reads the majority off. `not_commit_replicated` is the
  write of a leader that reaches nobody.
-/
import DsDns.Cluster.Quorum
import DsDns.Cluster.Equiv.World
import Mathlib.Data.List.Perm.Subperm

namespace DsDns

variable [Unicode]

/-- The two steps of a write are the handler of its message. -/
theorem announce_commit (n : Node) (line : Str) :
    (n.writeHandler ('1' :: ';' :: line)).1 =
      ((n.link.announce (lineUpdate line)).commitHandler n.nextNum).1 := by
  rw [Node.writeHandler_eq, parseWrite_typeOne]
  exact congrArg Prod.fst (n.link.startWrite_eq (lineUpdate line))

omit [Unicode] in
/-- The members of `ids` other than `leader` that have handled the entry `num` as a replica. -/
def WriteState.replicas (s : WriteState) (ids : List Str) (leader num : Str) : List Str :=
  ids.filter fun i => i ≠ leader && s.handled.contains (i, num)

/-- Only the leader is handed new writes, their updates survive the wire, and when the leader commits
an update, it and the nodes that have handled the entry are a majority. -/
def Quorate (ids : List Str) (leader : Str) (s : WriteState) : WriteEvent → Prop
  | .announce ip line => ip = leader ∧ WireSafe (lineUpdate line.val)
  | .commit ip num => (ip, num) ∈ s.pending → (s.world.applies ip num).isSome →
    ids.length < 2 * (1 + (s.replicas ids leader num).length)
  | _ => True

omit [Unicode] in
/-- The invariant of a quorate run. -/
structure QuorumInv (ids : List Str) (leader : Str) (s : WriteState) : Prop where
  consistent : Consistent s.world
  /-- Every entry anywhere is an entry of the leader. -/
  source : ∀ i k u, s.world.entries i k = some u → s.world.entries leader k = some u
  /-- The leader has used no number beyond its counter. -/
  fresh : ∀ n k u, s.world.node leader = some n → n.writer.logs k = some u →
    ∃ j : ℤ, k = intStr j ∧ j ≤ n.raft.currLogNum
  pending : ∀ p ∈ s.pending, p.1 = leader
  handled : ∀ p ∈ s.handled, ∃ u, s.world.entries p.1 p.2 = some u
  applied : ∀ num u, (leader, num, u) ∈ s.applied →
    ids.length < 2 * (s.world.entries.holders ids num u).length

omit [Unicode] in
theorem exists_of_entries {w : World} {i k u : Str} (h : w.entries i k = some u) :
    ∃ n, w.node i = some n ∧ n.writer.logs k = some u := Option.bind_eq_some_iff.mp h

omit [Unicode] in
/-- What the invariant says about the growing table stays true. -/
theorem holders_of_extends {ids : List Str} {s t : Table Str Str Str} (h : s.Extends t)
    {num u : Str} (hm : ids.length < 2 * (s.holders ids num u).length) :
    ids.length < 2 * (t.holders ids num u).length := by
  have := Table.length_holders_le h ids num u
  omega

omit [Unicode] in
/-- The number an announcement takes is free. -/
theorem fits_nextNum {ids : List Str} {leader : Str} {s : WriteState} (h : QuorumInv ids leader s)
    {n : Node} (hn : s.world.node leader = some n) (u : Str) :
    s.world.entries.Fits n.nextNum u := by
  intro j v hv
  obtain ⟨m, hm, hlog⟩ := exists_of_entries (h.source j _ v hv)
  rw [hn] at hm
  obtain rfl := Option.some.inj hm
  obtain ⟨i, hi, hle⟩ := h.fresh n _ v hn hlog
  have : n.raft.currLogNum + 1 = i := intStr_injective hi
  omega

/-- An announcement keeps the invariant: it adds an entry under a free number. -/
theorem quorum_announce {ids : List Str} {leader : Str} {s : WriteState}
    (h : QuorumInv ids leader s) {line : Line} (hsafe : WireSafe (lineUpdate line.val)) :
    QuorumInv ids leader (s.step (.announce leader line)) := by
  cases hn : s.world.node leader with
  | none =>
    simp only [WriteState.step, hn]
    exact h
  | some n =>
    simp only [WriteState.step, hn]
    have hwrite : ∀ x, (({ n with outbox := [] } : Node).link.announce
        (lineUpdate line.val)).writer.logs x =
        if x = n.nextNum then some (lineUpdate line.val) else n.writer.logs x := fun x => rfl
    -- Every copy on the wire is the new entry of the leader.
    have hcopies : ∀ p ∈ (({ n with outbox := [] } : Node).link.announce
        (lineUpdate line.val)).outbox,
        Wired (s.world.entries.write leader n.nextNum (lineUpdate line.val)) p := by
      intro p hp
      rw [Node.announce_outbox] at hp
      obtain ⟨dst, -, rfl⟩ := List.mem_map.mp ((List.mem_append.mp hp).resolve_left (by simp [Node.link]))
      exact Or.inr ⟨rfl, Or.inr ⟨n.raft.currLogNum + 1, leader, _, rfl, hsafe, Table.write_self⟩⟩
    obtain ⟨hcons, hext⟩ := consistent_act_write
      (f := fun n => n.link.announce (lineUpdate line.val)) h.consistent hn hwrite
      (fits_nextNum h hn _) hcopies
    have hentries := entries_act_write (f := fun n => n.link.announce (lineUpdate line.val)) hn hwrite
    refine ⟨hcons, fun i k u hu => ?_, fun m k u hm hlog => ?_, fun p hp => ?_, fun p hp => ?_,
      fun num u hu => holders_of_extends hext (h.applied num u hu)⟩
    · rw [hentries] at hu ⊢
      rcases Table.eq_or_of_write hu with ⟨rfl, rfl⟩ | hold
      · exact Table.write_self
      · exact Table.extends_write (fits_nextNum h hn _) (h.source i k u hold)
    · rw [act_node hn, if_pos rfl] at hm
      obtain rfl := Option.some.inj hm
      rw [hwrite] at hlog
      show ∃ j : ℤ, k = intStr j ∧ j ≤ n.raft.currLogNum + 1
      split at hlog
      · rename_i hk
        exact ⟨n.raft.currLogNum + 1, hk, le_refl _⟩
      · obtain ⟨j, hj, hle⟩ := h.fresh n k u hn hlog
        exact ⟨j, hj, by omega⟩
    · rcases List.mem_cons.mp hp with rfl | hp
      · rfl
      · exact h.pending p hp
    · obtain ⟨u, hu⟩ := h.handled p hp
      exact ⟨u, hext hu⟩

omit [Unicode] in
/-- The leader and the nodes that have handled its entry hold it. -/
theorem length_replicas_lt {ids : List Str} {leader : Str} {s : WriteState}
    (h : QuorumInv ids leader s) (hids : ids.Nodup) (hleader : leader ∈ ids) {num u : Str}
    (hu : s.world.entries leader num = some u) :
    1 + (s.replicas ids leader num).length ≤ (s.world.entries.holders ids num u).length := by
  have hnodup : (leader :: s.replicas ids leader num).Nodup :=
    List.nodup_cons.mpr ⟨by simp [WriteState.replicas], hids.filter _⟩
  have hsub : leader :: s.replicas ids leader num ⊆ s.world.entries.holders ids num u := by
    intro i hi
    rw [Table.mem_holders]
    rcases List.mem_cons.mp hi with rfl | hi
    · exact ⟨hleader, hu⟩
    · simp only [WriteState.replicas, List.mem_filter, Bool.and_eq_true, decide_eq_true_eq,
        List.contains_iff_mem] at hi
      obtain ⟨hi, -, hhandled⟩ := hi
      obtain ⟨v, hv⟩ := h.handled _ hhandled
      -- What the node holds under the number is the leader's entry.
      have hsame : v = u := h.consistent.agree (h.source i num v hv) hu
      exact ⟨hi, hsame ▸ hv⟩
  have := (List.subperm_of_subset hnodup hsub).length_le
  rw [List.length_cons] at this
  omega

/-- A commit keeps the invariant: it changes no log, and what the leader applies stands at a majority
already. -/
theorem quorum_commit {ids : List Str} {leader : Str} {s : WriteState}
    (h : QuorumInv ids leader s) (hids : ids.Nodup) (hleader : leader ∈ ids) {ip num : Str}
    (hok : Quorate ids leader s (.commit ip num)) : QuorumInv ids leader (s.step (.commit ip num)) := by
  by_cases hp : (ip, num) ∈ s.pending
  · simp only [WriteState.step, if_pos hp]
    obtain rfl : ip = leader := h.pending _ hp
    cases hn : s.world.node ip with
    | none =>
      have hnone : s.world.applies ip num = none := by
        unfold World.applies
        rw [hn]
        rfl
      rw [act_of_down hn, hnone]
      exact ⟨h.consistent, h.source, h.fresh, fun p hp => h.pending p (List.mem_of_mem_erase hp),
        h.handled, h.applied⟩
    | some n =>
      have hlogs : (({ n with outbox := [] } : Node).commitHandler num).1.writer.logs =
          n.writer.logs := by rw [Node.commitHandler_writer]
      have hentries := entries_act_same (f := fun n => (n.commitHandler num).1) hn hlogs
      have hcons := consistent_act_same (f := fun n => (n.commitHandler num).1) h.consistent hn hlogs
        fun p hp => by
          rw [Node.commitHandler_outbox] at hp
          exact absurd hp (by simp)
      refine ⟨hcons, by rw [hentries]; exact h.source, fun m k u hm hlog => ?_,
        fun p hp => h.pending p (List.mem_of_mem_erase hp), by rw [hentries]; exact h.handled,
        fun x u hu => ?_⟩
      · rw [act_node hn, if_pos rfl] at hm
        obtain rfl := Option.some.inj hm
        rw [hlogs] at hlog
        rw [Node.commitHandler_raft]
        exact h.fresh n k u hn hlog
      · rw [hentries]
        rcases List.mem_append.mp hu with hu | hu
        · obtain ⟨v, hv, heq⟩ := Option.map_eq_some_iff.mp (Option.mem_toList.mp hu)
          obtain ⟨-, rfl, rfl⟩ : ip = ip ∧ num = x ∧ v = u := by simpa using heq
          -- What is applied is the log entry, and the step's condition counts who has it.
          have hentry : s.world.entries ip num = some v := by
            unfold World.applies at hv
            rw [hn] at hv
            have hlog : n.writer.logs num = some v := (Option.filter_eq_some_iff.mp hv).1
            show (s.world.node ip).bind _ = _
            rw [hn]
            exact hlog
          have hmaj := hok hp (by rw [hv]; rfl)
          have := length_replicas_lt h hids hleader hentry
          omega
        · exact h.applied x u hu
  · simp only [WriteState.step, if_neg hp]
    exact h

omit [Unicode] in
/-- Only the arrival of a copy counts as handled. -/
theorem replicaAt_of_replica {w : World} {k : ℕ} {p : Packet} (hp : w.net[k]? = some p) {n : Node}
    (hn : w.node p.dst = some n) {j : ℤ} {u : Str} (htext : p.text = Node.replicaText (intStr j) u)
    (hsafe : WireSafe u) : ∀ q ∈ w.replicaAt k, q = (p.dst, intStr j) := by
  intro q hq
  unfold World.replicaAt at hq
  simp only [hp, hn, htext, Node.parseWrite_replicaText
    (not_mem_intStr (by decide) (by decide) j) hsafe.no_semicolon] at hq
  split at hq
  · exact (Option.some.inj hq).symm
  · exact absurd hq (by simp)

omit [Unicode] in
theorem replicaAt_of_other {w : World} {k : ℕ} {p : Packet} (hp : w.net[k]? = some p)
    (hother : p.port = 7001 ∨ ∃ j : ℤ, p.text = Node.ackText (intStr j)) : w.replicaAt k = none := by
  unfold World.replicaAt
  simp only [hp]
  rcases hother with hport | ⟨j, htext⟩
  · split
    · rw [if_neg (by rw [hport]; decide)]
    · rfl
  · rw [htext, Node.parseWrite_ackText]
    split <;> simp_all

/-- After a delivery the leader has used no number beyond its counter either, if what it holds then it
held before. -/
theorem fresh_deliver {ids : List Str} {leader : Str} {s : WriteState} (h : QuorumInv ids leader s)
    {p : Packet} {n : Node} {now : Time} {after : World} (hn : s.world.node p.dst = some n)
    (hafter : ∀ x, after.node x =
      if x = p.dst then some (({ n with outbox := [] } : Node).receive p now) else s.world.node x)
    (hnum : (({ n with outbox := [] } : Node).receive p now).raft.currLogNum = n.raft.currLogNum)
    (hold : ∀ x u, after.entries leader x = some u → s.world.entries leader x = some u) {m : Node}
    {x u : Str} (hm : after.node leader = some m) (hlog : m.writer.logs x = some u) :
    ∃ j : ℤ, x = intStr j ∧ j ≤ m.raft.currLogNum := by
  have hentry : after.entries leader x = some u := by
    show (after.node leader).bind _ = _
    rw [hm]
    exact hlog
  obtain ⟨m', hm', hlog'⟩ := exists_of_entries (hold x u hentry)
  obtain ⟨j, hj, hle⟩ := h.fresh m' x u hm' hlog'
  refine ⟨j, hj, ?_⟩
  rcases node_after_turn hafter hm with ⟨rfl, hturn⟩ | ⟨-, hsame⟩
  · obtain rfl := Option.some.inj hturn
    obtain rfl := Option.some.inj (hn.symm.trans hm')
    rw [hnum]
    exact hle
  · obtain rfl := Option.some.inj (hsame.symm.trans hm')
    exact hle

/-- A delivery keeps the invariant: what it logs is an entry of the leader. -/
theorem quorum_deliver {ids : List Str} {leader : Str} {s : WriteState}
    (h : QuorumInv ids leader s) (k : ℕ) (now : Time) :
    QuorumInv ids leader (s.step (.deliver k now)) := by
  obtain ⟨hcons, hext⟩ := consistent_deliver h.consistent k now
  simp only [WriteState.step]
  cases hp : s.world.net[k]? with
  | none =>
    have hworld : s.world.deliver k now = s.world := by
      unfold World.deliver
      rw [hp]
    have hnone : s.world.replicaAt k = none := by
      unfold World.replicaAt
      rw [hp]
    simp only [hworld, hnone]
    exact h
  | some p =>
    have hworld : s.world.deliver k now = (s.world.lose k).act p.dst fun n => n.receive p now := by
      unfold World.deliver
      rw [hp]
    have hwired : Wired s.world.entries p := h.consistent.wired p (List.mem_of_getElem? hp)
    cases hn : (s.world.lose k).node p.dst with
    | none =>
      have hnone : s.world.replicaAt k = none := by
        unfold World.replicaAt
        have hn' : s.world.node p.dst = none := hn
        simp only [hp, hn']
      rw [act_of_down hn] at hworld
      simp only [hworld, hnone]
      exact ⟨hworld ▸ hcons, h.source, h.fresh, h.pending, h.handled, h.applied⟩
    | some n =>
      obtain ⟨hnum, hcase⟩ := receive_cases hwired { n with outbox := [] } now
      have hafter : ∀ x, (s.world.deliver k now).node x =
          if x = p.dst then some (({ n with outbox := [] } : Node).receive p now)
          else s.world.node x := by
        intro x
        rw [hworld, act_node hn]
        rfl
      rcases hcase with ⟨hlogs, -, hother⟩ | ⟨j, i, u, htext, hsafe, hentry, hwrite, -⟩
      · have hentries : (s.world.deliver k now).entries = s.world.entries := by
          rw [hworld, entries_act_same hn hlogs, entries_lose]
        simp only [replicaAt_of_other hp hother]
        refine ⟨hcons, by rw [hentries]; exact h.source, fun m x u hm hlog => ?_, h.pending,
          by rw [hentries]; exact h.handled, by rw [hentries]; exact h.applied⟩
        exact fresh_deliver h hn hafter hnum (fun x u hu => by rwa [hentries] at hu) hm hlog
      · have hentries : (s.world.deliver k now).entries =
            s.world.entries.write p.dst (intStr j) u := by
          rw [hworld, entries_act_write hn hwrite, entries_lose]
        -- The copy is of an entry somewhere, hence of the leader's.
        have hleader : s.world.entries leader (intStr j) = some u := h.source i _ u hentry
        refine ⟨hcons, fun a x v hv => ?_, fun m x v hm hlog => ?_, h.pending, fun q hq => ?_,
          fun num v hv => holders_of_extends hext (h.applied num v hv)⟩
        · rw [hentries] at hv
          rcases Table.eq_or_of_write hv with ⟨rfl, rfl⟩ | hold
          · exact hext hleader
          · exact hext (h.source a x v hold)
        · refine fresh_deliver h hn hafter hnum (fun x v hv => ?_) hm hlog
          rw [hentries] at hv
          rcases Table.eq_or_of_write hv with ⟨rfl, rfl⟩ | hold
          · exact hleader
          · exact hold
        · rcases List.mem_append.mp hq with hq | hq
          · rw [replicaAt_of_replica hp hn htext hsafe q (Option.mem_toList.mp hq)]
            exact ⟨u, by rw [hentries]; exact Table.write_self⟩
          · obtain ⟨v, hv⟩ := h.handled q hq
            exact ⟨v, hext hv⟩

/-- **The step lemma.** -/
theorem quorum_step {ids : List Str} {leader : Str} {s : WriteState} {e : WriteEvent}
    (h : QuorumInv ids leader s) (hids : ids.Nodup) (hleader : leader ∈ ids)
    (hok : Quorate ids leader s e) : QuorumInv ids leader (s.step e) := by
  cases e with
  | announce ip line =>
    obtain ⟨rfl, hsafe⟩ := hok
    exact quorum_announce h hsafe
  | commit ip num => exact quorum_commit h hids hleader hok
  | deliver k now => exact quorum_deliver h k now
  | lose k =>
    exact ⟨consistent_lose h.consistent k, h.source, h.fresh, h.pending, h.handled, h.applied⟩

omit [Unicode] in
/-- The state before the first write. -/
def WriteState.start (w : World) : WriteState :=
  { world := w, pending := [], handled := [], applied := [] }

omit [Unicode] in
theorem quorumInv_start {w : World} (h : Unlogged w) (ids : List Str) (leader : Str) :
    QuorumInv ids leader (.start w) where
  consistent := consistent_of_unlogged h
  source i k u hu := absurd hu (by
    show w.entries i k ≠ some u
    rw [entries_of_unlogged h]
    simp)
  fresh n k u hn hlog := absurd hlog (by rw [h.logs leader n hn k]; simp)
  pending p hp := absurd hp (by simp [WriteState.start])
  handled p hp := absurd hp (by simp [WriteState.start])
  applied num u hu := absurd hu (by simp [WriteState.start])

/-- **Commit implies replication**, in every state of every quorate run: what the leader has applied
under a number stands under that number at a majority of the cluster. -/
theorem commit_replicated {ids : List Str} {leader : Str} {w : World} (hids : ids.Nodup)
    (hleader : leader ∈ ids) (hstart : Unlogged w) {es : List WriteEvent}
    (hok : Along (Quorate ids leader) WriteState.step (.start w) es) :
    Always (fun s => ∀ num u, (leader, num, u) ∈ s.applied →
      ids.length < 2 * (s.world.entries.holders ids num u).length) WriteState.step (.start w) es :=
  fun early hearly => ((hok.always (quorumInv_start hstart ids leader)
    fun _ _ h hok => quorum_step h hids hleader hok) early hearly).applied

omit [Unicode] in
/-- The addresses of a cluster of three. -/
def trioIds : List Str := ["10.0.0.1".toList, "10.0.0.2".toList, "10.0.0.3".toList]

omit [Unicode] in
/-- Three freshly started nodes of one cluster. -/
def freshTrio : World where
  node ip :=
    if trioIds.contains ip then
      some (Node.main ip (trioIds.map some) { file := fun _ => none, denied := fun _ => false } [] 0)
    else none
  net := []

omit [Unicode] in
theorem freshTrio_unlogged : Unlogged freshTrio := by
  refine ⟨fun ip n h k => ?_, rfl⟩
  simp only [freshTrio] at h
  split at h
  · cases h
    rfl
  · exact absurd h (by simp)

omit [Unicode] in
/-- A client hands `10.0.0.3` the address of `a.com`. -/
def announceA : WriteEvent :=
  .announce "10.0.0.3".toList lineA

omit [Unicode] in
/-- The leader's entry reaches one follower before it is committed: two of three nodes have it. -/
theorem commit_replicated_delivered :
    3 < 2 * ((run (@WriteState.step Unicode.ascii) (.start freshTrio)
      [announceA, .deliver 0 0, .commit "10.0.0.3".toList ['1']]).world.entries.holders trioIds ['1']
        "a.com,A,1.1.1.1".toList).length := by
  have hok : Along (@Quorate Unicode.ascii trioIds "10.0.0.3".toList) (@WriteState.step Unicode.ascii)
      (.start freshTrio) [announceA, .deliver 0 0, .commit "10.0.0.3".toList ['1']] :=
    ⟨⟨rfl, by decide, by decide, by decide, by decide⟩, trivial, fun _ _ => by decide, trivial⟩
  exact @commit_replicated Unicode.ascii _ _ _ (by decide) (by decide) freshTrio_unlogged _ hok _
    (List.prefix_refl _) ['1'] "a.com,A,1.1.1.1".toList (by decide)

omit [Unicode] in
/-- The leader commits while its entry is still in flight: it has applied the update, and nobody else
has it. -/
theorem not_commit_replicated :
    ("10.0.0.3".toList, ['1'], "a.com,A,1.1.1.1".toList) ∈
      (run (@WriteState.step Unicode.ascii) (.start freshTrio)
        [announceA, .commit "10.0.0.3".toList ['1']]).applied ∧
    ¬ trioIds.length < 2 * ((run (@WriteState.step Unicode.ascii) (.start freshTrio)
      [announceA, .commit "10.0.0.3".toList ['1']]).world.entries.holders trioIds ['1']
        "a.com,A,1.1.1.1".toList).length := by
  decide

end DsDns
