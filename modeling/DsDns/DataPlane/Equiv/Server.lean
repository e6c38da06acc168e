/-
  Reads do not depend on the node they arrive at.

  In a settled cluster (`Settled`: one leader that knows every node, everybody else following it,
  disjoint shards) a domain has at most one owner. Every other node answers a local lookup with
  `N/A` (`localLookup_of_not_owner`), so the leader's fan-out finds exactly the owner's record
  (`sendReadTo_eq`), and a follower's forward brings the leader's answer back unchanged. The three
  cases together are `resolve_eq_record`: whichever node is asked, the answer is the owner's record
  and the cluster is left as it was.
-/
import DsDns.DataPlane.Server
import DsDns.Text.Equiv.Basic

namespace DsDns

variable [Unicode]

/-- A cluster with one leader `L`: everybody is reachable under its own address, everybody but `L`
follows `L`, and `L` has everybody in its map. -/
structure Settled (cl : Cluster) (L : Str) : Prop where
  selfIp : ∀ ip n, cl ip = some n → n.states.selfIp = ip
  leader : ∃ l, cl L = some l ∧ l.raft.leader = true ∧
    ∀ ip n, cl ip = some n → ip ∈ l.states.nodes.keys
  follower : ∀ ip n, cl ip = some n → ip ≠ L → n.raft.leader = false ∧ n.states.leaderIp = L
  disjoint : cl.Disjoint

omit [Unicode] in
/-- A domain as a client sends it: not blank, trimmed, on one line and no `PEER:` request. -/
structure IsQuery (d : Str) : Prop where
  ne_nil : d ≠ []
  trimmed : strip d = d
  no_newline : '\n' ∉ d
  no_return : '\r' ∉ d
  not_peer : startsWith d "PEER:".toList = false

omit [Unicode] in
/-- A record that survives the wire: not empty, not `N/A`, trimmed, on one line, and with its
newline short enough for one `recv`. -/
structure IsAnswer (v : Str) : Prop where
  ne_nil : v ≠ []
  ne_notAvailable : v ≠ notAvailable
  trimmed : strip v = v
  no_newline : '\n' ∉ v
  no_return : '\r' ∉ v
  short : (v.map Char.utf8Size).sum + 1 ≤ 4096

/-! ### One node -/

omit [Unicode] in
theorem recv_of_le {s : Str} : ∀ {limit : ℕ}, (s.map Char.utf8Size).sum ≤ limit →
    recv limit s = some s := by
  induction s with
  | nil => intro limit _; rfl
  | cons c s ih =>
    intro limit h
    rw [List.map_cons, List.sum_cons] at h
    rw [recv, if_pos (by omega), ih (by omega)]
    rfl

/-- The owner of a domain answers from its memory. -/
theorem localLookup_eq (n : Node) (d : Str) : n.localLookup d =
    if n.states.owns d then (n.states.records (lower (strip d), ['A'])).getD notAvailable else notAvailable := by
  have hA : upper (strip ['A']) = ['A'] := by
    rw [show strip ['A'] = ['A'] by decide, upper, List.flatMap_singleton,
      Unicode.upperChar_ascii _ (by decide)]
    rfl
  unfold Node.localLookup States.recordResponse
  rw [hA]
  split <;> rfl

theorem localLookup_of_not_owner {n : Node} {d : Str} (h : n.states.owns d = false) :
    n.localLookup d = notAvailable := by
  rw [Node.localLookup, h]
  rfl

theorem localLookup_of_owner {n : Node} {d v : Str} (hd : strip d = d) (h : n.states.owns d = true)
    (hv : n.states.records (lower d, ['A']) = some v) : n.localLookup d = v := by
  rw [localLookup_eq, if_pos h, hd, hv]
  rfl

/-- Two nodes with disjoint shards do not both own a domain. -/
theorem not_owns_of_disjoint {n m : Node} {d : Str}
    (hdis : ∀ x ∈ n.states.selfRecords, x ∉ m.states.selfRecords) (h : n.states.owns d = true) :
    m.states.owns d = false := by
  cases d with
  | nil => rfl
  | cons c s =>
    have hmem : lower [c] ∈ n.states.selfRecords := by simpa [States.owns] using h
    simpa [States.owns] using hdis _ hmem

/-! ### The fan-out of the leader -/

theorem handlePeer_eq (n : Node) {d : Str} (hd : IsQuery d) :
    n.handlePeer ("PEER:".toList ++ d ++ ['\n']) = n.localLookup d ++ ['\n'] := by
  have hstrip : strip ("PEER:".toList ++ d ++ ['\n']) = "PEER:".toList ++ d := by
    rw [strip_append_newline]
    show strip ('P' :: ("EER:".toList ++ d)) = _
    have hr : rstrip d = d := by rw [← hd.trimmed, rstrip_strip]
    rw [strip_cons_of_not_space (by decide)]
    show 'P' :: rstrip ("EER".toList ++ ':' :: d) = _
    rw [rstrip_append_cons (by decide), hr]
    rfl
  rw [Node.handlePeer, hstrip]
  rfl

/-- A peer that does not own the domain answers `N/A`, the owner answers its record. -/
theorem askPeer_eq {cl : Cluster} {ip d v : Str} {n : Node} (hn : cl ip = some n) (hd : IsQuery d)
    (hv : IsAnswer v) (hlocal : n.localLookup d = v ∨ n.localLookup d = notAvailable) :
    Node.askPeer cl d ip = some (n.localLookup d) := by
  have hreply : ∀ w : Str, (w.map Char.utf8Size).sum + 1 ≤ 4096 → strip w = w →
      (recv 4096 (w ++ ['\n'])).bind (fun r => some (strip r)) = some w := by
    intro w hlen hw
    have hsize : ((w ++ ['\n']).map Char.utf8Size).sum ≤ 4096 := by
      rw [List.map_append, List.sum_append]
      exact hlen
    rw [recv_of_le hsize, Option.bind_some, strip_append_newline, hw]
  rw [Node.askPeer, hn, Option.bind_eq_bind, Option.bind_some, handlePeer_eq n hd]
  rcases hlocal with h | h
  · rw [h]
    exact hreply v hv.short hv.trimmed
  · rw [h]
    exact hreply notAvailable (by decide) (by decide)

/-- **The fan-out**: if every reachable peer answers `N/A` but the owner, who is asked, the result is
the owner's record. -/
theorem sendReadTo_eq {cl : Cluster} {d v o : Str} {w : Node} (hd : IsQuery d) (hv : IsAnswer v)
    (ho : cl o = some w) (hw : w.localLookup d = v)
    (hother : ∀ ip n, cl ip = some n → ip ≠ o → n.localLookup d = notAvailable) (ips : List Str)
    (hmem : o ∈ ips) : Node.sendReadTo cl d ips = v := by
  induction ips with
  | nil => simp at hmem
  | cons ip ips ih =>
    rw [Node.sendReadTo]
    by_cases hip : ip = o
    · subst hip
      rw [askPeer_eq ho hd hv (Or.inl hw), hw]
      simp only [hv.ne_nil, hv.ne_notAvailable, ne_eq, not_false_eq_true, and_self, if_true]
    · have hmem' : o ∈ ips := (List.mem_cons.mp hmem).resolve_left (Ne.symm hip)
      cases hn : cl ip with
      | none =>
        have hask : Node.askPeer cl d ip = none := by rw [Node.askPeer, hn]; rfl
        rw [hask]
        exact ih hmem'
      | some n =>
        have hna := hother ip n hn hip
        rw [askPeer_eq hn hd hv (Or.inr hna), hna]
        simp only [ne_eq, not_true_eq_false, and_false, if_false]
        exact ih hmem'

/-! ### The cluster -/

variable (gethostbyname : Str → Option Str)

/-- The leader answers with the owner's record. -/
theorem resolve_at_leader {cl : Cluster} {L d v o : Str} {w : Node} (hcl : Settled cl L)
    (hd : IsQuery d) (hv : IsAnswer v) (ho : cl o = some w) (hw : w.localLookup d = v)
    (hother : ∀ ip n, cl ip = some n → ip ≠ o → n.localLookup d = notAvailable) (fuel : ℕ) :
    resolve gethostbyname (fuel + 1) cl L d = some (v, cl) := by
  obtain ⟨l, hl, hlead, hmap⟩ := hcl.leader
  rw [resolve, hl]
  by_cases hLo : L = o
  · subst hLo
    obtain rfl : l = w := Option.some.inj (hl.symm.trans ho)
    simp only [hw, hv.ne_notAvailable, ne_eq, not_false_eq_true, if_true]
  · have hself : o ≠ l.states.selfIp := by rw [hcl.selfIp L l hl]; exact Ne.symm hLo
    have hread : l.sendRead cl d = v := by
      rw [Node.sendRead, if_pos hlead]
      refine sendReadTo_eq hd hv ho hw hother _ (List.mem_filter.mpr ⟨hmap o w ho, ?_⟩)
      simpa using hself
    simp only [hother L l hl hLo, hread, hlead, hv.ne_notAvailable, ne_eq, not_true_eq_false,
      not_false_eq_true, if_true, if_false]

/-- **Location transparency.** In a settled cluster, if the owner of a domain holds a record for it,
a client read of the domain returns that record at every node, and leaves every node as it was. One
forward is enough: fuel for two nodes always suffices. -/
theorem resolve_eq_record {cl : Cluster} {L d v o N : Str} {w n : Node} (hcl : Settled cl L)
    (hd : IsQuery d) (hv : IsAnswer v) (ho : cl o = some w) (howns : w.states.owns d = true)
    (hrec : w.states.records (lower d, ['A']) = some v) (hN : cl N = some n) (fuel : ℕ) :
    resolve gethostbyname (fuel + 2) cl N d = some (v, cl) := by
  have hw : w.localLookup d = v := localLookup_of_owner hd.trimmed howns hrec
  have hother : ∀ ip m, cl ip = some m → ip ≠ o → m.localLookup d = notAvailable := fun ip m hm hip =>
    localLookup_of_not_owner
      (not_owns_of_disjoint (hcl.disjoint o ip w m ho hm (Ne.symm hip)) howns)
  have hleader := resolve_at_leader gethostbyname hcl hd hv ho hw hother fuel
  by_cases hNL : N = L
  · subst hNL
    exact resolve_at_leader gethostbyname hcl hd hv ho hw hother (fuel + 1)
  rw [resolve, hN]
  by_cases hNo : N = o
  · subst hNo
    obtain rfl : n = w := Option.some.inj (hN.symm.trans ho)
    simp only [hw, hv.ne_notAvailable, ne_eq, not_false_eq_true, if_true]
  -- A follower that does not own the domain forwards it to the leader.
  obtain ⟨hfollow, hLip⟩ := hcl.follower N n hN hNL
  obtain ⟨l, hl, -, -⟩ := hcl.leader
  have hline : strip (firstLine (v ++ ['\n'])) = v := by
    rw [firstLine, readLines_line hv.no_newline hv.no_return, List.headD_cons, strip_append_newline,
      hv.trimmed]
  have hread : handleRead (fun line => resolve gethostbyname (fuel + 1) cl L line) cl l (d ++ ['\n'])
      = some (v ++ ['\n'], cl) := by
    simp only [handleRead, strip_append_newline, hd.trimmed, hd.ne_nil, hd.not_peer, if_false,
      Bool.false_eq_true, hleader]
    rfl
  simp only [hother N n hN hNo, hfollow, hLip, hl, hread, hline, hv.ne_nil, ne_eq, not_true_eq_false,
    Bool.false_eq_true, if_false, Option.map_some]

/-! ### A cluster of two -/

omit [Unicode] in
/-- A freshly started node next to one file, with the record of `a.com`. -/
def siteNode (selfIp : Str) (heads : List Str) : Node :=
  Node.main selfIp [some "10.0.0.1".toList, some "10.0.0.2".toList]
    { file := fun s => if s = ['a'] then some "a.com,A,1.1.1.1\n".toList else none
      denied := fun _ => false } heads 0

omit [Unicode] in
/-- `10.0.0.1` after the first heartbeat of `10.0.0.2`. -/
def siteFollower : Node :=
  @Node.beatHandler Unicode.ascii (siteNode "10.0.0.1".toList [['a']]) "10.0.0.2;1;2".toList 0

omit [Unicode] in
/-- Two nodes of one cluster: `10.0.0.2` leads, `10.0.0.1` follows it and owns `a.com`. -/
def site : Cluster := fun ip =>
  if ip = "10.0.0.2".toList then some (siteNode "10.0.0.2".toList [])
  else if ip = "10.0.0.1".toList then some siteFollower
  else none

omit [Unicode] in
theorem site_cases {ip : Str} {n : Node} (h : site ip = some n) :
    (ip = "10.0.0.2".toList ∧ n = siteNode "10.0.0.2".toList []) ∨
      (ip = "10.0.0.1".toList ∧ n = siteFollower) := by
  unfold site at h
  split at h
  · rename_i h2
    exact Or.inl ⟨h2, (Option.some.inj h).symm⟩
  · split at h
    · rename_i h1
      exact Or.inr ⟨h1, (Option.some.inj h).symm⟩
    · exact absurd h (by simp)

omit [Unicode] in
theorem site_settled : Settled site "10.0.0.2".toList where
  selfIp ip n h := by
    rcases site_cases h with ⟨rfl, rfl⟩ | ⟨rfl, rfl⟩ <;> decide
  leader := by
    refine ⟨siteNode "10.0.0.2".toList [], if_pos rfl, rfl, fun ip n h => ?_⟩
    rcases site_cases h with ⟨rfl, -⟩ | ⟨rfl, -⟩ <;> decide
  follower ip n h hne := by
    rcases site_cases h with ⟨rfl, -⟩ | ⟨-, rfl⟩
    · exact absurd rfl hne
    · decide
  disjoint ip jp n m hn hm hne := by
    rcases site_cases hn with ⟨rfl, rfl⟩ | ⟨rfl, rfl⟩ <;>
      rcases site_cases hm with ⟨rfl, rfl⟩ | ⟨rfl, rfl⟩
    · exact absurd rfl hne
    · decide
    · decide
    · exact absurd rfl hne

omit [Unicode] in
/-- The leader, which does not own `a.com`, answers with the follower's record. -/
theorem resolve_eq_record_at_leader :
    @resolve Unicode.ascii (fun _ => none) 2 site "10.0.0.2".toList "a.com".toList =
      some ("1.1.1.1".toList, site) := by
  have hquery : IsQuery "a.com".toList := ⟨by decide, by decide, by decide, by decide, by decide⟩
  have hanswer : IsAnswer "1.1.1.1".toList :=
    ⟨by decide, by decide, by decide, by decide, by decide, by decide⟩
  have howner : site "10.0.0.1".toList = some siteFollower := rfl
  have hentry : site "10.0.0.2".toList = some (siteNode "10.0.0.2".toList []) := rfl
  exact @resolve_eq_record Unicode.ascii _ _ _ _ _ _ _ _ _ site_settled hquery hanswer howner
    (by decide) (by decide) hentry 0

end DsDns
