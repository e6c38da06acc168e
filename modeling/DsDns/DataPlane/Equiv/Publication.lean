/-
  When `states.txt` is current.

  Only the general branch of `updateRecordSet` writes the file, and `beatHandler` and `raftHeart` assign the
  leader and the map themselves. `Announced` says of every operation, from the state before it, that it ends in
  that branch or changes nothing that the file shows; a node keeps its file current exactly as long as all its
  operations do (`always_current_iff`).
-/
import DsDns.DataPlane.Equiv.Election
import DsDns.DataPlane.Equiv.Raft
import DsDns.DataPlane.Equiv.Step
import DsDns.DataPlane.Lifetime

namespace DsDns

namespace States

/-- The last content of `states.txt` is the state. -/
def Current (s : States) : Prop := s.published = some s.toStateDict

/-- The numbers with which `updateRecordSet` gets to its general branch. -/
def Divides (nodeCount : ℕ) (rank lastRank : ℤ) : Prop := nodeCount ≠ 1 ∧ rank ≠ 0 ∧ lastRank ≠ 0

/-- The file is current, and so are the owned letters. -/
structure Kept (s : States) : Prop where
  current : s.Current
  sharded : s.Sharded

theorem current_updateState (s : States) : s.updateState.Current := rfl

/-- The start writes the file last. -/
theorem kept_init (selfIp : Str) (files : List (Option Str)) : (init selfIp files).Kept :=
  ⟨current_updateState _, sharded_init selfIp files⟩

/-- The file does not show the records. -/
theorem Kept.with_records {s : States} (h : s.Kept) (records : Records) :
    Kept { s with records := records } :=
  ⟨h.current, h.sharded⟩

/-! ### `updateRecordSet` -/

theorem kept_updateRecordSet {s : States} (h : Divides s.nodeCount s.rank s.lastRank) :
    s.updateRecordSet.Kept := by
  obtain ⟨hcount, hrank, hlast⟩ := h
  have hrun : s.updateRecordSet = updateState { s with selfRecords := shardLetters s.rank s.lastRank } := by
    unfold updateRecordSet
    rw [if_neg hcount, if_neg (not_or.mpr ⟨hlast, hrank⟩)]
  rw [hrun]
  refine ⟨rfl, ?_⟩
  show shardLetters s.rank s.lastRank = recordSet s.nodeCount s.rank s.lastRank
  unfold recordSet
  rw [if_neg hcount, if_neg (not_or.mpr ⟨hlast, hrank⟩)]

/-- Elsewhere nothing is written. -/
theorem updateRecordSet_silent {s : States} (h : ¬ Divides s.nodeCount s.rank s.lastRank) :
    s.updateRecordSet = { s with selfRecords := recordSet s.nodeCount s.rank s.lastRank } := by
  unfold updateRecordSet recordSet
  by_cases hcount : s.nodeCount = 1
  · rw [if_pos hcount, if_pos hcount]
  · have hzero : s.lastRank = 0 ∨ s.rank = 0 := by
      unfold Divides at h
      tauto
    rw [if_neg hcount, if_neg hcount, if_pos hzero, if_pos hzero]

/-- The two states agree in what the file shows, the owned letters apart. -/
structure SameView (t s : States) : Prop where
  selfIp : t.selfIp = s.selfIp
  nodes : t.nodes = s.nodes
  rank : t.rank = s.rank
  lastRank : t.lastRank = s.lastRank
  leader : t.leader = s.leader
  nodeCount : t.nodeCount = s.nodeCount
  leaderIp : t.leaderIp = s.leaderIp

/-- Where nothing is written, the file stays current only if nothing it shows has changed. -/
theorem kept_iff_sameView {s t : States} (h : s.Kept) (hpublished : t.published = s.published)
    (hletters : t.SameView s → t.selfRecords = s.selfRecords) : t.Kept ↔ t.SameView s := by
  have hcurrent : t.Current ↔ s.toStateDict = t.toStateDict := by
    unfold Current
    rw [hpublished, h.current, Option.some.injEq]
  constructor
  · intro hkept
    have hdict := hcurrent.mp hkept.current
    exact ⟨(congrArg StateDict.selfIp hdict).symm, (congrArg StateDict.nodes hdict).symm,
      (congrArg StateDict.rank hdict).symm, (congrArg StateDict.lastRank hdict).symm,
      (congrArg StateDict.leader hdict).symm, (congrArg StateDict.nodeCount hdict).symm,
      (congrArg StateDict.leaderIp hdict).symm⟩
  · intro hview
    have hsame := hletters hview
    obtain ⟨h1, h2, h3, h4, h5, h6, h7⟩ := hview
    constructor
    · rw [hcurrent]
      unfold toStateDict
      rw [h1, h2, h3, h4, h5, h6, h7, hsame]
    · unfold Sharded
      rw [hsame, h3, h4, h6]
      exact h.sharded

theorem kept_updateRecordSet_iff {s t : States} (h : s.Kept) (hpublished : t.published = s.published) :
    t.updateRecordSet.Kept ↔ Divides t.nodeCount t.rank t.lastRank ∨ t.SameView s := by
  by_cases hdiv : Divides t.nodeCount t.rank t.lastRank
  · exact iff_of_true (kept_updateRecordSet hdiv) (Or.inl hdiv)
  have hview : SameView { t with selfRecords := recordSet t.nodeCount t.rank t.lastRank } s ↔ t.SameView s :=
    ⟨fun ⟨h1, h2, h3, h4, h5, h6, h7⟩ => ⟨h1, h2, h3, h4, h5, h6, h7⟩,
      fun ⟨h1, h2, h3, h4, h5, h6, h7⟩ => ⟨h1, h2, h3, h4, h5, h6, h7⟩⟩
  rw [or_iff_right hdiv, updateRecordSet_silent hdiv, ← hview]
  refine kept_iff_sameView h hpublished fun hsame => ?_
  show recordSet t.nodeCount t.rank t.lastRank = s.selfRecords
  rw [show t.nodeCount = s.nodeCount from hsame.nodeCount, show t.rank = s.rank from hsame.rank,
    show t.lastRank = s.lastRank from hsame.lastRank]
  exact h.sharded.symm

/-! ### The operations of `States` -/

theorem kept_updateRank_iff {s : States} (h : s.Kept) (rank lastRank : ℤ) : (s.updateRank rank lastRank).Kept ↔
    Divides s.nodeCount rank lastRank ∨ rank = s.rank ∧ lastRank = s.lastRank := by
  refine Iff.trans (kept_updateRecordSet_iff h rfl) (or_congr_right ?_)
  constructor
  · exact fun hview => ⟨hview.rank, hview.lastRank⟩
  · rintro ⟨rfl, rfl⟩
    exact ⟨rfl, rfl, rfl, rfl, rfl, rfl, rfl⟩

theorem kept_addNodes_iff {s : States} (h : s.Kept) (ip : Str) : (s.addNodes ip).Kept ↔
    ip ∈ s.nodes.keys ∨ s.nodeCount ≠ 0 ∧ s.rank ≠ 0 := by
  by_cases hip : ip ∈ s.nodes.keys
  · rw [addNodes_of_mem (OrderedDict.contains_iff.mpr hip)]
    exact iff_of_true h (Or.inl hip)
  have hrun : s.addNodes ip = updateRecordSet { s with
      nodeCount := s.nodeCount + 1
      nodes := s.nodes.set ip (s.nodeCount + 1)
      lastRank := (s.nodes.set ip (s.nodeCount + 1)).length } := by
    unfold addNodes
    rw [OrderedDict.contains_eq_false_iff.mpr hip]
    rfl
  rw [or_iff_right hip, hrun]
  refine Iff.trans (kept_updateRecordSet_iff h rfl) ?_
  rw [or_iff_left fun hview => absurd hview.nodeCount (by simp)]
  show s.nodeCount + 1 ≠ 1 ∧ s.rank ≠ 0 ∧ ((s.nodes.set ip (s.nodeCount + 1)).length : ℤ) ≠ 0 ↔ _
  rw [OrderedDict.length_set_of_not_mem hip]
  push_cast
  omega

/-- The ranks of a renumbered map start at 1, and so does the rank of a node outside it. -/
theorem rank_renumber_ne_zero (nodes : OrderedDict Str ℤ) (ip : Str) :
    ((renumber nodes).get? ip).getD 1 ≠ 0 := by
  by_cases hip : ip ∈ (renumber nodes).keys
  · obtain ⟨i, hi⟩ := List.getElem?_of_mem hip
    rw [ranked_renumber nodes i ip hi, Option.getD_some]
    omega
  · rw [OrderedDict.get?_eq_none_iff.mpr hip]
    decide

/-- `updateRecordSet` divides the letters among the nodes that stay if these are two or more. -/
theorem divides_erase_iff {nodes : OrderedDict Str ℤ} {ip : Str} (hip : ip ∈ nodes.keys) (x : Str) :
    Divides (nodes.erase ip).length (((renumber (nodes.erase ip)).get? x).getD 1)
      (renumber (nodes.erase ip)).length ↔ 3 ≤ nodes.length := by
  have hlength := OrderedDict.length_erase_of_mem hip
  unfold Divides
  rw [length_renumber, and_iff_right (rank_renumber_ne_zero _ x)]
  omega

theorem renumber_erase_ne {nodes : OrderedDict Str ℤ} {ip : Str} (hip : ip ∈ nodes.keys) :
    renumber (nodes.erase ip) ≠ nodes := by
  intro hsame
  have hlength := OrderedDict.length_erase_of_mem hip
  have hkept := length_renumber (nodes.erase ip)
  rw [hsame] at hkept
  omega

theorem removeNode_of_mem {s : States} {ip : Str} (hip : ip ∈ s.nodes.keys) :
    s.removeNode ip = updateRecordSet { s with
      nodes := renumber (s.nodes.erase ip)
      nodeCount := (s.nodes.erase ip).length
      rank := ((renumber (s.nodes.erase ip)).get? s.selfIp).getD 1
      lastRank := (renumber (s.nodes.erase ip)).length } := by
  unfold removeNode
  rw [if_pos (OrderedDict.contains_iff.mpr hip)]

theorem kept_removeNode_iff {s : States} (h : s.Kept) (ip : Str) : (s.removeNode ip).Kept ↔
    (ip ∈ s.nodes.keys → 3 ≤ s.nodes.length) := by
  by_cases hip : ip ∈ s.nodes.keys
  · rw [forall_prop_of_true hip, removeNode_of_mem hip]
    refine Iff.trans (kept_updateRecordSet_iff h rfl) ?_
    rw [or_iff_left fun hview => renumber_erase_ne hip hview.nodes]
    exact divides_erase_iff hip s.selfIp
  · rw [removeNode_of_not_mem (OrderedDict.contains_eq_false_iff.mpr hip)]
    exact iff_of_true h fun hmem => absurd hmem hip

/-! ### The leader timeout -/

/-- Where the silent leader is in the map, two nodes must be left; otherwise the rank must be a new one, or
the node its own leader already. -/
def Promotes (s : States) : Prop :=
  if s.leaderIp ∈ s.nodes.keys then 3 ≤ s.nodes.length
  else Divides s.nodeCount ((s.nodes.get? s.selfIp).getD 1) s.lastRank ∨
    s.selfIp = s.leaderIp ∧ (s.nodes.get? s.selfIp).getD 1 = s.rank

end States

open States

theorem kept_promote_iff {n : Node} (h : n.states.Kept) : n.promote.states.Kept ↔ n.states.Promotes := by
  unfold Promotes Node.promote
  by_cases hleader : n.states.leaderIp ∈ n.states.nodes.keys
  · rw [if_pos hleader]
    have hdivides := divides_erase_iff hleader n.states.selfIp
    by_cases hlength : 3 ≤ n.states.nodes.length
    · obtain ⟨p, hp⟩ := removeNode_eq (OrderedDict.contains_iff.mpr hleader) rfl
      rw [hp]
      exact iff_of_true (kept_updateRecordSet (hdivides.mpr hlength)) hlength
    · -- Neither of the two calls of `updateRecordSet` gets to the general branch.
      rw [removeNode_of_mem hleader, updateRecordSet_silent (mt hdivides.mp hlength)]
      refine Iff.trans (kept_updateRecordSet_iff h rfl) ?_
      rw [or_iff_left fun hview => renumber_erase_ne hleader hview.nodes]
      exact hdivides
  · rw [if_neg hleader, removeNode_of_not_mem (OrderedDict.contains_eq_false_iff.mpr hleader)]
    refine Iff.trans (kept_updateRecordSet_iff h rfl) (or_congr_right ?_)
    constructor
    · exact fun hview => ⟨hview.leaderIp, hview.rank⟩
    · rintro ⟨hself, hrank⟩
      exact ⟨rfl, rfl, hrank, rfl, rfl, rfl, hself⟩

/-! ### Heartbeats -/

variable [Unicode]

/-- Both addresses can be read. -/
def Comparable (l m : Str) : Prop := (ipv4 l).isSome ∧ (ipv4 m).isSome

/-- A heartbeat `l;r;lr` brings new numbers and goes through `updateRecordSet`, or comes from a known sender who
is no better leader and brings none. -/
def Node.Heeds (n : Node) (l : Str) (r lr : ℤ) : Prop :=
  Comparable l n.states.leaderIp ∧ (n.states.rank ≠ r ∨ n.states.lastRank ≠ lr) ∧
    Divides n.states.nodeCount r lr ∨
  l ∈ n.states.nodes.keys ∧ outranks l n.states.leaderIp = false ∧
    (Comparable l n.states.leaderIp → n.states.rank = r ∧ n.states.lastRank = lr)

omit [Unicode] in
theorem comparable_of_outranks {l m : Str} (h : outranks l m = true) : Comparable l m := by
  obtain ⟨ld, my, hl, hm, -⟩ := Node.outranks_iff.mp h
  unfold Comparable
  rw [hl, hm]
  exact ⟨rfl, rfl⟩

omit [Unicode] in
/-- A node that has registered the sender and looked at its address. -/
theorem followHigher_registerSender (n : Node) (l : Str) (ld my : ℕ) : ∃ nodes m,
    ((n.registerSender l).followHigher l ld my).states =
      { n.states with nodes := nodes, mLastRank := m, leaderIp := if my < ld then l else n.states.leaderIp } ∧
    (nodes = n.states.nodes ↔ l ∈ n.states.nodes.keys) := by
  have hnodes := n.registerSender_nodes_iff l
  obtain ⟨nodes, m, c, hr⟩ := n.registerSender_eq l
  rw [hr] at hnodes
  refine ⟨nodes, m, ?_, hnodes⟩
  rw [hr]
  unfold Node.followHigher
  split <;> rfl

omit [Unicode] in
/-- Where the numbers are old, the sender must be known and no better leader. -/
theorem kept_followed_iff {n : Node} (h : n.states.Kept) {l : Str} {ld my : ℕ} (hl : ipv4 l = some ld)
    (hm : ipv4 n.states.leaderIp = some my) : ((n.registerSender l).followHigher l ld my).states.Kept ↔
      l ∈ n.states.nodes.keys ∧ outranks l n.states.leaderIp = false := by
  obtain ⟨nodes, m, hstates, hnodes⟩ := followHigher_registerSender n l ld my
  have houtranks : outranks l n.states.leaderIp = decide (my < ld) := by
    unfold outranks
    rw [hl, hm]
  rw [hstates, houtranks, decide_eq_false_iff_not, ← hnodes]
  refine Iff.trans (kept_iff_sameView h rfl fun _ => rfl) ?_
  constructor
  · intro hview
    refine ⟨hview.nodes, fun hlt => ?_⟩
    have hleader : (if my < ld then l else n.states.leaderIp) = n.states.leaderIp := hview.leaderIp
    rw [if_pos hlt] at hleader
    rw [hleader, hm] at hl
    have := Option.some.inj hl
    omega
  · rintro ⟨hsame, hle⟩
    exact ⟨rfl, hsame, rfl, rfl, rfl, rfl, if_neg hle⟩

omit [Unicode] in
/-- New numbers go through `updateRecordSet`. -/
theorem kept_adoptRank_iff {s : States} (h : s.Kept) {n : Node} (hpublished : n.states.published = s.published)
    (hrank : n.states.rank = s.rank) (hlast : n.states.lastRank = s.lastRank) (r lr : ℤ) :
    (n.adoptRank r lr).states.Kept ↔
      if s.rank ≠ r ∨ s.lastRank ≠ lr then Divides n.states.nodeCount r lr else n.states.Kept := by
  unfold Node.adoptRank
  rw [hrank, hlast]
  split
  · rename_i hnew
    refine Iff.trans (kept_updateRecordSet_iff h hpublished) (or_iff_left fun hview => ?_)
    rcases hnew with hnew | hnew
    · exact hnew hview.rank.symm
    · exact hnew hview.lastRank.symm
  · rfl

omit [Unicode] in
/-- Where the addresses cannot be compared, a heartbeat only registers its sender. -/
theorem heeds_iff_of_not_comparable {n : Node} {l : Str} (h : ¬ Comparable l n.states.leaderIp) (r lr : ℤ) :
    n.Heeds l r lr ↔ l ∈ n.states.nodes.keys := by
  have houtranks : outranks l n.states.leaderIp = false :=
    Bool.eq_false_iff.mpr (mt comparable_of_outranks h)
  unfold Node.Heeds
  tauto

omit [Unicode] in
theorem kept_registerSender_iff {n : Node} (h : n.states.Kept) (l : Str) :
    (n.registerSender l).states.Kept ↔ l ∈ n.states.nodes.keys := by
  obtain ⟨nodes, m, c, hr⟩ := n.registerSender_eq l
  have hnodes := n.registerSender_nodes_iff l
  rw [hr] at hnodes ⊢
  refine Iff.trans (kept_iff_sameView h rfl fun _ => rfl) (Iff.trans ?_ hnodes)
  exact ⟨fun hview => hview.nodes, fun hsame => ⟨rfl, hsame, rfl, rfl, rfl, rfl, rfl⟩⟩

theorem kept_beatHandler_iff {n : Node} (h : n.states.Kept) (line : Str) (now : Time) :
    (n.beatHandler line now).states.Kept ↔ ∀ l r lr, parseBeat line = some (l, r, lr) → n.Heeds l r lr := by
  rcases n.beatHandler_cases line now with ⟨hparse, hrun⟩ | ⟨l, r, lr, hparse, hno, hrun⟩ |
    ⟨l, r, lr, ld, my, hparse, hl, hm, hrun⟩
  · rw [hrun, hparse]
    exact iff_of_true h fun l r lr hsome => absurd hsome (by simp)
  · have hcomparable : ¬ Comparable l n.states.leaderIp := by
      rintro ⟨hl, hm⟩
      rcases hno with hno | hno
      · rw [hno] at hl
        exact absurd hl (by decide)
      · rw [hno] at hm
        exact absurd hm (by decide)
    rw [hrun, forall_parsed_iff hparse, heeds_iff_of_not_comparable hcomparable]
    exact kept_registerSender_iff (n := n.heard now) h l
  · have hcomparable : Comparable l n.states.leaderIp := by
      unfold Comparable
      rw [hl, hm]
      exact ⟨rfl, rfl⟩
    rw [hrun, forall_parsed_iff hparse]
    obtain ⟨nodes, m, hstates, -⟩ := followHigher_registerSender (n.heard now) l ld my
    have hadopt := kept_adoptRank_iff h (n := ((n.heard now).registerSender l).followHigher l ld my)
      (by rw [hstates]; rfl) (by rw [hstates]; rfl) (by rw [hstates]; rfl) r lr
    have hfollowed := kept_followed_iff (n := n.heard now) h hl hm
    have hcount : (((n.heard now).registerSender l).followHigher l ld my).states.nodeCount =
        n.states.nodeCount := by
      rw [hstates]
      rfl
    rw [hadopt, hfollowed, hcount]
    unfold Node.Heeds
    by_cases hnew : n.states.rank ≠ r ∨ n.states.lastRank ≠ lr
    · rw [if_pos hnew, and_iff_right hcomparable, and_iff_right hnew, or_iff_left]
      rintro ⟨-, -, hold⟩
      obtain ⟨hr, hlr⟩ := hold hcomparable
      exact hnew.elim (absurd hr) (absurd hlr)
    · rw [if_neg hnew, or_iff_right fun hall => hnew hall.2.1]
      rw [not_or, not_not, not_not] at hnew
      show l ∈ n.states.nodes.keys ∧ outranks l n.states.leaderIp = false ↔ _
      exact and_congr_right fun _ => (and_iff_left fun _ => hnew).symm

/-! ### Runs -/

/-- From the state before it, the operation ends in the general branch of `updateRecordSet`, or changes nothing
that the file shows. -/
def StateEvent.Announced (n : Node) : StateEvent → Prop
  | .node (.beat line _) => ∀ l r lr, parseBeat line = some (l, r, lr) → n.Heeds l r lr
  | .node (.tick now) => n.TimedOut now → n.states.Promotes
  | .node (.addNodes ip) => ip ∈ n.states.nodes.keys ∨ n.states.nodeCount ≠ 0 ∧ n.states.rank ≠ 0
  | .node (.removeNode ip) => ip ∈ n.states.nodes.keys → 3 ≤ n.states.nodes.length
  | .node (.updateRank rank lastRank) =>
    Divides n.states.nodeCount rank lastRank ∨ rank = n.states.rank ∧ lastRank = n.states.lastRank
  | .node (.write _) | .node (.newRecord _ _) | .setLeaderIp _ => True

omit [Unicode] in
theorem kept_writeFrame {n m : Node} (hm : Node.WriteFrame n m) (h : n.states.Kept) : m.states.Kept := by
  rw [hm.states]
  exact h.with_records m.states.records

/-- **The step lemma.** -/
theorem kept_stateStep_iff {n : Node} (h : n.states.Kept) (e : StateEvent) :
    (n.stateStep e).states.Kept ↔ e.Announced n := by
  cases e with
  | setLeaderIp ip => exact iff_of_true ⟨rfl, h.sharded⟩ trivial
  | node e =>
    cases e with
    | beat line now => exact kept_beatHandler_iff h line now
    | tick now =>
      show (n.raftHeart now).states.Kept ↔ (n.TimedOut now → n.states.Promotes)
      by_cases htime : n.TimedOut now
      · rw [Node.raftHeart_promoted htime, forall_prop_of_true htime]
        show (n.periodicBeat now).promote.states.Kept ↔ _
        rw [kept_promote_iff] <;> rw [n.periodicBeat_states now]
        exact h
      · rw [Node.raftHeart_kept htime, n.periodicBeat_states now]
        exact iff_of_true h fun htrue => absurd htrue htime
    | write line => exact iff_of_true (kept_writeFrame (n.writeFrame_writeHandler line) h) trivial
    | newRecord domain ip => exact iff_of_true (kept_writeFrame (n.writeFrame_newRecord domain ip) h) trivial
    | addNodes ip => exact kept_addNodes_iff h ip
    | removeNode ip => exact kept_removeNode_iff h ip
    | updateRank rank lastRank => exact kept_updateRank_iff h rank lastRank

theorem sharded_beatHandler {n : Node} (h : n.states.Sharded) (line : Str) (now : Time) :
    (n.beatHandler line now).states.Sharded := by
  rcases n.beatHandler_cases line now with ⟨-, hrun⟩ | ⟨l, r, lr, -, -, hrun⟩ |
    ⟨l, r, lr, ld, my, -, -, -, hrun⟩
  · rw [hrun]
    exact h
  · obtain ⟨nodes, m, c, hr⟩ := (n.heard now).registerSender_eq l
    rw [hrun, hr]
    exact h
  · obtain ⟨nodes, m, hstates, -⟩ := followHigher_registerSender (n.heard now) l ld my
    obtain ⟨p, hadopt⟩ := (((n.heard now).registerSender l).followHigher l ld my).adoptRank_eq r lr
    rw [hrun, hadopt, hstates]
    exact sharded_adopted h r lr

/-- The owned letters follow the numbers at every step. -/
theorem sharded_stateStep {n : Node} (h : n.states.Sharded) (e : StateEvent) :
    (n.stateStep e).states.Sharded := by
  cases e with
  | setLeaderIp ip => exact h
  | node e =>
    cases e with
    | beat line now => exact sharded_beatHandler h line now
    | tick now =>
      show (n.raftHeart now).states.Sharded
      by_cases htime : n.TimedOut now
      · rw [Node.raftHeart_promoted htime]
        exact sharded_updateRecordSet _
      · rw [Node.raftHeart_kept htime, n.periodicBeat_states now]
        exact h
    | write line =>
      show (n.writeHandler line).1.states.Sharded
      rw [(n.writeFrame_writeHandler line).states]
      exact h
    | newRecord domain ip =>
      show (n.newRecord (fun _ => some ip.val) domain).1.states.Sharded
      rw [(n.writeFrame_newRecord domain ip).states]
      exact h
    | addNodes ip => exact sharded_addNodes h ip
    | removeNode ip => exact sharded_removeNode h ip
    | updateRank rank lastRank => exact sharded_updateRank n.states rank lastRank

/-- **When the published state is current**: from its start on, a node keeps `states.txt` current in every
state exactly if all its operations are announced. -/
theorem always_current_iff (selfIp : Str) (files : List (Option Str)) (disk : Disk) (heads : List Str)
    (now : Time) (es : List StateEvent) :
    Always (fun n => n.states.Current) Node.stateStep (Node.main selfIp files disk heads now) es ↔
      Along (fun n e => e.Announced n) Node.stateStep (Node.main selfIp files disk heads now) es := by
  have hkept : (Node.main selfIp files disk heads now).states.Kept :=
    (kept_init selfIp files).with_records (loadShards disk heads)
  have hsharded : Always (fun n => n.states.Sharded) Node.stateStep (Node.main selfIp files disk heads now) es :=
    always_of_step hkept.sharded fun _ e hn => sharded_stateStep hn e
  rw [← always_iff_along (P := fun n : Node => n.states.Kept) hkept fun _ e hn => kept_stateStep_iff hn e]
  constructor
  · exact fun hcurrent early hearly => ⟨hcurrent early hearly, hsharded early hearly⟩
  · exact fun hall => hall.mono fun _ hn => hn.current

omit [Unicode] in
/-- A heartbeat of a new leader with the old rank, and the removal of all the other nodes. -/
theorem not_always_current :
    ((run (@Node.stateStep Unicode.ascii) thirdNode
        [.node (.beat ⟨"10.0.0.3;1;3".toList, by decide, by decide⟩ 0)]).states.leaderIp =
          "10.0.0.3".toList ∧
      (run (@Node.stateStep Unicode.ascii) thirdNode
        [.node (.beat ⟨"10.0.0.3;1;3".toList, by decide, by decide⟩ 0)]).states.published.map
          StateDict.leaderIp = some "10.0.0.1".toList) ∧
    ((run (@Node.stateStep Unicode.ascii) thirdNode [.node (.removeNode "10.0.0.2".toList),
        .node (.removeNode "10.0.0.3".toList)]).states.selfRecords = letters alphabet ∧
      (run (@Node.stateStep Unicode.ascii) thirdNode [.node (.removeNode "10.0.0.2".toList),
        .node (.removeNode "10.0.0.3".toList)]).states.published.map StateDict.selfRecords =
          some (letters "abcdefghijklm".toList)) ∧
    ¬ Always (fun n => n.states.Current) (@Node.stateStep Unicode.ascii) thirdNode
        [.node (.beat ⟨"10.0.0.3;1;3".toList, by decide, by decide⟩ 0)] ∧
    ¬ Always (fun n => n.states.Current) (@Node.stateStep Unicode.ascii) thirdNode
        [.node (.removeNode "10.0.0.2".toList), .node (.removeNode "10.0.0.3".toList)] := by
  refine ⟨⟨by decide, by decide⟩, ⟨by decide, by decide⟩, fun h => ?_, fun h => ?_⟩
  · exact absurd (h _ (List.prefix_refl _)) (by unfold Current; decide)
  · exact absurd (h _ (List.prefix_refl _)) (by unfold Current; decide)

end DsDns
