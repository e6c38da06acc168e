/-
  When the leader and a follower apply an update alike.

  `commitHandler` and the type-2 branch of `writeHandler` read the same text with two parsers: the
  leader takes three fields or more and raises on an empty domain, the follower takes exactly three and
  skips an empty domain; and only the leader's write goes through a file. `leader_effect` and
  `follower_effect` give the write each performs, whatever the records hold, and `applied_alike_iff` the
  texts and files on which the two are the same. `not_applied_alike` is an update with a fourth field,
  and one without a domain.
-/
import DsDns.DataPlane.Equiv.Commit
import DsDns.DataPlane.Equiv.Server
import DsDns.DataPlane.Equiv.Step

namespace DsDns

variable [Unicode]

/-- The node with other records in memory. -/
def Node.withRecords (n : Node) (r : Records) : Node :=
  { n with states := { n.states with records := r } }

/-- The leader commits the update `u`, logged under `num`. -/
def leaderApplies (n : Node) (num u : Str) : Node × Exit :=
  ({ n with writer := n.writer.setLog num u } : Node).commitHandler num

/-- The follower handles the line `2;num;u`. -/
def followerApplies (n : Node) (num u : Str) : Node × Exit :=
  n.writeHandler ('2' :: ';' :: (num ++ ';' :: u))

/-- Both perform the same write, or none, whatever the records hold, and neither raises. -/
def AppliedAlike (leader follower : Node) (num u : Str) : Prop :=
  ∃ w : Option (Key × Str), ∀ r : Records,
    (leaderApplies (leader.withRecords r) num u).1.states.records = put r w ∧
    (leaderApplies (leader.withRecords r) num u).2 = .ok ∧
    (followerApplies (follower.withRecords r) num u).1.states.records = put r w ∧
    (followerApplies (follower.withRecords r) num u).2 = .ok

/-- The update has fewer than three fields; or it has a domain whose shard's name is a file name, and
its file can be written if there are three fields, and cannot be if there are more. -/
def ReadAlike (disk : Disk) (u : Str) : Prop :=
  (split ',' (strip u)).length < 3 ∨
  ∃ c cs, lineDomain u = c :: cs ∧ Char.ofNat 0 ∉ lower [c] ∧
    (disk.denied (lower [c]) = true ↔ 3 < (split ',' (strip u)).length)

/-! ### The two writes -/

/-- **The leader's write.** -/
theorem leader_effect (n : Node) (num u : Str) (r : Records) :
    (leaderApplies (n.withRecords r) num u).1.states.records = put r (Node.committed n.disk u) ∧
    ((leaderApplies (n.withRecords r) num u).2 = .raised ↔ Node.CommitRaises u) := by
  have hlog : (n.writer.setLog num u).logs num = some u := if_pos rfl
  exact ⟨Node.commitHandler_records _ hlog, Node.commitHandler_raised_iff _ hlog⟩

/-- **The follower's write**: it never raises. -/
theorem follower_effect (n : Node) {num u : Str} (hnum : ';' ∉ num) (hu : ';' ∉ u) (r : Records) :
    (followerApplies (n.withRecords r) num u).1.states.records = put r (replicaWrite n.states u) ∧
    (followerApplies (n.withRecords r) num u).2 = .ok := by
  have hfields : split ';' (strip ('2' :: ';' :: (num ++ ';' :: u))) = [['2'], num, rstrip u] := by
    have hwire := Node.split_replicaText hnum hu
    have htext : Node.replicaText num u = '2' :: ';' :: (num ++ ';' :: u) ++ ['\n'] := by
      simp [Node.replicaText]
    rw [htext, strip_append_newline] at hwire
    exact hwire
  have hrun : followerApplies (n.withRecords r) num u =
      ((n.withRecords r).link.replicate num (rstrip u), .ok) := by
    unfold followerApplies Node.writeHandler Node.writeHandlerWith
    rw [hfields]
    rfl
  rw [hrun]
  refine ⟨?_, rfl⟩
  simp only [Node.replicate_states, Node.applyReplica_records, strip_rstrip, updateRecord_rstrip]
  rfl

/-- The two apply an update alike exactly if the commit does not raise and the two writes are one. -/
theorem appliedAlike_iff_writes (leader follower : Node) {num u : Str} (hnum : ';' ∉ num)
    (hu : ';' ∉ u) : AppliedAlike leader follower num u ↔
      ¬ Node.CommitRaises u ∧ Node.committed leader.disk u = replicaWrite follower.states u := by
  constructor
  · rintro ⟨w, h⟩
    refine ⟨fun hraises => ?_, eq_of_put_eq fun r => ?_⟩
    · have hok := (h fun _ => none).2.1
      rw [(leader_effect leader num u _).2.mpr hraises] at hok
      exact absurd hok (by decide)
    · obtain ⟨hleader, -, hfollower, -⟩ := h r
      rw [← (leader_effect leader num u r).1, hleader, ← hfollower,
        (follower_effect follower hnum hu r).1]
  · rintro ⟨hok, hsame⟩
    refine ⟨Node.committed leader.disk u, fun r => ?_⟩
    obtain ⟨hleader, hraised⟩ := leader_effect leader num u r
    obtain ⟨hfollower, hfok⟩ := follower_effect follower hnum hu r
    refine ⟨hleader, ?_, by rw [hfollower, hsame], hfok⟩
    cases hx : (leaderApplies (leader.withRecords r) num u).2 with
    | ok => rfl
    | raised => exact absurd (hraised.mp hx) hok

/-! ### The two parsers -/

omit [Unicode] in
theorem lineDomain_eq {u domain : Str} {rest : List Str} (hsplit : split ',' (strip u) = domain :: rest) :
    lineDomain u = strip domain := by
  rw [lineDomain, hsplit]
  rfl

/-- A text of fewer than three fields is ignored by both. -/
theorem readAlike_few {s : States} {disk : Disk} {u : Str} (h : (split ',' (strip u)).length < 3) :
    ¬ Node.CommitRaises u ∧ Node.committed disk u = replicaWrite s u := by
  refine ⟨?_, ?_⟩
  · rintro ⟨domain, rtype, ip, rest, hsplit, -⟩
    rw [hsplit] at h
    simp only [List.length_cons] at h
    omega
  · unfold Node.committed commitTarget replicaWrite
    rcases hsplit : split ',' (strip u) with _ | ⟨domain, _ | ⟨rtype, _ | ⟨ip, rest⟩⟩⟩
    · rfl
    · rfl
    · rfl
    · rw [hsplit] at h
      simp only [List.length_cons] at h
      omega

/-- A domain is filed under its shard if the name is a file name and the file can be written. -/
theorem accepts_eq (disk : Disk) {c : Char} (hz : Char.ofNat 0 ∉ lower [c]) :
    disk.canOpen (lower [c]) = !disk.denied (lower [c]) := by
  have hno : (lower [c]).contains (Char.ofNat 0) = false := by simpa using hz
  rw [Disk.canOpen, hno, Bool.not_false, Bool.true_and]

/-- A follower that owns the letter takes an update of three fields. -/
theorem replicaWrite_three {s : States} {u domain rtype ip : Str} {c : Char} {cs : Str}
    (hsplit : split ',' (strip u) = [domain, rtype, ip]) (hdom : strip domain = c :: cs)
    (howns : lower [c] ∈ s.selfRecords) :
    replicaWrite s u = some ((c :: cs, strip rtype), strip ip) := by
  obtain ⟨ds, rfl⟩ := strip_eq_cons_of_split_strip hsplit hdom
  have hown : s.owns (c :: ds) = true := by simpa [States.owns] using howns
  unfold replicaWrite updateRecord
  rw [hsplit]
  simp only [hown, if_true, hdom]

/-- It ignores an update of more than three fields. -/
theorem replicaWrite_more {s : States} {u domain rtype ip field : Str} {rest : List Str}
    (hsplit : split ',' (strip u) = domain :: rtype :: ip :: field :: rest) :
    replicaWrite s u = none := by
  unfold replicaWrite
  rw [hsplit]

omit [Unicode] in
/-- The leader takes an update of three fields or more. -/
theorem commitTarget_of_split {u domain rtype ip : Str} {rest : List Str} {c : Char} {cs : Str}
    (hsplit : split ',' (strip u) = domain :: rtype :: ip :: rest) (hdom : strip domain = c :: cs) :
    commitTarget u = some (c, (c :: cs, strip rtype), strip ip) := by
  unfold commitTarget
  rw [hsplit]
  simp only [hdom]

/-- **The two parsers**, on a follower that owns the letter of the update's domain. -/
theorem same_write_iff {s : States} (disk : Disk) {u : Str}
    (howns : ∀ c cs, lineDomain u = c :: cs → lower [c] ∈ s.selfRecords) :
    (¬ Node.CommitRaises u ∧ Node.committed disk u = replicaWrite s u) ↔ ReadAlike disk u := by
  unfold ReadAlike
  by_cases hfew : (split ',' (strip u)).length < 3
  · exact iff_of_true (readAlike_few hfew) (Or.inl hfew)
  rw [or_iff_right hfew]
  rcases hsplit : split ',' (strip u) with _ | ⟨domain, _ | ⟨rtype, _ | ⟨ip, rest⟩⟩⟩
  · exact absurd (by rw [hsplit]; decide) hfew
  · exact absurd (by rw [hsplit]; simp) hfew
  · exact absurd (by rw [hsplit]; simp) hfew
  rw [Node.commitRaises_iff hsplit, lineDomain_eq hsplit]
  rw [lineDomain_eq hsplit] at howns
  cases hdom : strip domain with
  | nil =>
    -- The leader indexes the empty domain.
    refine iff_of_false (fun h => h.1 fun c cs he => absurd he (by simp)) ?_
    rintro ⟨c, cs, he, -⟩
    exact absurd he (by simp)
  | cons c cs =>
    -- Both sides speak about the first letter of the domain.
    have hlen : 3 < (domain :: rtype :: ip :: rest).length ↔ rest ≠ [] := by
      rw [← List.length_pos_iff]
      simp only [List.length_cons]
      omega
    have hleft : (¬ ∀ c' cs', c :: cs = c' :: cs' → Char.ofNat 0 ∈ lower [c']) ↔
        Char.ofNat 0 ∉ lower [c] := by simp
    have hright : (∃ c' cs', c :: cs = c' :: cs' ∧ Char.ofNat 0 ∉ lower [c'] ∧
        (disk.denied (lower [c']) = true ↔ 3 < (domain :: rtype :: ip :: rest).length)) ↔
        Char.ofNat 0 ∉ lower [c] ∧ (disk.denied (lower [c]) = true ↔ rest ≠ []) := by
      rw [hlen]
      simp
    rw [hleft, hright]
    refine and_congr_right fun hz => ?_
    rw [Node.committed, commitTarget_of_split hsplit hdom]
    simp only [accepts_eq disk hz]
    cases rest with
    | nil =>
      -- Three fields: the follower writes, so the leader has to.
      rw [replicaWrite_three hsplit hdom (howns c cs hdom)]
      cases disk.denied (lower [c]) <;> simp
    | cons field rest =>
      -- More fields: the follower ignores the update, so the leader must fail to write it.
      rw [replicaWrite_more hsplit]
      cases disk.denied (lower [c]) <;> simp

/-- **When leader and follower apply an update alike.** For every update text without semicolons, on a
follower that owns the first letter of its domain: whatever the records hold, both set the same key to
the same value or both leave the records alone and raise nothing, if and only if the text and the
leader's file are read alike. -/
theorem applied_alike_iff (leader follower : Node) {num u : Str} (hnum : ';' ∉ num) (hu : ';' ∉ u)
    (howns : ∀ c cs, lineDomain u = c :: cs → lower [c] ∈ follower.states.selfRecords) :
    AppliedAlike leader follower num u ↔ ReadAlike leader.disk u := by
  rw [appliedAlike_iff_writes leader follower hnum hu]
  exact same_write_iff leader.disk howns

omit [Unicode] in
/-- An update of three fields reaches both nodes of a pair alike. -/
theorem applied_alike_iff_row :
    @AppliedAlike Unicode.ascii (siteNode "10.0.0.2".toList []) siteFollower "1".toList
      "a.com,A,1.1.1.1".toList := by
  have hletter : ∀ c cs, lineDomain "a.com,A,1.1.1.1".toList = c :: cs →
      @lower Unicode.ascii [c] ∈ siteFollower.states.selfRecords := by
    intro c cs he
    obtain ⟨rfl, -⟩ := List.cons.inj he
    decide
  refine (@applied_alike_iff Unicode.ascii (siteNode "10.0.0.2".toList []) siteFollower "1".toList
    "a.com,A,1.1.1.1".toList (by decide) (by decide) hletter).mpr (Or.inr ?_)
  exact ⟨'a', ".com".toList, by decide, by decide, by decide⟩

omit [Unicode] in
/-- An update with a fourth field is committed by the leader and ignored by the follower; one without a
domain makes the leader raise and is skipped by the follower. -/
theorem not_applied_alike :
    (@leaderApplies Unicode.ascii (siteNode "10.0.0.2".toList []) "1".toList
      "a.com,A,9.9.9.9,x".toList).1.states.records ("a.com".toList, ['A']) = some "9.9.9.9".toList ∧
    (@followerApplies Unicode.ascii siteFollower "1".toList
      "a.com,A,9.9.9.9,x".toList).1.states.records ("a.com".toList, ['A']) = some "1.1.1.1".toList ∧
    siteFollower.states.records ("a.com".toList, ['A']) = some "1.1.1.1".toList ∧
    ['a'] ∈ siteFollower.states.selfRecords ∧
    (@leaderApplies Unicode.ascii (siteNode "10.0.0.2".toList []) "1".toList ",A,1.1.1.1".toList).2 =
      .raised ∧
    (@followerApplies Unicode.ascii siteFollower "1".toList ",A,1.1.1.1".toList).2 = .ok ∧
    ¬ @AppliedAlike Unicode.ascii (siteNode "10.0.0.2".toList []) siteFollower "1".toList
      "a.com,A,9.9.9.9,x".toList := by
  refine ⟨by decide, by decide, by decide, by decide, by decide, by decide, ?_⟩
  -- On empty records the leader sets the key and the follower does not.
  rintro ⟨w, h⟩
  obtain ⟨hleader, -, hfollower, -⟩ := h fun _ => none
  have hkey := (congrFun hleader ("a.com".toList, ['A'])).trans
    (congrFun hfollower ("a.com".toList, ['A'])).symm
  exact absurd hkey (by decide)

end DsDns
