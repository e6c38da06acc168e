/-
  When interleaved writes do not disturb each other.

  `sendLog` writes the number it sends back into `currLogNum`. As long as every write is sent before
  the next one takes its number (`SendsCurrent`) this changes nothing, and `Orderly` is kept: the
  numbers are different and not above `currLogNum`, and the log holds every write's own update. A write
  that is sent later sets `currLogNum` back, so the condition is exact (`faithful_iff_sendsCurrent`).
  `not_faithful_late_send` is the run in which a number is then given away twice and an update is lost.
-/
import DsDns.DataPlane.Interleaving
import DsDns.DataPlane.Equiv.Server
import DsDns.DataPlane.Equiv.Step

namespace DsDns

namespace Pipeline

/-- The writes under way have different numbers up to `currLogNum`, and what is stored is stored under
its own number. -/
structure Orderly (w : Pipeline) : Prop where
  distinct : (w.writes.map InFlight.num).Nodup
  bounded : ∀ x ∈ w.writes, ∃ k, x.num = intStr k ∧ k ≤ w.node.raft.currLogNum
  logged : ∀ x ∈ w.writes, x.stage ≠ .allocated → w.node.writer.logs x.num = some x.update

theorem orderly_start (n : Node) : Orderly ⟨n, []⟩ where
  distinct := List.nodup_nil
  bounded _ hx := absurd hx (by simp)
  logged _ hx := absurd hx (by simp)

/-! ### The list of writes -/

/-- A write that takes a step keeps its number. -/
theorem map_num_set {writes : List InFlight} {i : ℕ} {x y : InFlight} (hx : writes[i]? = some x)
    (hnum : y.num = x.num) : (writes.set i y).map InFlight.num = writes.map InFlight.num := by
  apply List.ext_getElem?
  intro j
  rw [List.getElem?_map, List.getElem?_map, List.getElem?_set]
  by_cases hij : i = j
  · subst hij
    have hlt : i < writes.length := by
      by_contra hge
      rw [List.getElem?_eq_none (by omega)] at hx
      exact absurd hx (by simp)
    rw [if_pos rfl, if_pos hlt, hx, Option.map_some, Option.map_some, hnum]
  · rw [if_neg hij]

/-- The writes after one of them has taken a step: that one, and others with other numbers. -/
theorem mem_set_writes {writes : List InFlight} {i : ℕ} {x y z : InFlight}
    (hnodup : (writes.map InFlight.num).Nodup) (hx : writes[i]? = some x) (hz : z ∈ writes.set i y) :
    z = y ∨ z ∈ writes ∧ z.num ≠ x.num := by
  obtain ⟨j, hj⟩ := List.mem_iff_getElem?.mp hz
  rw [List.getElem?_set] at hj
  by_cases hij : i = j
  · rw [if_pos hij] at hj
    split at hj
    · exact Or.inl (Option.some.inj hj).symm
    · exact absurd hj (by simp)
  · rw [if_neg hij] at hj
    refine Or.inr ⟨List.mem_of_getElem? hj, fun hnum => hij ?_⟩
    have hxi : (writes.map InFlight.num)[i]? = some x.num := by rw [List.getElem?_map, hx]; rfl
    have hzj : (writes.map InFlight.num)[j]? = some x.num := by
      rw [List.getElem?_map, hj, Option.map_some, hnum]
    have hlt : i < (writes.map InFlight.num).length := by
      by_contra hge
      rw [List.getElem?_eq_none (by omega)] at hxi
      exact absurd hxi (by simp)
    exact (List.getElem?_inj hlt hnodup).mp (hxi.trans hzj.symm)

variable [Unicode]

/-! ### One step -/

theorem step_advance_none {w : Pipeline} {i : ℕ} (hx : w.writes[i]? = none) :
    w.step (.advance i) = w := by
  unfold step
  simp only [hx]

theorem step_advance {w : Pipeline} {i : ℕ} {x : InFlight} (hx : w.writes[i]? = some x) :
    w.step (.advance i) =
      ⟨advanceNode w.node x, w.writes.set i { x with stage := nextStage x.stage }⟩ := by
  unfold step
  simp only [hx]

omit [Unicode] in
theorem sendsCurrent_allocate (w : Pipeline) (u : Str) : SendsCurrent w (.allocate u) :=
  fun _ _ he => absurd he (by simp)

omit [Unicode] in
theorem sendsCurrent_advance {w : Pipeline} {i : ℕ} : SendsCurrent w (.advance i) ↔
    ∀ x ∈ w.writes[i]?, x.stage = .stored → x.num = intStr w.node.raft.currLogNum := by
  constructor
  · exact fun h x hx => h i x rfl hx
  · rintro h j x he hx
    cases he
    exact h x hx

omit [Unicode] in
instance (w : Pipeline) : (e : PipelineEvent) → Decidable (SendsCurrent w e)
  | .allocate u => isTrue (sendsCurrent_allocate w u)
  | .advance _ => decidable_of_iff _ sendsCurrent_advance.symm

/-- Taking a number: it is above all that were given away. -/
theorem orderly_allocate {w : Pipeline} (h : Orderly w) (u : Str) :
    Orderly (w.step (.allocate u)) := by
  have hnew : ∀ x ∈ w.writes, x.num ≠ intStr (w.node.raft.currLogNum + 1) := by
    intro x hx he
    obtain ⟨k, hk, hle⟩ := h.bounded x hx
    have hkeq : k = w.node.raft.currLogNum + 1 := intStr_injective (hk.symm.trans he)
    omega
  refine ⟨?_, fun x hx => ?_, fun x hx hstage => ?_⟩
  · show ((w.writes ++ [_]).map InFlight.num).Nodup
    rw [List.map_append]
    refine List.nodup_append.mpr ⟨h.distinct, List.nodup_singleton _, fun a ha b hb => ?_⟩
    obtain ⟨x, hx, rfl⟩ := List.mem_map.mp ha
    rw [List.mem_singleton.mp hb]
    exact hnew x hx
  · show ∃ k, x.num = intStr k ∧ k ≤ w.node.raft.currLogNum + 1
    rcases List.mem_append.mp hx with hx | hx
    · obtain ⟨k, hk, hle⟩ := h.bounded x hx
      exact ⟨k, hk, by omega⟩
    · rw [List.mem_singleton.mp hx]
      exact ⟨_, rfl, le_rfl⟩
  · rcases List.mem_append.mp hx with hx | hx
    · exact h.logged x hx hstage
    · rw [List.mem_singleton.mp hx] at hstage
      exact absurd rfl hstage

/-- Sending sets `currLogNum` to the number sent. -/
theorem sendLog_of_num {n : Node} {k : ℤ} (log : Str) :
    (n.sendLog log (intStr k)).1.raft.currLogNum = k ∧
    (n.sendLog log (intStr k)).1.writer = n.writer ∧
    (n.sendLog log (intStr k)).1.states = n.states := by
  unfold Node.sendLog
  rw [parseInt_intStr]
  exact ⟨rfl, rfl, rfl⟩

/-- The node after a step: the log has at most the write's own entry more, and `currLogNum` moves only
when a write is sent. -/
theorem advanceNode_effect (n : Node) (x : InFlight) {k : ℤ} (hk : x.num = intStr k) :
    (advanceNode n x).raft.currLogNum = (if x.stage = .stored then k else n.raft.currLogNum) ∧
    (advanceNode n x).writer.logs = (if x.stage = .allocated then
      fun num => if num = x.num then some x.update else n.writer.logs num else n.writer.logs) := by
  obtain ⟨u, num, stage⟩ := x
  simp only at hk
  subst hk
  cases stage with
  | allocated => exact ⟨rfl, rfl⟩
  | stored =>
    obtain ⟨hnum, hwriter, -⟩ := sendLog_of_num (n := n) (k := k) (intStr k ++ ';' :: u)
    exact ⟨hnum, congrArg Writer.logs hwriter⟩
  | sent =>
    obtain ⟨hraft, hwriter, -⟩ := n.commitHandler_frame (intStr k)
    exact ⟨congrArg Raft.currLogNum hraft, congrArg Writer.logs hwriter⟩
  | committed => exact ⟨rfl, rfl⟩

/-- A step of a write that does not set `currLogNum` back keeps the order. -/
theorem orderly_advance {w : Pipeline} (h : Orderly w) {i : ℕ}
    (hok : SendsCurrent w (.advance i)) : Orderly (w.step (.advance i)) := by
  cases hx : w.writes[i]? with
  | none =>
    rw [step_advance_none hx]
    exact h
  | some x =>
    rw [step_advance hx]
    have hmem : x ∈ w.writes := List.mem_of_getElem? hx
    obtain ⟨k, hk, hle⟩ := h.bounded x hmem
    obtain ⟨hnum, hlogs⟩ := advanceNode_effect w.node x hk
    -- The number a write is sent with is the current one, so it does not move.
    have hcurr : (advanceNode w.node x).raft.currLogNum = w.node.raft.currLogNum := by
      rw [hnum]
      split
      · rename_i hstage
        exact intStr_injective (hk.symm.trans (hok i x rfl hx hstage))
      · rfl
    refine ⟨?_, fun z hz => ?_, fun z hz hstage => ?_⟩
    · have hnums : (w.writes.set i { x with stage := nextStage x.stage }).map InFlight.num =
          w.writes.map InFlight.num := map_num_set hx rfl
      rw [hnums]
      exact h.distinct
    · show ∃ k, z.num = intStr k ∧ k ≤ (advanceNode w.node x).raft.currLogNum
      rw [hcurr]
      rcases mem_set_writes h.distinct hx hz with rfl | ⟨hz, -⟩
      · exact ⟨k, hk, hle⟩
      · exact h.bounded z hz
    · show (advanceNode w.node x).writer.logs z.num = some z.update
      rw [hlogs]
      rcases mem_set_writes h.distinct hx hz with rfl | ⟨hz, hne⟩
      · split
        · exact if_pos rfl
        · rename_i hallocated
          exact h.logged x hmem hallocated
      · -- Another write has another number, so its entry is not overwritten.
        have hold := h.logged z hz hstage
        split
        · exact (if_neg hne).trans hold
        · exact hold

theorem orderly_step {w : Pipeline} (h : Orderly w) {e : PipelineEvent} (hok : SendsCurrent w e) :
    Orderly (w.step e) := by
  cases e with
  | allocate u => exact orderly_allocate h u
  | advance i => exact orderly_advance h hok

/-- Where `currLogNum` stands after a write has taken a step. -/
theorem currLogNum_advance {w : Pipeline} (h : Orderly w) {i : ℕ} {x : InFlight}
    (hx : w.writes[i]? = some x) : ∃ k, x.num = intStr k ∧ k ≤ w.node.raft.currLogNum ∧
      (w.step (.advance i)).node.raft.currLogNum =
        if x.stage = .stored then k else w.node.raft.currLogNum := by
  obtain ⟨k, hk, hle⟩ := h.bounded x (List.mem_of_getElem? hx)
  refine ⟨k, hk, hle, ?_⟩
  rw [step_advance hx]
  exact (advanceNode_effect w.node x hk).1

/-- A commit applies what the log holds under the number of its write, and that is its own update. -/
theorem commits_own {w : Pipeline} (h : Orderly w) {i : ℕ} {x : InFlight}
    (hx : w.writes[i]? = some x) (hstage : x.stage = .sent) :
    (w.step (.advance i)).node.states.records =
      (({ w.node with writer := w.node.writer.setLog x.num x.update } : Node).commitHandler
        x.num).1.states.records := by
  have hlog : w.node.writer.logs x.num = some x.update :=
    h.logged x (List.mem_of_getElem? hx) (by rw [hstage]; decide)
  have hset : (w.node.writer.setLog x.num x.update).logs x.num = some x.update := if_pos rfl
  have hstep : (w.step (.advance i)).node = (w.node.commitHandler x.num).1 := by
    rw [step_advance hx]
    show advanceNode w.node x = _
    unfold advanceNode
    rw [hstage]
  rw [hstep, Node.commitHandler_writes, Node.commitHandler_writes]
  simp only [hlog, hset]

/-- **The exact condition, for one step.** -/
theorem faithful_step_iff {w : Pipeline} (h : Orderly w) (e : PipelineEvent) :
    SendsCurrent w e ↔ Faithful w e := by
  constructor
  · intro hok
    refine ⟨(orderly_step h hok).distinct, ?_, fun i x he hx hstage => ?_⟩
    · cases e with
      | allocate u =>
        show w.node.raft.currLogNum ≤ w.node.raft.currLogNum + 1
        omega
      | advance i =>
        cases hx : w.writes[i]? with
        | none => rw [step_advance_none hx]
        | some x =>
          obtain ⟨k, hk, -, hafter⟩ := currLogNum_advance h hx
          rw [hafter]
          split
          · rename_i hstage
            exact le_of_eq (intStr_injective ((hok i x rfl hx hstage).symm.trans hk))
          · exact le_rfl
    · subst he
      exact commits_own h hx hstage
  · -- A write that is sent after another allocation sets `currLogNum` back.
    rintro ⟨-, hmono, -⟩ i x rfl hx hstage
    obtain ⟨k, hk, hle, hafter⟩ := currLogNum_advance h hx
    rw [hafter, if_pos hstage] at hmono
    rw [hk, le_antisymm hle hmono]

/-- A commit of a well-formed update under its own number gives the key its value, if the record file
can be written. -/
theorem records_of_commit {n : Node} {num u : Str} (hlog : n.writer.logs num = some u) {key : Key}
    {v : Str} (hrec : updateRecord u = some (key, v)) {c : Char} {cs : Str} (hdom : key.1 = c :: cs)
    (hdisk : n.disk.canOpen (lower [c]) = true) : (n.commitHandler num).1.states.records key = some v := by
  rw [n.commitHandler_records hlog, Node.committed, commitTarget_of_updateRecord hrec hdom]
  simp only [if_pos hdisk]
  exact put_some_self _ key v

/-! ### Runs -/

/-- Without interleaving a write is `startWrite`. -/
theorem run_alone (n : Node) (ws : List InFlight) (u : Str) :
    (run step ⟨n, ws⟩ [.allocate u, .advance ws.length, .advance ws.length,
      .advance ws.length]).node = (n.startWrite u).1 := by
  have hlast : ∀ x y : InFlight, (ws ++ [x]).set ws.length y = ws ++ [y] := fun x y => by simp
  have hget : ∀ x : InFlight, (ws ++ [x])[ws.length]? = some x := fun x => by simp
  have hallocate : step ⟨n, ws⟩ (.allocate u) =
      ⟨n.nextLogNum, ws ++ [⟨u, intStr n.nextLogNum.raft.currLogNum, .allocated⟩]⟩ := rfl
  rw [run_cons, hallocate, run_cons, step_advance (hget _), hlast, run_cons, step_advance (hget _),
    hlast, run_cons, step_advance (hget _), run_nil]
  unfold Node.startWrite Node.startWriteWith Node.writeStarterWith
  simp only [advanceNode, nextStage, Node.sendLog, parseInt_intStr]
  rfl

/-- **Interleaved writes disturb each other exactly if one is sent late.** From any leader without
writes under way, for any number of writes in any interleaving: the numbers are different,
`currLogNum` never decreases and every commit applies its own update, if and only if every write is
sent while `currLogNum` is still its own number. In such a run every commit of a well-formed update
whose record file can be written gives its key its value. -/
theorem faithful_iff_sendsCurrent (n : Node) (es : List PipelineEvent) :
    (Along Faithful step ⟨n, []⟩ es ↔ Along SendsCurrent step ⟨n, []⟩ es) ∧
    (Along SendsCurrent step ⟨n, []⟩ es → ∀ early i x, early ++ [.advance i] <+: es →
      (run step ⟨n, []⟩ early).writes[i]? = some x → x.stage = .sent →
      ∀ key v c cs, updateRecord x.update = some (key, v) → key.1 = c :: cs →
        (run step ⟨n, []⟩ early).node.disk.canOpen (lower [c]) = true →
        (run step ⟨n, []⟩ (early ++ [.advance i])).node.states.records key = some v) := by
  refine ⟨(along_iff_along (orderly_start n) (fun _ _ h hok => orderly_step h hok)
    fun _ e h => faithful_step_iff h e).symm, ?_⟩
  intro hok early i x hp hx hstage key v c cs hrec hdom hdisk
  have hearly : Along SendsCurrent step ⟨n, []⟩ early :=
    ((along_concat _).mp (hok.of_prefix hp)).1
  have horderly : Orderly (run step ⟨n, []⟩ early) :=
    hearly.invariant (orderly_start n) fun _ _ h h' => orderly_step h h'
  have hlog := horderly.logged x (List.mem_of_getElem? hx) (by rw [hstage]; decide)
  rw [run_concat, step_advance hx]
  show (advanceNode _ x).states.records key = some v
  unfold advanceNode
  rw [hstage]
  exact records_of_commit hlog hrec hdom hdisk

omit [Unicode] in
/-- Two writes that overlap: the second takes its number when the first has been sent, and is stored and
sent before the first is committed. -/
def overlapping : List PipelineEvent :=
  [.allocate "a.com,A,1.1.1.1".toList, .advance 0, .advance 0, .allocate "b.com,A,2.2.2.2".toList,
    .advance 1, .advance 1, .advance 0, .advance 1]

omit [Unicode] in
/-- The two do not disturb each other, and the second is recorded. -/
theorem faithful_iff_sendsCurrent_overlapping :
    Along (@Faithful Unicode.ascii) (@step Unicode.ascii) ⟨siteNode "10.0.0.2".toList [], []⟩
      overlapping ∧
    (run (@step Unicode.ascii) ⟨siteNode "10.0.0.2".toList [], []⟩ overlapping).node.states.records
      ("b.com".toList, ['A']) = some "2.2.2.2".toList := by
  obtain ⟨hiff, happlied⟩ := @faithful_iff_sendsCurrent Unicode.ascii
    (siteNode "10.0.0.2".toList []) overlapping
  have hok : Along SendsCurrent (@step Unicode.ascii) ⟨siteNode "10.0.0.2".toList [], []⟩
      overlapping := by decide
  refine ⟨hiff.mpr hok, ?_⟩
  exact happlied hok (overlapping.take 7) 1 ⟨"b.com,A,2.2.2.2".toList, ['2'], .sent⟩
    (List.prefix_refl overlapping) rfl rfl ("b.com".toList, ['A']) "2.2.2.2".toList 'b'
    ".com".toList (by decide) rfl (by decide)

omit [Unicode] in
/-- Three writes: the first is sent after the second took its number, and the third gets that number
again. -/
def lateSend : List PipelineEvent :=
  [.allocate "a.com,A,1.1.1.1".toList, .allocate "b.com,A,2.2.2.2".toList, .advance 0, .advance 0,
    .allocate "c.com,A,3.3.3.3".toList, .advance 1, .advance 2, .advance 1, .advance 2, .advance 0,
    .advance 1, .advance 2]

omit [Unicode] in
/-- All three writes end committed; the second and the third have the number 2, and the update of the
second is lost. -/
theorem not_faithful_late_send :
    ¬ Along (@Faithful Unicode.ascii) (@step Unicode.ascii) ⟨siteNode "10.0.0.2".toList [], []⟩
      lateSend ∧
    (run (@step Unicode.ascii) ⟨siteNode "10.0.0.2".toList [], []⟩ lateSend).writes.map
      (fun x => (x.num, x.stage)) =
        [("1".toList, .committed), ("2".toList, .committed), ("2".toList, .committed)] ∧
    (run (@step Unicode.ascii) ⟨siteNode "10.0.0.2".toList [], []⟩ lateSend).node.states.records
      ("b.com".toList, ['A']) = none ∧
    (run (@step Unicode.ascii) ⟨siteNode "10.0.0.2".toList [], []⟩ lateSend).node.states.records
      ("c.com".toList, ['A']) = some "3.3.3.3".toList := by
  refine ⟨?_, by decide, by decide, by decide⟩
  -- The fourth step sends the number 1 while `currLogNum` is 2.
  rintro ⟨-, -, -, ⟨-, hmono, -⟩, -⟩
  exact absurd hmono (by decide)

end Pipeline

end DsDns
