/-
  When a follower ends with the leader's records.

  The follower applies a replicated update when it arrives and does not look at its log number.
  So for each key it keeps the update delivered last, while the leader keeps the one started last.
  `converges_iff` is this comparison: the replicas agree exactly when, key by key, both carry the
  same address. `not_converges_reordered` is the run of two updates of one key that arrive the other
  way round.

  The leader's side is `runStarts_spec` (an induction over the starts), the follower's side
  `deliverAll_records` (an induction over the deliveries); both end in the last-write rule of
  `DsDns.KeyedStore`.
-/
import DsDns.Cluster.Replicas
import DsDns.DataPlane.Equiv.Writer
import Mathlib.Data.List.Perm.Basic
import Mathlib.Data.List.Nodup

namespace DsDns

/-- A text `domain,type,ip` that fits on a line of the write protocol and names a domain. -/
structure IsUpdate (u : Str) : Prop where
  no_semicolon : ';' ∉ u
  no_newline : '\n' ∉ u
  no_return : '\r' ∉ u
  fields : ∃ key v, updateRecord u = some (key, v) ∧ key.1 ≠ []

/-- The binding a replication message carries. -/
def replicaRecord (text : Str) : Option (Key × Str) :=
  match split ';' (strip text) with
  | _ :: _ :: update :: _ => updateRecord update
  | _ => none

/-- The log numbers, from `k + 1` on, with their updates. -/
def numbered (k : ℤ) : List Str → List (Str × Str)
  | [] => []
  | u :: us => (intStr (k + 1), u) :: numbered (k + 1) us

variable [Unicode]

/-- For every key written by the starts whose first letter the follower owns, the follower ends
with the leader's value. -/
def Converges (leader follower : Node) (starts : List Start) (delivered : List Str) : Prop :=
  ∀ key : Key, (∃ u ∈ startedUpdates leader.writer.linked starts, ∃ v, updateRecord u = some (key, v)) →
    follower.states.owns key.1 = true →
    (deliverAll follower delivered).states.records key = (runStarts leader starts).states.records key

/-! ### The leader -/

omit [Unicode] in
theorem mem_of_mem_startedUpdates {u : Str} {starts : List Start} : ∀ {linked : Bool},
    u ∈ startedUpdates linked starts → ∃ s ∈ starts, u = s.update := by
  induction starts with
  | nil => intro linked h; simp [startedUpdates] at h
  | cons s starts ih =>
    intro linked h
    have tail : ∀ {l : Bool}, u ∈ startedUpdates l starts → ∃ x ∈ s :: starts, u = x.update := by
      intro l hl
      obtain ⟨x, hx, hu⟩ := ih hl
      exact ⟨x, List.mem_cons_of_mem _ hx, hu⟩
    cases s with
    | line update =>
      rcases List.mem_cons.mp h with rfl | h
      · exact ⟨_, List.mem_cons_self, rfl⟩
      · exact tail h
    | resolve domain ip =>
      rw [startedUpdates] at h
      split at h
      · rcases List.mem_cons.mp h with rfl | h
        · exact ⟨_, List.mem_cons_self, rfl⟩
        · exact tail h
      · exact tail h

/-- One started update, seen from the follower `f`: the leader's map stays, and `f` gets one
message more. -/
theorem startWrite_inbox (n : Node) (u f : Str) (hf : f ∈ n.states.nodes.keys)
    (hne : f ≠ n.states.selfIp) :
    inbox f (n.startWrite u).1.outbox = inbox f n.outbox ++ [Node.replicaText n.nextNum u] := by
  rw [(startWrite_effects n u).2.2.2.2, Node.announce_outbox, inbox, List.filter_append,
    List.map_append, ← inbox]
  have hone : (n.states.nodes.keys.filter fun ip => ip ≠ n.states.selfIp).filter (· = f) = [f] := by
    rw [List.filter_filter, List.filter_congr (q := (· = f)), List.filter_eq,
      List.count_eq_one_of_mem n.states.nodes.keys_nodup hf]
    · rfl
    · intro ip _
      by_cases h : ip = f
      · simp [h, hne]
      · simp [h]
  congr 1
  rw [List.filter_map, List.map_map]
  rw [show (fun p : Packet => decide (p.dst = f ∧ p.port = 9000)) ∘
      (fun ip => (⟨ip, 9000, Node.replicaText n.nextNum u⟩ : Packet)) = (· = f) by
    funext ip; simp, hone]
  rfl

/-- Running one start is starting its update, or nothing. -/
theorem Start.run_eq (n : Node) (s : Start) (hs : IsUpdate s.update)
    (hline : ∀ u, s = .line u → ';' ∉ u ∧ '\n' ∉ u ∧ '\r' ∉ u) :
    s.run n = match s with
      | .line _ => (n.link.startWrite s.update).1
      | .resolve _ _ => if n.writer.linked then (n.startWrite s.update).1 else n := by
  cases s with
  | line u =>
    obtain ⟨h1, h2, h3⟩ := hline u rfl
    exact n.handleWrite_typeOne h1 h2 h3
  | resolve domain ip =>
    simp only [Start.run, Node.newRecord, Start.update]
    split
    · rcases n.startWrite (domain ++ ",A,".toList ++ ip) with ⟨m, _ | _⟩ <;> rfl
    · rfl

/-- A sequence of starts a leader can receive: the lines fit on a line, the updates are updates. -/
def WellFormed (starts : List Start) : Prop :=
  ∀ s ∈ starts, IsUpdate s.update ∧ ∀ u, s = .line u → ';' ∉ u ∧ '\n' ∉ u ∧ '\r' ∉ u

/-- **The leader's run**: what it commits to the records, and what it sends to the follower `f`. -/
theorem runStarts_spec (f : Str) (starts : List Start) : ∀ n : Node, WellFormed starts →
    f ∈ n.states.nodes.keys → f ≠ n.states.selfIp →
    (runStarts n starts).states.records =
      ((startedUpdates n.writer.linked starts).map (Node.committed n.disk)).foldl put
        n.states.records ∧
    inbox f (runStarts n starts).outbox = inbox f n.outbox ++
      (numbered n.raft.currLogNum (startedUpdates n.writer.linked starts)).map
        fun p => Node.replicaText p.1 p.2 := by
  induction starts with
  | nil => intro n _ _ _; exact ⟨rfl, by simp [runStarts, startedUpdates, numbered]⟩
  | cons s starts ih =>
    intro n hwf hf hne
    have hs := hwf s List.mem_cons_self
    have hwf' : WellFormed starts := fun x hx => hwf x (List.mem_cons_of_mem _ hx)
    -- The step lemma for a node `m` that starts the update of `s`.
    have step : ∀ m : Node, m.states = n.states → m.raft = n.raft → m.disk = n.disk →
        m.outbox = n.outbox → m.writer.linked = true →
        (runStarts (m.startWrite s.update).1 starts).states.records =
          ((s.update :: startedUpdates true starts).map (Node.committed n.disk)).foldl put
            n.states.records ∧
        inbox f (runStarts (m.startWrite s.update).1 starts).outbox = inbox f n.outbox ++
          (numbered n.raft.currLogNum (s.update :: startedUpdates true starts)).map
            fun p => Node.replicaText p.1 p.2 := by
      intro m hst hraft hdisk hout hlink
      obtain ⟨e1, e2, e3, e4, -⟩ := startWrite_effects m s.update
      have hin := startWrite_inbox m s.update f (by rw [hst]; exact hf) (by rw [hst]; exact hne)
      obtain ⟨h1, h2⟩ := ih (m.startWrite s.update).1 hwf' (by rw [e1, hst]; exact hf)
        (by rw [e1, hst]; exact hne)
      have hcomm : Node.committed (m.startWrite s.update).1.disk = Node.committed n.disk :=
        funext fun u => committed_congr (by rw [e4, hdisk]) u
      rw [e3, hlink] at h1 h2
      constructor
      · rw [h1, e1, hcomm, hst, hdisk, List.map_cons, List.foldl_cons]
      · rw [h2, hin, e2, hraft, hout, numbered, List.map_cons, List.append_assoc,
          List.singleton_append, Node.nextNum, hraft]
    have hrun : runStarts n (s :: starts) = runStarts (s.run n) starts := rfl
    rw [hrun, Start.run_eq n s hs.1 hs.2]
    cases s with
    | line u => exact step n.link rfl rfl rfl rfl rfl
    | resolve domain ip =>
      simp only [startedUpdates]
      split
      · rename_i hl
        exact step n rfl rfl rfl rfl hl
      · rename_i hl
        have := ih n hwf' hf hne
        rwa [Bool.eq_false_iff.mpr hl] at this

/-! ### The follower -/

omit [Unicode] in
/-- A text that is the message of some update. -/
def IsReplica (text : Str) : Prop :=
  ∃ (k : ℤ) (u : Str), text = Node.replicaText (intStr k) u ∧ IsUpdate u

omit [Unicode] in
theorem replicaRecord_replicaText (k : ℤ) {u : Str} (hu : IsUpdate u) :
    replicaRecord (Node.replicaText (intStr k) u) = updateRecord u := by
  have hnum : ';' ∉ intStr k := not_mem_intStr (by decide) (by decide) k
  rw [replicaRecord, Node.split_replicaText hnum hu.no_semicolon]
  exact updateRecord_rstrip u

omit [Unicode] in
theorem owns_congr [Unicode] {s t : States} (h : s.selfRecords = t.selfRecords) (d : Str) :
    s.owns d = t.owns d := by
  simp only [States.owns, h]

/-- A replicated update of an owned domain writes the follower's reading of it. -/
theorem applyReplica_of_owns (s : States) {u : Str} {key : Key} {v : Str}
    (hu : updateRecord u = some (key, v)) (hd : key.1 ≠ []) :
    (Node.applyReplica s u).records =
      put s.records (if s.owns key.1 then some (key, v) else none) := by
  rw [Node.applyReplica_records]
  rw [updateRecord] at hu
  split at hu
  · rename_i dom t ip hsplit
    cases hu
    obtain ⟨c, cs, hcs⟩ := List.exists_cons_of_ne_nil hd
    obtain ⟨ds, rfl⟩ := strip_eq_cons_of_split_strip hsplit hcs
    -- `dom` and its stripped form start with the same character.
    have howns : s.owns (c :: ds) = s.owns (strip (c :: ds)) := by
      rw [show strip (c :: ds) = c :: cs from hcs]
      rfl
    simp only [hsplit, updateRecord, howns]
  · exact absurd hu (by simp)

/-- One message, on a key the follower owns. -/
theorem handleWrite_replica (n : Node) {text : Str} (h : IsReplica text) {key : Key}
    (howns : n.states.owns key.1 = true) :
    (n.handleWrite text).states.records key =
      (boundValue key (replicaRecord text)).or (n.states.records key) ∧
    (n.handleWrite text).states.selfRecords = n.states.selfRecords := by
  obtain ⟨k, u, rfl, hu⟩ := h
  obtain ⟨key', v, hrec, hne⟩ := hu.fields
  have hnum : ∀ c : Char, c.isDigit = false → c ≠ '-' → c ∉ intStr k := fun c hd hm =>
    not_mem_intStr hd hm k
  rw [n.handleWrite_replicaText (hnum ';' (by decide) (by decide)) hu.no_semicolon
    ⟨hnum '\n' (by decide) (by decide), hu.no_newline⟩
    ⟨hnum '\r' (by decide) (by decide), hu.no_return⟩, replicaRecord_replicaText k hu,
    Node.replicate_states]
  refine ⟨?_, by rw [Node.applyReplica_eq]; rfl⟩
  rw [applyReplica_of_owns _ ((updateRecord_rstrip u).trans hrec) hne, put_apply, hrec]
  show _ = (boundValue key (some (key', v))).or (n.states.records key)
  by_cases hk : key = key'
  · subst hk
    rw [if_pos (by exact howns)]
    rfl
  · have hnone : boundValue key (some (key', v)) = none := if_neg hk
    split
    · rfl
    · rw [hnone]
      rfl

/-- **The follower's run**, on a key it owns: the message delivered last decides. -/
theorem deliverAll_records (texts : List Str) : ∀ (n : Node), (∀ t ∈ texts, IsReplica t) →
    ∀ key : Key, n.states.owns key.1 = true →
    (deliverAll n texts).states.records key =
      (lastWrite key (texts.map replicaRecord)).or (n.states.records key) := by
  induction texts with
  | nil => intro n _ key _; rfl
  | cons t texts ih =>
    intro n ht key howns
    obtain ⟨hrec, hself⟩ := handleWrite_replica n (ht t List.mem_cons_self) howns
    have := ih (n.handleWrite t) (fun x hx => ht x (List.mem_cons_of_mem _ hx)) key
      ((owns_congr hself key.1).trans howns)
    rw [List.map_cons, lastWrite_cons, Option.or_assoc, ← hrec]
    exact this

/-! ### Both together -/

omit [Unicode] in
theorem exists_of_mem_numbered {us : List Str} {p : Str × Str} : ∀ {k : ℤ}, p ∈ numbered k us →
    ∃ j : ℤ, p.1 = intStr j ∧ p.2 ∈ us := by
  induction us with
  | nil => intro k h; simp [numbered] at h
  | cons u us ih =>
    intro k h
    rcases List.mem_cons.mp h with rfl | h
    · exact ⟨k + 1, rfl, List.mem_cons_self⟩
    · obtain ⟨j, h1, h2⟩ := ih h
      exact ⟨j, h1, List.mem_cons_of_mem _ h2⟩

omit [Unicode] in
theorem exists_mem_numbered {us : List Str} {u : Str} (h : u ∈ us) : ∀ k : ℤ,
    ∃ j : ℤ, (intStr j, u) ∈ numbered k us := by
  induction us with
  | nil => simp at h
  | cons x us ih =>
    intro k
    rcases List.mem_cons.mp h with rfl | h
    · exact ⟨k + 1, List.mem_cons_self⟩
    · obtain ⟨j, hj⟩ := ih h (k + 1)
      exact ⟨j, List.mem_cons_of_mem _ hj⟩

/-- **When the replicas agree.** Whatever the order of delivery, the follower ends with the leader's
records exactly when, for every written key it owns, the message delivered last carries the address
of the last started update that the leader could file. -/
theorem converges_iff (leader follower : Node) (starts : List Start) (delivered : List Str)
    (hwf : WellFormed starts) (hout : leader.outbox = [])
    (hmap : follower.states.selfIp ∈ leader.states.nodes.keys)
    (hne : follower.states.selfIp ≠ leader.states.selfIp)
    (hdel : delivered.Perm (inbox follower.states.selfIp (runStarts leader starts).outbox)) :
    Converges leader follower starts delivered ↔
      ∀ key : Key,
        (∃ u ∈ startedUpdates leader.writer.linked starts, ∃ v, updateRecord u = some (key, v)) →
        follower.states.owns key.1 = true →
        lastWrite key (delivered.map replicaRecord) =
          (lastWrite key ((startedUpdates leader.writer.linked starts).map
            (Node.committed leader.disk))).or (leader.states.records key) := by
  obtain ⟨hleader, hinbox⟩ :=
    runStarts_spec follower.states.selfIp starts leader hwf hmap hne
  rw [hout] at hinbox
  have hupd : ∀ u ∈ startedUpdates leader.writer.linked starts, IsUpdate u := by
    intro u hu
    obtain ⟨s, hs, rfl⟩ := mem_of_mem_startedUpdates hu
    exact (hwf s hs).1
  have hreplica : ∀ t ∈ delivered, IsReplica t := by
    intro t ht
    have ht' := hdel.subset ht
    rw [hinbox, show inbox _ ([] : List Packet) = [] from rfl, List.nil_append] at ht'
    obtain ⟨p, hp, rfl⟩ := List.mem_map.mp ht'
    obtain ⟨j, hj, hu⟩ := exists_of_mem_numbered hp
    exact ⟨j, p.2, by rw [hj], hupd _ hu⟩
  refine forall_congr' fun key => imp_congr_right fun hwritten => imp_congr_right fun howns => ?_
  obtain ⟨u, hu, v, hrec⟩ := hwritten
  -- Some delivered message binds the key, so the follower's old records do not matter.
  have hmem : some (key, v) ∈ delivered.map replicaRecord := by
    obtain ⟨j, hj⟩ := exists_mem_numbered hu leader.raft.currLogNum
    have : Node.replicaText (intStr j) u ∈ delivered := by
      refine hdel.symm.subset ?_
      rw [hinbox]
      exact List.mem_append_right _ (List.mem_map.mpr ⟨_, hj, rfl⟩)
    exact List.mem_map.mpr ⟨_, this, by rw [replicaRecord_replicaText j (hupd u hu), hrec]⟩
  rw [deliverAll_records delivered follower hreplica key howns, hleader, foldl_put_apply]
  cases hl : lastWrite key (delivered.map replicaRecord) with
  | none => exact absurd hmem (lastWrite_eq_none_iff.mp hl v)
  | some _ => rfl

/-! ### A run that diverges -/

omit [Unicode] in
/-- A freshly started node of a cluster of two, without record files. -/
def pairNode (selfIp : Str) : Node :=
  Node.main selfIp [some "10.0.0.1".toList, some "10.0.0.2".toList]
    { file := fun _ => none, denied := fun _ => false } [] 0

omit [Unicode] in
/-- Two writes of the address of one domain. -/
def twoWrites : List Start := [.line "a.com,A,1.1.1.1".toList, .line "a.com,A,2.2.2.2".toList]

omit [Unicode] in
theorem isUpdate_of_record {u : Str} (key : Key) (v : Str) (hu : ';' ∉ u ∧ '\n' ∉ u ∧ '\r' ∉ u)
    (hrec : updateRecord u = some (key, v)) (hd : key.1 ≠ []) : IsUpdate u :=
  ⟨hu.1, hu.2.1, hu.2.2, key, v, hrec, hd⟩

omit [Unicode] in
theorem twoWrites_wellFormed : WellFormed twoWrites := by
  intro s hs
  rcases List.mem_cons.mp hs with rfl | hs
  · exact ⟨isUpdate_of_record ("a.com".toList, ['A']) "1.1.1.1".toList (by decide) (by decide)
      (by decide), fun u h => by cases h; decide⟩
  · obtain rfl := List.mem_singleton.mp hs
    exact ⟨isUpdate_of_record ("a.com".toList, ['A']) "2.2.2.2".toList (by decide) (by decide)
      (by decide), fun u h => by cases h; decide⟩

omit [Unicode] in
/-- The two messages arrive the other way round: the follower keeps the first address. -/
theorem not_converges_reordered :
    ["2;2;a.com,A,2.2.2.2\n".toList, "2;1;a.com,A,1.1.1.1\n".toList].Perm
      (inbox "10.0.0.1".toList
        (@runStarts Unicode.ascii (pairNode "10.0.0.2".toList) twoWrites).outbox) ∧
    ¬ @Converges Unicode.ascii (pairNode "10.0.0.2".toList) (pairNode "10.0.0.1".toList) twoWrites
      ["2;2;a.com,A,2.2.2.2\n".toList, "2;1;a.com,A,1.1.1.1\n".toList] := by
  refine ⟨by decide, fun h => ?_⟩
  have := h ("a.com".toList, ['A'])
    ⟨"a.com,A,1.1.1.1".toList, by decide, "1.1.1.1".toList, by decide⟩ (by decide)
  exact absurd this (by decide)

omit [Unicode] in
/-- In the order they were sent, both replicas end with the second address. -/
theorem converges_in_order :
    @Converges Unicode.ascii (pairNode "10.0.0.2".toList) (pairNode "10.0.0.1".toList) twoWrites
      ["2;1;a.com,A,1.1.1.1\n".toList, "2;2;a.com,A,2.2.2.2\n".toList] := by
  refine (@converges_iff Unicode.ascii _ _ _ _ twoWrites_wellFormed rfl (by decide) (by decide)
    (by decide)).mpr fun key _ _ => ?_
  have hsame : ["2;1;a.com,A,1.1.1.1\n".toList, "2;2;a.com,A,2.2.2.2\n".toList].map replicaRecord =
      (startedUpdates false twoWrites).map
        (@Node.committed Unicode.ascii (pairNode "10.0.0.2".toList).disk) := by decide
  rw [hsame]
  exact Option.or_none.symm

end DsDns
