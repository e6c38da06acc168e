/-
  When log numbers identify updates.

  A node numbers a write from its own counter, and receiving an entry does not move that counter, so
  nothing keeps two nodes from giving one number to two updates. `NumberFree` is what a write would
  need: no node holds another update under the number it takes. On every run whose writes have this,
  the nodes agree on every number and no entry is ever replaced (`log_numbers_identify`); the argument
  is the step lemma `consistent_step` over the table of `DsDns.ReplicatedLog`.
  `not_log_numbers_identify` is the run of two first writes at two nodes.
-/
import DsDns.Cluster.Equiv.World

namespace DsDns

variable [Unicode]

omit [Unicode] in
/-- The update `newRecord` starts. -/
def resolvedUpdate (domain answer : Str) : Str := domain ++ ",A,".toList ++ answer

omit [Unicode] in
/-- If the event starts a write, its update survives the wire and no node holds another update under
the number it gets. -/
def NumberFree (w : World) : ClusterEvent → Prop
  | .write ip line => ∀ n, w.node ip = some n →
    WireSafe (lineUpdate line.val) ∧ w.entries.Fits n.nextNum (lineUpdate line.val)
  | .newRecord ip domain answer => ∀ n, w.node ip = some n → n.writer.linked = true →
    WireSafe (resolvedUpdate domain.val answer.val) ∧
      w.entries.Fits n.nextNum (resolvedUpdate domain.val answer.val)
  | _ => True

/-- **The step lemma**: a step keeps the nodes in agreement, and every entry where it is. -/
theorem consistent_step {w : World} {e : ClusterEvent} (h : Consistent w) (hok : NumberFree w e) :
    Consistent (w.step e) ∧ w.entries.Extends (w.step e).entries := by
  cases e with
  | write ip line =>
    unfold World.step
    cases hn : w.node ip with
    | none =>
      simp only [act_of_down hn]
      exact ⟨h, Table.Extends.refl _⟩
    | some n =>
      obtain ⟨hsafe, hfit⟩ := hok n hn
      refine consistent_startWrite (m := ({ n with outbox := [] } : Node).link) h hn ?_ rfl rfl rfl
        hsafe hfit
      rw [Node.writeHandler_eq, parseWrite_typeOne]
      rfl
  | newRecord ip domain answer =>
    unfold World.step
    cases hn : w.node ip with
    | none =>
      simp only [act_of_down hn]
      exact ⟨h, Table.Extends.refl _⟩
    | some n =>
      cases hl : n.writer.linked with
      | true =>
        obtain ⟨hsafe, hfit⟩ := hok n hn hl
        refine consistent_startWrite (m := { n with outbox := [] }) h hn ?_ rfl rfl rfl hsafe hfit
        unfold Node.newRecord
        simp only [hl, if_true]
        rw [← resolvedUpdate]
        rcases ({ n with outbox := [] } : Node).startWrite
          (resolvedUpdate domain.val answer.val) with ⟨m, _ | _⟩ <;> rfl
      | false =>
        -- The writer is not linked: the exception becomes `N/A` and nothing is started.
        have hrun : (({ n with outbox := [] } : Node).newRecord (fun _ => some answer.val)
            domain.val).1 = { n with outbox := [] } := by
          unfold Node.newRecord
          simp only [hl, Bool.false_eq_true, if_false]
        have hlogs : (({ n with outbox := [] } : Node).newRecord (fun _ => some answer.val)
            domain.val).1.writer.logs = n.writer.logs := by rw [hrun]
        refine ⟨consistent_act_same h hn hlogs fun p hp => ?_, ?_⟩
        · rw [hrun] at hp
          exact absurd hp (by simp)
        · rw [entries_act_same hn hlogs]
          exact Table.Extends.refl _
  | tick ip now => exact consistent_tick h ip now
  | deliver k now => exact consistent_deliver h k now
  | lose k => exact ⟨consistent_lose h k, Table.Extends.refl _⟩

/-- **Log numbers identify updates.** On every run whose writes take free numbers, two entries under
one number are equal, whichever nodes hold them and at whichever times. -/
theorem log_numbers_identify {w : World} (hstart : Unlogged w) {es : List ClusterEvent}
    (hok : Along NumberFree World.step w es) {early late : List ClusterEvent} (hearly : early <+: es)
    (hlate : late <+: es) {a b k u v : Str} (hu : (run World.step w early).entries a k = some u)
    (hv : (run World.step w late).entries b k = some v) : u = v := by
  -- Between two times of one run the table grows, so the later time has both entries.
  have grow : ∀ {p q : List ClusterEvent}, p <+: q → q <+: es →
      (run World.step w q).entries.Agree ∧
        (run World.step w p).entries.Extends (run World.step w q).entries := by
    rintro p _ ⟨r, rfl⟩ hq
    obtain ⟨hp, hr⟩ := along_append.mp (hok.of_prefix hq)
    have hcons : Consistent (run World.step w p) := hp.invariant (consistent_of_unlogged hstart)
      fun s e hs he => (consistent_step hs he).1
    rw [run_append]
    refine ⟨(hr.invariant hcons fun s e hs he => (consistent_step hs he).1).agree, ?_⟩
    exact hr.grows (R := fun s t => s.entries.Extends t.entries) hcons
      (fun s e hs he => (consistent_step hs he).1) (fun s => Table.Extends.refl _)
      (fun h1 h2 => h1.trans h2) fun s e hs he => (consistent_step hs he).2
  rcases List.prefix_or_prefix_of_prefix hearly hlate with hp | hp
  · obtain ⟨hagree, hext⟩ := grow hp hlate
    exact hagree (hext hu) hv
  · obtain ⟨hagree, hext⟩ := grow hp hearly
    exact hagree hu (hext hv)

omit [Unicode] in
/-- Two freshly started nodes of one cluster. -/
def freshPair : World where
  node ip :=
    if ip = "10.0.0.1".toList ∨ ip = "10.0.0.2".toList then
      some (Node.main ip [some "10.0.0.1".toList, some "10.0.0.2".toList]
        { file := fun _ => none, denied := fun _ => false } [] 0)
    else none
  net := []

omit [Unicode] in
theorem freshPair_unlogged : Unlogged freshPair := by
  refine ⟨fun ip n h k => ?_, rfl⟩
  simp only [freshPair] at h
  split at h
  · cases h
    rfl
  · exact absurd h (by simp)

omit [Unicode] in
/-- A client sends the address of `a.com` to the node `ip`. -/
def writeA (ip : Str) : ClusterEvent := .write ip lineA

omit [Unicode] in
/-- A client sends the address of `b.com` to the node `ip`. -/
def writeB (ip : Str) : ClusterEvent := .write ip ⟨"b.com,A,2.2.2.2".toList, by decide, by decide⟩

omit [Unicode] in
/-- A write at `10.0.0.1` that arrives at `10.0.0.2` is the same update there. -/
theorem log_numbers_identify_delivered : ∃ u,
    (run (@World.step Unicode.ascii) freshPair [writeA "10.0.0.1".toList]).entries
      "10.0.0.1".toList ['1'] = some u ∧
    (run (@World.step Unicode.ascii) freshPair [writeA "10.0.0.1".toList, .deliver 0 0]).entries
      "10.0.0.2".toList ['1'] = some u := by
  have hok : Along NumberFree (@World.step Unicode.ascii) freshPair
      [writeA "10.0.0.1".toList, .deliver 0 0] := by
    refine ⟨fun n _ => ⟨⟨by decide, by decide, by decide, by decide⟩, fun j w hw => ?_⟩, trivial,
      trivial⟩
    rw [entries_of_unlogged freshPair_unlogged] at hw
    exact absurd hw (by simp)
  obtain ⟨u, hu⟩ := Option.isSome_iff_exists.mp (show ((run (@World.step Unicode.ascii) freshPair
    [writeA "10.0.0.1".toList]).entries "10.0.0.1".toList ['1']).isSome by decide)
  obtain ⟨v, hv⟩ := Option.isSome_iff_exists.mp (show ((run (@World.step Unicode.ascii) freshPair
    [writeA "10.0.0.1".toList, .deliver 0 0]).entries "10.0.0.2".toList ['1']).isSome by decide)
  have huv : u = v := @log_numbers_identify Unicode.ascii freshPair freshPair_unlogged _ hok _ _
    ⟨[.deliver 0 0], rfl⟩ (List.prefix_refl _) _ _ _ _ _ hu hv
  exact ⟨u, hu, huv ▸ hv⟩

omit [Unicode] in
/-- Two nodes are handed their first writes: both log them under the number 1. -/
theorem not_log_numbers_identify :
    (run (@World.step Unicode.ascii) freshPair
      [writeA "10.0.0.1".toList, writeB "10.0.0.2".toList]).entries "10.0.0.1".toList ['1'] =
        some "a.com,A,1.1.1.1".toList ∧
    (run (@World.step Unicode.ascii) freshPair
      [writeA "10.0.0.1".toList, writeB "10.0.0.2".toList]).entries "10.0.0.2".toList ['1'] =
        some "b.com,A,2.2.2.2".toList := by
  decide

end DsDns
