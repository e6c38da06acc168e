/-
  When a live resolution is returned and recorded.

  A leader that finds a domain nowhere resolves it and starts a write of the answer. `newRecord` needs
  the link to the coordinator, which only a message on the write port sets, and whatever goes wrong
  becomes `N/A`. `CanRecord` is the condition on the node under which the answer comes back, under a
  log number that was free, and stands in the records; `recorded_iff` says that it is exact. The
  invariant behind it is that no key in memory has a comma in its domain (`keyed_step`), so a domain
  with a comma is never recorded. `not_recorded_unlinked` is the first read of a fresh leader.
-/
import DsDns.DataPlane.Equiv.Commit
import DsDns.DataPlane.Equiv.Beat
import DsDns.DataPlane.Equiv.Server
import DsDns.DataPlane.Equiv.Step

namespace DsDns

variable [Unicode]

/-! ### Keys without commas -/

omit [Unicode] in
/-- No record in memory has a comma in its domain. -/
def Keyed (records : Records) : Prop := ∀ key v, records key = some v → ',' ∉ key.1

omit [Unicode] in
theorem not_mem_of_updateRecord {u : Str} {key : Key} {v : Str} (h : updateRecord u = some (key, v)) :
    ',' ∉ key.1 := by
  unfold updateRecord at h
  split at h
  · rename_i dom t ip hsplit
    cases h
    have hdom : dom ∈ split ',' (strip u) := by
      rw [hsplit]
      exact List.mem_cons_self
    exact fun hc => sep_not_mem_of_mem_split hdom (mem_of_mem_strip hc)
  · exact absurd h (by simp)

omit [Unicode] in
theorem not_mem_of_commitTarget {u : Str} {c : Char} {key : Key} {v : Str}
    (h : commitTarget u = some (c, key, v)) : ',' ∉ key.1 := by
  unfold commitTarget at h
  split at h
  · rename_i domain rtype ip rest hsplit
    have hdom : domain ∈ split ',' (strip u) := by
      rw [hsplit]
      exact List.mem_cons_self
    split at h
    · exact absurd h (by simp)
    · rename_i hstrip
      cases h
      intro hc
      rw [← hstrip] at hc
      exact sep_not_mem_of_mem_split hdom (mem_of_mem_strip hc)
  · exact absurd h (by simp)

omit [Unicode] in
theorem keyed_put {records : Records} (h : Keyed records) {w : Option (Key × Str)}
    (hw : ∀ key v, w = some (key, v) → ',' ∉ key.1) : Keyed (put records w) := by
  intro key v hkey
  rw [put_apply] at hkey
  cases hb : boundValue key w with
  | none =>
    rw [hb, Option.none_or] at hkey
    exact h key v hkey
  | some x =>
    rcases w with _ | ⟨k, x'⟩
    · exact absurd hb (by simp [boundValue])
    · rw [boundValue] at hb
      split at hb
      · rename_i he
        exact he ▸ hw k x' rfl
      · exact absurd hb (by simp)

theorem not_mem_of_committed {disk : Disk} {u : Str} {key : Key} {v : Str}
    (h : Node.committed disk u = some (key, v)) : ',' ∉ key.1 := by
  unfold Node.committed at h
  split at h
  · exact absurd h (by simp)
  · rename_i c k x htarget
    split at h
    · cases h
      exact not_mem_of_commitTarget htarget
    · exact absurd h (by simp)

theorem keyed_step {n : Node} (h : Keyed n.states.records) (e : NodeEvent) :
    Keyed (n.step e).states.records := by
  rw [n.step_records]
  apply keyed_put h
  intro key v hw
  unfold NodeEvent.writes at hw
  repeat' split at hw
  · exact not_mem_of_committed hw
  · unfold replicaWrite at hw
    repeat' split at hw
    · exact not_mem_of_updateRecord hw
    · exact absurd hw (by simp)
    · exact absurd hw (by simp)
  · obtain ⟨u, -, hu⟩ := Option.bind_eq_some_iff.mp hw
    exact not_mem_of_committed hu
  · exact absurd hw (by simp)
  · exact not_mem_of_committed hw
  · exact absurd hw (by simp)
  · exact absurd hw (by simp)

omit [Unicode] in
theorem keyed_loadShards (disk : Disk) (heads : List Str) : Keyed (loadShards disk heads) := by
  intro key v h
  rw [loadShards_eq] at h
  obtain ⟨line, -, hline⟩ := List.mem_map.mp (mem_of_lastWrite_eq_some h)
  rw [lineRecord_eq] at hline
  split at hline
  · exact absurd hline (by simp)
  · exact not_mem_of_updateRecord hline

/-- In every state of its life, no key a node holds has a comma in its domain. -/
theorem keyed_run (selfIp : Str) (files : List (Option Str)) (disk : Disk) (heads : List Str)
    (now : Time) (es : List NodeEvent) :
    Keyed (run Node.step (Node.main selfIp files disk heads now) es).states.records :=
  run_invariant (P := fun n : Node => Keyed n.states.records) (keyed_loadShards disk heads)
    fun _ e h => keyed_step h e

/-! ### The write of a resolution -/

/-- What is asked of a resolution of `d` to `a` at the node `n`, whose address is `ip`: the answer is
returned, a log entry was started under a number that was free, and the record is in memory. -/
def Recorded (n : Node) (ip d a : Str) (out : Option (Str × Cluster)) : Prop :=
  ∃ cl m, out = some (a, cl) ∧ cl ip = some m ∧ n.writer.logs n.nextNum = none ∧
    m.writer.logs n.nextNum = some (d ++ ",A,".toList ++ a) ∧
    m.states.records (d, ['A']) = some a

/-- The node can record that `d` resolves to `a`: its writer has been linked by a message on the write
port, its next log number is free, the domain is one field, its shard's name is a file name, and the
file can be written or the record is in memory already. -/
structure CanRecord (n : Node) (d a : Str) : Prop where
  linked : n.writer.linked = true
  fresh : n.writer.logs n.nextNum = none
  no_comma : ',' ∉ d
  name : ∀ c cs, d = c :: cs → Char.ofNat 0 ∉ lower [c]
  file : ∀ c cs, d = c :: cs →
    n.disk.denied (lower [c]) = false ∨ n.states.records (d, ['A']) = some a

omit [Unicode] in
/-- The update of a resolution is a row. -/
theorem resolution_row (d a : Str) : d ++ ",A,".toList ++ a = row d ['A'] a := by
  simp [row]

omit [Unicode] in
/-- An IPv4 address is a field of an update, and not `N/A`. -/
theorem address_field {a : Str} (ha : (ipv4 a).isSome) :
    rstrip a = a ∧ a ≠ [] ∧ ',' ∉ a ∧ strip a = a ∧ a ≠ notAvailable := by
  have hstrip : strip a = a := strip_of_no_space fun _ hc => isSpace_of_mem_ipv4 ha hc
  refine ⟨by rw [← hstrip, rstrip_strip], ne_nil_of_ipv4 ha,
    not_mem_of_ipv4 ha (by decide) (by decide), hstrip, ?_⟩
  rintro rfl
  exact absurd ha (by decide)

omit [Unicode] in
/-- The binding of a resolution of a domain without commas. -/
theorem commitTarget_resolution {c : Char} {cs a : Str} (hd : strip (c :: cs) = c :: cs)
    (hcomma : ',' ∉ c :: cs) (ha : (ipv4 a).isSome) :
    commitTarget (row (c :: cs) ['A'] a) = some (c, ((c :: cs, ['A']), a)) := by
  obtain ⟨hr, hne, hac, hs, -⟩ := address_field ha
  unfold commitTarget
  rw [strip_row_of hd (by simp) hr hne, split_row_of hcomma (by decide) hac]
  simp only [hd, hs]
  rfl

/-- Such a resolution raises if its shard's name is no file name. -/
theorem raises_resolution {c : Char} {cs a : Str} (hd : strip (c :: cs) = c :: cs)
    (hcomma : ',' ∉ c :: cs) (ha : (ipv4 a).isSome) :
    Node.CommitRaises (row (c :: cs) ['A'] a) ↔ Char.ofNat 0 ∈ lower [c] := by
  obtain ⟨hr, hne, hac, -, -⟩ := address_field ha
  have hsplit : split ',' (strip (row (c :: cs) ['A'] a)) = [c :: cs, ['A'], a] := by
    rw [strip_row_of hd (by simp) hr hne, split_row_of hcomma (by decide) hac]
  rw [Node.commitRaises_iff hsplit, hd]
  refine ⟨fun hall => hall c cs rfl, fun hz c' cs' he => ?_⟩
  obtain ⟨rfl, -⟩ := List.cons.inj he
  exact hz

/-- What `newRecord` returns and leaves, for a linked writer. -/
theorem newRecord_linked {n : Node} (hlinked : n.writer.linked = true)
    {gethostbyname : Str → Option Str} {d a : Str} (hg : gethostbyname d = some a) :
    n.newRecord gethostbyname d = ((n.startWrite (row d ['A'] a)).1,
      match (n.startWrite (row d ['A'] a)).2 with
      | .ok => a
      | .raised => notAvailable) := by
  unfold Node.newRecord
  simp only [hg, hlinked, if_true, resolution_row]
  rcases n.startWrite (row d ['A'] a) with ⟨m, _ | _⟩ <;> rfl

/-- A leader that finds a domain nowhere answers with its own resolution. -/
theorem resolve_newRecord {gethostbyname : Str → Option Str} {cl : Cluster} {ip d : Str} {n : Node}
    (hn : cl ip = some n) (hlead : n.raft.leader = true) (hlocal : n.localLookup d = notAvailable)
    (hpeers : n.sendRead cl d = notAvailable) (fuel : ℕ) :
    resolve gethostbyname (fuel + 1) cl ip d = some ((n.newRecord gethostbyname d).2,
      cl.set ip (n.newRecord gethostbyname d).1) := by
  rw [resolve, hn]
  simp only [hlocal, hlead, hpeers, ne_eq, not_true_eq_false, if_true, if_false]

/-- What is recorded of a resolution by a linked writer. -/
theorem recorded_linked {n : Node} (hlinked : n.writer.linked = true) {ip d a : Str}
    (ha : (ipv4 a).isSome) {gethostbyname : Str → Option Str} (hg : gethostbyname d = some a)
    (cl : Cluster) :
    Recorded n ip d a (some ((n.newRecord gethostbyname d).2,
      cl.set ip (n.newRecord gethostbyname d).1)) ↔
    ¬ Node.CommitRaises (row d ['A'] a) ∧ n.writer.logs n.nextNum = none ∧
      put n.states.records (Node.committed n.disk (row d ['A'] a)) (d, ['A']) = some a := by
  have hlog : (n.announce (row d ['A'] a)).writer.logs n.nextNum = some (row d ['A'] a) := by
    rw [Node.announce_logs, if_pos rfl]
  have hexit : (n.startWrite (row d ['A'] a)).2 = .raised ↔ Node.CommitRaises (row d ['A'] a) := by
    rw [Node.startWrite_eq]
    exact Node.commitHandler_raised_iff _ hlog
  have hlogs : (n.startWrite (row d ['A'] a)).1.writer.logs n.nextNum = some (row d ['A'] a) := by
    rw [Node.startWrite_eq, Node.commitHandler_writer, hlog]
  have hrecords : (n.startWrite (row d ['A'] a)).1.states.records =
      put n.states.records (Node.committed n.disk (row d ['A'] a)) :=
    congrArg States.records (startWrite_effects n _).1
  have hne := (address_field ha).2.2.2.2
  rw [newRecord_linked hlinked hg, ← hexit]
  constructor
  · rintro ⟨cl', m, hout, hm, hfresh, -, hrec⟩
    obtain ⟨hanswer, rfl⟩ := Prod.mk.inj (Option.some.inj hout)
    obtain rfl : (n.startWrite (row d ['A'] a)).1 = m := Option.some.inj ((if_pos rfl).symm.trans hm)
    -- A commit that raises makes the answer `N/A`, which is no address.
    refine ⟨fun hraised => hne ?_, hfresh, by rw [← hrecords]; exact hrec⟩
    rw [hraised] at hanswer
    exact hanswer.symm
  · rintro ⟨hok, hfresh, hrec⟩
    have hanswer : (n.startWrite (row d ['A'] a)).2 = .ok := by
      cases hx : (n.startWrite (row d ['A'] a)).2 with
      | ok => rfl
      | raised => exact absurd hx hok
    refine ⟨cl.set ip (n.startWrite (row d ['A'] a)).1, (n.startWrite (row d ['A'] a)).1, ?_,
      if_pos rfl, hfresh, ?_, ?_⟩
    · simp only [hanswer]
    · rw [resolution_row]
      exact hlogs
    · rw [hrecords]
      exact hrec

/-- The condition, for a linked writer on a domain that is one field. -/
theorem canRecord_iff {n : Node} {c : Char} {cs a : Str} (hlinked : n.writer.linked = true)
    (hd : strip (c :: cs) = c :: cs) (hcomma : ',' ∉ c :: cs) (ha : (ipv4 a).isSome) :
    (¬ Node.CommitRaises (row (c :: cs) ['A'] a) ∧ n.writer.logs n.nextNum = none ∧
      put n.states.records (Node.committed n.disk (row (c :: cs) ['A'] a)) (c :: cs, ['A']) = some a) ↔
    CanRecord n (c :: cs) a := by
  rw [raises_resolution hd hcomma ha, Node.committed, commitTarget_resolution hd hcomma ha]
  constructor
  · rintro ⟨hname, hfresh, hrec⟩
    refine ⟨hlinked, hfresh, hcomma, fun c' cs' he => ?_, fun c' cs' he => ?_⟩
    · obtain ⟨rfl, -⟩ := List.cons.inj he
      exact hname
    · obtain ⟨rfl, -⟩ := List.cons.inj he
      -- If the file cannot be opened nothing is put, so the record was there before.
      cases hden : n.disk.denied (lower [c]) with
      | false => exact Or.inl rfl
      | true =>
        have hno : n.disk.canOpen (lower [c]) = false := by simp [Disk.canOpen, hden]
        simp only [hno, Bool.false_eq_true, if_false, put_none] at hrec
        exact Or.inr hrec
  · rintro ⟨-, hfresh, -, hname, hfile⟩
    refine ⟨hname c cs rfl, hfresh, ?_⟩
    simp only
    by_cases hacc : n.disk.canOpen (lower [c]) = true
    · rw [if_pos hacc, put_some_self]
    · rw [if_neg hacc, put_none]
      refine (hfile c cs rfl).resolve_left fun hopen => hacc ?_
      simpa [Disk.canOpen, hopen] using hname c cs rfl

/-- **When a live resolution is returned and recorded.** In every state of a node's life in which it
leads, for every domain of a client that the local and the peer lookups do not find and that
`gethostbyname` resolves to `a`: `_resolve` returns `a` and has the record logged under a free number
and committed to memory if and only if the node can record it. -/
theorem recorded_iff (selfIp : Str) (files : List (Option Str)) (disk : Disk) (heads : List Str)
    (now : Time) (es : List NodeEvent) (gethostbyname : Str → Option Str) (cl : Cluster)
    (ip d a : Str) (fuel : ℕ)
    (hn : cl ip = some (run Node.step (Node.main selfIp files disk heads now) es))
    (hlead : (run Node.step (Node.main selfIp files disk heads now) es).raft.leader = true)
    (hd : IsQuery d)
    (hlocal : (run Node.step (Node.main selfIp files disk heads now) es).localLookup d = notAvailable)
    (hpeers : (run Node.step (Node.main selfIp files disk heads now) es).sendRead cl d = notAvailable)
    (hg : gethostbyname d = some a) (ha : (ipv4 a).isSome) :
    let n := run Node.step (Node.main selfIp files disk heads now) es
    Recorded n ip d a (resolve gethostbyname (fuel + 1) cl ip d) ↔ CanRecord n d a := by
  intro n
  have hkeyed : Keyed n.states.records := keyed_run selfIp files disk heads now es
  rw [resolve_newRecord hn hlead hlocal hpeers fuel]
  obtain ⟨c, cs, rfl⟩ := List.exists_cons_of_ne_nil hd.ne_nil
  show Recorded n ip (c :: cs) a (some ((n.newRecord gethostbyname (c :: cs)).2,
    cl.set ip (n.newRecord gethostbyname (c :: cs)).1)) ↔ CanRecord n (c :: cs) a
  cases hlinked : n.writer.linked with
  | false =>
    -- Without the link the exception becomes `N/A`.
    refine iff_of_false ?_ fun hcan => absurd hcan.linked (by rw [hlinked]; decide)
    rintro ⟨cl', m, hout, -⟩
    have hna : n.newRecord gethostbyname (c :: cs) = (n, notAvailable) := by
      unfold Node.newRecord
      simp only [hg, hlinked, Bool.false_eq_true, if_false]
      rfl
    rw [hna] at hout
    exact (address_field ha).2.2.2.2 (Prod.mk.inj (Option.some.inj hout)).1.symm
  | true =>
    rw [recorded_linked hlinked ha hg]
    by_cases hcomma : ',' ∈ c :: cs
    · -- A domain of several fields is not the key of any record.
      refine iff_of_false ?_ fun hcan => hcan.no_comma hcomma
      rintro ⟨-, -, hrec⟩
      have hafter : Keyed (put n.states.records (Node.committed n.disk (row (c :: cs) ['A'] a))) :=
        keyed_put hkeyed fun key v hw => not_mem_of_committed hw
      exact hafter (c :: cs, ['A']) a hrec hcomma
    · exact canRecord_iff hlinked hd.trimmed hcomma ha

omit [Unicode] in
/-- `10.0.0.2` leads, and no other node is up. -/
def loneLeader (es : List NodeEvent) : Cluster := fun ip =>
  if ip = "10.0.0.2".toList then
    some (run (@Node.step Unicode.ascii) (siteNode "10.0.0.2".toList []) es)
  else none

omit [Unicode] in
/-- A message on the write port, which the writer ignores. -/
def ignoredWrite : NodeEvent := .write ⟨"x".toList, by decide, by decide⟩

omit [Unicode] in
/-- A leader that has had a message on the write port returns and records what it resolves. -/
theorem recorded_iff_linked :
    @Recorded (run (@Node.step Unicode.ascii) (siteNode "10.0.0.2".toList []) [ignoredWrite])
      "10.0.0.2".toList "b.com".toList "2.2.2.2".toList
      (@resolve Unicode.ascii (fun _ => some "2.2.2.2".toList) 1 (loneLeader [ignoredWrite])
        "10.0.0.2".toList "b.com".toList) := by
  have hquery : IsQuery "b.com".toList := ⟨by decide, by decide, by decide, by decide, by decide⟩
  refine (@recorded_iff Unicode.ascii "10.0.0.2".toList
    [some "10.0.0.1".toList, some "10.0.0.2".toList] _ [] 0 [ignoredWrite]
    (fun _ => some "2.2.2.2".toList) (loneLeader [ignoredWrite]) "10.0.0.2".toList "b.com".toList
    "2.2.2.2".toList 0 rfl (by decide) hquery (by decide) (by decide) rfl (by decide)).mpr ?_
  refine @CanRecord.mk Unicode.ascii _ _ _ (by decide) (by decide) (by decide) (fun c cs he => ?_)
    fun c cs _ => Or.inl rfl
  obtain ⟨rfl, -⟩ := List.cons.inj he
  decide

omit [Unicode] in
/-- A freshly started leader resolves `b.com` and answers `N/A`: its writer has no link yet, and
nothing is logged. -/
theorem not_recorded_unlinked :
    (siteNode "10.0.0.2".toList []).raft.leader = true ∧
    @Node.localLookup Unicode.ascii (siteNode "10.0.0.2".toList []) "b.com".toList = notAvailable ∧
    @Node.sendRead Unicode.ascii (siteNode "10.0.0.2".toList []) (loneLeader []) "b.com".toList =
      notAvailable ∧
    (@resolve Unicode.ascii (fun _ => some "2.2.2.2".toList) 1 (loneLeader []) "10.0.0.2".toList
      "b.com".toList).map Prod.fst = some notAvailable ∧
    ¬ @Recorded (siteNode "10.0.0.2".toList []) "10.0.0.2".toList "b.com".toList "2.2.2.2".toList
      (@resolve Unicode.ascii (fun _ => some "2.2.2.2".toList) 1 (loneLeader []) "10.0.0.2".toList
        "b.com".toList) := by
  have hanswer : (@resolve Unicode.ascii (fun _ => some "2.2.2.2".toList) 1 (loneLeader [])
      "10.0.0.2".toList "b.com".toList).map Prod.fst = some notAvailable := by decide
  refine ⟨by decide, by decide, by decide, hanswer, ?_⟩
  rintro ⟨cl, m, hout, -⟩
  rw [hout] at hanswer
  have hne : "2.2.2.2".toList ≠ notAvailable := by decide
  exact hne (Option.some.inj hanswer)

end DsDns
