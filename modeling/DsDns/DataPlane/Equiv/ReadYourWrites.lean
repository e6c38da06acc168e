/-
  When a node answers with the record it has just stored.

  The three ways to store a record keep the case of its domain and its type, and `recordResponse` looks
  up the lower-cased domain and the upper-cased type. So a record is found, under any spelling, exactly
  if it is spelled like that itself, or the node would have given that answer anyway:
  `stored_response` is the map after the store, `read_your_writes_iff` the condition.
  `not_read_your_writes` stores `Example.com` in all three ways and finds it in none.
-/
import DsDns.DataPlane.Equiv.Commit
import DsDns.DataPlane.Equiv.Reader
import DsDns.DataPlane.Equiv.Shard
import DsDns.DataPlane.Equiv.Server
import DsDns.DataPlane.Equiv.Step

namespace DsDns

variable [Unicode]

/-- Another spelling of a domain and a type in upper and lower case. -/
structure Spelling (d t d' t' : Str) : Prop where
  domain : lower d' = lower d
  letter : shardOf d' = shardOf d
  rtype : upper t' = upper t
  trimmed : strip d' = d' ∧ strip t' = t'

/-- The key `recordResponse` looks up. -/
def lookupKey (d t : Str) : Key := (lower d, upper t)

/-- The record `d,t,v` is stored, by the initial load of a line that no later line overwrites, by a
replicated update, or by a commit. The node is `m` after it, and `before` is what it held before. -/
inductive Stores (d t v : Str) : Records → Node → Prop where
  | load (selfIp : Str) (files : List (Option Str)) (disk : Disk) (heads : List Str) (now : Time)
      (earlier : List Str) (line : Str) (later : List Str)
      (hlines : loadedLines disk heads = earlier ++ line :: later) (hline : strip line = row d t v)
      (hlater : ∀ x ∈ later, ∀ w, lineRecord x ≠ some (lookupKey d t, w)) :
      Stores d t v (fun k => lastWrite k (earlier.map lineRecord))
        (Node.main selfIp files disk heads now)
  | replica (n : Node) (query num : Str) (howns : n.states.owns d = true)
      (hquery : Node.parseWrite query = .replica num (row d t v)) :
      Stores d t v n.states.records (n.writeHandler query).1
  | commit (n : Node) (num : Str) (hlog : n.writer.logs num = some (row d t v))
      (hfile : ∀ c cs, d = c :: cs → n.disk.canOpen (lower [c]) = true) :
      Stores d t v n.states.records (n.commitHandler num).1

/-- The event does not write the key. -/
def NodeEvent.Leaves (key : Key) (n : Node) (e : NodeEvent) : Prop := ∀ v, e.writes n ≠ some (key, v)

/-! ### Looking up -/

/-- Whether a node owns a domain depends on its first letter. -/
theorem owns_of_shardOf {s : States} {d d' : Str} (h : shardOf d' = shardOf d) :
    s.owns d' = s.owns d := by
  have howns : ∀ x, s.owns x = (shardOf x).any fun l => s.selfRecords.contains l := by
    intro x
    cases x <;> rfl
  rw [howns, howns, h]

/-- All spellings are looked up under one key. -/
theorem recordResponse_spelling {s : States} {d t d' t' : Str} (howns : s.owns d = true)
    (h : Spelling d t d' t') :
    s.recordResponse d' t' = (s.records (lookupKey d t)).getD notAvailable := by
  obtain ⟨hd, ht⟩ := h.trimmed
  unfold States.recordResponse lookupKey
  rw [owns_of_shardOf h.letter, if_pos howns, hd, ht, h.domain, h.rtype]
  rfl

/-- A key keeps its value as long as no event writes it. -/
theorem records_of_leaves {key : Key} {m : Node} {es : List NodeEvent}
    (h : Along (fun n e => e.Leaves key n) Node.step m es) :
    (run Node.step m es).states.records key = m.states.records key := by
  refine h.invariant (P := fun n : Node => n.states.records key = m.states.records key) rfl ?_
  intro n e hn he
  rw [n.step_records, put_apply, boundValue_eq_none_iff.mpr he, Option.none_or]
  exact hn

/-! ### Storing -/

/-- A record of a letter is no comment. -/
theorem not_comment_of_owns {d : Str} {selfIp : Str} {files : List (Option Str)} {disk : Disk}
    {heads : List Str} {now : Time}
    (h : (Node.main selfIp files disk heads now).states.owns d = true) (rest : Str) :
    startsWith (d ++ rest) ['#'] = false := by
  obtain ⟨p, hp⟩ := States.init_eq selfIp files
  cases d with
  | nil => exact absurd h (by simp [States.owns])
  | cons c cs =>
    -- Owned letters are letters of the alphabet, and `#` is none.
    have hmem : lower [c] ∈ (States.init selfIp files).selfRecords := by
      simpa [States.owns, Node.main] using h
    rw [hp] at hmem
    obtain ⟨x, hx, hlower⟩ := List.mem_map.mp (recordSet_subset hmem)
    have hne : c ≠ '#' := by
      rintro rfl
      rw [Unicode.lower_ascii ['#'] (by simp)] at hlower
      obtain rfl : x = '#' := (List.cons.inj hlower).1
      exact absurd hx (by decide)
    simpa [startsWith, List.isPrefixOf] using hne.symm

/-- A store binds the record's own key. -/
theorem records_of_stores {d t v : Str} (hd : IsField d) (ht : IsField t) (hv : IsField v)
    {before : Records} {m : Node} (h : Stores d t v before m) (howns : m.states.owns d = true) :
    m.states.records (lookupKey d t) = put before (some ((d, t), v)) (lookupKey d t) := by
  have hstrip : strip (row d t v) = row d t v :=
    strip_row_of hd.trimmed hd.ne_nil hv.rstrip_eq hv.ne_nil t
  have hrec : updateRecord (row d t v) = some ((d, t), v) := updateRecord_of_strip hd ht hv hstrip
  obtain ⟨c, cs, hcons, -⟩ := hd.exists_cons
  cases h with
  | load selfIp files disk heads now earlier line later hlines hline hlater =>
    have hown : lineRecord line = some ((d, t), v) := by
      have hno : startsWith (strip line) ['#'] = false := by
        rw [hline]
        exact not_comment_of_owns howns _
      rw [lineRecord_eq, if_neg, updateRecord_of_strip hd ht hv hline]
      rintro (hnil | hcomment)
      · rw [hline, row, hcons] at hnil
        exact absurd hnil (by simp)
      · rw [hno] at hcomment
        exact absurd hcomment (by decide)
    -- No later line binds the key, so this one decides.
    have hnone : lastWrite (lookupKey d t) (later.map lineRecord) = none := by
      rw [lastWrite_eq_none_iff]
      intro w hw
      obtain ⟨x, hx, hxw⟩ := List.mem_map.mp hw
      exact hlater x hx w hxw
    show loadShards disk heads _ = _
    rw [loadShards_eq, hlines, List.map_append, List.map_cons, lastWrite_append, lastWrite_cons, hnone,
      Option.none_or, hown, put_apply]
  | replica n query num hown hquery =>
    rw [Node.writeHandler_eq, hquery]
    show (n.link.replicate num (row d t v)).states.records (lookupKey d t) = _
    rw [Node.replicate_states, Node.applyReplica_records]
    rw [hstrip, split_row_of hd.no_comma ht.no_comma hv.no_comma]
    have hown' : n.link.states.owns d = true := hown
    simp only [if_pos hown', hrec]
    rfl
  | commit n num hlog hfile =>
    have htarget : commitTarget (row d t v) = some (c, (d, t), v) :=
      commitTarget_of_updateRecord hrec hcons
    rw [n.commitHandler_records hlog, Node.committed, htarget]
    simp only [if_pos (hfile c cs hcons)]

/-- **The answer after a store**: the value, if the record is spelled the way it is looked up, and
otherwise what was there before. -/
theorem stored_response {d t v : Str} (hd : IsField d) (ht : IsField t) (hv : IsField v)
    {before : Records} {m : Node} (h : Stores d t v before m) (howns : m.states.owns d = true) :
    m.states.records (lookupKey d t) =
      if lower d = d ∧ upper t = t then some v else before (lookupKey d t) := by
  rw [records_of_stores hd ht hv h howns]
  rw [put_some_apply]
  by_cases hkey : lower d = d ∧ upper t = t
  · rw [if_pos hkey, if_pos (Prod.ext hkey.1 hkey.2)]
  · have hne : lookupKey d t ≠ (d, t) := fun he => hkey (Prod.mk.inj he)
    rw [if_neg hkey, if_neg hne]

/-- **When a node reads its own writes.** A node that owns the domain stores a record, in any of the
three ways, and nothing writes its key afterwards. It answers with the value under every spelling if
and only if the domain is in lower and the type in upper case, or it would have given that answer
before the record was stored. -/
theorem read_your_writes_iff {d t v : Str} (hd : IsField d) (ht : IsField t) (hv : IsField v)
    {before : Records} {m : Node} (h : Stores d t v before m) (howns : m.states.owns d = true)
    (es : List NodeEvent) (hes : Along (fun n e => e.Leaves (lookupKey d t) n) Node.step m es)
    (hlater : (run Node.step m es).states.owns d = true) :
    (∀ d' t', Spelling d t d' t' → (run Node.step m es).states.recordResponse d' t' = v) ↔
      (lower d = d ∧ upper t = t) ∨ (before (lookupKey d t)).getD notAvailable = v := by
  have hall : (∀ d' t', Spelling d t d' t' →
      (run Node.step m es).states.recordResponse d' t' = v) ↔
      (m.states.records (lookupKey d t)).getD notAvailable = v := by
    rw [← records_of_leaves hes]
    constructor
    · intro hspell
      rw [← recordResponse_spelling hlater ⟨rfl, rfl, rfl, hd.trimmed, ht.trimmed⟩]
      exact hspell d t ⟨rfl, rfl, rfl, hd.trimmed, ht.trimmed⟩
    · intro hvalue d' t' hspell
      rw [recordResponse_spelling hlater hspell]
      exact hvalue
  rw [hall, stored_response hd ht hv h howns]
  by_cases hkey : lower d = d ∧ upper t = t
  · rw [if_pos hkey]
    exact iff_of_true rfl (Or.inl hkey)
  · rw [if_neg hkey]
    exact ⟨Or.inr, fun hor => hor.resolve_left hkey⟩

omit [Unicode] in
/-- `a.com`, replicated to its owner, is answered as `A.COM` too, also after a heartbeat. -/
theorem read_your_writes_iff_upper :
    @States.recordResponse Unicode.ascii (run (@Node.step Unicode.ascii)
      (@Node.writeHandler Unicode.ascii (siteNode "10.0.0.1".toList [])
        "2;1;a.com,A,9.9.9.9".toList).1
      [.beat ⟨"10.0.0.2;1;2".toList, by decide, by decide⟩ 0]).states "A.COM".toList "a".toList =
        "9.9.9.9".toList := by
  have hd : IsField "a.com".toList := ⟨by decide, by decide, by decide, by decide, by decide⟩
  have ht : IsField "A".toList := ⟨by decide, by decide, by decide, by decide, by decide⟩
  have hv : IsField "9.9.9.9".toList := ⟨by decide, by decide, by decide, by decide, by decide⟩
  have hstore := @Stores.replica Unicode.ascii "a.com".toList "A".toList "9.9.9.9".toList
    (siteNode "10.0.0.1".toList []) "2;1;a.com,A,9.9.9.9".toList "1".toList (by decide) rfl
  refine (@read_your_writes_iff Unicode.ascii _ _ _ hd ht hv _ _ hstore (by decide)
    [.beat ⟨"10.0.0.2;1;2".toList, by decide, by decide⟩ 0] ⟨fun v => ?_, trivial⟩ (by decide)).mpr
    (Or.inl (by decide)) "A.COM".toList "a".toList ?_
  · exact fun h => absurd h (by simp [NodeEvent.writes])
  · exact @Spelling.mk Unicode.ascii _ _ _ _ (by decide) (by decide) (by decide) (by decide)

omit [Unicode] in
/-- A record file with a mixed-case domain. -/
def mixedCase : Disk where
  file s := if s = ['e'] then some "Example.com,A,1.2.3.4\n".toList else none
  denied _ := false

omit [Unicode] in
/-- `Example.com`, loaded, replicated or committed by the owner of its letter, is answered with `N/A`,
in its own spelling and in lower case. -/
theorem not_read_your_writes :
    (["Example.com".toList, "example.com".toList].all fun d =>
      @States.recordResponse Unicode.ascii (Node.main "10.0.0.1".toList
        [some "10.0.0.1".toList, some "10.0.0.2".toList] mixedCase [['e']] 0).states d ['A'] =
          notAvailable ∧
      @States.recordResponse Unicode.ascii (@Node.writeHandler Unicode.ascii
        (siteNode "10.0.0.1".toList []) "2;1;Example.com,A,1.2.3.4".toList).1.states d ['A'] =
          notAvailable ∧
      @States.recordResponse Unicode.ascii (@Node.startWrite Unicode.ascii
        (siteNode "10.0.0.1".toList []) "Example.com,A,1.2.3.4".toList).1.states d ['A'] =
          notAvailable) = true ∧
    @States.owns Unicode.ascii (siteNode "10.0.0.1".toList []).states "Example.com".toList = true ∧
    (@Node.startWrite Unicode.ascii (siteNode "10.0.0.1".toList [])
      "Example.com,A,1.2.3.4".toList).1.states.records ("Example.com".toList, ['A']) =
        some "1.2.3.4".toList := by
  decide

end DsDns
