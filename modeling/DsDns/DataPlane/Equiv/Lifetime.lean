/-
  When every record of an owned shard is in memory.

  The reader runs once, at the start; `updateRecordSet` moves the shard without reading a file. So a
  node that is given a letter serves it only if the records of its file happen to be in memory
  already. `Harmless` is this condition on one event, with the one way in which a commit can put a
  record into a file that is not the one it puts into memory (an append to an unterminated line), and
  `owned_shard_loaded` is the invariant over the node's whole life. `not_owned_shard_loaded` is the
  heartbeat that gives a node a letter it never loaded.
-/
import DsDns.DataPlane.Lifetime
import DsDns.DataPlane.Equiv.Commit
import DsDns.DataPlane.Equiv.Raft
import DsDns.DataPlane.Equiv.Server

namespace DsDns

variable [Unicode]

/-! ### What an event assigns and commits -/

omit [Unicode] in
/-- The shard of a node that removes `ip` from its map. -/
def removedShard (s : States) (ip : Str) : List Str :=
  if s.nodes.contains ip then
    recordSet (s.nodes.erase ip).length (((States.renumber (s.nodes.erase ip)).get? s.selfIp).getD 1)
      (States.renumber (s.nodes.erase ip)).length
  else s.selfRecords

omit [Unicode] in
/-- The shard of a node that promotes itself. -/
def promotedShard (s : States) : List Str :=
  if s.nodes.contains s.leaderIp then removedShard s s.leaderIp
  else recordSet s.nodeCount ((s.nodes.get? s.selfIp).getD 1) s.lastRank

/-- The shard an event assigns to the node, from the state before it. -/
def NodeEvent.shard (n : Node) : NodeEvent → List Str
  | .beat line _ =>
    match parseBeat line.val with
    | none => n.states.selfRecords
    | some (l, r, lr) =>
      if (ipv4 l).isSome ∧ (ipv4 n.states.leaderIp).isSome ∧
          (n.states.rank ≠ r ∨ n.states.lastRank ≠ lr) then
        recordSet n.states.nodeCount r lr
      else n.states.selfRecords
  | .tick now => if n.TimedOut now then promotedShard n.states else n.states.selfRecords
  | .write _ => n.states.selfRecords
  | .newRecord _ _ => n.states.selfRecords
  | .addNodes ip =>
    if n.states.nodes.contains ip then n.states.selfRecords
    else recordSet (n.states.nodeCount + 1) n.states.rank
      (n.states.nodes.set ip (n.states.nodeCount + 1)).length
  | .removeNode ip => removedShard n.states ip
  | .updateRank rank lastRank => recordSet n.states.nodeCount rank lastRank

omit [Unicode] in
/-- The update an event commits, if any. -/
def NodeEvent.commits (n : Node) : NodeEvent → Option Str
  | .write line =>
    match Node.parseWrite line.val with
    | .start update => some update
    | .commit num => n.writer.logs num
    | _ => none
  | .newRecord domain ip =>
    if n.writer.linked then some (domain.val ++ ",A,".toList ++ ip.val) else none
  | _ => none

omit [Unicode] in
/-- Every record of the file of the letter `c` is in memory. -/
def FileLoaded (n : Node) (c : Str) : Prop :=
  ∀ line ∈ fileLines (n.disk.file c), ∀ key v, lineRecord line = some (key, v) →
    (n.states.records key).isSome

omit [Unicode] in
/-- An update of the domain `d` does not make a record of another domain: it replaces a line, or it
does not run into a line that holds a first field only. -/
def AppendsCleanly (file : Option Str) (d : Str) : Prop :=
  Matched (fileLines file) d ∨ ∀ last, (fileLines file).getLast? = some last →
    last.getLast? = some '\n' ∨ strip last = [] ∨ ',' ∈ last ∨ startsWith (strip last) ['#'] = true

/-- The event gives the node no letter whose file it has not loaded, and its commit, if it is one to
an owned shard, appends cleanly. -/
def Harmless (n : Node) (e : NodeEvent) : Prop :=
  (∀ c ∈ e.shard n, c ∉ n.states.selfRecords → FileLoaded n c) ∧
  ∀ u ∈ e.commits n, ∀ c key v, commitTarget u = some (c, key, v) →
    lower [c] ∈ n.states.selfRecords → AppendsCleanly (n.disk.file (lower [c])) key.1

/-- The invariant: the owned files are loaded, and every log entry fits on a line. -/
structure Loaded (n : Node) : Prop where
  files : ∀ c ∈ n.states.selfRecords, FileLoaded n c
  oneLine : ∀ num u, n.writer.logs num = some u → '\n' ∉ u ∧ '\r' ∉ u

/-! ### Events that move the shard -/

omit [Unicode] in
theorem shard_removeNode (s : States) (ip : Str) :
    (s.removeNode ip).selfRecords = removedShard s ip ∧ (s.removeNode ip).records = s.records := by
  unfold removedShard
  cases hc : s.nodes.contains ip with
  | false =>
    rw [States.removeNode_of_not_mem hc]
    exact ⟨rfl, rfl⟩
  | true =>
    obtain ⟨p, hp⟩ := States.removeNode_eq hc rfl
    rw [hp]
    exact ⟨rfl, rfl⟩

omit [Unicode] in
theorem shard_addNodes (s : States) (ip : Str) :
    (s.addNodes ip).selfRecords = (if s.nodes.contains ip then s.selfRecords
      else recordSet (s.nodeCount + 1) s.rank (s.nodes.set ip (s.nodeCount + 1)).length) ∧
      (s.addNodes ip).records = s.records := by
  cases hc : s.nodes.contains ip with
  | true =>
    rw [States.addNodes_of_mem hc]
    exact ⟨rfl, rfl⟩
  | false =>
    obtain ⟨p, hp⟩ := States.addNodes_eq hc
    rw [hp]
    exact ⟨rfl, rfl⟩

omit [Unicode] in
theorem shard_updateRank (s : States) (rank lastRank : ℤ) :
    (s.updateRank rank lastRank).selfRecords = recordSet s.nodeCount rank lastRank ∧
      (s.updateRank rank lastRank).records = s.records := by
  obtain ⟨p, hp⟩ := s.updateRank_eq rank lastRank
  rw [hp]
  exact ⟨rfl, rfl⟩

omit [Unicode] in
theorem shard_promote (n : Node) : n.promote.states.selfRecords = promotedShard n.states := by
  obtain ⟨p, hp⟩ := States.updateRank_eq
    { n.states.removeNode n.states.leaderIp with
      leaderIp := (n.states.removeNode n.states.leaderIp).selfIp }
    (((n.states.removeNode n.states.leaderIp).nodes.get?
      (n.states.removeNode n.states.leaderIp).selfIp).getD 1)
    (n.states.removeNode n.states.leaderIp).lastRank
  unfold Node.promote promotedShard removedShard
  simp only [hp]
  cases hc : n.states.nodes.contains n.states.leaderIp with
  | false =>
    rw [States.removeNode_of_not_mem hc]
    rfl
  | true =>
    obtain ⟨q, hq⟩ := States.removeNode_eq hc rfl
    rw [hq]
    rfl

theorem shard_beat (n : Node) (line : Line) (now : Time) :
    (n.beatHandler line now).states.selfRecords = (NodeEvent.beat line now).shard n := by
  unfold NodeEvent.shard
  rcases n.beatHandler_cases line now with ⟨hp, hrun⟩ | ⟨l, r, lr, hp, hno, hrun⟩ |
    ⟨l, r, lr, ld, my, hp, hl, hm, hrun⟩
  · rw [hrun]
    simp only [hp]
    rfl
  · obtain ⟨nodes, m, c, hr⟩ := (n.heard now).registerSender_eq l
    rw [hrun, hr]
    simp only [hp]
    rw [if_neg]
    · rfl
    · rintro ⟨hl, hm, -⟩
      rcases hno with hno | hno
      · rw [hno] at hl
        exact absurd hl (by decide)
      · rw [hno] at hm
        exact absurd hm (by decide)
  · obtain ⟨nodes, m, c, hr⟩ := (n.heard now).registerSender_eq l
    obtain ⟨p, hadopt⟩ := (((n.heard now).registerSender l).followHigher l ld my).adoptRank_eq r lr
    rw [hrun, hadopt, hr]
    simp only [hp, hl, hm, Option.isSome_some, true_and]
    unfold Node.followHigher
    split <;> rfl

omit [Unicode] in
theorem shard_tick (n : Node) (now : Time) :
    (n.raftHeart now).states.selfRecords =
      if n.TimedOut now then promotedShard n.states else n.states.selfRecords := by
  by_cases h : n.TimedOut now
  · rw [if_pos h, Node.raftHeart_promoted h]
    show (n.periodicBeat now).promote.states.selfRecords = _
    rw [shard_promote, n.periodicBeat_states now]
  · rw [if_neg h, Node.raftHeart_kept h, n.periodicBeat_states now]

omit [Unicode] in
/-- A node whose files, records and logs stay keeps the invariant if its new letters are loaded. -/
theorem loaded_of_shard {n m : Node} (hn : Loaded n) (hdisk : m.disk = n.disk)
    (hrec : m.states.records = n.states.records) (hlog : m.writer = n.writer)
    (hnew : ∀ c ∈ m.states.selfRecords, c ∉ n.states.selfRecords → FileLoaded n c) : Loaded m := by
  refine ⟨fun c hc => ?_, fun num u hu => hn.oneLine num u (by rw [← hlog]; exact hu)⟩
  unfold FileLoaded
  rw [hdisk, hrec]
  by_cases hold : c ∈ n.states.selfRecords
  · exact hn.files c hold
  · exact hnew c hc hold

/-! ### Events that write -/

omit [Unicode] in
/-- A key in memory stays in memory under any write. -/
theorem isSome_put {records : Records} {k : Key} (h : (records k).isSome) (w : Option (Key × Str)) :
    (put records w k).isSome := by
  rw [put_apply]
  cases boundValue k w with
  | none => exact h
  | some _ => rfl

omit [Unicode] in
/-- The line of the update itself binds the committed key. -/
theorem lineRecord_own {u line : Str} {c : Char} {target key : Key} {v w : Str}
    (ht : commitTarget u = some (c, target, v)) (hline : strip line = strip u)
    (hrec : lineRecord line = some (key, w)) : key = target := by
  rw [lineRecord_eq] at hrec
  split at hrec
  · exact absurd hrec (by simp)
  · have hupd : updateRecord u = some (key, w) := by
      rw [updateRecord, ← hline]
      exact hrec
    rw [commitTarget] at ht
    rw [updateRecord] at hupd
    split at hupd
    · rename_i hsplit
      rw [hsplit] at ht
      simp only at ht
      split at ht
      · exact absurd ht (by simp)
      · rename_i hdom
        cases ht
        cases hupd
        rw [hdom]
    · exact absurd hupd (by simp)

omit [Unicode] in
/-- A comment stays one, whatever is appended to it. -/
theorem lineRecord_comment {tail : Str} (h : startsWith (strip tail) ['#'] = true) (s : Str) :
    lineRecord (tail ++ s) = none := by
  have hstart : startsWith (strip (tail ++ s)) ['#'] = true := by
    rcases eq_spaces_or_split tail with hs | ⟨a, x, b, rfl, ha, hx⟩
    · rw [strip_of_spaces hs] at h
      exact absurd h (by decide)
    · rw [List.append_assoc, strip_append_of_spaces ha, List.cons_append,
        strip_cons_of_not_space hx]
      rw [strip_append_of_spaces ha, strip_cons_of_not_space hx] at h
      simpa [startsWith, List.isPrefixOf] using h
  rw [lineRecord_eq, if_pos (Or.inr hstart)]

omit [Unicode] in
/-- A record line of the rewritten file is the committed binding or an old line. -/
theorem lineRecord_commitFile {file : Option Str} {u : Str} {c : Char} {target : Key} {v : Str}
    (hu : '\n' ∉ u ∧ '\r' ∉ u) (ht : commitTarget u = some (c, target, v))
    (hclean : AppendsCleanly file target.1) {line : Str}
    (hline : line ∈ readLines (commitFile file target.1 u)) {key : Key} {w : Str}
    (hrec : lineRecord line = some (key, w)) : key = target ∨ line ∈ fileLines file := by
  obtain ⟨ls, tail, hfile, hls, htail, hr⟩ := exists_fileLines file
  rw [commitFile_lines target.1 hfile hls htail hr hu.1 hu.2] at hline
  by_cases hm : Matched (fileLines file) target.1
  · rw [if_pos hm] at hline
    obtain ⟨x, hx, rfl⟩ := List.mem_map.mp hline
    unfold rewriteLine at hrec ⊢
    split at hrec
    · exact Or.inl (lineRecord_own ht (strip_append_newline u) hrec)
    · rename_i hne
      rw [if_neg hne]
      exact Or.inr hx
  · rw [if_neg hm] at hline
    rcases List.mem_append.mp hline with hl | hl
    · exact Or.inr (hfile ▸ List.mem_append_left _ hl)
    · obtain rfl := List.mem_singleton.mp hl
      left
      by_cases hblank : strip tail = []
      · refine lineRecord_own ht ?_ hrec
        rw [strip_append_newline, strip_append_of_spaces (strip_eq_nil_iff.mp hblank)]
      · -- The update runs into a text: a clean append makes no record of it.
        have hne : tail ≠ [] := fun h => hblank (by rw [h, strip_nil])
        have hlast : (fileLines file).getLast? = some tail := by
          rw [hfile, tailLine, if_neg hne, List.getLast?_concat]
        rcases (hclean.resolve_left hm) tail hlast with h | h | h | h
        · exact absurd (List.mem_of_getLast? h) htail
        · exact absurd h hblank
        · rw [lineRecord_merged_of_comma (two_le_count_of_commitTarget ht) h] at hrec
          exact absurd hrec (by simp)
        · rw [List.append_assoc, lineRecord_comment h] at hrec
          exact absurd hrec (by simp)

/-- A commit keeps the invariant. -/
theorem loaded_commitHandler {n : Node} (hn : Loaded n) {num : Str}
    (hclean : ∀ u, n.writer.logs num = some u → ∀ c key v, commitTarget u = some (c, key, v) →
      lower [c] ∈ n.states.selfRecords → AppendsCleanly (n.disk.file (lower [c])) key.1) :
    Loaded (n.commitHandler num).1 := by
  have hself : (n.commitHandler num).1.states.selfRecords = n.states.selfRecords := by
    rw [Node.commitHandler_states]
  refine ⟨fun c hc => ?_, fun x u hu => hn.oneLine x u (by rwa [Node.commitHandler_writer] at hu)⟩
  rw [hself] at hc
  cases hlog : n.writer.logs num with
  | none =>
    rw [Node.commitHandler_spec, hlog]
    exact hn.files c hc
  | some u =>
    intro line hline key v hrec
    rw [n.commitHandler_records hlog]
    rw [n.commitHandler_file hlog] at hline
    unfold Node.committed
    cases ht : commitTarget u with
    | none =>
      rw [ht] at hline
      exact isSome_put (hn.files c hc line hline key v hrec) none
    | some p =>
      obtain ⟨x, target, w⟩ := p
      rw [ht] at hline
      simp only at hline ⊢
      by_cases ha : n.disk.canOpen (lower [x]) = true
      · rw [if_pos ha]
        by_cases hx : c = lower [x]
        · -- The file of the committed letter: its lines are old ones, or bind the committed key.
          subst hx
          rw [if_pos ⟨ha, rfl⟩] at hline
          rcases lineRecord_commitFile (hn.oneLine num u hlog) ht (hclean u hlog x target w ht hc)
            hline hrec with rfl | hold
          · rw [put_some_self]
            rfl
          · exact isSome_put (hn.files _ hc line hold key v hrec) _
        · rw [if_neg fun hboth => hx hboth.2] at hline
          exact isSome_put (hn.files c hc line hline key v hrec) _
      · rw [if_neg fun hboth => ha hboth.1] at hline
        rw [if_neg ha]
        exact isSome_put (hn.files c hc line hline key v hrec) none

/-- Starting a write keeps the invariant. -/
theorem loaded_startWrite {n : Node} (hn : Loaded n) {u : Str} (hu : '\n' ∉ u ∧ '\r' ∉ u)
    (hclean : ∀ c key v, commitTarget u = some (c, key, v) → lower [c] ∈ n.states.selfRecords →
      AppendsCleanly (n.disk.file (lower [c])) key.1) : Loaded (n.startWrite u).1 := by
  rw [Node.startWrite_eq]
  have hannounced : Loaded (n.announce u) := by
    refine ⟨hn.files, fun num x hx => ?_⟩
    rw [Node.announce_logs] at hx
    split at hx
    · obtain rfl := Option.some.inj hx
      exact hu
    · exact hn.oneLine num x hx
  refine loaded_commitHandler hannounced fun x hx => ?_
  rw [Node.announce_logs, if_pos rfl] at hx
  obtain rfl := Option.some.inj hx
  exact hclean

/-- A replicated entry keeps the invariant: it only adds keys to the memory. -/
theorem loaded_replicate {n : Node} (hn : Loaded n) {num u : Str} (hu : '\n' ∉ u ∧ '\r' ∉ u) :
    Loaded (n.replicate num u) := by
  have hdisk : (n.replicate num u).disk = n.disk := by
    unfold Node.replicate
    rw [Node.sendAck_disk]
  refine ⟨fun c hc => ?_, fun x w hw => ?_⟩
  · rw [Node.replicate_states, Node.applyReplica_eq] at hc
    intro line hline key v hrec
    rw [hdisk] at hline
    rw [Node.replicate_states, Node.applyReplica_records]
    exact isSome_put (hn.files c hc line hline key v hrec) _
  · rw [Node.replicate_logs] at hw
    split at hw
    · obtain rfl := Option.some.inj hw
      exact hu
    · exact hn.oneLine x w hw

/-- A message on the write port: its fields fit on one line, as the message does. -/
theorem loaded_writeHandler {n : Node} (hn : Loaded n) (line : Line)
    (hclean : ∀ u ∈ (NodeEvent.write line).commits n, ∀ c key v, commitTarget u = some (c, key, v) →
      lower [c] ∈ n.states.selfRecords → AppendsCleanly (n.disk.file (lower [c])) key.1) :
    Loaded (n.writeHandler line.val).1 := by
  have hlink : Loaded n.link := ⟨hn.files, hn.oneLine⟩
  -- A part of a line has no line break.
  have hfield : ∀ u, u ∈ split ';' (strip line.val) → '\n' ∉ u ∧ '\r' ∉ u := fun u hu =>
    ⟨fun h => line.2.1 (mem_of_mem_strip (mem_of_mem_split hu h)),
      fun h => line.2.2 (mem_of_mem_strip (mem_of_mem_split hu h))⟩
  simp only [NodeEvent.commits] at hclean
  rw [Node.writeHandler_eq]
  cases hmsg : Node.parseWrite line.val with
  | start update =>
    rw [hmsg] at hclean
    exact loaded_startWrite hlink (hfield _ (Node.mem_split_of_start hmsg)) (hclean update rfl)
  | replica num update =>
    exact loaded_replicate hlink (hfield _ (Node.mem_split_of_replica hmsg).2)
  | ack num => exact ⟨hn.files, hn.oneLine⟩
  | commit num =>
    rw [hmsg] at hclean
    exact loaded_commitHandler hlink hclean
  | ignored => exact hlink

/-- A resolved name is written like any other update. -/
theorem loaded_newRecord {n : Node} (hn : Loaded n) (domain ip : Line)
    (hclean : ∀ u ∈ (NodeEvent.newRecord domain ip).commits n, ∀ c key v,
      commitTarget u = some (c, key, v) → lower [c] ∈ n.states.selfRecords →
      AppendsCleanly (n.disk.file (lower [c])) key.1) :
    Loaded (n.newRecord (fun _ => some ip.val) domain.val).1 := by
  simp only [NodeEvent.commits] at hclean
  unfold Node.newRecord
  simp only
  cases hl : n.writer.linked with
  | false => exact hn
  | true =>
    rw [hl] at hclean
    have hone : '\n' ∉ domain.val ++ ",A,".toList ++ ip.val ∧
        '\r' ∉ domain.val ++ ",A,".toList ++ ip.val := by
      simp only [List.mem_append, not_or]
      exact ⟨⟨⟨domain.2.1, by decide⟩, ip.2.1⟩, ⟨domain.2.2, by decide⟩, ip.2.2⟩
    have hwrite := loaded_startWrite hn hone (hclean _ rfl)
    rw [if_pos rfl]
    rcases hrun : n.startWrite (domain.val ++ ",A,".toList ++ ip.val) with ⟨m, _ | _⟩
    · rw [hrun] at hwrite
      exact hwrite
    · rw [hrun] at hwrite
      exact hwrite

/-- **The step lemma.** -/
theorem loaded_step {n : Node} {e : NodeEvent} (hn : Loaded n) (hok : Harmless n e) :
    Loaded (n.step e) := by
  obtain ⟨hnew, hclean⟩ := hok
  cases e with
  | beat line now =>
    obtain ⟨hrec, -, -, -, -, hwriter, hdisk, -⟩ := n.beatHandler_frame line now
    rw [← shard_beat] at hnew
    exact loaded_of_shard hn hdisk hrec hwriter hnew
  | tick now =>
    obtain ⟨hrec, -, -, hwriter, hdisk⟩ := n.raftHeart_frame now
    simp only [NodeEvent.shard, ← shard_tick] at hnew
    exact loaded_of_shard hn hdisk hrec hwriter hnew
  | addNodes ip =>
    obtain ⟨hshard, hrec⟩ := shard_addNodes n.states ip
    simp only [NodeEvent.shard, ← hshard] at hnew
    exact loaded_of_shard hn rfl hrec rfl hnew
  | removeNode ip =>
    obtain ⟨hshard, hrec⟩ := shard_removeNode n.states ip
    simp only [NodeEvent.shard, ← hshard] at hnew
    exact loaded_of_shard hn rfl hrec rfl hnew
  | updateRank rank lastRank =>
    obtain ⟨hshard, hrec⟩ := shard_updateRank n.states rank lastRank
    simp only [NodeEvent.shard, ← hshard] at hnew
    exact loaded_of_shard hn rfl hrec rfl hnew
  | write line => exact loaded_writeHandler hn line hclean
  | newRecord domain ip => exact loaded_newRecord hn domain ip hclean

omit [Unicode] in
/-- After its start, a node has loaded the files of its shard. -/
theorem loaded_main (selfIp : Str) (files : List (Option Str)) (disk : Disk) {heads : List Str}
    (now : Time) (hheads : ∀ c, c ∈ heads ↔ c ∈ (States.init selfIp files).selfRecords) :
    Loaded (Node.main selfIp files disk heads now) :=
  ⟨fun c hc _ hline _ _ hrec => isSome_loadShards ((hheads c).mpr hc) hline hrec,
    fun _ _ h => absurd h (by simp [Node.main])⟩

/-- **An owned shard is loaded**, in every state of every life of a node whose events are harmless;
so an address in the file of an owned letter is answered from memory. -/
theorem owned_shard_loaded (selfIp : Str) (files : List (Option Str)) (disk : Disk)
    (heads : List Str) (now : Time) (es : List NodeEvent)
    (hheads : ∀ c, c ∈ heads ↔ c ∈ (States.init selfIp files).selfRecords)
    (hok : Along Harmless Node.step (Node.main selfIp files disk heads now) es) :
    let n := run Node.step (Node.main selfIp files disk heads now) es
    ∀ c ∈ n.states.selfRecords, ∀ line ∈ fileLines (n.disk.file c), ∀ d t v,
      lineRecord line = some ((d, t), v) →
      (n.states.records (d, t)).isSome ∧
      (t = ['A'] → lower d = d → shardOf d = some c → n.states.records (d, t) = some (n.localLookup d)) := by
  intro n c hc line hline d t v hrec
  have hloaded : Loaded n :=
    hok.invariant (loaded_main selfIp files disk now hheads) fun m e hm he => loaded_step hm he
  have hkey := hloaded.files c hc line hline (d, t) v hrec
  refine ⟨hkey, fun ht hlower hshard => ?_⟩
  obtain ⟨w, hw⟩ := Option.isSome_iff_exists.mp hkey
  have hstrip : strip d = d := by
    have hdom : lineDomain line = d := lineDomain_of_lineRecord hrec
    rw [lineDomain] at hdom
    rw [← hdom, strip_strip]
  have howns : n.states.owns d = true := by
    cases d with
    | nil => exact absurd hshard (by simp [shardOf])
    | cons x xs =>
      obtain rfl : lower [x] = c := Option.some.inj hshard
      simpa [States.owns] using hc
  rw [hw, localLookup_of_owner hstrip howns (by rw [hlower, ← ht]; exact hw)]

omit [Unicode] in
/-- The letters of the first of two nodes. -/
def firstHalf : List Str := letters "abcdefghijklm".toList

omit [Unicode] in
/-- The letters of the second of two nodes. -/
def secondHalf : List Str := letters "nopqrstuvwxyz".toList

omit [Unicode] in
/-- A heartbeat that repeats the rank of `10.0.0.1` is harmless: it keeps answering from `a.txt`. -/
theorem owned_shard_loaded_kept :
    ((run (@Node.step Unicode.ascii) (siteNode "10.0.0.1".toList firstHalf)
      [.beat ⟨"10.0.0.2;1;2".toList, by decide, by decide⟩ 0]).states.records
        ("a.com".toList, ['A'])).isSome := by
  have hheads : ∀ c, c ∈ firstHalf ↔ c ∈ (States.init "10.0.0.1".toList
      [some "10.0.0.1".toList, some "10.0.0.2".toList]).selfRecords := by
    intro c
    rw [show (States.init "10.0.0.1".toList
      [some "10.0.0.1".toList, some "10.0.0.2".toList]).selfRecords = firstHalf by decide]
  exact (@owned_shard_loaded Unicode.ascii "10.0.0.1".toList
    [some "10.0.0.1".toList, some "10.0.0.2".toList] _ firstHalf 0
    [.beat ⟨"10.0.0.2;1;2".toList, by decide, by decide⟩ 0] hheads
    ⟨⟨fun c hc hnot => absurd hc hnot, fun u hu => absurd hu (by simp [NodeEvent.commits])⟩, trivial⟩
    ['a'] (by decide) "a.com,A,1.1.1.1\n".toList (by decide) "a.com".toList ['A'] "1.1.1.1".toList
    (by decide)).1

omit [Unicode] in
/-- `10.0.0.2` is given the letters `a` to `m` by a heartbeat and does not read `a.txt`: it owns
`a.com`, whose record stands in the file, and answers `N/A`. -/
theorem not_owned_shard_loaded :
    (States.init "10.0.0.2".toList
      [some "10.0.0.1".toList, some "10.0.0.2".toList]).selfRecords = secondHalf ∧
    ['a'] ∈ (@Node.step Unicode.ascii (siteNode "10.0.0.2".toList secondHalf)
      (.beat ⟨"10.0.0.3;1;2".toList, by decide, by decide⟩ 0)).states.selfRecords ∧
    fileLines ((@Node.step Unicode.ascii (siteNode "10.0.0.2".toList secondHalf)
      (.beat ⟨"10.0.0.3;1;2".toList, by decide, by decide⟩ 0)).disk.file ['a']) =
        ["a.com,A,1.1.1.1\n".toList] ∧
    (@Node.step Unicode.ascii (siteNode "10.0.0.2".toList secondHalf)
      (.beat ⟨"10.0.0.3;1;2".toList, by decide, by decide⟩ 0)).states.records
        ("a.com".toList, ['A']) = none ∧
    @Node.localLookup Unicode.ascii (@Node.step Unicode.ascii
      (siteNode "10.0.0.2".toList secondHalf)
      (.beat ⟨"10.0.0.3;1;2".toList, by decide, by decide⟩ 0)) "a.com".toList = notAvailable := by
  decide

end DsDns
