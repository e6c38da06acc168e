/-
  What the write pipeline does, one specification per function.

  * `commitHandlerWith_spec`: a commit either leaves the node alone or is one `commitRecordWith`, and which
    of the two is decided by `commitTarget`, the leader's reading of the update text.
  * `startWrite_eq`: a new write is two phases, `announce` (number, log, send) and then
    `commitHandler`.
  * `handleWrite_line`, `handleWrite_replicaText`: what one line on port 9000 does, the second for
    the line `2;num;update` that `announce` puts on the wire.
-/
import DsDns.DataPlane.Message
import DsDns.Text.Equiv.Basic
import Mathlib.Tactic.Cases

namespace DsDns

/-! ### Update texts -/

@[simp] theorem updateRecord_rstrip (u : Str) : updateRecord (rstrip u) = updateRecord u := by
  rw [updateRecord, strip_rstrip, updateRecord]

/-- On an update of three fields the two readings agree. -/
theorem commitTarget_of_updateRecord {u : Str} {key : Key} {v : Str} {c : Char} {cs : Str}
    (h : updateRecord u = some (key, v)) (hd : key.1 = c :: cs) :
    commitTarget u = some (c, key, v) := by
  rw [updateRecord] at h
  split at h
  · rename_i dom t ip hsplit
    cases h
    have hd' : strip dom = c :: cs := hd
    simp only [commitTarget, hsplit, hd']
  · exact absurd h (by simp)

/-- The first field of a stripped text does not start with whitespace, so the character the
follower looks at is the one the leader files the record under. -/
theorem strip_eq_cons_of_split_strip {u dom : Str} {fs : List Str} {c : Char} {cs : Str}
    (h : split ',' (strip u) = dom :: fs) (hd : strip dom = c :: cs) : ∃ ds, dom = c :: ds := by
  cases dom with
  | nil => exact absurd hd (by simp)
  | cons x ds =>
    have hx : isSpace x = false := by
      have hinter := intercalate_split ',' (strip u)
      rw [h] at hinter
      cases fs with
      | nil =>
        rw [List.intercalate_singleton] at hinter
        exact not_space_of_strip_eq_cons hinter.symm
      | cons f fs =>
        rw [List.intercalate_cons_cons, List.cons_append, List.cons_append] at hinter
        exact not_space_of_strip_eq_cons hinter.symm
    rw [strip_cons_of_not_space hx] at hd
    exact ⟨ds, by rw [(List.cons.inj hd).1]⟩

variable [Unicode]

namespace Node

/-! ### Committing -/

omit [Unicode] in
/-- The `try` block touches the disk and the records, nothing else. -/
theorem commitRecordWith_frame (torn : Torn) (n : Node) (u d t ip s : Str) :
    (n.commitRecordWith torn u d t ip s).raft = n.raft ∧ (n.commitRecordWith torn u d t ip s).writer = n.writer ∧
    (n.commitRecordWith torn u d t ip s).outbox = n.outbox ∧
    (n.commitRecordWith torn u d t ip s).disk.denied = n.disk.denied ∧
    (n.commitRecordWith torn u d t ip s).states =
      { n.states with records := (n.commitRecordWith torn u d t ip s).states.records } := by
  unfold commitRecordWith
  split
  · exact ⟨rfl, rfl, rfl, rfl, rfl⟩
  · cases torn <;> exact ⟨rfl, rfl, rfl, rfl, rfl⟩

/-- **What a commit does**, however its write ends. -/
theorem commitHandlerWith_spec (torn : Torn) (n : Node) (num : Str) :
    (n.commitHandlerWith torn num).1 =
      match (n.writer.logs num).bind fun u => (commitTarget u).map fun p => (u, p) with
      | none => n
      | some (u, c, key, v) =>
        if n.disk.canOpen (lower [c]) then n.commitRecordWith torn u key.1 key.2 v (lower [c]) else n := by
  rw [commitHandlerWith]
  cases hlog : n.writer.logs num with
  | none => rfl
  | some u =>
    simp only [Option.bind_some]
    by_cases hu : u = []
    · subst hu
      rfl
    rw [if_neg hu]
    unfold commitTarget
    -- Fewer than three fields are rejected; with three the domain decides.
    rcases split ',' (strip u) with _ | ⟨domain, _ | ⟨rtype, _ | ⟨ip, rest⟩⟩⟩
    · rfl
    · rfl
    · rfl
    · cases hdom : strip domain with
      | nil => simp only [hdom, Option.map_none]
      | cons c cs =>
        simp only [hdom, Option.map_some, Disk.canOpen]
        by_cases hz : (lower [c]).contains (Char.ofNat 0) = true
        · simp only [hz, if_true, Bool.not_true, Bool.false_and, Bool.false_eq_true, if_false]
        · simp only [Bool.not_eq_true] at hz
          simp only [hz, Bool.false_eq_true, if_false, Bool.not_false, Bool.true_and]
          cases hden : n.disk.denied (lower [c]) with
          | false => simp
          | true => simp [commitRecordWith, hden]

/-- The disk after a commit. -/
theorem commitHandlerWith_disk (torn : Torn) (n : Node) {num u : Str} (h : n.writer.logs num = some u) :
    (n.commitHandlerWith torn num).1.disk =
      match commitTarget u with
      | none => n.disk
      | some (c, key, _) =>
        let text := commitFile (n.disk.file (lower [c])) key.1 u
        if n.disk.canOpen (lower [c]) = true then n.disk.write (lower [c]) (torn.elim text text.take) else n.disk := by
  rw [commitHandlerWith_spec, h, Option.bind_some]
  cases ht : commitTarget u with
  | none => rfl
  | some p =>
    obtain ⟨c, key, v⟩ := p
    simp only [Option.map_some]
    by_cases hopen : n.disk.canOpen (lower [c]) = true
    · have hdenied : n.disk.denied (lower [c]) = false := by
        rw [Disk.canOpen, Bool.and_eq_true, Bool.not_eq_true', Bool.not_eq_true'] at hopen
        exact hopen.2
      rw [if_pos hopen, if_pos hopen, commitRecordWith, hdenied]
      cases torn <;> rfl
    · rw [if_neg hopen, if_neg hopen]

/-- A write that fails leaves the records in memory as they are. -/
theorem commitHandlerWith_records_of_torn (k : ℕ) (n : Node) (num : Str) :
    (n.commitHandlerWith (some k) num).1.states.records = n.states.records := by
  rw [commitHandlerWith_spec]
  split
  · rfl
  · unfold commitRecordWith
    split
    · split <;> rfl
    · rfl

theorem commitHandler_spec (n : Node) (num : Str) :
    (n.commitHandler num).1 =
      match (n.writer.logs num).bind fun u => (commitTarget u).map fun p => (u, p) with
      | none => n
      | some (u, c, key, v) =>
        if n.disk.canOpen (lower [c]) then n.commitRecord u key.1 key.2 v (lower [c]) else n :=
  commitHandlerWith_spec none n num

omit [Unicode] in
/-- The `try` block on a file that can be opened. -/
theorem commitRecord_of_canOpen {n : Node} {s : Str} (h : n.disk.canOpen s = true) (u d t ip : Str) :
    n.commitRecord u d t ip s =
      { n with
        disk := n.disk.write s (commitFile (n.disk.file s) d u)
        states := { n.states with records := n.states.records.set (d, t) ip } } := by
  rw [Disk.canOpen, Bool.and_eq_true, Bool.not_eq_true', Bool.not_eq_true'] at h
  rw [commitRecord, commitRecordWith, h.2]
  rfl

theorem commitHandler_records (n : Node) {num u : Str} (h : n.writer.logs num = some u) :
    (n.commitHandler num).1.states.records = put n.states.records (committed n.disk u) := by
  rw [commitHandler_spec, h, Option.bind_some, committed]
  cases ht : commitTarget u with
  | none => rfl
  | some p =>
    obtain ⟨c, key, v⟩ := p
    simp only [Option.map_some]
    by_cases ha : n.disk.canOpen (lower [c]) = true
    · rw [if_pos ha, if_pos ha, commitRecord_of_canOpen ha]
      rfl
    · rw [if_neg ha, if_neg ha, put_none]

/-- The update makes a commit raise: it has three fields or more, and the first names no file. -/
def CommitRaises (update : Str) : Prop :=
  ∃ domain rtype ip rest, split ',' (strip update) = domain :: rtype :: ip :: rest ∧
    ∀ c cs, strip domain = c :: cs → Char.ofNat 0 ∈ lower [c]

theorem commitRaises_iff {u domain rtype ip : Str} {rest : List Str}
    (hsplit : split ',' (strip u) = domain :: rtype :: ip :: rest) :
    CommitRaises u ↔ ∀ c cs, strip domain = c :: cs → Char.ofNat 0 ∈ lower [c] := by
  constructor
  · rintro ⟨domain', rtype', ip', rest', hsplit', hall⟩
    rw [hsplit] at hsplit'
    obtain ⟨rfl, -⟩ := List.cons.inj hsplit'
    exact hall
  · exact fun hall => ⟨domain, rtype, ip, rest, hsplit, hall⟩

/-- **When a commit raises.** -/
theorem commitHandler_raised_iff (n : Node) {num u : Str} (h : n.writer.logs num = some u) :
    (n.commitHandler num).2 = .raised ↔ CommitRaises u := by
  have hfew : ∀ fs, split ',' (strip u) = fs → fs.length < 3 → ¬ CommitRaises u := by
    rintro fs hfs hlen ⟨domain, rtype, ip, rest, hsplit, -⟩
    rw [← hfs, hsplit] at hlen
    simp only [List.length_cons] at hlen
    omega
  rw [commitHandler, commitHandlerWith, h]
  simp only
  by_cases hu : u = []
  · subst hu
    rw [if_pos rfl]
    exact iff_of_false (by simp) (hfew [[]] rfl (by decide))
  rw [if_neg hu]
  -- Fewer than three fields are refused before anything is indexed.
  rcases hsplit : split ',' (strip u) with _ | ⟨domain, _ | ⟨rtype, _ | ⟨ip, rest⟩⟩⟩
  · exact iff_of_false (by simp) (hfew _ hsplit (by decide))
  · exact iff_of_false (by simp) (hfew _ hsplit (by simp))
  · exact iff_of_false (by simp) (hfew _ hsplit (by simp))
  · rw [commitRaises_iff hsplit]
    cases hdom : strip domain with
    | nil =>
      refine iff_of_true ?_ fun c cs he => absurd he (by simp)
      simp only [hdom]
    | cons c cs =>
      simp only [hdom]
      by_cases hz : (lower [c]).contains (Char.ofNat 0) = true
      · rw [if_pos hz]
        refine iff_of_true rfl fun c' cs' he => ?_
        obtain ⟨rfl, -⟩ := List.cons.inj he
        simpa using hz
      · rw [if_neg hz]
        refine iff_of_false (by simp) fun hall => hz ?_
        simpa using hall c cs rfl

/-- The record files after a commit. -/
theorem commitHandler_file (n : Node) {num u : Str} (h : n.writer.logs num = some u) (s : Str) :
    (n.commitHandler num).1.disk.file s =
      match commitTarget u with
      | none => n.disk.file s
      | some (c, key, _) =>
        if n.disk.canOpen (lower [c]) = true ∧ s = lower [c] then some (commitFile (n.disk.file s) key.1 u)
        else n.disk.file s := by
  rw [commitHandler_spec, h, Option.bind_some]
  cases ht : commitTarget u with
  | none => rfl
  | some p =>
    obtain ⟨c, key, v⟩ := p
    simp only [Option.map_some]
    by_cases ha : n.disk.canOpen (lower [c]) = true
    · rw [if_pos ha, commitRecord_of_canOpen ha]
      show (if s = lower [c] then _ else _) = _
      by_cases hs : s = lower [c]
      · rw [if_pos hs, if_pos ⟨ha, hs⟩, hs]
      · rw [if_neg hs, if_neg fun hboth => hs hboth.2]
    · rw [if_neg ha, if_neg fun hboth => ha hboth.1]

/-- A commit touches the disk and the records, nothing else. -/
theorem commitHandlerWith_frame (torn : Torn) (n : Node) (num : Str) :
    (n.commitHandlerWith torn num).1.raft = n.raft ∧ (n.commitHandlerWith torn num).1.writer = n.writer ∧
    (n.commitHandlerWith torn num).1.outbox = n.outbox ∧
    (n.commitHandlerWith torn num).1.disk.denied = n.disk.denied ∧
    (n.commitHandlerWith torn num).1.states =
      { n.states with records := (n.commitHandlerWith torn num).1.states.records } := by
  rw [commitHandlerWith_spec]
  split
  · exact ⟨rfl, rfl, rfl, rfl, rfl⟩
  · split
    · exact commitRecordWith_frame ..
    · exact ⟨rfl, rfl, rfl, rfl, rfl⟩

theorem commitHandler_frame (n : Node) (num : Str) :
    (n.commitHandler num).1.raft = n.raft ∧ (n.commitHandler num).1.writer = n.writer ∧
    (n.commitHandler num).1.outbox = n.outbox ∧
    (n.commitHandler num).1.disk.denied = n.disk.denied ∧
    (n.commitHandler num).1.states =
      { n.states with records := (n.commitHandler num).1.states.records } := commitHandlerWith_frame none n num

@[simp] theorem commitHandler_raft (n : Node) (num : Str) :
    (n.commitHandler num).1.raft = n.raft := (commitHandler_frame n num).1

@[simp] theorem commitHandler_writer (n : Node) (num : Str) :
    (n.commitHandler num).1.writer = n.writer := (commitHandler_frame n num).2.1

@[simp] theorem commitHandler_outbox (n : Node) (num : Str) :
    (n.commitHandler num).1.outbox = n.outbox := (commitHandler_frame n num).2.2.1

@[simp] theorem commitHandler_denied (n : Node) (num : Str) :
    (n.commitHandler num).1.disk.denied = n.disk.denied := (commitHandler_frame n num).2.2.2.1

theorem commitHandler_states (n : Node) (num : Str) :
    (n.commitHandler num).1.states =
      { n.states with records := (n.commitHandler num).1.states.records } :=
  (commitHandler_frame n num).2.2.2.2

/-! ### Starting a write -/

/-- **A write is announced and then committed.** -/
theorem startWriteWith_eq (torn : Torn) (n : Node) (update : Str) :
    n.startWriteWith torn update = (n.announce update).commitHandlerWith torn n.nextNum := by
  simp only [startWriteWith, writeStarterWith, sendLog, nextLogNum, parseInt_intStr]
  rfl

theorem startWrite_eq (n : Node) (update : Str) :
    n.startWrite update = (n.announce update).commitHandler n.nextNum := startWriteWith_eq none n update

omit [Unicode] in
@[simp] theorem announce_states (n : Node) (u : Str) : (n.announce u).states = n.states := rfl

omit [Unicode] in
@[simp] theorem announce_disk (n : Node) (u : Str) : (n.announce u).disk = n.disk := rfl

omit [Unicode] in
@[simp] theorem announce_currLogNum (n : Node) (u : Str) :
    (n.announce u).raft.currLogNum = n.raft.currLogNum + 1 := rfl

omit [Unicode] in
theorem announce_logs (n : Node) (u num : Str) :
    (n.announce u).writer.logs num = if num = n.nextNum then some u else n.writer.logs num := rfl

omit [Unicode] in
/-- A write sends its line to every node of the map but this one. -/
theorem announce_outbox (n : Node) (u : Str) :
    (n.announce u).outbox = n.outbox ++
      (n.states.nodes.keys.filter fun ip => ip ≠ n.states.selfIp).map
        fun ip => ⟨ip, 9000, replicaText n.nextNum u⟩ := by
  simp [announce, sendToFollower, replicaText]

/-! ### Lines on port 9000 -/

/-- What a message does to a node, if its commit ends as `torn` says. -/
def obeyWith (torn : Torn) (n : Node) : WriteMsg → Node
  | .start update => (n.startWriteWith torn update).1
  | .replica num update => n.replicate num update
  | .ack num => n.ackHandler num
  | .commit num => (n.commitHandlerWith torn num).1
  | .ignored => n

/-- What a message does to a node where what `open` lets through is written. -/
def obey (n : Node) (msg : WriteMsg) : Node := n.obeyWith none msg

/-- **What one message does.** -/
theorem writeHandlerWith_eq (torn : Torn) (n : Node) (query : Str) :
    (n.writeHandlerWith torn query).1 = n.link.obeyWith torn (parseWrite query) := by
  unfold writeHandlerWith parseWrite
  rcases split ';' (strip query) with _ | ⟨msgType, parts⟩
  · rfl
  · by_cases h1 : msgType = ['1']
    · simp only [if_pos h1]
      rcases parts with _ | ⟨update, _⟩ <;> rfl
    · by_cases h2 : msgType = ['2']
      · simp only [if_neg h1, if_pos h2]
        rcases parts with _ | ⟨num, _ | ⟨update, _⟩⟩ <;> rfl
      · by_cases h3 : msgType = ['3']
        · simp only [if_neg h1, if_neg h2, if_pos h3]
          rcases parts with _ | ⟨num, _⟩ <;> rfl
        · by_cases h4 : msgType = ['4']
          · simp only [if_neg h1, if_neg h2, if_neg h3, if_pos h4]
            rcases parts with _ | ⟨num, _⟩ <;> rfl
          · simp only [if_neg h1, if_neg h2, if_neg h3, if_neg h4]
            rfl

theorem writeHandlerWith_denied (torn : Torn) (n : Node) (query : Str) :
    (n.writeHandlerWith torn query).1.disk.denied = n.disk.denied := by
  rw [writeHandlerWith_eq]
  cases parseWrite query with
  | start u =>
    show (n.link.startWriteWith torn u).1.disk.denied = _
    rw [startWriteWith_eq, (commitHandlerWith_frame torn _ _).2.2.2.1]
    rfl
  | replica num u =>
    show (if n.raft.leader then _ else _ : Node).disk.denied = _
    split <;> rfl
  | ack num => rfl
  | commit num => exact (commitHandlerWith_frame torn n.link num).2.2.2.1
  | ignored => rfl

theorem writeHandler_eq (n : Node) (query : Str) :
    (n.writeHandler query).1 = n.link.obey (parseWrite query) := writeHandlerWith_eq none n query

omit [Unicode] in
/-- The update of a new write is a field of its message. -/
theorem mem_split_of_start {query update : Str} (h : parseWrite query = .start update) :
    update ∈ split ';' (strip query) := by
  unfold parseWrite at h
  split at h
  · cases h
  · rename_i hsplit
    rw [hsplit]
    split at h
    · split at h
      · cases h
        simp
      · cases h
    · repeat' split at h
      all_goals cases h

omit [Unicode] in
/-- The number and the update of a replicated entry are fields of its message. -/
theorem mem_split_of_replica {query num update : Str} (h : parseWrite query = .replica num update) :
    num ∈ split ';' (strip query) ∧ update ∈ split ';' (strip query) := by
  unfold parseWrite at h
  split at h
  · cases h
  · rename_i hsplit
    rw [hsplit]
    split at h
    · split at h <;> cases h
    · split at h
      · split at h
        · cases h
          simp
        · cases h
      · repeat' split at h
        all_goals cases h

/-- A connection that sends one line runs the handler once on it. -/
theorem handleWrite_line (n : Node) {line : Str} (hn : '\n' ∉ line) (hr : '\r' ∉ line)
    (hs : strip line ≠ []) :
    n.handleWrite (line ++ ['\n']) = (n.writeHandler (strip line)).1 := by
  rw [handleWrite, readLines_line hn hr, handleWriteLines, strip_append_newline, if_neg hs]
  rcases n.writeHandler (strip line) with ⟨m, _ | _⟩ <;> rfl

omit [Unicode] in
/-- The fields of a message: its type, and those of what follows it. -/
theorem split_typed {c : Char} (hc : isSpace c = false) (hne : c ≠ ';') (s : Str) :
    split ';' (strip (c :: ';' :: s)) = [c] :: split ';' (rstrip s) := by
  rw [strip_cons_of_not_space hc, rstrip_cons_of_not_space (by decide)]
  apply split_append_sep (a := [c])
  simpa using hne.symm

/-- A connection that sends one line, read as a message. -/
theorem handleWrite_eq (n : Node) {line : Str} (hn : '\n' ∉ line) (hr : '\r' ∉ line)
    (hs : strip line ≠ []) :
    n.handleWrite (line ++ ['\n']) = n.link.obey (parseWrite (line ++ ['\n'])) := by
  have hparse : parseWrite (line ++ ['\n']) = parseWrite (strip line) := by
    unfold parseWrite
    rw [strip_append_newline, strip_strip]
  rw [n.handleWrite_line hn hr hs, writeHandler_eq, hparse]

/-- A message of one line is read as it is. -/
theorem handleWrite_typed (n : Node) {c : Char} {s : Str} (hc : isSpace c = false) (hn : '\n' ∉ s)
    (hr : '\r' ∉ s) :
    n.handleWrite (c :: ';' :: (s ++ ['\n'])) =
      n.link.obey (parseWrite (c :: ';' :: (s ++ ['\n']))) := by
  have hnot : ∀ x : Char, isSpace x = true → x ≠ ';' → x ∉ s → x ∉ c :: ';' :: s := by
    intro x hx hsep hxs hmem
    rcases List.mem_cons.mp hmem with rfl | hmem
    · exact absurd hc (by rw [hx]; exact Bool.noConfusion)
    · exact (List.mem_cons.mp hmem).elim hsep hxs
  have hne : strip (c :: ';' :: s) ≠ [] := by
    rw [strip_cons_of_not_space hc]
    exact List.cons_ne_nil _ _
  exact n.handleWrite_eq (hnot '\n' rfl (by decide) hn) (hnot '\r' rfl (by decide) hr) hne

/-- A type-1 line starts a write of what follows the prefix. -/
theorem handleWrite_typeOne (n : Node) {update : Str} (hs : ';' ∉ update) (hn : '\n' ∉ update)
    (hr : '\r' ∉ update) :
    n.handleWrite ('1' :: ';' :: (update ++ ['\n'])) = (n.link.startWrite (rstrip update)).1 := by
  have hparse : parseWrite ('1' :: ';' :: (update ++ ['\n'])) = .start (rstrip update) := by
    unfold parseWrite
    rw [split_typed (by decide) (by decide), rstrip_append_newline,
      split_of_not_mem fun h => hs (mem_of_mem_rstrip h)]
    rfl
  rw [n.handleWrite_typed (by decide) hn hr, hparse]
  rfl

omit [Unicode] in
theorem parseWrite_ackText (k : ℤ) : parseWrite (ackText (intStr k)) = .ack (intStr k) := by
  unfold parseWrite ackText
  rw [split_typed (by decide) (by decide), rstrip_append_newline, rstrip_intStr,
    split_of_not_mem (not_mem_intStr (by decide) (by decide) k)]
  rfl

omit [Unicode] in
/-- The fields of a replica message: its type, its number, and those of the update. -/
theorem split_replicaText_fields {num : Str} (hnum : ';' ∉ num) (update : Str) :
    split ';' (strip (replicaText num update)) = ['2'] :: num :: split ';' (rstrip update) := by
  have hrest : rstrip (num ++ ';' :: (update ++ ['\n'])) = num ++ ';' :: rstrip update := by
    rw [rstrip_append_cons (by decide), rstrip_append_newline]
  unfold replicaText
  rw [split_typed (by decide) (by decide), hrest, split_append_sep hnum]

omit [Unicode] in
theorem split_replicaText {num update : Str} (hnum : ';' ∉ num) (hs : ';' ∉ update) :
    split ';' (strip (replicaText num update)) = [['2'], num, rstrip update] := by
  rw [split_replicaText_fields hnum, split_of_not_mem fun h => hs (mem_of_mem_rstrip h)]

omit [Unicode] in
theorem storedUpdate_of_not_mem {update : Str} (hs : ';' ∉ update) : storedUpdate update = rstrip update := by
  unfold storedUpdate
  rw [split_of_not_mem fun h => hs (mem_of_mem_rstrip h)]
  rfl

omit [Unicode] in
theorem parseWrite_replica {num : Str} (hnum : ';' ∉ num) (update : Str) :
    parseWrite (replicaText num update) = .replica num (storedUpdate update) := by
  unfold parseWrite storedUpdate
  rw [split_replicaText_fields hnum]
  cases hfields : split ';' (rstrip update) with
  | nil => exact absurd hfields (split_ne_nil ';' _)
  | cons field fields => rfl

omit [Unicode] in
theorem parseWrite_replicaText {num update : Str} (hnum : ';' ∉ num) (hs : ';' ∉ update) :
    parseWrite (replicaText num update) = .replica num (rstrip update) := by
  rw [parseWrite_replica hnum, storedUpdate_of_not_mem hs]

/-- **Delivering a log entry**, whatever is in the update. -/
theorem handleWrite_delivered (n : Node) {num update : Str} (hnum : ';' ∉ num)
    (hn : '\n' ∉ num ∧ '\n' ∉ update) (hr : '\r' ∉ num ∧ '\r' ∉ update) :
    n.handleWrite (replicaText num update) = n.link.replicate num (storedUpdate update) := by
  have htext : replicaText num update = '2' :: ';' :: ((num ++ ';' :: update) ++ ['\n']) := by
    rw [replicaText, List.append_assoc, List.cons_append]
  have hparse := parseWrite_replica hnum update
  rw [htext] at hparse ⊢
  rw [n.handleWrite_typed (by decide) (by simp [hn]) (by simp [hr]), hparse]
  rfl

/-- The follower stores an update without a semicolon as it was sent, without trailing whitespace, under
the number it was sent with. -/
theorem handleWrite_replicaText (n : Node) {num update : Str} (hnum : ';' ∉ num) (hs : ';' ∉ update)
    (hn : '\n' ∉ num ∧ '\n' ∉ update) (hr : '\r' ∉ num ∧ '\r' ∉ update) :
    n.handleWrite (replicaText num update) = n.link.replicate num (rstrip update) := by
  rw [n.handleWrite_delivered hnum hn hr, storedUpdate_of_not_mem hs]

/-- Delivering an acknowledgement counts it. -/
theorem handleWrite_ackText (n : Node) (k : ℤ) :
    n.handleWrite (ackText (intStr k)) = n.link.ackHandler (intStr k) := by
  have hnum : ∀ c : Char, c.isDigit = false → c ≠ '-' → c ∉ intStr k := fun c hd hm =>
    not_mem_intStr hd hm k
  have hparse := parseWrite_ackText k
  rw [ackText] at hparse ⊢
  rw [n.handleWrite_typed (by decide) (hnum '\n' (by decide) (by decide))
    (hnum '\r' (by decide) (by decide)), hparse]
  rfl

/-! ### Replicating -/

omit [Unicode] in
@[simp] theorem sendAck_states (n : Node) (num : Str) : (n.sendAck num).states = n.states := by
  unfold sendAck; split <;> rfl

omit [Unicode] in
@[simp] theorem sendAck_writer (n : Node) (num : Str) : (n.sendAck num).writer = n.writer := by
  unfold sendAck; split <;> rfl

omit [Unicode] in
@[simp] theorem sendAck_raft (n : Node) (num : Str) : (n.sendAck num).raft = n.raft := by
  unfold sendAck; split <;> rfl

omit [Unicode] in
@[simp] theorem sendAck_disk (n : Node) (num : Str) : (n.sendAck num).disk = n.disk := by
  unfold sendAck; split <;> rfl

/-- An entry is acknowledged to the leader, unless the node leads itself. -/
theorem replicate_outbox (n : Node) (num u : Str) : (n.replicate num u).outbox =
    n.outbox ++ if n.raft.leader then [] else [⟨n.states.leaderIp, 9000, ackText num⟩] := by
  rw [replicate, sendAck]
  have happly : (applyReplica n.states u).leaderIp = n.states.leaderIp := by
    unfold applyReplica
    split
    · split <;> rfl
    · rfl
  cases n.raft.leader with
  | true => exact (List.append_nil _).symm
  | false =>
    show n.outbox ++ [⟨(applyReplica n.states u).leaderIp, 9000, _⟩] = _
    rw [happly]
    rfl

theorem replicate_logs (n : Node) (num u x : Str) :
    (n.replicate num u).writer.logs x = if x = num then some u else n.writer.logs x := by
  rw [replicate, sendAck_writer]
  rfl

@[simp] theorem replicate_raft (n : Node) (num u : Str) : (n.replicate num u).raft = n.raft := by
  rw [replicate, sendAck_raft]

/-- A replicated update changes no attribute of `States` but the records. -/
theorem applyReplica_eq (s : States) (u : Str) :
    applyReplica s u = { s with records := (applyReplica s u).records } := by
  unfold applyReplica
  split
  · split <;> rfl
  · rfl

@[simp] theorem replicate_states (n : Node) (num u : Str) :
    (n.replicate num u).states = applyReplica n.states u := by
  rw [replicate, sendAck_states]

/-- What a replicated update writes to the records, on a node that owns its domain or not. -/
theorem applyReplica_records (s : States) (u : Str) :
    (applyReplica s u).records = put s.records (match split ',' (strip u) with
      | [dom, _, _] => if s.owns dom then updateRecord u else none
      | _ => none) := by
  unfold applyReplica updateRecord
  -- Only a text of three fields is a record.
  rcases split ',' (strip u) with _ | ⟨dom, _ | ⟨t, _ | ⟨ip, _ | ⟨_, _⟩⟩⟩⟩
  · rfl
  · rfl
  · rfl
  · show (if s.owns dom then _ else s).records = put s.records (if s.owns dom then _ else none)
    split <;> rfl
  · rfl

end Node

/-! ### A whole write -/

/-- What can be written to a record file does not depend on what is in it. -/
theorem committed_congr {d e : Disk} (h : d.denied = e.denied) (u : Str) :
    Node.committed d u = Node.committed e u := by
  simp only [Node.committed, Disk.canOpen, h]
  rfl

/-- The first phase and the commit of one started update, on the parts of the node that matter. -/
theorem startWrite_effects (n : Node) (u : Str) :
    (n.startWrite u).1.states =
      { n.states with records := put n.states.records (Node.committed n.disk u) } ∧
    (n.startWrite u).1.raft.currLogNum = n.raft.currLogNum + 1 ∧
    (n.startWrite u).1.writer.linked = n.writer.linked ∧
    (n.startWrite u).1.disk.denied = n.disk.denied ∧
    (n.startWrite u).1.outbox = (n.announce u).outbox := by
  have hlog : (n.announce u).writer.logs n.nextNum = some u := by
    rw [Node.announce_logs, if_pos rfl]
  rw [Node.startWrite_eq]
  refine ⟨?_, by simp, by simp; rfl, by simp, by simp⟩
  rw [Node.commitHandler_states, Node.commitHandler_records _ hlog]
  rfl

/-- The disk after one started update, however its write ends. -/
theorem startWriteWith_disk (torn : Torn) (n : Node) (u : Str) : (n.startWriteWith torn u).1.disk =
    match commitTarget u with
    | none => n.disk
    | some (c, key, _) =>
      let text := commitFile (n.disk.file (lower [c])) key.1 u
      if n.disk.canOpen (lower [c]) = true then n.disk.write (lower [c]) (torn.elim text text.take) else n.disk := by
  have hlog : (n.announce u).writer.logs n.nextNum = some u := by
    rw [Node.announce_logs, if_pos rfl]
  rw [Node.startWriteWith_eq]
  exact (n.announce u).commitHandlerWith_disk torn hlog

/-- The records after one started update, however its write ends. -/
theorem startWriteWith_records (torn : Torn) (n : Node) (u : Str) : (n.startWriteWith torn u).1.states.records =
    match torn with
    | none => put n.states.records (Node.committed n.disk u)
    | some _ => n.states.records := by
  cases torn with
  | none => exact congrArg States.records (startWrite_effects n u).1
  | some k =>
    rw [Node.startWriteWith_eq]
    exact Node.commitHandlerWith_records_of_torn k (n.announce u) _

/-- The record files after one started update. -/
theorem startWrite_file (n : Node) (u s : Str) : (n.startWrite u).1.disk.file s =
    match commitTarget u with
    | none => n.disk.file s
    | some (c, key, _) =>
      if n.disk.canOpen (lower [c]) = true ∧ s = lower [c] then some (commitFile (n.disk.file s) key.1 u)
      else n.disk.file s := by
  have hlog : (n.announce u).writer.logs n.nextNum = some u := by
    rw [Node.announce_logs, if_pos rfl]
  rw [Node.startWrite_eq]
  exact (n.announce u).commitHandler_file hlog s

end DsDns
