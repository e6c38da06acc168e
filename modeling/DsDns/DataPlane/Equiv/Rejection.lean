/-
  What a rejected message leaves behind.

  A type-1 message is numbered, logged and sent to the followers before it is looked at, so a message with an
  update leaves a trace in any case; `write_traceless_iff` says when that trace is an update that has been
  applied, for every way in which the write of the record file ends. `beatHandler` restarts the timer before it
  reads the heartbeat, and registers the sender before it looks at the address; `beat_traceless_iff` says when
  neither changes anything. It holds for every reading of the ranks, so also for that of an interpreter with a
  limit to the digits of an integer (`parseIntUpTo maxStrDigits`).
-/
import DsDns.DataPlane.Equiv.Raft
import DsDns.DataPlane.Equiv.Writer
import DsDns.DataPlane.Server
import Mathlib.Data.List.TakeDrop

namespace DsDns

variable [Unicode]

/-! ### Writes -/

/-- The update stands in the record file of its domain and in the records, and nothing else has changed in
them. -/
def Applied (n m : Node) (update : Str) : Prop :=
  ∃ c key value, commitTarget update = some (c, key, value) ∧
    (∀ s, m.disk.file s =
      if s = lower [c] then some (commitFile (n.disk.file s) key.1 update) else n.disk.file s) ∧
    m.states.records = put n.states.records (some (key, value))

omit [Unicode] in
/-- The write pipeline is as it was, and nothing has been sent. -/
structure Untouched (n m : Node) : Prop where
  currLogNum : m.raft.currLogNum = n.raft.currLogNum
  logs : m.writer.logs = n.writer.logs
  logAck : m.writer.logAck = n.writer.logAck
  records : m.states.records = n.states.records
  file : m.disk.file = n.disk.file
  outbox : m.outbox = n.outbox

/-- The update has three fields or more and a domain, and its record file is written; or the records have the
update already, and so has the file that the failed write leaves: one that cannot be opened has it, or the whole
text was written before the failure. -/
def Acceptable (torn : Torn) (n : Node) (update : Str) : Prop :=
  ∃ c key value, commitTarget update = some (c, key, value) ∧
    (n.disk.canOpen (lower [c]) = true ∧ torn = none ∨
      n.states.records key = some value ∧
        (n.disk.canOpen (lower [c]) = false ∧
            n.disk.file (lower [c]) = some (commitFile (n.disk.file (lower [c])) key.1 update) ∨
          n.disk.canOpen (lower [c]) = true ∧
            ∃ k, torn = some k ∧ (commitFile (n.disk.file (lower [c])) key.1 update).length ≤ k))

omit [Unicode] in
theorem put_eq_self_iff {records : Records} {key : Key} {value : Str} :
    records = put records (some (key, value)) ↔ records key = some value := by
  constructor
  · intro h
    rw [h, put_some_self]
  · intro h
    funext k
    rw [put_some_apply]
    split
    · rename_i hk
      rw [hk, h]
    · rfl

omit [Unicode] in
/-- A write leaves the file as it should be if the part that is written is all of the text. -/
theorem file_write_iff {d : Disk} {s part : Str} {f : Option Str → Str} :
    (∀ x, (d.write s part).file x = if x = s then some (f (d.file x)) else d.file x) ↔ part = f (d.file s) := by
  constructor
  · intro h
    have hs := h s
    simp only [Disk.write, if_true] at hs
    exact Option.some.inj hs
  · rintro rfl x
    show (if x = s then _ else _) = _
    split
    · rename_i hx
      rw [hx]
    · rfl

omit [Unicode] in
/-- A file that is not written is as it should be if it was. -/
theorem file_eq_iff {d : Disk} {s : Str} {f : Option Str → Str} :
    (∀ x, d.file x = if x = s then some (f (d.file x)) else d.file x) ↔ d.file s = some (f (d.file s)) := by
  constructor
  · intro h
    have hs := h s
    rwa [if_pos rfl] at hs
  · intro h x
    split
    · rename_i hx
      rw [hx]
      exact h
    · rfl

theorem applied_startWriteWith_iff (torn : Torn) (n : Node) (update : Str) :
    Applied n (n.startWriteWith torn update).1 update ↔ Acceptable torn n update := by
  refine exists_congr fun c => exists_congr fun key => exists_congr fun value => and_congr_right fun htarget => ?_
  have hdisk := startWriteWith_disk torn n update
  simp only [htarget] at hdisk
  rw [hdisk]
  by_cases hopen : n.disk.canOpen (lower [c]) = true
  · rw [if_pos hopen, startWriteWith_records, file_write_iff (f := fun file => commitFile file key.1 update)]
    cases torn with
    | none =>
      simp only [Node.committed, htarget, if_pos hopen]
      exact iff_of_true ⟨rfl, trivial⟩ (Or.inl ⟨hopen, trivial⟩)
    | some k =>
      simp only [Option.elim_some, List.take_eq_self_iff, put_eq_self_iff]
      simp [hopen, and_comm]
  · -- Nothing is written.
    have hsame : (n.startWriteWith torn update).1.states.records = n.states.records := by
      rw [startWriteWith_records]
      cases torn with
      | none => simp only [Node.committed, htarget, if_neg hopen, put_none]
      | some k => rfl
    rw [if_neg hopen, hsame, put_eq_self_iff, file_eq_iff (f := fun file => commitFile file key.1 update)]
    simp [hopen, and_comm]

/-- **A rejected write leaves no trace** exactly if the message has no update, or the update is acceptable,
however the write of the record file ends. -/
theorem write_traceless_iff (torn : Torn) (n : Node) {query : Str} {parts : List Str}
    (h : split ';' (strip query) = ['1'] :: parts) :
    ((∃ update ∈ parts.head?, Applied n (n.writeHandlerWith torn query).1 update) ∨
        Untouched n (n.writeHandlerWith torn query).1) ↔
      ∀ update ∈ parts.head?, Acceptable torn n update := by
  rw [Node.writeHandlerWith_eq]
  cases parts with
  | nil =>
    have hparse : Node.parseWrite query = .ignored := by
      unfold Node.parseWrite
      rw [h]
      rfl
    rw [hparse]
    exact iff_of_true (Or.inr ⟨rfl, rfl, rfl, rfl, rfl, rfl⟩) (by simp)
  | cons update rest =>
    have hparse : Node.parseWrite query = .start update := by
      unfold Node.parseWrite
      rw [h]
      rfl
    rw [hparse]
    show (_ ∨ Untouched n (n.link.startWriteWith torn update).1) ↔ _
    have htouched : ¬ Untouched n (n.link.startWriteWith torn update).1 := by
      intro huntouched
      have hnum := huntouched.currLogNum
      rw [Node.startWriteWith_eq, (Node.commitHandlerWith_frame torn _ _).1, Node.announce_currLogNum] at hnum
      have hlink : n.link.raft.currLogNum = n.raft.currLogNum := rfl
      omega
    rw [or_iff_left htouched]
    have hiff : Applied n (n.link.startWriteWith torn update).1 update ↔ Acceptable torn n update :=
      applied_startWriteWith_iff torn n.link update
    constructor
    · rintro ⟨u, hu, happlied⟩ v hv
      obtain rfl := Option.some.inj hu
      obtain rfl := Option.some.inj hv
      exact hiff.mp happlied
    · exact fun hall => ⟨update, rfl, hiff.mpr (hall update rfl)⟩

omit [Unicode] in
/-- A leader of two nodes without record files. -/
def freshLeader : Node :=
  Node.main "10.0.0.2".toList [some "10.0.0.1".toList, some "10.0.0.2".toList]
    { file := fun _ => none, denied := fun _ => false } [] 0

omit [Unicode] in
/-- A record for a new domain is applied where it is written; on a full disk it is not. -/
theorem write_traceless_iff_record :
    (((∃ update ∈ ["a.com,A,1.1.1.1".toList].head?, @Applied Unicode.ascii freshLeader
          (@Node.writeHandlerWith Unicode.ascii none freshLeader "1;a.com,A,1.1.1.1".toList).1 update) ∨
        Untouched freshLeader
          (@Node.writeHandlerWith Unicode.ascii none freshLeader "1;a.com,A,1.1.1.1".toList).1) ↔
      ∀ update ∈ ["a.com,A,1.1.1.1".toList].head?, @Acceptable Unicode.ascii none freshLeader update) ∧
    (((∃ update ∈ ["a.com,A,1.1.1.1".toList].head?, @Applied Unicode.ascii freshLeader
          (@Node.writeHandlerWith Unicode.ascii (some 0) freshLeader "1;a.com,A,1.1.1.1".toList).1 update) ∨
        Untouched freshLeader
          (@Node.writeHandlerWith Unicode.ascii (some 0) freshLeader "1;a.com,A,1.1.1.1".toList).1) ↔
      ∀ update ∈ ["a.com,A,1.1.1.1".toList].head?, @Acceptable Unicode.ascii (some 0) freshLeader update) :=
  ⟨@write_traceless_iff Unicode.ascii none freshLeader "1;a.com,A,1.1.1.1".toList ["a.com,A,1.1.1.1".toList]
      (by decide),
    @write_traceless_iff Unicode.ascii (some 0) freshLeader "1;a.com,A,1.1.1.1".toList
      ["a.com,A,1.1.1.1".toList] (by decide)⟩

omit [Unicode] in
/-- An update with two fields is numbered, logged and sent, and then dropped; so is a record whose file cannot be
written to its end, and the file is empty after that. -/
theorem not_write_traceless :
    (split ';' (strip "1;a.com,A".toList) = [['1'], "a.com,A".toList] ∧
      (@Node.writeHandler Unicode.ascii freshLeader "1;a.com,A".toList).1.raft.currLogNum = 1 ∧
      (@Node.writeHandler Unicode.ascii freshLeader "1;a.com,A".toList).1.writer.logs ['1'] =
        some "a.com,A".toList ∧
      (@Node.writeHandler Unicode.ascii freshLeader "1;a.com,A".toList).1.outbox =
        [⟨"10.0.0.1".toList, 9000, "2;1;a.com,A\n".toList⟩] ∧
      ¬ ((∃ update ∈ ["a.com,A".toList].head?, @Applied Unicode.ascii freshLeader
            (@Node.writeHandler Unicode.ascii freshLeader "1;a.com,A".toList).1 update) ∨
          Untouched freshLeader (@Node.writeHandler Unicode.ascii freshLeader "1;a.com,A".toList).1)) ∧
    (split ';' (strip "1;a.com,A,1.1.1.1".toList) = [['1'], "a.com,A,1.1.1.1".toList] ∧
      (@Node.writeHandlerWith Unicode.ascii (some 0) freshLeader "1;a.com,A,1.1.1.1".toList).1.disk.file ['a'] =
        some [] ∧
      (@Node.writeHandlerWith Unicode.ascii (some 0) freshLeader "1;a.com,A,1.1.1.1".toList).1.outbox =
        [⟨"10.0.0.1".toList, 9000, "2;1;a.com,A,1.1.1.1\n".toList⟩] ∧
      ¬ ((∃ update ∈ ["a.com,A,1.1.1.1".toList].head?, @Applied Unicode.ascii freshLeader
            (@Node.writeHandlerWith Unicode.ascii (some 0) freshLeader "1;a.com,A,1.1.1.1".toList).1 update) ∨
          Untouched freshLeader
            (@Node.writeHandlerWith Unicode.ascii (some 0) freshLeader "1;a.com,A,1.1.1.1".toList).1)) := by
  refine ⟨⟨by decide, by decide, by decide, by decide, ?_⟩, by decide, by decide, by decide, ?_⟩
  · rintro (⟨update, hupdate, c, key, value, htarget, -⟩ | huntouched)
    · obtain rfl := Option.some.inj hupdate
      have hnone : commitTarget "a.com,A".toList = none := by decide
      rw [hnone] at htarget
      cases htarget
    · exact absurd huntouched.currLogNum (by decide)
  · rintro (⟨update, hupdate, c, key, value, htarget, hfile, -⟩ | huntouched)
    · obtain rfl := Option.some.inj hupdate
      have hsome : commitTarget "a.com,A,1.1.1.1".toList =
          some ('a', ("a.com".toList, ['A']), "1.1.1.1".toList) := by decide
      obtain ⟨rfl, rfl, rfl⟩ : 'a' = c ∧ ("a.com".toList, ['A']) = key ∧ "1.1.1.1".toList = value := by
        simpa using hsome.symm.trans htarget
      exact absurd (hfile ['a']) (by decide)
    · exact absurd huntouched.currLogNum (by decide)

/-! ### Heartbeats -/

omit [Unicode] in
/-- `beatHandler` gives up on the text: it has fewer than three fields, a rank that `int` does not read, or a
sender without a valid address. -/
def Rejected (int : Str → Option ℤ) (beat : Str) : Prop :=
  ∀ l r lr, parseBeatWith int beat = some (l, r, lr) → ipv4 l = none

omit [Unicode] in
theorem heard_eq_self_iff (n : Node) (now : Time) :
    (n.heard now).raft = n.raft ↔ n.raft.lastBeatReceived = now := by
  constructor
  · intro h
    rw [← h]
    rfl
  · rintro rfl
    rfl

omit [Unicode] in
/-- Registering changes nothing if the sender is known and the followers are counted right. -/
theorem registerSender_same_iff (n : Node) (l : Str) :
    ((n.registerSender l).raft = n.raft ∧ (n.registerSender l).states = n.states) ↔
      l ∈ n.states.nodes.keys ∧ n.raft.followerCount = n.states.nodes.length - 1 := by
  by_cases hl : l ∈ n.states.nodes.keys
  · unfold Node.registerSender
    rw [if_pos (OrderedDict.contains_iff.mpr hl)]
    constructor
    · rintro ⟨hraft, -⟩
      exact ⟨hl, (congrArg Raft.followerCount hraft).symm⟩
    · rintro ⟨-, hcount⟩
      refine ⟨?_, rfl⟩
      show ({ n.raft with followerCount := n.states.nodes.length - 1 } : Raft) = _
      rw [← hcount]
  · refine iff_of_false (fun hsame => ?_) fun hboth => hl hboth.1
    exact hl ((n.registerSender_nodes_iff l).mp (congrArg States.nodes hsame.2))

omit [Unicode] in
/-- **A rejected heartbeat leaves no trace** exactly if no time has passed since the last one, and its
sender, if it has three fields and two ranks, is known, with the followers counted right; whatever `int`
reads. -/
theorem beat_traceless_iff (int : Str → Option ℤ) (n : Node) {beat : Str} (now : Time) (h : Rejected int beat) :
    ((n.beatHandlerWith int beat now).raft = n.raft ∧ (n.beatHandlerWith int beat now).states = n.states) ↔
      n.raft.lastBeatReceived = now ∧ ∀ l r lr, parseBeatWith int beat = some (l, r, lr) →
        l ∈ n.states.nodes.keys ∧ n.raft.followerCount = n.states.nodes.length - 1 := by
  rcases n.beatHandlerWith_cases int beat now with ⟨hparse, hrun⟩ | ⟨l, r, lr, hparse, -, hrun⟩ |
    ⟨l, r, lr, ld, my, hparse, hvalid, -, -⟩
  · rw [hrun, heard_eq_self_iff, hparse]
    constructor
    · rintro ⟨htime, -⟩
      exact ⟨htime, fun l r lr hsome => absurd hsome (by simp)⟩
    · rintro ⟨htime, -⟩
      exact ⟨htime, rfl⟩
  · rw [hrun, forall_parsed_iff hparse fun l _ _ =>
      l ∈ n.states.nodes.keys ∧ n.raft.followerCount = n.states.nodes.length - 1]
    by_cases htime : n.raft.lastBeatReceived = now
    · -- The timer shows this very moment, so all that is left is the registration.
      have hheard : n.heard now = n := by
        subst htime
        rfl
      rw [hheard, registerSender_same_iff]
      exact (and_iff_right htime).symm
    · refine iff_of_false ?_ fun hboth => htime hboth.1
      rintro ⟨hraft, -⟩
      obtain ⟨nodes, m, count, hregister⟩ := (n.heard now).registerSender_eq l
      rw [hregister] at hraft
      exact htime (congrArg Raft.lastBeatReceived hraft).symm
  · rw [h l r lr hparse] at hvalid
    exact absurd hvalid (by simp)

omit [Unicode] in
/-- `int` as the interpreter starts with it. -/
def asciiInt : Str → Option ℤ := @parseIntUpTo Unicode.ascii maxStrDigits

omit [Unicode] in
/-- A rank that ends with a separator is no integer, when it comes at the moment of the start. -/
theorem beat_traceless_iff_same :
    ((freshLeader.beatHandlerWith asciiInt "10.0.0.1;1\u001f;2".toList 0).raft = freshLeader.raft ∧
        (freshLeader.beatHandlerWith asciiInt "10.0.0.1;1\u001f;2".toList 0).states = freshLeader.states) ↔
      freshLeader.raft.lastBeatReceived = 0 ∧ ∀ l r lr,
        parseBeatWith asciiInt "10.0.0.1;1\u001f;2".toList = some (l, r, lr) → l ∈ freshLeader.states.nodes.keys ∧
          freshLeader.raft.followerCount = freshLeader.states.nodes.length - 1 :=
  @beat_traceless_iff asciiInt freshLeader "10.0.0.1;1\u001f;2".toList 0 fun l r lr h => by
    rw [show parseBeatWith asciiInt "10.0.0.1;1\u001f;2".toList = none by decide] at h
    cases h

omit [Unicode] in
/-- A name that is no address becomes a node of the map, and the timer starts anew. -/
theorem not_beat_traceless :
    Rejected asciiInt "mallory;1;1".toList ∧
    "mallory".toList ∈ (freshLeader.beatHandlerWith asciiInt "mallory;1;1".toList 5).states.nodes.keys ∧
    (freshLeader.beatHandlerWith asciiInt "mallory;1;1".toList 5).raft.lastBeatReceived = 5 ∧
    ¬ ((freshLeader.beatHandlerWith asciiInt "mallory;1;1".toList 5).raft = freshLeader.raft ∧
        (freshLeader.beatHandlerWith asciiInt "mallory;1;1".toList 5).states = freshLeader.states) := by
  refine ⟨fun l r lr h => ?_, by decide, by decide, fun hsame => ?_⟩
  · rw [show parseBeatWith asciiInt "mallory;1;1".toList = some ("mallory".toList, 1, 1) by decide] at h
    cases h
    decide
  · exact absurd (congrArg Raft.lastBeatReceived hsame.1) (by decide)

end DsDns
