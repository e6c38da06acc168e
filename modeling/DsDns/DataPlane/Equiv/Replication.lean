/-
  Whether a log entry arrives as it was logged.

  An update is started by a message on port 9000, or by a resolution for a line read on port 8000 (`Starts`).
  Either way the leader logs it under its next number and sends the line `2;num;update` (`Starts.effect`). The
  follower strips the line and splits it at semicolons, so what it stores is what the leader has stored only
  if the update has neither a semicolon nor whitespace at its end (`replication_round_trips_iff`).
-/
import DsDns.DataPlane.Equiv.Beat
import DsDns.DataPlane.Equiv.Server
import DsDns.DataPlane.Equiv.Step

namespace DsDns

/-! ### Lines -/

/-- A line, stripped, has no line break in it. -/
theorem not_mem_strip_line {text line : Str} (h : line ∈ readLines text) :
    '\n' ∉ strip line ∧ '\r' ∉ strip line := by
  obtain ⟨ls, tail, hlines, hls, htail, hreturn⟩ := exists_readLines text
  rw [hlines] at h
  rcases List.mem_append.mp h with hl | hl
  · obtain ⟨body, rfl, hbody⟩ := hls line hl
    have hr : '\r' ∉ body ++ ['\n'] := fun hr =>
      hreturn (List.mem_append_left _ (List.mem_flatten.mpr ⟨_, hl, hr⟩))
    rw [strip_append_newline]
    exact ⟨fun hn => hbody (mem_of_mem_strip hn),
      fun hn => hr (List.mem_append_left _ (mem_of_mem_strip hn))⟩
  · unfold tailLine at hl
    split at hl
    · exact absurd hl (by simp)
    · obtain rfl := List.mem_singleton.mp hl
      exact ⟨fun hn => htail (mem_of_mem_strip hn),
        fun hr => hreturn (List.mem_append_right _ (mem_of_mem_strip hr))⟩

variable [Unicode]

/-- A line that the node `n` reads makes it start the update; `n'` is the node afterwards. -/
inductive Starts (gethostbyname : Str → Option Str) (n : Node) : Str → Node → Prop
  | message {text line update : Str} : line ∈ readLines text → Node.parseWrite (strip line) = .start update →
      Starts gethostbyname n update (n.writeHandler (strip line)).1
  | resolution {text line ip : Str} : line ∈ readLines text → strip line ≠ [] →
      startsWith (strip line) "PEER:".toList = false → gethostbyname (strip line) = some ip →
      n.writer.linked = true →
      Starts gethostbyname n (strip line ++ ",A,".toList ++ ip) (n.newRecord gethostbyname (strip line)).1

/-- The resolver's answers are IPv4 addresses. -/
def Resolves (gethostbyname : Str → Option Str) : Prop :=
  ∀ domain ip, gethostbyname domain = some ip → (ipv4 ip).isSome

variable {gethostbyname : Str → Option Str} {n n' : Node} {update : Str}

/-- An update has no line break in it. -/
theorem Starts.not_mem (h : Starts gethostbyname n update n') (hresolves : Resolves gethostbyname) :
    '\n' ∉ update ∧ '\r' ∉ update := by
  cases h with
  | @message text line update hline hparse =>
    have hfield := Node.mem_split_of_start hparse
    rw [strip_strip] at hfield
    obtain ⟨hn, hr⟩ := not_mem_strip_line hline
    exact ⟨fun hc => hn (mem_of_mem_split hfield hc), fun hc => hr (mem_of_mem_split hfield hc)⟩
  | @resolution text line ip hline _ _ hip _ =>
    obtain ⟨hn, hr⟩ := not_mem_strip_line hline
    have hsome := hresolves _ _ hip
    have hn' : '\n' ∉ ip := not_mem_of_ipv4 hsome (by decide) (by decide)
    have hr' : '\r' ∉ ip := not_mem_of_ipv4 hsome (by decide) (by decide)
    simp [hn, hr, hn', hr']

omit [Unicode] in
/-- The other nodes of the map, and the line that each gets. -/
def copies (n : Node) (update : Str) : List Packet :=
  (n.states.nodes.keys.filter fun ip => ip ≠ n.states.selfIp).map
    fun ip => ⟨ip, 9000, Node.replicaText n.nextNum update⟩

theorem startWrite_copies (n : Node) (update : Str) :
    (n.startWrite update).1.writer.logs n.nextNum = some update ∧
    (n.startWrite update).1.outbox = n.outbox ++ copies n update := by
  rw [Node.startWrite_eq, Node.commitHandler_writer, Node.commitHandler_outbox, Node.announce_logs,
    Node.announce_outbox, if_pos rfl]
  exact ⟨rfl, rfl⟩

/-- **What the leader does**: it logs the update under its next number, and sends it to the other nodes. -/
theorem Starts.effect (h : Starts gethostbyname n update n') :
    n'.writer.logs n.nextNum = some update ∧ n'.outbox = n.outbox ++ copies n update := by
  cases h with
  | @message text line update hline hparse =>
    rw [Node.writeHandler_eq, hparse]
    exact startWrite_copies n.link update
  | @resolution text line ip hline _ _ hip hlinked =>
    have hanswer : n.newRecord gethostbyname (strip line) = n.newRecord (fun _ => some ip) (strip line) := by
      unfold Node.newRecord
      rw [hip]
    rw [hanswer, Node.newRecord_eq, if_pos hlinked]
    exact startWrite_copies n _

/-- **What the follower does** with the line. -/
theorem logs_handleWrite_replicaText (f : Node) (hbreaks : '\n' ∉ update ∧ '\r' ∉ update) (num : Str) :
    (f.handleWrite (Node.replicaText n.nextNum update)).writer.logs num =
      if num = n.nextNum then some (Node.storedUpdate update) else f.writer.logs num := by
  have hnum : ∀ c : Char, c.isDigit = false → c ≠ '-' → c ∉ n.nextNum := fun c hd hm =>
    not_mem_intStr hd hm _
  rw [f.handleWrite_delivered (hnum ';' (by decide) (by decide))
    ⟨hnum '\n' (by decide) (by decide), hbreaks.1⟩ ⟨hnum '\r' (by decide) (by decide), hbreaks.2⟩,
    Node.replicate_logs]
  rfl

omit [Unicode] in
/-- An update arrives whole if it has no semicolon and no whitespace at its end. -/
theorem storedUpdate_eq_iff : Node.storedUpdate update = update ↔ ';' ∉ update ∧ rstrip update = update := by
  constructor
  · intro h
    have hsemicolon : ';' ∉ update := by
      rw [← h]
      unfold Node.storedUpdate
      cases hfields : split ';' (rstrip update) with
      | nil => exact absurd hfields (split_ne_nil ';' _)
      | cons field fields =>
        apply sep_not_mem_of_mem_split (s := rstrip update)
        rw [hfields]
        exact List.mem_cons_self
    rw [Node.storedUpdate_of_not_mem hsemicolon] at h
    exact ⟨hsemicolon, h⟩
  · rintro ⟨hsemicolon, htrimmed⟩
    rw [Node.storedUpdate_of_not_mem hsemicolon, htrimmed]

/-- **The log entry that a follower stores** is the leader's, under the leader's number, exactly if the update
has no semicolon and no whitespace at its end. -/
theorem replication_round_trips_iff (hresolves : Resolves gethostbyname)
    (h : Starts gethostbyname n update n') (f : Node) :
    n'.writer.logs n.nextNum = some update ∧ n'.outbox = n.outbox ++ copies n update ∧
    ((∀ num, (f.handleWrite (Node.replicaText n.nextNum update)).writer.logs num =
      if num = n.nextNum then n'.writer.logs num else f.writer.logs num) ↔
        ';' ∉ update ∧ rstrip update = update) := by
  obtain ⟨hlogs, houtbox⟩ := h.effect
  refine ⟨hlogs, houtbox, ?_⟩
  rw [← storedUpdate_eq_iff]
  constructor
  · intro hsame
    have hentry := hsame n.nextNum
    rw [logs_handleWrite_replicaText f (h.not_mem hresolves), if_pos rfl, if_pos rfl, hlogs] at hentry
    exact Option.some.inj hentry
  · intro hstored num
    rw [logs_handleWrite_replicaText f (h.not_mem hresolves), hstored]
    split
    · rename_i hnum
      rw [hnum, hlogs]
    · rfl

omit [Unicode] in
/-- The leader of a cluster of two, which has had a message on the write port. -/
def linkedLeader : Node := (siteNode "10.0.0.2".toList []).link

omit [Unicode] in
/-- The leader after the line `1;b.com,A,2.2.2.2`. -/
def afterWrite : Node := (@Node.writeHandler Unicode.ascii linkedLeader "1;b.com,A,2.2.2.2".toList).1

omit [Unicode] in
theorem replication_round_trips_iff_site :
    afterWrite.writer.logs linkedLeader.nextNum = some "b.com,A,2.2.2.2".toList ∧
    afterWrite.outbox = linkedLeader.outbox ++ copies linkedLeader "b.com,A,2.2.2.2".toList ∧
    ((∀ num, (@Node.handleWrite Unicode.ascii siteFollower
        (Node.replicaText linkedLeader.nextNum "b.com,A,2.2.2.2".toList)).writer.logs num =
      if num = linkedLeader.nextNum then afterWrite.writer.logs num else siteFollower.writer.logs num) ↔
        ';' ∉ "b.com,A,2.2.2.2".toList ∧ rstrip "b.com,A,2.2.2.2".toList = "b.com,A,2.2.2.2".toList) := by
  have hline : "1;b.com,A,2.2.2.2\n".toList ∈ readLines "1;b.com,A,2.2.2.2\n".toList := by decide
  have hstarts := @Starts.message Unicode.ascii (fun _ => none) linkedLeader _ _
    "b.com,A,2.2.2.2".toList hline rfl
  have hresolves : Resolves fun _ => none := fun _ _ h => absurd h (by simp)
  exact @replication_round_trips_iff Unicode.ascii _ _ _ _ hresolves hstarts siteFollower

omit [Unicode] in
/-- The space before the second semicolon is lost, and so is what follows the semicolon of a domain. -/
theorem not_replication_round_trips :
    (∃ n', @Starts Unicode.ascii (fun _ => none) linkedLeader "b.com,A,2.2.2.2 ".toList n' ∧
      n'.writer.logs ['1'] = some "b.com,A,2.2.2.2 ".toList ∧
      (@Node.handleWrite Unicode.ascii siteFollower
        (Node.replicaText ['1'] "b.com,A,2.2.2.2 ".toList)).writer.logs ['1'] =
          some "b.com,A,2.2.2.2".toList) ∧
    ∃ n', @Starts Unicode.ascii (fun _ => some "2.2.2.2".toList) linkedLeader
        "b;c.com,A,2.2.2.2".toList n' ∧
      n'.writer.logs ['1'] = some "b;c.com,A,2.2.2.2".toList ∧
      (@Node.handleWrite Unicode.ascii siteFollower
        (Node.replicaText ['1'] "b;c.com,A,2.2.2.2".toList)).writer.logs ['1'] = some ['b'] := by
  constructor
  · have hline : "1;b.com,A,2.2.2.2 ;x\n".toList ∈ readLines "1;b.com,A,2.2.2.2 ;x\n".toList := by decide
    have hstarts := @Starts.message Unicode.ascii (fun _ => none) linkedLeader _ _
      "b.com,A,2.2.2.2 ".toList hline rfl
    exact ⟨_, hstarts, (@Starts.effect Unicode.ascii _ _ _ _ hstarts).1, by decide⟩
  · have hstarts := @Starts.resolution Unicode.ascii (fun _ => some "2.2.2.2".toList) linkedLeader
      "b;c.com\n".toList "b;c.com\n".toList "2.2.2.2".toList (by decide) (by decide) (by decide) rfl rfl
    exact ⟨_, hstarts, (@Starts.effect Unicode.ascii _ _ _ _ hstarts).1, by decide⟩

end DsDns
