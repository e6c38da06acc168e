/-
  What is in the record files of a cluster.

  A write reaches the files of the node that starts it, and of nobody else: what the nodes send each other are
  heartbeats, replicas and acknowledgements (`Relayed`), and none of them is a commit. Only a line of type 4, which
  no node sends, commits a replica. So the files of a directory are replayed from `World.committed`, the writes its
  nodes started and the entries that lines from outside named (`files_replay`); the invariant is `Replayed`.
-/
import DsDns.Cluster.Volumes
import DsDns.Cluster.Equiv.Origin

namespace DsDns

variable [Unicode]

/-! ### The commits of a run -/

/-- The record files after a commit of the update `u`. -/
def Disk.commit (d : Disk) (u : Str) : Disk :=
  match commitTarget u with
  | none => d
  | some (c, key, _) =>
    if d.canOpen (lower [c]) then d.write (lower [c]) (commitFile (d.file (lower [c])) key.1 u) else d

/-- The update that a message on the write port makes a node commit: a new one, or the entry logged under a
number. -/
def Node.commits (n : Node) : Node.WriteMsg → Option Str
  | .start u => some u
  | .commit num => n.writer.logs num
  | _ => none

/-- The commit an event makes: the node, and the update. -/
def World.commits (w : World) : OpenEvent → Option (Str × Str)
  | .inside e => w.starts e
  | .line ip line => ((w.node ip).bind fun n => n.commits (Node.parseWrite line.val)).map fun u => (ip, u)

/-- The commits of a run, in order. -/
def World.committed (mount : Mount) : World → List OpenEvent → List (Str × Str)
  | _, [] => []
  | w, e :: es => (w.commits e).toList ++ World.committed mount (w.openStep mount e) es

omit [Unicode] in
/-- The updates of the nodes of the directory `dir` among these. -/
def updatesOn (mount : Mount) (dir : Str) (us : List (Str × Str)) : List Str :=
  us.filterMap fun u => if mount u.1 = dir then some u.2 else none

omit [Unicode] in
theorem updatesOn_append (mount : Mount) (dir : Str) (us vs : List (Str × Str)) :
    updatesOn mount dir (us ++ vs) = updatesOn mount dir us ++ updatesOn mount dir vs := List.filterMap_append

omit [Unicode] in
theorem updatesOn_self {mount : Mount} {x ip : Str} (h : mount x = mount ip) (u : Option Str) :
    updatesOn mount (mount x) (u.map fun u => (ip, u)).toList = u.toList := by
  cases u <;> simp [updatesOn, h]

omit [Unicode] in
theorem updatesOn_ne {mount : Mount} {x ip : Str} (h : mount x ≠ mount ip) (u : Option Str) :
    updatesOn mount (mount x) (u.map fun u => (ip, u)).toList = [] := by
  cases u <;> simp [updatesOn, Ne.symm h]

/-! ### What one handler does to the files -/

theorem commitHandler_disk (n : Node) (num : Str) :
    (n.commitHandler num).1.disk = (n.writer.logs num).elim n.disk n.disk.commit := by
  cases h : n.writer.logs num with
  | none => rw [Node.commitHandler_spec, h]; rfl
  | some u => exact Node.commitHandlerWith_disk none n h

theorem startWrite_disk (n : Node) (u : Str) : (n.startWrite u).1.disk = n.disk.commit u :=
  startWriteWith_disk none n u

theorem replicate_disk (n : Node) (num u : Str) : (n.replicate num u).disk = n.disk := by
  rw [Node.replicate, Node.sendAck_disk]

/-- **What a line does to the files.** -/
theorem writeHandler_disk (n : Node) (query : Str) :
    (n.writeHandler query).1.disk = (n.commits (Node.parseWrite query)).elim n.disk n.disk.commit := by
  rw [Node.writeHandler_eq]
  cases Node.parseWrite query with
  | start u => exact startWrite_disk n.link u
  | replica num u => exact replicate_disk n.link num u
  | ack num => rfl
  | commit num => exact commitHandler_disk n.link num
  | ignored => rfl

/-! ### What the nodes send -/

/-- A message of a node: a heartbeat, or one line of type 2 or 3. -/
def Relayed (p : Packet) : Prop :=
  p.port = 7001 ∨ p.port = 9000 ∧ ∃ c s, (c = '2' ∨ c = '3') ∧ p.text = c :: ';' :: (s ++ ['\n']) ∧
    '\n' ∉ s ∧ '\r' ∉ s

omit [Unicode] in
theorem relayed_beat {s : States} {p : Packet} (h : p ∈ Node.beats s) : Relayed p := Or.inl (Node.mem_beats h).1

omit [Unicode] in
theorem relayed_ack {dst num : Str} (h : '\n' ∉ num ∧ '\r' ∉ num) : Relayed ⟨dst, 9000, Node.ackText num⟩ :=
  Or.inr ⟨rfl, '3', num, Or.inr rfl, rfl, h⟩

/-- What starting a write sends. -/
theorem relayed_startWrite {n : Node} {u : Str} (h : '\n' ∉ u ∧ '\r' ∉ u) {p : Packet}
    (hp : p ∈ (n.startWrite u).1.outbox) : p ∈ n.outbox ∨ Relayed p := by
  rw [(startWrite_effects n u).2.2.2.2, Node.announce_outbox] at hp
  refine (List.mem_append.mp hp).imp_right fun hp => ?_
  obtain ⟨dst, -, rfl⟩ := List.mem_map.mp hp
  have hclean : ∀ c : Char, c.isDigit = false → c ≠ '-' → c ∉ n.nextNum := fun c hd hm => not_mem_intStr hd hm _
  refine Or.inr ⟨rfl, '2', n.nextNum ++ ';' :: u, Or.inl rfl, ?_, ?_, ?_⟩
  · rw [Node.replicaText, List.append_assoc, List.cons_append]
  · simp [hclean '\n' (by decide) (by decide), h.1]
  · simp [hclean '\r' (by decide) (by decide), h.2]

theorem relayed_replicate {n : Node} {num u : Str} (h : '\n' ∉ num ∧ '\r' ∉ num) {p : Packet}
    (hp : p ∈ (n.replicate num u).outbox) : p ∈ n.outbox ∨ Relayed p := by
  rw [Node.replicate_outbox] at hp
  refine (List.mem_append.mp hp).imp_right fun hp => ?_
  cases hlead : n.raft.leader with
  | true =>
    rw [hlead] at hp
    exact absurd hp (by simp)
  | false =>
    rw [hlead] at hp
    obtain rfl := List.mem_singleton.mp hp
    exact relayed_ack h

omit [Unicode] in
/-- A field of a clean line is clean. -/
theorem clean_of_mem_split {query f : Str} (h : '\n' ∉ query ∧ '\r' ∉ query) (hf : f ∈ split ';' (strip query)) :
    '\n' ∉ f ∧ '\r' ∉ f :=
  ⟨fun hc => h.1 (mem_of_mem_strip (mem_of_mem_split hf hc)),
    fun hc => h.2 (mem_of_mem_strip (mem_of_mem_split hf hc))⟩

/-- A line without a line break in it makes a node send messages of this kind only. -/
theorem relayed_writeHandler {n : Node} {query : Str} (h : '\n' ∉ query ∧ '\r' ∉ query) {p : Packet}
    (hp : p ∈ (n.writeHandler query).1.outbox) : p ∈ n.outbox ∨ Relayed p := by
  rw [Node.writeHandler_eq] at hp
  cases hmsg : Node.parseWrite query with
  | start u =>
    rw [hmsg] at hp
    exact relayed_startWrite (n := n.link) (clean_of_mem_split h (Node.mem_split_of_start hmsg)) hp
  | replica num u =>
    rw [hmsg] at hp
    exact relayed_replicate (n := n.link) (clean_of_mem_split h (Node.mem_split_of_replica hmsg).1) hp
  | ack num =>
    rw [hmsg] at hp
    exact Or.inl hp
  | commit num =>
    rw [hmsg] at hp
    left
    rwa [Node.obey, Node.obeyWith, (Node.commitHandlerWith_frame none n.link num).2.2.1] at hp
  | ignored =>
    rw [hmsg] at hp
    exact Or.inl hp

omit [Unicode] in
/-- A line of type 2 or 3 is no commit. -/
theorem commits_relayed (n : Node) {c : Char} (hc : c = '2' ∨ c = '3') (s : Str) :
    n.commits (Node.parseWrite (c :: ';' :: s)) = none := by
  unfold Node.parseWrite
  rcases hc with rfl | rfl
  · rw [Node.split_typed (by decide) (by decide)]
    rcases split ';' (rstrip s) with _ | ⟨num, _ | ⟨u, rest⟩⟩ <;> rfl
  · rw [Node.split_typed (by decide) (by decide)]
    rcases split ';' (rstrip s) with _ | ⟨num, rest⟩ <;> rfl

/-- **A message of a node reaches no record file**, and is answered in kind. -/
theorem receive_relayed {p : Packet} (h : Relayed p) (n : Node) (now : Time) :
    (n.receive p now).disk = n.disk ∧ ∀ q ∈ (n.receive p now).outbox, q ∈ n.outbox ∨ Relayed q := by
  rcases h with hport | ⟨hport, c, s, hc, htext, hn, hr⟩
  · have hrun : n.receive p now = n.handleSync p.text now := by
      unfold Node.receive
      rw [if_neg (by rw [hport]; decide), if_pos hport]
    rw [hrun, (n.handleSync_frame p.text now).2.1]
    exact ⟨(handleSync_data n p.text now).2, fun _ => Or.inl⟩
  · have hspace : isSpace c = false := by rcases hc with rfl | rfl <;> decide
    have hbreak : ∀ x : Char, isSpace x = true → x ≠ ';' → x ∉ s → x ∉ c :: ';' :: s := by
      intro x hx hsep hxs hmem
      rcases List.mem_cons.mp hmem with rfl | hmem
      · exact absurd hspace (by rw [hx]; exact Bool.noConfusion)
      · exact (List.mem_cons.mp hmem).elim hsep hxs
    have hclean : '\n' ∉ c :: ';' :: s ∧ '\r' ∉ c :: ';' :: s :=
      ⟨hbreak '\n' rfl (by decide) hn, hbreak '\r' rfl (by decide) hr⟩
    have hne : strip (c :: ';' :: s) ≠ [] := by
      rw [strip_cons_of_not_space hspace]
      exact List.cons_ne_nil _ _
    have hrun : n.receive p now = (n.writeHandler (strip (c :: ';' :: s))).1 := by
      unfold Node.receive
      rw [if_pos hport, htext]
      exact n.handleWrite_line hclean.1 hclean.2 hne
    have hstrip : strip (c :: ';' :: s) = c :: ';' :: rstrip s := by
      rw [strip_cons_of_not_space hspace, rstrip_cons_of_not_space (by decide)]
    rw [hrun]
    constructor
    · rw [writeHandler_disk, hstrip, commits_relayed n hc]
      rfl
    · exact fun q => relayed_writeHandler ⟨fun hm => hclean.1 (mem_of_mem_strip hm),
        fun hm => hclean.2 (mem_of_mem_strip hm)⟩

/-! ### The invariant -/

/-- A cluster that started as `w₀`, after the commits `us`: the files of every node are those of its directory at
the start with the commits of that directory, and in flight are messages of the nodes. -/
structure Replayed (mount : Mount) (w₀ : World) (us : List (Str × Str)) (w : World) : Prop where
  node : ∀ ip n, w.node ip = some n → ∃ n₀, w₀.node ip = some n₀ ∧
    n.disk = (updatesOn mount (mount ip) us).foldl Disk.commit n₀.disk
  net : ∀ p ∈ w.net, Relayed p

omit [Unicode] in
theorem remount_node {mount : Mount} {w : World} {ip : Str} {m : Node} (h : w.node ip = some m) (x : Str) :
    (w.remount mount ip).node x =
      (w.node x).map fun n => if mount x = mount ip then { n with disk := m.disk } else n := by
  unfold World.remount
  rw [h]

omit [Unicode] in
theorem remount_net (mount : Mount) (w : World) (ip : Str) : (w.remount mount ip).net = w.net := by
  unfold World.remount
  split <;> rfl

/-- A handler at the node `ip` that commits `u`, or nothing. -/
theorem replayed_act {mount : Mount} {w₀ w : World} (hshared : Mounted mount w₀) {us : List (Str × Str)}
    (h : Replayed mount w₀ us w) {ip : Str} {n : Node} (hn : w.node ip = some n) {f : Node → Node} {u : Option Str}
    (hdisk : (f { n with outbox := [] }).disk = u.elim n.disk n.disk.commit)
    (hout : ∀ p ∈ (f { n with outbox := [] }).outbox, Relayed p) :
    Replayed mount w₀ (us ++ (u.map fun u => (ip, u)).toList) ((w.act ip f).remount mount ip) := by
  have hself : (w.act ip f).node ip = some (f { n with outbox := [] }) := by rw [act_node hn, if_pos rfl]
  have hreplay : (f { n with outbox := [] }).disk = u.toList.foldl Disk.commit n.disk := by
    rw [hdisk]
    cases u <;> rfl
  refine ⟨fun x m hm => ?_, fun p hp => ?_⟩
  · rw [remount_node hself] at hm
    obtain ⟨m', hm', rfl⟩ := Option.map_eq_some_iff.mp hm
    -- The node was up before, and is in the directory of `ip` or not.
    obtain ⟨k, hk, hother⟩ : ∃ k, w.node x = some k ∧ (x ≠ ip → m' = k) := by
      rw [act_node hn] at hm'
      split at hm'
      · rename_i hx
        exact ⟨n, hx ▸ hn, fun hne => absurd hx hne⟩
      · exact ⟨m', hm', fun _ => rfl⟩
    obtain ⟨k₀, hk₀, hkdisk⟩ := h.node x k hk
    refine ⟨k₀, hk₀, ?_⟩
    by_cases hx : mount x = mount ip
    · obtain ⟨n₀, hn₀, hndisk⟩ := h.node ip n hn
      rw [if_pos hx, updatesOn_append, List.foldl_append, updatesOn_self hx,
        hshared x ip k₀ n₀ hx hk₀ hn₀, hx, ← hndisk]
      exact hreplay
    · rw [if_neg hx, updatesOn_append, updatesOn_ne hx, List.append_nil, hother fun he => hx (congrArg mount he)]
      exact hkdisk
  · rw [remount_net, act_net hn] at hp
    exact (List.mem_append.mp hp).elim (h.net p) (hout p)

/-- The same, whether the node is up or not. -/
theorem replayed_serve {mount : Mount} {w₀ w : World} (hshared : Mounted mount w₀) {us : List (Str × Str)}
    (h : Replayed mount w₀ us w) {ip : Str} {f : Node → Node} {commits : Node → Option Str}
    (hdisk : ∀ n, w.node ip = some n →
      (f { n with outbox := [] }).disk = (commits n).elim n.disk n.disk.commit)
    (hout : ∀ n, w.node ip = some n → ∀ p ∈ (f { n with outbox := [] }).outbox, Relayed p) :
    Replayed mount w₀ (us ++ (((w.node ip).bind commits).map fun u => (ip, u)).toList)
      ((w.act ip f).remount mount ip) := by
  cases hn : w.node ip with
  | none =>
    have hsame : (w.act ip f).remount mount ip = w := by
      rw [act_of_down hn]
      unfold World.remount
      rw [hn]
    rw [hsame]
    exact (List.append_nil us).symm ▸ h
  | some n => exact replayed_act hshared h hn (hdisk n hn) (hout n hn)

/-- A handler that commits nothing. -/
theorem replayed_idle {mount : Mount} {w₀ w : World} (hshared : Mounted mount w₀) {us : List (Str × Str)}
    (h : Replayed mount w₀ us w) {ip : Str} {f : Node → Node}
    (hdisk : ∀ n : Node, (f { n with outbox := [] }).disk = n.disk)
    (hout : ∀ n : Node, ∀ p ∈ (f { n with outbox := [] }).outbox, Relayed p) :
    Replayed mount w₀ (us ++ []) ((w.act ip f).remount mount ip) := by
  have hnone : (w.node ip).bind (fun _ => (none : Option Str)) = none := by cases w.node ip <;> rfl
  have hstep : Replayed mount w₀ (us ++ (((w.node ip).bind fun _ => (none : Option Str)).map fun u => (ip, u)).toList)
      ((w.act ip f).remount mount ip) := replayed_serve hshared h (fun n _ => hdisk n) fun n _ => hout n
  rwa [hnone] at hstep

omit [Unicode] in
theorem starts_write (w : World) (ip : Str) (line : Line) : w.starts (.write ip line) =
    ((w.node ip).bind fun _ => some (lineUpdate line.val)).map fun u => (ip, u) := by
  simp only [World.starts]
  cases w.node ip <;> rfl

omit [Unicode] in
theorem starts_newRecord (w : World) (ip : Str) (domain answer : Line) : w.starts (.newRecord ip domain answer) =
    ((w.node ip).bind fun n => if n.writer.linked then
      some (domain.val ++ ",A,".toList ++ answer.val) else none).map fun u => (ip, u) := by
  simp only [World.starts]
  cases w.node ip with
  | none => rfl
  | some n =>
    rw [Option.filter_some, Option.bind_some]
    cases n.writer.linked <;> rfl

/-- A message that is delivered is a handler at the node it is for. -/
theorem openStep_deliver (mount : Mount) (w : World) (k : ℕ) (now : Time) :
    w.openStep mount (.inside (.deliver k now)) = (w.net[k]?).elim w fun p =>
      ((w.lose k).act p.dst fun n => n.receive p now).remount mount p.dst := by
  cases hp : w.net[k]? <;> simp [World.openStep, World.host, World.serve, World.step, World.deliver, hp]

/-- The events of the cluster itself. -/
theorem replayed_inside {mount : Mount} {w₀ w : World} (hshared : Mounted mount w₀) {us : List (Str × Str)}
    (h : Replayed mount w₀ us w) (e : ClusterEvent) :
    Replayed mount w₀ (us ++ (w.starts e).toList) (w.openStep mount (.inside e)) := by
  have hnone : us ++ ([] : List (Str × Str)) = us := List.append_nil us
  cases e with
  | write ip line =>
    have hclean : '\n' ∉ '1' :: ';' :: line.val ∧ '\r' ∉ '1' :: ';' :: line.val := by
      simp [line.prop.1, line.prop.2]
    rw [starts_write]
    refine replayed_serve hshared h (fun n _ => ?_) fun n _ p hp => ?_
    · rw [writeHandler_disk, parseWrite_typeOne]
      rfl
    · exact (relayed_writeHandler hclean hp).resolve_left (by simp)
  | newRecord ip domain answer =>
    have hcomma : '\n' ∉ ",A,".toList ∧ '\r' ∉ ",A,".toList := by decide
    have hclean : '\n' ∉ domain.val ++ ",A,".toList ++ answer.val ∧
        '\r' ∉ domain.val ++ ",A,".toList ++ answer.val := by
      simp [domain.prop.1, answer.prop.1, domain.prop.2, answer.prop.2]
    rw [starts_newRecord]
    refine replayed_serve hshared h (fun n _ => ?_) fun n _ p hp => ?_
    · rw [Node.newRecord_eq]
      cases hlinked : n.writer.linked with
      | true => exact startWrite_disk _ _
      | false => rfl
    · rw [Node.newRecord_eq] at hp
      split at hp
      · exact (relayed_startWrite hclean hp).resolve_left (by simp)
      · exact absurd hp (by simp)
  | tick ip now =>
    refine replayed_idle hshared h (f := fun n => n.raftHeart now)
      (fun n => (({ n with outbox := [] } : Node).raftHeart_frame now).2.2.2.2) fun n p hp => ?_
    rw [Node.raftHeart_outbox, List.nil_append] at hp
    split at hp
    · exact relayed_beat hp
    · split at hp
      · exact relayed_beat hp
      · exact absurd hp (by simp)
  | deliver k now =>
    rw [openStep_deliver]
    cases hp : w.net[k]? with
    | none => exact hnone.symm ▸ h
    | some p =>
      have hlose : Replayed mount w₀ us (w.lose k) := ⟨h.node, fun q hq => h.net q (mem_net_of_lose hq)⟩
      have hrelayed : Relayed p := h.net p (List.mem_of_getElem? hp)
      refine replayed_idle hshared hlose (f := fun n => n.receive p now)
        (fun n => (receive_relayed hrelayed { n with outbox := [] } now).1) fun n q hq => ?_
      exact ((receive_relayed hrelayed { n with outbox := [] } now).2 q hq).resolve_left (by simp)
  | lose k => exact hnone.symm ▸ ⟨h.node, fun q hq => h.net q (mem_net_of_lose hq)⟩

/-- **The step lemma.** -/
theorem replayed_step {mount : Mount} {w₀ w : World} (hshared : Mounted mount w₀) {us : List (Str × Str)}
    (h : Replayed mount w₀ us w) (e : OpenEvent) :
    Replayed mount w₀ (us ++ (w.commits e).toList) (w.openStep mount e) := by
  cases e with
  | inside e => exact replayed_inside hshared h e
  | line ip line =>
    refine replayed_serve hshared h (fun n _ => writeHandler_disk { n with outbox := [] } line.val) fun n _ p hp => ?_
    exact (relayed_writeHandler line.prop hp).resolve_left (by simp)

/-- Along a run the commits add up. -/
theorem replayed_run {mount : Mount} {w₀ w : World} (hshared : Mounted mount w₀) {us : List (Str × Str)}
    (h : Replayed mount w₀ us w) (es : List OpenEvent) :
    Replayed mount w₀ (us ++ w.committed mount es) (run (World.openStep mount) w es) := by
  induction es generalizing w us with
  | nil =>
    rw [World.committed, List.append_nil]
    exact h
  | cons e es ih =>
    rw [World.committed, ← List.append_assoc, run_cons]
    exact ih (replayed_step hshared h e)

/-- **What is in the record files.** Before anything is sent, let the nodes of one directory see the same files.
After any run, with any lines from outside on the write ports, the files of a directory are those it started with
and, committed one after the other, the updates its nodes started and the log entries that lines from outside made
them commit; what else was delivered, lost or repeated, and who led, makes no difference. So a node that starts
again knows of what was replicated to it no more than that. -/
theorem files_replay {mount : Mount} {w : World} (hnet : w.net = []) (hshared : Mounted mount w)
    (es : List OpenEvent) {ip : Str} {n : Node} (hn : (run (World.openStep mount) w es).node ip = some n) :
    ∃ n₀, w.node ip = some n₀ ∧
      n.disk = (updatesOn mount (mount ip) (w.committed mount es)).foldl Disk.commit n₀.disk ∧
      ∀ selfIp files heads now, (Node.main selfIp files n.disk heads now).states.records =
        loadShards ((updatesOn mount (mount ip) (w.committed mount es)).foldl Disk.commit n₀.disk) heads := by
  have hstart : Replayed mount w [] w := ⟨fun _ n hn => ⟨n, hn, rfl⟩, fun p hp => by rw [hnet] at hp; cases hp⟩
  obtain ⟨n₀, hn₀, hdisk⟩ := (replayed_run hshared hstart es).node ip n hn
  rw [List.nil_append] at hdisk
  refine ⟨n₀, hn₀, hdisk, fun selfIp files heads now => ?_⟩
  rw [← hdisk]
  rfl

omit [Unicode] in
/-- The directories of three nodes that share one. -/
def sharedMount : Mount := fun _ => "records".toList

omit [Unicode] in
/-- `10.0.0.3` takes a write, and the copy for `10.0.0.1` arrives. -/
def replicatedA : List OpenEvent := [.inside (.write "10.0.0.3".toList lineA), .inside (.deliver 0 0)]

omit [Unicode] in
/-- A line from outside makes `10.0.0.1` commit what was replicated to it. -/
def commitOne : OpenEvent := .line "10.0.0.1".toList ⟨"4;1".toList, by decide, by decide⟩

omit [Unicode] in
theorem freshTrio_disk {ip : Str} {n : Node} (h : freshTrio.node ip = some n) :
    n.disk = { file := fun _ => none, denied := fun _ => false } := by
  simp only [freshTrio] at h
  split at h
  · cases h
    rfl
  · exact absurd h (by simp)

omit [Unicode] in
theorem freshTrio_mounted (mount : Mount) : Mounted mount freshTrio :=
  fun _ _ _ _ _ hn hm => (freshTrio_disk hn).trans (freshTrio_disk hm).symm

omit [Unicode] in
/-- What a node that starts with these commits reads for `a.com`. -/
def rereadA (us : List Str) : Option Str :=
  loadShards (us.foldl (@Disk.commit Unicode.ascii) { file := fun _ => none, denied := fun _ => false }) [['a']]
    ("a.com".toList, ['A'])

omit [Unicode] in
/-- What `10.0.0.1` has for `a.com` when it starts again after a run. -/
def restartA (mount : Mount) (es : List OpenEvent) : Option (Option Str) :=
  ((run (@World.openStep Unicode.ascii mount) freshTrio es).node "10.0.0.1".toList).map fun n =>
    (Node.main "10.0.0.1".toList (trioIds.map some) n.disk [['a']] 0).states.records ("a.com".toList, ['A'])

omit [Unicode] in
/-- `10.0.0.1` has the copy in its memory, and starting again it has forgotten it; with the files of `10.0.0.3`, or
after a line of type 4, it has not. -/
theorem files_replay_replica :
    ((run (@World.openStep Unicode.ascii id) freshTrio replicatedA).node "10.0.0.1".toList).bind
      (fun n => n.states.records ("a.com".toList, ['A'])) = some "1.1.1.1".toList ∧
    restartA id replicatedA = some none ∧ restartA sharedMount replicatedA = some (some "1.1.1.1".toList) ∧
    restartA id (replicatedA ++ [commitOne]) = some (some "1.1.1.1".toList) := by
  have hrestart : ∀ (mount : Mount) (es : List OpenEvent),
      ((run (@World.openStep Unicode.ascii mount) freshTrio es).node "10.0.0.1".toList).isSome = true →
      restartA mount es = some (rereadA (updatesOn mount (mount "10.0.0.1".toList)
        (@World.committed Unicode.ascii mount freshTrio es))) := by
    intro mount es hup
    obtain ⟨n, hn⟩ := Option.isSome_iff_exists.mp hup
    obtain ⟨n₀, hn₀, -, hread⟩ := @files_replay Unicode.ascii mount _ rfl (freshTrio_mounted mount) es _ _ hn
    rw [restartA, hn, Option.map_some, hread, freshTrio_disk hn₀]
    rfl
  refine ⟨by decide, ?_, ?_, ?_⟩
  · rw [hrestart id replicatedA (by decide)]
    decide
  · rw [hrestart sharedMount replicatedA (by decide)]
    decide
  · rw [hrestart id (replicatedA ++ [commitOne]) (by decide)]
    decide

end DsDns
