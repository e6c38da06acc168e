/-
  What the handlers of a cluster do to its logs.

  `World.entries` reads the logs of all nodes as one table. A handler either leaves the table alone or
  writes one entry of it (`entries_act_same`, `entries_act_write`), and the network carries heartbeats,
  acknowledgements and copies of entries, nothing else (`Wired`). `Consistent` is what both together
  keep: the nodes agree on every number, and whatever is in flight agrees with them.
-/
import DsDns.Cluster.World
import DsDns.DataPlane.Equiv.Raft
import DsDns.DataPlane.Equiv.Writer
import DsDns.ReplicatedLog

namespace DsDns

/-! ### The steps of a world -/

theorem act_of_down {w : World} {ip : Str} (h : w.node ip = none) (f : Node → Node) :
    w.act ip f = w := by
  unfold World.act
  rw [h]

theorem act_node {w : World} {ip : Str} {n : Node} (h : w.node ip = some n) (f : Node → Node)
    (x : Str) :
    (w.act ip f).node x = if x = ip then some (f { n with outbox := [] }) else w.node x := by
  unfold World.act
  rw [h]

theorem act_net {w : World} {ip : Str} {n : Node} (h : w.node ip = some n) (f : Node → Node) :
    (w.act ip f).net = w.net ++ (f { n with outbox := [] }).outbox := by
  unfold World.act
  rw [h]

/-- A node after a turn of the node at `ip` took the turn, or the turn left it alone. -/
theorem node_after_turn {before after : Str → Option Node} {ip : Str} {m : Option Node}
    (hafter : ∀ x, after x = if x = ip then m else before x) {x : Str} {n : Node}
    (h : after x = some n) : x = ip ∧ m = some n ∨ x ≠ ip ∧ before x = some n := by
  rw [hafter] at h
  by_cases hx : x = ip
  · rw [if_pos hx] at h
    exact Or.inl ⟨hx, h⟩
  · rw [if_neg hx] at h
    exact Or.inr ⟨hx, h⟩

/-- The entry every node has logged under every number. -/
def World.entries (w : World) : Table Str Str Str :=
  fun ip num => (w.node ip).bind fun n => n.writer.logs num

@[simp] theorem entries_lose (w : World) (k : ℕ) : (w.lose k).entries = w.entries := rfl

theorem mem_net_of_lose {w : World} {k : ℕ} {p : Packet} (h : p ∈ (w.lose k).net) : p ∈ w.net :=
  List.mem_of_mem_eraseIdx h

/-- A handler that keeps the logs of its node keeps the table. -/
theorem entries_act_same {w : World} {ip : Str} {n : Node} (hn : w.node ip = some n)
    {f : Node → Node} (hf : (f { n with outbox := [] }).writer.logs = n.writer.logs) :
    (w.act ip f).entries = w.entries := by
  funext x num
  show ((w.act ip f).node x).bind _ = (w.node x).bind _
  rw [act_node hn]
  split
  · rename_i hx
    rw [hx, hn, Option.bind_some, Option.bind_some, hf]
  · rfl

/-- A handler that logs one entry writes it to the table. -/
theorem entries_act_write {w : World} {ip : Str} {n : Node} (hn : w.node ip = some n)
    {f : Node → Node} {num u : Str}
    (hf : ∀ x, (f { n with outbox := [] }).writer.logs x =
      if x = num then some u else n.writer.logs x) :
    (w.act ip f).entries = w.entries.write ip num u := by
  funext x k
  show ((w.act ip f).node x).bind _ = if x = ip ∧ k = num then some u else (w.node x).bind _
  rw [act_node hn]
  by_cases hx : x = ip
  · subst hx
    rw [if_pos rfl, Option.bind_some, hf, hn, Option.bind_some]
    by_cases hk : k = num
    · rw [if_pos hk, if_pos ⟨rfl, hk⟩]
    · rw [if_neg hk, if_neg fun h => hk h.2]
  · rw [if_neg hx, if_neg fun h => hx h.1]

/-! ### What is in flight -/

/-- An update that is the same text after it has been on the wire. -/
structure WireSafe (u : Str) : Prop where
  no_semicolon : ';' ∉ u
  no_newline : '\n' ∉ u
  no_return : '\r' ∉ u
  trimmed : rstrip u = u

/-- A message that fits the table: a heartbeat, an acknowledgement, or a copy of an entry. -/
def Wired (t : Table Str Str Str) (p : Packet) : Prop :=
  p.port = 7001 ∨ p.port = 9000 ∧
    ((∃ k : ℤ, p.text = Node.ackText (intStr k)) ∨
      ∃ (k : ℤ) (j u : Str), p.text = Node.replicaText (intStr k) u ∧ WireSafe u ∧
        t j (intStr k) = some u)

theorem Wired.mono {s t : Table Str Str Str} (h : Table.Extends s t) {p : Packet} (hp : Wired s p) :
    Wired t p := by
  rcases hp with hp | ⟨hport, hack | ⟨k, j, u, htext, hsafe, hj⟩⟩
  · exact Or.inl hp
  · exact Or.inr ⟨hport, Or.inl hack⟩
  · exact Or.inr ⟨hport, Or.inr ⟨k, j, u, htext, hsafe, h hj⟩⟩

/-- The nodes agree on every number, and what is in flight agrees with them. -/
structure Consistent (w : World) : Prop where
  agree : w.entries.Agree
  wired : ∀ p ∈ w.net, Wired w.entries p

theorem consistent_lose {w : World} (h : Consistent w) (k : ℕ) : Consistent (w.lose k) :=
  ⟨h.agree, fun p hp => h.wired p (mem_net_of_lose hp)⟩

/-- A cluster whose nodes have logged nothing, before anything was sent. -/
structure Unlogged (w : World) : Prop where
  logs : ∀ ip n, w.node ip = some n → ∀ k, n.writer.logs k = none
  net : w.net = []

theorem entries_of_unlogged {w : World} (h : Unlogged w) (ip k : Str) : w.entries ip k = none := by
  show (w.node ip).bind _ = none
  cases hn : w.node ip with
  | none => rfl
  | some n => exact h.logs ip n hn k

theorem consistent_of_unlogged {w : World} (h : Unlogged w) : Consistent w := by
  refine ⟨fun i j k u v hu => ?_, fun p hp => ?_⟩
  · rw [entries_of_unlogged h] at hu
    exact absurd hu (by simp)
  · rw [h.net] at hp
    exact absurd hp (by simp)

/-- A handler that keeps the logs and sends no copies. -/
theorem consistent_act_same {w : World} (h : Consistent w) {ip : Str} {n : Node}
    (hn : w.node ip = some n) {f : Node → Node}
    (hf : (f { n with outbox := [] }).writer.logs = n.writer.logs)
    (hout : ∀ p ∈ (f { n with outbox := [] }).outbox, Wired w.entries p) :
    Consistent (w.act ip f) := by
  refine ⟨by rw [entries_act_same hn hf]; exact h.agree, fun p hp => ?_⟩
  rw [act_net hn] at hp
  rw [entries_act_same hn hf]
  exact (List.mem_append.mp hp).elim (h.wired p) (hout p)

/-- A handler that logs an entry which fits, and sends copies of it. -/
theorem consistent_act_write {w : World} (h : Consistent w) {ip : Str} {n : Node}
    (hn : w.node ip = some n) {f : Node → Node} {num u : Str}
    (hf : ∀ x, (f { n with outbox := [] }).writer.logs x =
      if x = num then some u else n.writer.logs x)
    (hfit : w.entries.Fits num u)
    (hout : ∀ p ∈ (f { n with outbox := [] }).outbox, Wired (w.entries.write ip num u) p) :
    Consistent (w.act ip f) ∧ w.entries.Extends (w.act ip f).entries := by
  have hext := Table.extends_write (i := ip) hfit
  rw [entries_act_write hn hf]
  refine ⟨⟨by rw [entries_act_write hn hf]; exact h.agree.write hfit, fun p hp => ?_⟩, hext⟩
  rw [act_net hn] at hp
  rw [entries_act_write hn hf]
  exact (List.mem_append.mp hp).elim (fun hp => (h.wired p hp).mono hext) (hout p)

variable [Unicode]

/-! ### The handlers -/

omit [Unicode] in
theorem parseWrite_typeOne (line : Str) :
    Node.parseWrite ('1' :: ';' :: line) = .start (lineUpdate line) := by
  unfold Node.parseWrite lineUpdate
  rw [Node.split_typed (by decide) (by decide)]
  cases hs : split ';' (rstrip line) with
  | nil => exact absurd hs (split_ne_nil _ _)
  | cons u us => rfl

/-- Starting a write logs it under the next number and sends copies of it. -/
theorem startWrite_logs (n : Node) (u x : Str) : (n.startWrite u).1.writer.logs x =
    if x = n.nextNum then some u else n.writer.logs x := by
  rw [Node.startWrite_eq, Node.commitHandler_writer, Node.announce_logs]

/-- A write by the node `m`, which is the node `n` of the world as far as its logs and its log number
go, keeps the world consistent if the number is free or already has this update. -/
theorem consistent_startWrite {w : World} (h : Consistent w) {ip : Str} {n m : Node}
    (hn : w.node ip = some n) {f : Node → Node} {u : Str}
    (hf : f { n with outbox := [] } = (m.startWrite u).1) (hlogs : m.writer.logs = n.writer.logs)
    (hraft : m.raft = n.raft) (hout : m.outbox = []) (hsafe : WireSafe u)
    (hfit : w.entries.Fits n.nextNum u) :
    Consistent (w.act ip f) ∧ w.entries.Extends (w.act ip f).entries := by
  have hnum : m.nextNum = n.nextNum := by rw [Node.nextNum, hraft, Node.nextNum]
  have hwrite : ∀ x, (f { n with outbox := [] }).writer.logs x =
      if x = n.nextNum then some u else n.writer.logs x := by
    intro x
    rw [hf, startWrite_logs, hnum, hlogs]
  refine consistent_act_write h hn hwrite hfit fun p hp => ?_
  rw [hf, Node.startWrite_eq, Node.commitHandler_outbox, Node.announce_outbox, hout,
    List.nil_append] at hp
  -- What is sent are copies of the entry just written.
  obtain ⟨dst, -, rfl⟩ := List.mem_map.mp hp
  exact Or.inr ⟨rfl, Or.inr ⟨n.raft.currLogNum + 1, ip, u, by rw [hnum]; rfl, hsafe,
    Table.write_self⟩⟩

omit [Unicode] in
/-- A tick logs nothing and sends heartbeats only. -/
theorem consistent_tick {w : World} (h : Consistent w) (ip : Str) (now : Time) :
    Consistent (w.act ip fun n => n.raftHeart now) ∧
      w.entries.Extends (w.act ip fun n => n.raftHeart now).entries := by
  cases hn : w.node ip with
  | none =>
    rw [act_of_down hn]
    exact ⟨h, Table.Extends.refl _⟩
  | some n =>
    obtain ⟨-, -, -, hwriter, -⟩ := ({ n with outbox := [] } : Node).raftHeart_frame now
    have hlogs : (({ n with outbox := [] } : Node).raftHeart now).writer.logs = n.writer.logs :=
      congrArg Writer.logs hwriter
    -- Heartbeats fit any table.
    have hbeats : ∀ (s : States), ∀ p ∈ Node.beats s, Wired w.entries p := by
      intro s p hp
      obtain ⟨e, -, rfl⟩ := List.mem_map.mp hp
      exact Or.inl rfl
    refine ⟨consistent_act_same h hn hlogs fun p hp => ?_, ?_⟩
    · rw [Node.raftHeart_outbox, List.nil_append] at hp
      split at hp
      · exact hbeats _ p hp
      · split at hp
        · exact hbeats _ p hp
        · exact absurd hp (by simp)
    · rw [entries_act_same hn hlogs]
      exact Table.Extends.refl _

/-- **What a delivered message does**, if it fits the table: it logs the entry it is a copy of and may
send an acknowledgement, or it logs and sends nothing. -/
theorem receive_cases {t : Table Str Str Str} {p : Packet} (h : Wired t p) (n : Node) (now : Time) :
    (n.receive p now).raft.currLogNum = n.raft.currLogNum ∧
    (((n.receive p now).writer.logs = n.writer.logs ∧ (n.receive p now).outbox = n.outbox ∧
        (p.port = 7001 ∨ ∃ j : ℤ, p.text = Node.ackText (intStr j))) ∨
      ∃ (j : ℤ) (i u : Str), p.text = Node.replicaText (intStr j) u ∧ WireSafe u ∧
        t i (intStr j) = some u ∧
        (∀ x, (n.receive p now).writer.logs x =
          if x = intStr j then some u else n.writer.logs x) ∧
        ∀ q ∈ (n.receive p now).outbox, q ∈ n.outbox ∨
          q.port = 9000 ∧ q.text = Node.ackText (intStr j)) := by
  rcases h with hport | ⟨hport, ⟨j, htext⟩ | ⟨j, i, u, htext, hsafe, hentry⟩⟩
  · -- A heartbeat.
    have hrun : n.receive p now = n.handleSync p.text now := by
      unfold Node.receive
      rw [if_neg (by rw [hport]; decide), if_pos hport]
    obtain ⟨hwriter, hout, hnum, -⟩ := n.handleSync_frame p.text now
    rw [hrun, hwriter]
    exact ⟨hnum, Or.inl ⟨rfl, hout, Or.inl hport⟩⟩
  · -- An acknowledgement.
    have hrun : n.receive p now = n.link.ackHandler (intStr j) := by
      unfold Node.receive
      rw [if_pos hport, htext, Node.handleWrite_ackText]
    rw [hrun]
    exact ⟨rfl, Or.inl ⟨rfl, rfl, Or.inr ⟨j, htext⟩⟩⟩
  · -- A copy of an entry of the table.
    have hclean : ∀ c : Char, c.isDigit = false → c ≠ '-' → c ∉ intStr j := fun c hd hm =>
      not_mem_intStr hd hm j
    have hrun : n.receive p now = n.link.replicate (intStr j) u := by
      unfold Node.receive
      rw [if_pos hport, htext, Node.handleWrite_replicaText _
        (hclean ';' (by decide) (by decide)) hsafe.no_semicolon
        ⟨hclean '\n' (by decide) (by decide), hsafe.no_newline⟩
        ⟨hclean '\r' (by decide) (by decide), hsafe.no_return⟩, hsafe.trimmed]
    rw [hrun]
    refine ⟨by rw [Node.replicate_raft]; rfl, Or.inr ⟨j, i, u, htext, hsafe, hentry, ?_, ?_⟩⟩
    · intro x
      rw [Node.replicate_logs]
      rfl
    · intro q hq
      rw [Node.replicate_outbox] at hq
      rcases List.mem_append.mp hq with hq | hq
      · exact Or.inl hq
      · right
        cases hlead : n.link.raft.leader with
        | true =>
          rw [hlead] at hq
          exact absurd hq (by simp)
        | false =>
          rw [hlead] at hq
          obtain rfl := List.mem_singleton.mp hq
          exact ⟨rfl, rfl⟩

/-- **Delivery**: a message that fits the table adds at most the entry it is a copy of. -/
theorem consistent_deliver {w : World} (h : Consistent w) (k : ℕ) (now : Time) :
    Consistent (w.deliver k now) ∧ w.entries.Extends (w.deliver k now).entries := by
  unfold World.deliver
  cases hp : w.net[k]? with
  | none => exact ⟨h, Table.Extends.refl _⟩
  | some p =>
    have hwired : Wired (w.lose k).entries p := h.wired p (List.mem_of_getElem? hp)
    have hlose := consistent_lose h k
    cases hn : (w.lose k).node p.dst with
    | none =>
      simp only
      rw [act_of_down hn]
      exact ⟨hlose, Table.Extends.refl _⟩
    | some n =>
      simp only
      obtain ⟨-, ⟨hlogs, hout, -⟩ | ⟨j, i, u, -, hsafe, hentry, hwrite, hout⟩⟩ :=
        receive_cases hwired { n with outbox := [] } now
      · rw [entries_act_same hn hlogs]
        refine ⟨consistent_act_same hlose hn hlogs fun q hq => ?_, Table.Extends.refl _⟩
        rw [hout] at hq
        exact absurd hq (by simp)
      · refine consistent_act_write hlose hn hwrite (fun x v hv => hlose.agree hv hentry)
          fun q hq => ?_
        rcases hout q hq with hq | ⟨hport, htext⟩
        · exact absurd hq (by simp)
        · exact Or.inr ⟨hport, Or.inl ⟨j, htext⟩⟩

omit [Unicode] in
/-- A line with the address of `a.com`. -/
def lineA : Line := ⟨"a.com,A,1.1.1.1".toList, by decide, by decide⟩

end DsDns
