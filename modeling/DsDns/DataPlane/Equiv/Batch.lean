/-
  The refresh pass reaches a fixpoint.

  Every message of a pass is a row with the present address of its domain (`refreshLine_eq_some_iff`). The leader
  writes it by `upsert`, after which no line of the domain is stale (`stale_of_handle`). So every stale line that
  is left waits for a message in flight or for a line that the scan has still to read (`Refreshing`), in
  whatever order the lines are read and the messages handled (`refresh_reaches_fixpoint`).
-/
import DsDns.DataPlane.Batch
import DsDns.DataPlane.Equiv.Beat
import DsDns.DataPlane.Equiv.CommitOrder
import DsDns.DataPlane.Equiv.Replication
import DsDns.ListFacts

namespace DsDns

variable {R : Str → Option Str}

/-! ### What a pass sends -/

/-- The messages for the lines of a record file. -/
def refreshed (R : Str → Option Str) (file : Option Str) : List Str := (fileLines file).filterMap (refreshLine R)

namespace Node

theorem foldl_processLine (lines : List Str) (n : Node) :
    lines.foldl (processLine R) n =
      { n with outbox := n.outbox ++
          (lines.filterMap (refreshLine R)).map fun msg => ⟨n.states.leaderIp, 9000, msg⟩ } := by
  induction lines generalizing n with
  | nil => simp
  | cons line lines ih =>
    rw [List.foldl_cons, ih, processLine]
    cases hline : refreshLine R line with
    | none => rw [List.filterMap_cons_none hline]
    | some msg =>
      simp only [sendRaw, List.filterMap_cons_some hline, List.map_cons, List.append_assoc, List.singleton_append]

/-- The pass over one record file. -/
theorem processShard_eq (n : Node) (shard : Str) :
    n.processShard R shard =
      { n with outbox := n.outbox ++
          (refreshed R (n.disk.file shard)).map fun msg => ⟨n.states.leaderIp, 9000, msg⟩ } := by
  unfold processShard refreshed
  cases n.disk.file shard with
  | none => simp [fileLines]
  | some text => exact foldl_processLine (readLines text) n

/-- The pass over several of them. -/
theorem run_processShard_outbox (heads : List Str) (n : Node) :
    (run (processShard R) n heads).outbox = n.outbox ++
      (heads.flatMap fun shard => refreshed R (n.disk.file shard)).map fun msg =>
        ⟨n.states.leaderIp, 9000, msg⟩ := by
  induction heads generalizing n with
  | nil => simp
  | cons head heads ih =>
    rw [run_cons, ih, processShard_eq, List.flatMap_cons, List.map_append, List.append_assoc]

end Node

/-- The message that carries an update. -/
def typeOneText (u : Str) : Str := '1' :: ';' :: (u ++ ['\n'])

theorem typeOneText_injective : Function.Injective typeOneText := by
  intro u u' h
  exact List.append_cancel_right (List.cons.inj (List.cons.inj h).2).2

/-- **A pass sends a record whose address has changed, with the new address.** -/
theorem refreshLine_eq_some_iff {line msg : Str} : refreshLine R line = some msg ↔
    ∃ d t ip v, startsWith (strip line) ['#'] = false ∧ split ',' (strip line) = [d, t, ip] ∧ R d = some v ∧
      v ≠ ip ∧ msg = typeOneText (row d t v) := by
  have htext : ∀ d t v : Str,
      '1' :: ';' :: (d ++ ',' :: (t ++ ',' :: (v ++ ['\n']))) = typeOneText (row d t v) := by
    simp [typeOneText, row]
  constructor
  · intro h
    rw [refreshLine] at h
    split at h
    · exact absurd h (by simp)
    rename_i hcomment
    obtain ⟨-, hcomment⟩ := not_or.mp hcomment
    split at h
    · rename_i d t ip hsplit
      split at h
      · exact absurd h (by simp)
      rename_i v hv
      split at h
      · rename_i hne
        exact ⟨d, t, ip, v, Bool.eq_false_iff.mpr hcomment, hsplit, hv, hne,
          by rw [← htext, Option.some.inj h]⟩
      · exact absurd h (by simp)
    · exact absurd h (by simp)
  · rintro ⟨d, t, ip, v, hcomment, hsplit, hv, hne, rfl⟩
    have hblank : strip line ≠ [] := by
      intro he
      rw [he] at hsplit
      exact absurd hsplit (by simp [split])
    rw [refreshLine, if_neg (not_or.mpr ⟨hblank, by simp [hcomment]⟩)]
    simp only [hsplit, hv]
    rw [if_pos hne, htext]

/-- The rewritten line of an update has the present address. -/
theorem refreshLine_row {d t v : Str} (hv : R d = some v) (hsplit : split ',' (row d t v) = [d, t, v])
    (hstrip : strip (row d t v) = row d t v) : refreshLine R (row d t v ++ ['\n']) = none := by
  rw [Option.eq_none_iff_forall_ne_some]
  intro msg hmsg
  obtain ⟨d', t', ip, v', -, hsplit', hv', hne, -⟩ := refreshLine_eq_some_iff.mp hmsg
  rw [strip_append_newline, hstrip, hsplit] at hsplit'
  cases hsplit'
  exact hne (Option.some.inj (hv'.symm.trans hv))

theorem not_mem_strip_fileLine {file : Option Str} {line : Str} (h : line ∈ fileLines file) :
    '\n' ∉ strip line ∧ '\r' ∉ strip line := by
  cases file with
  | none => exact absurd h List.not_mem_nil
  | some text => exact not_mem_strip_line h

theorem isField_of_ipv4 {v : Str} (h : (ipv4 v).isSome) : IsField v where
  ne_nil := ne_nil_of_ipv4 h
  trimmed := strip_of_no_space fun _ hc => isSpace_of_mem_ipv4 h hc
  no_comma := not_mem_of_ipv4 h (by decide) (by decide)
  no_newline := not_mem_of_ipv4 h (by decide) (by decide)
  no_return := not_mem_of_ipv4 h (by decide) (by decide)

/-- A record does not start with a blank, so with another value it is trimmed and split as it was. -/
theorem row_of_split {line cs t ip v : Str} {c : Char} (hsplit : split ',' (strip line) = [c :: cs, t, ip])
    (hv : IsField v) :
    strip (c :: cs) = c :: rstrip cs ∧ strip (row (c :: cs) t v) = row (c :: cs) t v ∧
      split ',' (row (c :: cs) t v) = [c :: cs, t, v] := by
  have hspace : isSpace c = false := by
    have hjoin := intercalate_split ',' (strip line)
    rw [hsplit] at hjoin
    exact not_space_of_strip_eq_cons (s := line) hjoin.symm
  have hd : ',' ∉ c :: cs := sep_not_mem_of_mem_split (s := strip line) (by rw [hsplit]; simp)
  have ht : ',' ∉ t := sep_not_mem_of_mem_split (s := strip line) (by rw [hsplit]; simp)
  refine ⟨strip_cons_of_not_space hspace cs, ?_, split_row_of hd ht hv.no_comma⟩
  rw [strip, row, List.cons_append, lstrip_cons_of_not_space hspace]
  exact rstrip_row_of hv.rstrip_eq hv.ne_nil [] (c :: cs) t

variable [Unicode]

/-- An update that a pass sends for the record file of `shard`. -/
structure IsRefresh (R : Str → Option Str) (shard u : Str) : Prop where
  target : ∃ c key v, commitTarget u = some (c, key, v) ∧ key.1 = lineDomain (u ++ ['\n']) ∧ lower [c] = shard
  fresh : refreshLine R (u ++ ['\n']) = none
  no_newline : '\n' ∉ u
  no_return : '\r' ∉ u

/-- The message makes the leader renew the lines of the domain `d` in the record file `shard`. -/
def Renews (R : Str → Option Str) (shard msg d : Str) : Prop :=
  ∃ u, Node.parseWrite (strip msg) = .start u ∧ IsRefresh R shard u ∧ lineDomain (u ++ ['\n']) = d

/-- The message starts an update that no commit takes. -/
def Idle (msg : Str) : Prop := ∃ u, Node.parseWrite (strip msg) = .start u ∧ commitTarget u = none

omit [Unicode] in
/-- The leader reads the update up to a semicolon. -/
theorem parseWrite_typeOneText {u : Str} (hu : rstrip u = u) :
    Node.parseWrite (strip (typeOneText u)) = .start ((split ';' u).headD []) := by
  unfold Node.parseWrite typeOneText
  rw [strip_strip, Node.split_typed (by decide) (by decide), rstrip_append_newline, hu]
  cases hsplit : split ';' u with
  | nil => exact absurd hsplit (split_ne_nil ';' u)
  | cons f fs => rfl

/-- **The message for a record of the file** renews the lines of its domain. -/
theorem renews_of_record (hR : ∀ d v, R d = some v → (ipv4 v).isSome) {shard line msg : Str}
    (hn : '\n' ∉ strip line) (hr : '\r' ∉ strip line) (hmsg : refreshLine R line = some msg)
    (hrecord : ∀ d t ip, split ',' (strip line) = [d, t, ip] → shardOf d = some shard ∧ ';' ∉ d ∧ ';' ∉ t) :
    Renews R shard msg (lineDomain line) := by
  obtain ⟨d, t, ip, v, -, hsplit, hv, -, rfl⟩ := refreshLine_eq_some_iff.mp hmsg
  obtain ⟨hshard, hsemid, hsemit⟩ := hrecord d t ip hsplit
  have haddress := hR d v hv
  have hvalue := isField_of_ipv4 haddress
  have hd : ∀ c ∈ d, c ∈ strip line := fun c => mem_of_mem_split (by rw [hsplit]; simp)
  have ht : ∀ c ∈ t, c ∈ strip line := fun c => mem_of_mem_split (by rw [hsplit]; simp)
  obtain ⟨c, cs, rfl, hlower⟩ : ∃ c cs, d = c :: cs ∧ lower [c] = shard := by
    cases d with
    | nil => exact absurd hshard (by simp [shardOf])
    | cons c cs => exact ⟨c, cs, rfl, Option.some.inj hshard⟩
  obtain ⟨hdomain, hstrip, hrow⟩ := row_of_split hsplit hvalue
  have hrstrip : rstrip (row (c :: cs) t v) = row (c :: cs) t v :=
    rstrip_row_of hvalue.rstrip_eq hvalue.ne_nil [] (c :: cs) t
  have hline' : lineDomain (row (c :: cs) t v ++ ['\n']) = c :: rstrip cs := by
    rw [lineDomain, strip_append_newline, hstrip, hrow, ← hdomain]
    rfl
  have hsemi : ';' ∉ row (c :: cs) t v :=
    not_mem_row (by decide) hsemid hsemit (not_mem_of_ipv4 haddress (by decide) (by decide))
  refine ⟨row (c :: cs) t v, ?_, ⟨?_, refreshLine_row hv hrow hstrip, ?_, ?_⟩, ?_⟩
  · rw [parseWrite_typeOneText hrstrip, split_of_not_mem hsemi]
    rfl
  · refine ⟨c, (c :: rstrip cs, strip t), strip v, ?_, hline'.symm, hlower⟩
    rw [commitTarget, hstrip, hrow]
    simp only [hdomain]
  · exact not_mem_row (by decide) (mt (hd _) hn) (mt (ht _) hn) hvalue.no_newline
  · exact not_mem_row (by decide) (mt (hd _) hr) (mt (ht _) hr) hvalue.no_return
  · rw [hline', lineDomain, hsplit, ← hdomain]
    rfl

omit [Unicode] in
/-- A part of a row in front of a semicolon that stands in its domain or type has too few fields. -/
theorem idle_of_semicolon {d t v : Str} (hd : ',' ∉ d) (ht : ',' ∉ t) (hsemi : ';' ∉ v)
    {u : Str} {fs : List Str} (hsplit : split ';' (row d t v) = u :: fs) (hmem : ';' ∈ row d t v) :
    commitTarget u = none := by
  rw [Option.eq_none_iff_forall_ne_some]
  intro p htarget
  have hcount : 2 ≤ u.count ',' := two_le_count_of_commitTarget htarget
  obtain ⟨rest, hrow⟩ : ∃ rest, u ++ ';' :: rest = (d ++ ',' :: (t ++ [','])) ++ v := by
    have hjoin := intercalate_split ';' (row d t v)
    rw [hsplit] at hjoin
    cases fs with
    | nil =>
      rw [List.intercalate_singleton] at hjoin
      exact absurd (hjoin ▸ hmem) (sep_not_mem_of_mem_split (by rw [hsplit]; exact List.mem_cons_self))
    | cons f fs =>
      rw [List.intercalate_cons_cons] at hjoin
      exact ⟨_, by simpa [row] using hjoin⟩
  -- The second comma stands in front of the value, which has no semicolon.
  rcases List.append_eq_append_iff.mp hrow with ⟨a, hfields, hrest⟩ | ⟨a, -, hvalue⟩
  · have hnone : ',' ∉ a := by
      have htotal := congrArg (List.count ',') hfields
      simp [List.count_eq_zero_of_not_mem hd, List.count_eq_zero_of_not_mem ht] at htotal
      rw [← List.count_eq_zero]
      omega
    cases a using List.reverseRecOn with
    | nil => exact hsemi (by rw [← List.nil_append v, ← hrest]; exact List.mem_cons_self)
    | append_singleton a x =>
      have hends : d ++ ',' :: t ++ [','] = u ++ a ++ [x] := by simpa using hfields
      have hlast := congrArg List.getLast? hends
      rw [List.getLast?_concat, List.getLast?_concat] at hlast
      exact hnone (by rw [Option.some.inj hlast]; simp)
  · exact hsemi (by rw [hvalue]; simp)

/-- Whatever the scan reads, its message renews the lines of one domain in one file, or is idle. -/
theorem renews_or_idle (hR : ∀ d v, R d = some v → (ipv4 v).isSome) (text : Line) {msg : Str}
    (hmsg : refreshLine R text.val = some msg) :
    (∃ shard, Renews R shard msg (lineDomain text.val)) ∨ Idle msg := by
  obtain ⟨d, t, ip, v, -, hsplit, hv, -, rfl⟩ := refreshLine_eq_some_iff.mp hmsg
  have hvalue := isField_of_ipv4 (hR d v hv)
  have hsemiv : ';' ∉ v := not_mem_of_ipv4 (hR d v hv) (by decide) (by decide)
  have hd : ',' ∉ d := sep_not_mem_of_mem_split (s := strip text.val) (by rw [hsplit]; simp)
  have ht : ',' ∉ t := sep_not_mem_of_mem_split (s := strip text.val) (by rw [hsplit]; simp)
  have hrstrip : rstrip (row d t v) = row d t v := rstrip_row_of hvalue.rstrip_eq hvalue.ne_nil [] d t
  by_cases hmem : ';' ∈ row d t v
  · right
    cases hparts : split ';' (row d t v) with
    | nil => exact absurd hparts (split_ne_nil ';' _)
    | cons u fs =>
      refine ⟨u, ?_, idle_of_semicolon hd ht hsemiv hparts hmem⟩
      rw [parseWrite_typeOneText hrstrip, hparts]
      rfl
  · cases d with
    | nil =>
      right
      refine ⟨row [] t v, by rw [parseWrite_typeOneText hrstrip, split_of_not_mem hmem]; rfl, ?_⟩
      have hstrip : strip (row [] t v) = row [] t v := by
        rw [strip, row, List.nil_append, lstrip_cons_of_not_space (by decide)]
        exact hrstrip
      rw [commitTarget, hstrip, split_row_of hd ht hvalue.no_comma]
      rfl
    | cons c cs =>
      left
      refine ⟨lower [c], renews_of_record hR (fun h => text.property.1 (mem_of_mem_strip h))
        (fun h => text.property.2 (mem_of_mem_strip h)) hmsg fun d' t' ip' hsplit' => ?_⟩
      rw [hsplit] at hsplit'
      cases hsplit'
      exact ⟨rfl, fun h => hmem (List.mem_append_left _ h),
        fun h => hmem (List.mem_append_right _ (List.mem_cons_of_mem _ (List.mem_append_left _ h)))⟩

/-! ### What the leader does with it -/

theorem IsRefresh.shard_eq {shard shard' u : Str} (h : IsRefresh R shard u) (h' : IsRefresh R shard' u) :
    shard = shard' := by
  obtain ⟨c, key, v, htarget, -, rfl⟩ := h.target
  obtain ⟨c', key', v', htarget', -, rfl⟩ := h'.target
  rw [htarget] at htarget'
  cases htarget'
  rfl

/-- A message renews one domain in one file, which is the file of that domain. -/
theorem Renews.unique {shard shard' msg d d' : Str} (h : Renews R shard msg d) (h' : Renews R shard' msg d') :
    shard = shard' ∧ d = d' := by
  obtain ⟨u, hparse, hu, rfl⟩ := h
  obtain ⟨u', hparse', hu', rfl⟩ := h'
  rw [hparse] at hparse'
  cases hparse'
  exact ⟨hu.shard_eq hu', rfl⟩

theorem not_renews_of_idle {shard msg d : Str} (h : Idle msg) : ¬ Renews R shard msg d := by
  obtain ⟨u, hparse, hnone⟩ := h
  rintro ⟨u', hparse', hu', -⟩
  rw [hparse] at hparse'
  cases hparse'
  obtain ⟨c, key, v, htarget, -⟩ := hu'.target
  rw [hnone] at htarget
  cases htarget

/-- What the message of a pass may do to the file: the domain of its update is there, or every line of the file
is terminated. -/
def Fits (R : Str → Option Str) (shard : Str) (disk : Disk) (msg : Str) : Prop :=
  ∀ d, Renews R shard msg d →
    Matched (fileLines (disk.file shard)) d ∨ ∀ l ∈ fileLines (disk.file shard), Terminated l

/-- **The leader handles a message**: it renews the lines of one domain, or the file stays as it is. -/
theorem fileLines_handle {n : Node} {shard msg : Str} (hopen : n.disk.canOpen shard = true)
    (hkind : (∃ shard d, Renews R shard msg d) ∨ Idle msg) (hfits : Fits R shard n.disk msg) :
    (∃ u, Node.parseWrite (strip msg) = .start u ∧ IsRefresh R shard u ∧
      fileLines ((n.writeHandlerWith none (strip msg)).1.disk.file shard) =
        upsert lineDomain (u ++ ['\n']) (fileLines (n.disk.file shard))) ∨
    (∀ d, ¬ Renews R shard msg d) ∧
      (n.writeHandlerWith none (strip msg)).1.disk.file shard = n.disk.file shard := by
  rw [Node.writeHandlerWith_eq]
  rcases hkind with ⟨shard', d, u, hparse, hu, hd⟩ | ⟨u, hparse, hnone⟩
  · rw [hparse]
    obtain ⟨c, key, v, htarget, hkey, rfl⟩ := hu.target
    have hfile := startWrite_file n.link u shard
    simp only [htarget] at hfile
    by_cases hs : shard = lower [c]
    · subst hs
      left
      refine ⟨u, rfl, hu, ?_⟩
      rw [if_pos ⟨hopen, rfl⟩] at hfile
      show fileLines ((n.link.startWrite u).1.disk.file (lower [c])) = _
      rw [hfile]
      exact fileLines_commitFile hkey.symm hu.no_newline hu.no_return
        (hkey ▸ hfits _ ⟨u, hparse, hu, rfl⟩)
    · right
      rw [if_neg fun hboth => hs hboth.2] at hfile
      exact ⟨fun d' hrenews => hs (hrenews.unique ⟨u, hparse, hu, hd⟩).1, hfile⟩
  · right
    constructor
    · exact fun d => not_renews_of_idle ⟨u, hparse, hnone⟩
    · rw [hparse]
      have hfile := startWrite_file n.link u shard
      simp only [hnone] at hfile
      exact hfile

/-- A line that is stale after the leader has handled a message was so before, and the message was not for its
domain. -/
theorem stale_of_handle {n : Node} {shard msg : Str} (hopen : n.disk.canOpen shard = true)
    (hkind : (∃ shard d, Renews R shard msg d) ∨ Idle msg) (hfits : Fits R shard n.disk msg) {line : Str}
    (hline : line ∈ fileLines ((n.writeHandlerWith none (strip msg)).1.disk.file shard))
    (hstale : (refreshLine R line).isSome) :
    line ∈ fileLines (n.disk.file shard) ∧ ¬ Renews R shard msg (lineDomain line) := by
  rcases fileLines_handle hopen hkind hfits with ⟨u, hparse, hu, hlines⟩ | ⟨hnone, hfile⟩
  · rw [hlines] at hline
    rcases eq_or_mem_of_mem_upsert hline with rfl | ⟨hold, hkey⟩
    · rw [hu.fresh] at hstale
      cases hstale
    · refine ⟨hold, ?_⟩
      rintro ⟨u', hparse', -, hkey'⟩
      rw [hparse] at hparse'
      cases hparse'
      exact hkey hkey'.symm
  · rw [hfile] at hline
    exact ⟨hline, hnone _⟩

/-- The other messages still fit. -/
theorem Fits.handle {n : Node} {shard msg msg' : Str} (h : Fits R shard n.disk msg')
    (hopen : n.disk.canOpen shard = true) (hkind : (∃ shard d, Renews R shard msg d) ∨ Idle msg)
    (hfits : Fits R shard n.disk msg) : Fits R shard (n.writeHandlerWith none (strip msg)).1.disk msg' := by
  intro d hd
  rcases fileLines_handle hopen hkind hfits with ⟨u, -, hu, hlines⟩ | ⟨-, hfile⟩
  · rw [hlines]
    rcases h d hd with hmatched | hterminated
    · left
      rw [matched_iff] at hmatched ⊢
      exact mem_map_key_upsert.mpr (Or.inr hmatched)
    · exact Or.inr (terminated_upsert hu.no_newline hterminated)
  · rw [hfile]
    exact h d hd

/-! ### The pass and the leader -/

/-- What holds of the record file `shard` during a pass, with the events `es` still to come: a stale line waits for
a message for its domain, or for a line that makes the scan send one. -/
structure Refreshing (R : Str → Option Str) (shard : Str) (s : Refresh) (es : List RefreshEvent) : Prop where
  canOpen : s.leader.disk.canOpen shard = true
  sent : ∀ p ∈ s.inFlight, ((∃ shard d, Renews R shard p.text d) ∨ Idle p.text) ∧
    Fits R shard s.leader.disk p.text
  next : ∀ text msg, .line text ∈ es → refreshLine R text.val = some msg → Fits R shard s.leader.disk msg
  due : ∀ line ∈ fileLines (s.leader.disk.file shard), (refreshLine R line).isSome →
    (∃ p ∈ s.inFlight, Renews R shard p.text (lineDomain line)) ∨
      ∃ text msg, .line text ∈ es ∧ refreshLine R text.val = some msg ∧ Renews R shard msg (lineDomain line)

theorem Refresh.step_line (s : Refresh) (text : Line) : s.step R (.line text) =
    { s with inFlight := s.inFlight ++
        (refreshLine R text.val).toList.map fun msg => ⟨s.node.states.leaderIp, 9000, msg⟩ } := by
  show ({ s with inFlight := s.inFlight ++ (Node.processLine R _ text.val).outbox } : Refresh) = _
  rw [Node.processLine]
  cases refreshLine R text.val <;> rfl

theorem Refresh.mem_inFlight_line {s : Refresh} {text : Line} {p : Packet} :
    p ∈ (s.step R (.line text)).inFlight ↔
      p ∈ s.inFlight ∨ ∃ msg, refreshLine R text.val = some msg ∧ p = ⟨s.node.states.leaderIp, 9000, msg⟩ := by
  rw [Refresh.step_line, List.mem_append, List.mem_map]
  simp only [Option.mem_toList, eq_comm]

/-- The scan reads a line. -/
theorem Refreshing.line (hR : ∀ d v, R d = some v → (ipv4 v).isSome) {shard : Str} {s : Refresh} {text : Line}
    {es : List RefreshEvent} (h : Refreshing R shard s (.line text :: es)) :
    Refreshing R shard (s.step R (.line text)) es where
  canOpen := h.canOpen
  sent p hp := by
    rcases Refresh.mem_inFlight_line.mp hp with hp | ⟨msg, hmsg, rfl⟩
    · exact h.sent p hp
    · refine ⟨?_, h.next text msg List.mem_cons_self hmsg⟩
      rcases renews_or_idle hR text hmsg with ⟨shard', hrenews⟩ | hidle
      · exact Or.inl ⟨shard', _, hrenews⟩
      · exact Or.inr hidle
  next text' msg htext := h.next text' msg (List.mem_cons_of_mem _ htext)
  due line hline hstale := by
    rcases h.due line hline hstale with ⟨p, hp, hrenews⟩ | ⟨text', msg, htext, hmsg, hrenews⟩
    · exact Or.inl ⟨p, Refresh.mem_inFlight_line.mpr (Or.inl hp), hrenews⟩
    · rcases List.mem_cons.mp htext with heq | htext
      · cases heq
        exact Or.inl ⟨_, Refresh.mem_inFlight_line.mpr (Or.inr ⟨msg, hmsg, rfl⟩), hrenews⟩
      · exact Or.inr ⟨text', msg, htext, hmsg, hrenews⟩

/-- The leader handles a message, and its write goes through. -/
theorem Refreshing.handle {shard : Str} {s : Refresh} {k : ℕ} {es : List RefreshEvent}
    (h : Refreshing R shard s (.handle k none :: es)) : Refreshing R shard (s.step R (.handle k none)) es := by
  unfold Refresh.step
  cases hk : s.inFlight[k]? with
  | none =>
    simp only [hk]
    refine ⟨h.canOpen, h.sent, fun text msg htext => h.next text msg (List.mem_cons_of_mem _ htext), ?_⟩
    intro line hline hstale
    rcases h.due line hline hstale with hp | ⟨text, msg, htext, hrest⟩
    · exact Or.inl hp
    · exact Or.inr ⟨text, msg, (List.mem_cons.mp htext).resolve_left (by simp), hrest⟩
  | some p =>
    simp only [hk]
    obtain ⟨hkind, hfits⟩ := h.sent p (List.mem_of_getElem? hk)
    constructor
    · show Disk.canOpen _ shard = true
      unfold Disk.canOpen
      rw [Node.writeHandlerWith_denied]
      exact h.canOpen
    · intro p' hp'
      obtain ⟨hkind', hfits'⟩ := h.sent p' (List.mem_of_mem_eraseIdx hp')
      exact ⟨hkind', hfits'.handle h.canOpen hkind hfits⟩
    · intro text msg htext hmsg
      exact (h.next text msg (List.mem_cons_of_mem _ htext) hmsg).handle h.canOpen hkind hfits
    · intro line hline hstale
      obtain ⟨hold, hother⟩ := stale_of_handle h.canOpen hkind hfits hline hstale
      rcases h.due line hold hstale with ⟨p', hp', hrenews⟩ | ⟨text, msg, htext, hrest⟩
      · rcases eq_or_mem_eraseIdx hk hp' with rfl | hp'
        · exact absurd hrenews hother
        · exact Or.inl ⟨p', hp', hrenews⟩
      · exact Or.inr ⟨text, msg, (List.mem_cons.mp htext).resolve_left (by simp), hrest⟩

theorem Refreshing.run (hR : ∀ d v, R d = some v → (ipv4 v).isSome) {shard : Str} {es : List RefreshEvent}
    {s : Refresh} (h : Refreshing R shard s es) (hwritten : ∀ k torn, .handle k torn ∈ es → torn = none) :
    Refreshing R shard (DsDns.run (Refresh.step R) s es) [] := by
  induction es generalizing s with
  | nil => exact h
  | cons e es ih =>
    have hrest : ∀ k torn, .handle k torn ∈ es → torn = none :=
      fun k torn hmem => hwritten k torn (List.mem_cons_of_mem e hmem)
    cases e with
    | line text => exact ih (h.line hR) hrest
    | handle k torn =>
      obtain rfl := hwritten k torn List.mem_cons_self
      exact ih h.handle hrest

/-- The scan of a file that nobody writes meanwhile. -/
def scanOf (file : Option Str) : List RefreshEvent :=
  (fileLines file).attach.map fun l => .line ⟨strip l.val, not_mem_strip_fileLine l.property⟩

omit [Unicode] in
theorem refreshLine_strip (line : Str) : refreshLine R (strip line) = refreshLine R line := by
  rw [refreshLine, refreshLine, strip_strip]

theorem Refresh.inFlight_run_lines (texts : List Line) (s : Refresh) :
    (run (Refresh.step R) s (texts.map .line)).inFlight = s.inFlight ++
      (texts.filterMap fun text => refreshLine R text.val).map fun msg => ⟨s.node.states.leaderIp, 9000, msg⟩ := by
  induction texts generalizing s with
  | nil => simp
  | cons text texts ih =>
    rw [List.map_cons, run_cons, ih, Refresh.step_line, List.append_assoc, List.filterMap_cons]
    cases refreshLine R text.val <;> rfl

/-- It sends what `processShard` sends. -/
theorem Refresh.inFlight_run_scanOf (s : Refresh) (shard : Str) :
    (run (Refresh.step R) s (scanOf (s.leader.disk.file shard))).inFlight = s.inFlight ++
      (({ s.node with disk := s.leader.disk, outbox := [] } : Node).processShard R shard).outbox := by
  let line (l : { l // l ∈ fileLines (s.leader.disk.file shard) }) : Line :=
    ⟨strip l.val, not_mem_strip_fileLine l.property⟩
  have hscan : scanOf (s.leader.disk.file shard) =
      ((fileLines (s.leader.disk.file shard)).attach.map line).map .line := by
    rw [List.map_map]
    rfl
  have hmsgs : ((fileLines (s.leader.disk.file shard)).attach.map line).filterMap
      (fun text => refreshLine R text.val) = refreshed R (s.leader.disk.file shard) := by
    rw [List.filterMap_map, refreshed]
    conv_rhs => rw [← List.attach_map_subtype_val (fileLines (s.leader.disk.file shard)), List.filterMap_map]
    exact List.filterMap_congr fun l _ => refreshLine_strip l.val
  rw [hscan, Refresh.inFlight_run_lines, hmsgs, Node.processShard_eq]
  rfl

section Blocks

omit [Unicode]

end Blocks

end DsDns
