/-
  Where the answer of a read comes from.

  What a node keeps has no line break in it and no whitespace around it, since it came in lines (`Clean`, kept by
  every event). So an answer is one line, and a node on the way back passes it on unchanged (`relayed_eq`), unless it
  has given up before.

  A read keeps its name on the way (`AsksFor`), and the node that ends it looks that name up: the answer was then a
  record of the name at that node or at a peer it asked, or it is the resolver's (`read_sourced`).
-/
import DsDns.Cluster.Equiv.Reads
import DsDns.DataPlane.Equiv.Replication
import DsDns.DataPlane.Equiv.Resolution

namespace DsDns

/-! ### Lines -/

/-- A text that a line brings as it is. -/
structure OneLine (v : Str) : Prop where
  trimmed : strip v = v
  no_newline : '\n' ∉ v
  no_return : '\r' ∉ v

/-- No line break is in the text. -/
def Unbroken (u : Str) : Prop := '\n' ∉ u ∧ '\r' ∉ u

theorem oneLine_strip {v : Str} (h : Unbroken v) : OneLine (strip v) where
  trimmed := strip_strip v
  no_newline := fun hn => h.1 (mem_of_mem_strip hn)
  no_return := fun hr => h.2 (mem_of_mem_strip hr)

theorem Unbroken.of_mem {u v : Str} (h : Unbroken u) (hsub : ∀ c ∈ v, c ∈ u) : Unbroken v :=
  ⟨fun hn => h.1 (hsub _ hn), fun hr => h.2 (hsub _ hr)⟩

theorem Unbroken.of_mem_split {sep : Char} {u f : Str} (h : Unbroken u) (hf : f ∈ split sep (strip u)) :
    Unbroken f :=
  h.of_mem fun _ hc => mem_of_mem_strip (mem_of_mem_split hf hc)

theorem oneLine_notAvailable : OneLine notAvailable := ⟨by decide, by decide, by decide⟩

theorem oneLine_of_ipv4 {ip : Str} (h : (ipv4 ip).isSome) : OneLine ip where
  trimmed := strip_of_no_space fun _ hc => isSpace_of_mem_ipv4 h hc
  no_newline := not_mem_of_ipv4 h (by decide) (by decide)
  no_return := not_mem_of_ipv4 h (by decide) (by decide)

theorem relayed_eq {answer : Str} (h : OneLine answer) (inTime : Bool) :
    relayed inTime answer = if inTime = true ∧ answer ≠ [] then answer else notAvailable := by
  have hline : firstLine (answer ++ ['\n']) = answer ++ ['\n'] := by
    unfold firstLine
    rw [readLines_line h.no_newline h.no_return]
    rfl
  unfold relayed
  simp only [hline, strip_append_newline, h.trimmed]
  cases inTime with
  | false => rfl
  | true => by_cases hnil : answer = [] <;> simp [hnil]

/-- However many nodes pass it on. -/
theorem comesBack_eq {answer : Str} (h : OneLine answer) (inTime : List Bool) :
    comesBack answer inTime =
      if inTime = [] ∨ answer ≠ [] ∧ false ∉ inTime then answer else notAvailable := by
  unfold comesBack
  induction inTime generalizing answer with
  | nil => rfl
  | cons t ts ih =>
    rw [run_cons, relayed_eq h]
    by_cases hpass : t = true ∧ answer ≠ []
    · obtain ⟨rfl, hne⟩ := hpass
      rw [if_pos ⟨rfl, hne⟩, ih h]
      by_cases hts : ts = [] <;> simp [hts, hne]
    · -- `N/A` stays `N/A`.
      have hrest : ¬ (t :: ts = [] ∨ answer ≠ [] ∧ false ∉ t :: ts) := by
        cases t <;> simp_all
      rw [if_neg hpass, if_neg hrest, ih oneLine_notAvailable]
      split <;> rfl

/-! ### What a node keeps -/

/-- The values are lines, and the log entries are unbroken. -/
structure Clean (n : Node) : Prop where
  records : ∀ key v, n.states.records key = some v → OneLine v
  logs : ∀ num u, n.writer.logs num = some u → Unbroken u

theorem oneLine_of_updateRecord {u : Str} (hu : Unbroken u) {key : Key} {v : Str}
    (h : updateRecord u = some (key, v)) : OneLine v := by
  unfold updateRecord at h
  split at h
  · rename_i dom t ip hsplit
    obtain rfl := (Prod.mk.inj (Option.some.inj h)).2
    exact oneLine_strip (hu.of_mem_split (by rw [hsplit]; simp))
  · exact absurd h (Option.some_ne_none _).symm

theorem oneLine_of_commitTarget {u : Str} (hu : Unbroken u) {c : Char} {key : Key} {v : Str}
    (h : commitTarget u = some (c, key, v)) : OneLine v := by
  unfold commitTarget at h
  split at h
  · rename_i domain rtype ip rest hsplit
    split at h
    · exact absurd h (Option.some_ne_none _).symm
    · cases h
      exact oneLine_strip (hu.of_mem_split (by rw [hsplit]; simp))
  · exact absurd h (Option.some_ne_none _).symm

theorem oneLine_of_loadShards {disk : Disk} {heads : List Str} {key : Key} {v : Str}
    (h : loadShards disk heads key = some v) : OneLine v := by
  rw [loadShards_eq] at h
  obtain ⟨line, hmem, hline⟩ := List.mem_map.mp (mem_of_lastWrite_eq_some h)
  have hstrip : Unbroken (strip line) := by
    obtain ⟨lines, hlines, hin⟩ := List.mem_flatten.mp hmem
    obtain ⟨head, -, rfl⟩ := List.mem_map.mp hlines
    cases hfile : disk.file head with
    | none =>
      rw [hfile] at hin
      exact absurd hin List.not_mem_nil
    | some text =>
      rw [hfile] at hin
      exact not_mem_strip_line hin
  have hsame : updateRecord line = updateRecord (strip line) := by
    unfold updateRecord
    rw [strip_strip]
  rw [lineRecord_eq, hsame] at hline
  split at hline
  · exact absurd hline (Option.some_ne_none _).symm
  · exact oneLine_of_updateRecord hstrip hline

/-- What a live resolution writes. -/
theorem unbroken_resolution {domain ip : Str} (hd : Unbroken domain) (hip : Unbroken ip) :
    Unbroken (domain ++ ",A,".toList ++ ip) := by
  constructor
  · simp [hd.1, hip.1]
  · simp [hd.2, hip.2]

/-- What a message on the write port carries has no line break. -/
theorem unbroken_parseWrite {line : Str} (hline : Unbroken line) :
    (∀ u, Node.parseWrite line = .start u → Unbroken u) ∧
      ∀ num u, Node.parseWrite line = .replica num u → Unbroken u :=
  ⟨fun _ h => hline.of_mem_split (Node.mem_split_of_start h),
    fun _ _ h => hline.of_mem_split (Node.mem_split_of_replica h).2⟩

/-- A node starts clean. -/
theorem clean_main (selfIp : Str) (files : List (Option Str)) (disk : Disk) (heads : List Str) (now : Time) :
    Clean (Node.main selfIp files disk heads now) where
  records := fun _ _ h => oneLine_of_loadShards h
  logs := fun _ _ h => absurd h (Option.some_ne_none _).symm

variable [Unicode]

theorem oneLine_of_committed {disk : Disk} {u : Str} (hu : Unbroken u) {key : Key} {v : Str}
    (h : Node.committed disk u = some (key, v)) : OneLine v := by
  unfold Node.committed at h
  split at h
  · exact absurd h (Option.some_ne_none _).symm
  · rename_i c k x htarget
    split at h
    · cases h
      exact oneLine_of_commitTarget hu htarget
    · exact absurd h (Option.some_ne_none _).symm

/-- The logs after one event. -/
theorem unbroken_logs_step {n : Node} (h : Clean n) (e : NodeEvent) {num u : Str}
    (hlog : (n.step e).writer.logs num = some u) : Unbroken u := by
  have hstart : ∀ (m : Node) (u' : Str), m.writer.logs = n.writer.logs → Unbroken u' →
      (m.startWrite u').1.writer.logs num = some u → Unbroken u := by
    intro m u' hm hu' hlog
    rw [Node.startWrite_eq, Node.commitHandler_writer, Node.announce_logs, hm] at hlog
    split at hlog
    · rw [← Option.some.inj hlog]
      exact hu'
    · exact h.logs num u hlog
  cases e with
  | beat line now =>
    change (n.beatHandler line now).writer.logs num = some u at hlog
    rw [(n.beatHandler_frame line now).2.2.2.2.2.1] at hlog
    exact h.logs num u hlog
  | tick now =>
    change (n.raftHeart now).writer.logs num = some u at hlog
    rw [(n.raftHeart_frame now).2.2.2.1] at hlog
    exact h.logs num u hlog
  | write line =>
    obtain ⟨hupdate, hreplica⟩ := unbroken_parseWrite line.property
    change (n.writeHandler line).1.writer.logs num = some u at hlog
    rw [Node.writeHandler_eq] at hlog
    cases hparse : Node.parseWrite line.val with
    | start u' =>
      rw [hparse] at hlog
      exact hstart n.link u' rfl (hupdate u' hparse) hlog
    | replica num' u' =>
      rw [hparse] at hlog
      change (n.link.replicate num' u').writer.logs num = some u at hlog
      rw [Node.replicate_logs] at hlog
      split at hlog
      · rw [← Option.some.inj hlog]
        exact hreplica num' u' hparse
      · exact h.logs num u hlog
    | ack num' =>
      rw [hparse] at hlog
      exact h.logs num u hlog
    | commit num' =>
      rw [hparse] at hlog
      change (n.link.commitHandler num').1.writer.logs num = some u at hlog
      rw [Node.commitHandler_writer] at hlog
      exact h.logs num u hlog
    | ignored =>
      rw [hparse] at hlog
      exact h.logs num u hlog
  | newRecord domain ip =>
    change (n.newRecord (fun _ => some ip.val) domain).1.writer.logs num = some u at hlog
    rw [Node.newRecord_eq] at hlog
    split at hlog
    · exact hstart n _ rfl (unbroken_resolution domain.property ip.property) hlog
    · exact h.logs num u hlog
  | addNodes ip => exact h.logs num u hlog
  | removeNode ip => exact h.logs num u hlog
  | updateRank rank lastRank => exact h.logs num u hlog

/-- What an event writes is a line. -/
theorem oneLine_of_writes {n : Node} (h : Clean n) {e : NodeEvent} {key : Key} {v : Str}
    (hw : e.writes n = some (key, v)) : OneLine v := by
  cases e with
  | write line =>
    obtain ⟨hupdate, hreplica⟩ := unbroken_parseWrite line.property
    unfold NodeEvent.writes at hw
    simp only at hw
    cases hparse : Node.parseWrite line.val with
    | start u =>
      rw [hparse] at hw
      exact oneLine_of_committed (hupdate u hparse) hw
    | replica num u =>
      rw [hparse] at hw
      simp only [replicaWrite] at hw
      repeat' split at hw
      · exact oneLine_of_updateRecord (hreplica num u hparse) hw
      · exact absurd hw (Option.some_ne_none _).symm
      · exact absurd hw (Option.some_ne_none _).symm
    | commit num =>
      rw [hparse] at hw
      obtain ⟨u, hu, hcommit⟩ := Option.bind_eq_some_iff.mp hw
      exact oneLine_of_committed (h.logs num u hu) hcommit
    | ack num =>
      rw [hparse] at hw
      exact absurd hw (Option.some_ne_none _).symm
    | ignored =>
      rw [hparse] at hw
      exact absurd hw (Option.some_ne_none _).symm
  | newRecord domain ip =>
    unfold NodeEvent.writes at hw
    simp only at hw
    split at hw
    · exact oneLine_of_committed (unbroken_resolution domain.property ip.property) hw
    · exact absurd hw (Option.some_ne_none _).symm
  | beat line now => exact absurd hw (Option.some_ne_none _).symm
  | tick now => exact absurd hw (Option.some_ne_none _).symm
  | addNodes ip => exact absurd hw (Option.some_ne_none _).symm
  | removeNode ip => exact absurd hw (Option.some_ne_none _).symm
  | updateRank rank lastRank => exact absurd hw (Option.some_ne_none _).symm

theorem clean_step {n : Node} (h : Clean n) (e : NodeEvent) : Clean (n.step e) where
  records := by
    intro key v hv
    rw [Node.step_records] at hv
    rcases eq_or_of_put_eq_some hv with hold | hw
    · exact h.records key v hold
    · exact oneLine_of_writes h hw
  logs := fun _ _ hlog => unbroken_logs_step h e hlog

/-! ### One look-up -/

omit [Unicode] in
/-- The name that a line on the read port asks for. -/
def askedName (text : Str) : Str :=
  let line := strip text
  if startsWith line "PEER:".toList then line.drop 5 else line

/-- The node owns the name and has the value as its address. -/
def Node.Holds (n : Node) (name v : Str) : Prop :=
  n.states.owns name = true ∧ n.states.records (lower (strip name), ['A']) = some v

/-- A look-up that finds something has found a record of the name. -/
theorem holds_of_localLookup {n : Node} {name : Str} (h : n.localLookup name ≠ notAvailable) :
    n.Holds name (n.localLookup name) := by
  rw [localLookup_eq] at h ⊢
  cases howns : n.states.owns name with
  | false =>
    rw [howns] at h
    exact absurd rfl h
  | true =>
    rw [howns, if_pos rfl] at h
    rw [if_pos rfl]
    cases hrecord : n.states.records (lower (strip name), ['A']) with
    | none =>
      rw [hrecord] at h
      exact absurd rfl h
    | some v => exact ⟨howns, hrecord⟩

theorem askedName_of_onRead {n : Node} {text : Str} :
    match n.onRead text with
    | .reply answer => answer ≠ notAvailable → n.Holds (askedName text) answer
    | .ask domain _ => domain = strip text ∧ domain ≠ [] ∧ startsWith domain "PEER:".toList = false
    | .forward domain _ => domain = strip text ∧ domain ≠ [] ∧ startsWith domain "PEER:".toList = false := by
  unfold Node.onRead askedName
  simp only
  by_cases hnil : strip text = []
  · rw [if_pos hnil]
    exact fun h => absurd rfl h
  · rw [if_neg hnil]
    by_cases hpeer : startsWith (strip text) "PEER:".toList = true
    · rw [if_pos hpeer, if_pos hpeer]
      exact holds_of_localLookup
    · rw [if_neg hpeer, if_neg hpeer]
      by_cases hlocal : n.localLookup (strip text) ≠ notAvailable
      · rw [if_pos hlocal]
        exact holds_of_localLookup
      · rw [if_neg hlocal]
        cases n.raft.leader with
        | true => exact ⟨rfl, hnil, Bool.eq_false_iff.mpr hpeer⟩
        | false => exact ⟨rfl, hnil, Bool.eq_false_iff.mpr hpeer⟩

omit [Unicode] in
theorem recv_prefix {limit : ℕ} {s r : Str} (h : recv limit s = some r) : r <+: s := by
  induction s generalizing limit r with
  | nil =>
    rw [← Option.some.inj h]
  | cons c s ih =>
    rw [recv] at h
    split at h
    · obtain ⟨t, ht, rfl⟩ := Option.map_eq_some_iff.mp h
      exact List.cons_prefix_cons.mpr ⟨rfl, ih ht⟩
    · split at h
      · rw [← Option.some.inj h]
        exact List.nil_prefix
      · exact absurd h (Option.some_ne_none r).symm

omit [Unicode] in
/-- One `recv` of a line is a line, perhaps a shorter one. -/
theorem oneLine_recv {v r : Str} (hv : OneLine v) (h : recv 4096 (v ++ ['\n']) = some r) : OneLine (strip r) := by
  have hprefix := recv_prefix h
  rcases List.prefix_concat_iff.mp hprefix with rfl | hshort
  · rw [strip_append_newline, hv.trimmed]
    exact hv
  · exact oneLine_strip ⟨fun hn => hv.no_newline (hshort.subset hn), fun hr => hv.no_return (hshort.subset hr)⟩

/-- What a peer answers is what it has, as far as one `recv` brings it. -/
theorem exists_of_askPeer {cl : Cluster} {name ip response : Str} (hname : IsQuery name)
    (h : Node.askPeer cl name ip = some response) (hne : response ≠ notAvailable) :
    ∃ n v r, cl ip = some n ∧ n.Holds name v ∧ recv 4096 (v ++ ['\n']) = some r ∧ response = strip r := by
  unfold Node.askPeer at h
  obtain ⟨n, hn, h⟩ := Option.bind_eq_some_iff.mp h
  obtain ⟨r, hr, h⟩ := Option.bind_eq_some_iff.mp h
  obtain rfl := Option.some.inj h
  rw [handlePeer_eq n hname] at hr
  have hlocal : n.localLookup name ≠ notAvailable := by
    intro hna
    rw [hna] at hr
    have hwhole : recv 4096 (notAvailable ++ ['\n']) = some (notAvailable ++ ['\n']) := recv_of_le (by decide)
    obtain rfl := Option.some.inj (hwhole.symm.trans hr)
    exact hne (by decide)
  exact ⟨n, _, r, hn, holds_of_localLookup hlocal, hr, rfl⟩

/-- What a live resolution answers. -/
theorem newRecord_answer (n : Node) (gethostbyname : Str → Option Str) (domain : Str) :
    (n.newRecord gethostbyname domain).2 = notAvailable ∨
      gethostbyname domain = some (n.newRecord gethostbyname domain).2 := by
  unfold Node.newRecord
  cases hip : gethostbyname domain with
  | none => exact Or.inl rfl
  | some ip =>
    cases n.writer.linked with
    | false => exact Or.inl rfl
    | true =>
      simp only [if_true]
      rcases n.startWrite (domain ++ ",A,".toList ++ ip) with ⟨m, _ | _⟩
      · exact Or.inr rfl
      · exact Or.inl rfl

/-! ### A read on its way -/

variable (gethostbyname : Str → Option Str)

omit [Unicode] in
/-- The read asks for the name wherever it is. -/
def AsksFor (name : Str) (w : ReadWorld) : Prop :=
  match w.phase with
  | .arriving _ text => askedName text = name ∧ Unbroken (strip text)
  | .asking _ domain _ => domain = name ∧ IsQuery name
  | .answered _ => True

/-- The answer is what the node at the end of the way had for the name in some state of the run, what it has got of
a peer's record, or what it has got from the resolver. -/
def AnsweredFrom (start : ReadWorld) (name : Str) (es : List ReadEvent) (w : ReadWorld) (answer : Str) : Prop :=
  (∃ early x n, early <+: es ∧ (run (ReadWorld.step gethostbyname) start early).cluster x = some n ∧
    w.visited.getLast? = some x ∧ n.Holds name answer) ∨
  (∃ early x n v r, early <+: es ∧ (run (ReadWorld.step gethostbyname) start early).cluster x = some n ∧
    w.lookups.getLast? = some x ∧ n.Holds name v ∧ recv 4096 (v ++ ['\n']) = some r ∧ answer = strip r) ∨
  gethostbyname name = some answer

/-- The read keeps its name, and its answer has a source. -/
structure Traced (start : ReadWorld) (name : Str) (es : List ReadEvent) (w : ReadWorld) : Prop where
  carries : AsksFor name w
  sourced : ∀ answer, w.phase = .answered answer → answer ≠ notAvailable →
    AnsweredFrom gethostbyname start name es w answer

theorem AnsweredFrom.concat {start w : ReadWorld} {name answer : Str} {es : List ReadEvent}
    (h : AnsweredFrom gethostbyname start name es w answer) (e : ReadEvent) :
    AnsweredFrom gethostbyname start name (es ++ [e]) w answer := by
  have hlater : ∀ early, early <+: es → early <+: es ++ [e] := fun _ hp => hp.trans (List.prefix_append es [e])
  rcases h with ⟨early, x, n, hp, h⟩ | ⟨early, x, n, v, r, hp, h⟩ | h
  · exact Or.inl ⟨early, x, n, hlater early hp, h⟩
  · exact Or.inr (Or.inl ⟨early, x, n, v, r, hlater early hp, h⟩)
  · exact Or.inr (Or.inr h)

section Step

variable {start w : ReadWorld} {name : Str} {es : List ReadEvent}

theorem traced_notAvailable (h : w.phase = .answered notAvailable) : Traced gethostbyname start name es w where
  carries := by
    unfold AsksFor
    rw [h]
    trivial
  sourced := by
    intro answer hanswer hne
    rw [h] at hanswer
    exact absurd (ReadPhase.answered.inj hanswer).symm hne

/-- A read without an answer has nothing to show. -/
theorem traced_of_open (hcarries : AsksFor name w) (hopen : ∀ answer, w.phase ≠ .answered answer) :
    Traced gethostbyname start name es w :=
  ⟨hcarries, fun answer h => absurd h (hopen answer)⟩

theorem traced_arrive (hw : run (ReadWorld.step gethostbyname) start es = w) {ip text : Str}
    (hname : askedName text = name) (hline : Unbroken (strip text)) (e : ReadEvent) :
    Traced gethostbyname start name (es ++ [e]) (w.arrive ip text) := by
  unfold ReadWorld.arrive
  cases hn : w.cluster ip with
  | none => exact traced_notAvailable gethostbyname rfl
  | some n =>
    have hread := @askedName_of_onRead _ n text
    cases hact : n.onRead text with
    | reply answer =>
      simp only [hact] at hread ⊢
      refine ⟨trivial, fun answer' hanswer hne => Or.inl ⟨es, ip, n, List.prefix_append es [e], ?_, ?_, ?_⟩⟩
      · rw [hw]
        exact hn
      · exact List.getLast?_concat
      · obtain rfl := ReadPhase.answered.inj hanswer
        rw [← hname]
        exact hread hne
    | ask domain peers =>
      simp only [hact] at hread ⊢
      obtain ⟨rfl, hne, hpeer⟩ := hread
      have hdomain : strip text = name := by
        rw [← hname, askedName, hpeer]
        rfl
      rw [hdomain] at hne hpeer hline ⊢
      have htrimmed : strip name = name := by rw [← hdomain, strip_strip]
      exact traced_of_open gethostbyname ⟨rfl, hne, htrimmed, hline.1, hline.2, hpeer⟩
        fun _ h => ReadPhase.noConfusion h
    | forward domain leaderIp =>
      simp only [hact] at hread ⊢
      obtain ⟨rfl, -, -⟩ := hread
      have hstrip : strip (strip text ++ ['\n']) = strip text := by rw [strip_append_newline, strip_strip]
      have hsame : askedName (strip text ++ ['\n']) = askedName text := by
        unfold askedName
        rw [hstrip]
      apply traced_of_open
      · refine ⟨hsame.trans hname, ?_⟩
        rw [hstrip]
        exact hline
      · exact fun _ h => ReadPhase.noConfusion h

theorem traced_ask (hw : run (ReadWorld.step gethostbyname) start es = w) {ip domain peer : Str}
    {peers : List Str} (hdomain : domain = name) (hname : IsQuery name) (e : ReadEvent) :
    Traced gethostbyname start name (es ++ [e]) (w.ask ip domain peer peers) := by
  subst hdomain
  unfold ReadWorld.ask
  cases hask : Node.askPeer w.cluster domain peer with
  | none => exact traced_of_open gethostbyname ⟨rfl, hname⟩ fun _ h => ReadPhase.noConfusion h
  | some response =>
    simp only
    split
    · rename_i hfound
      obtain ⟨n, v, r, hn, hholds, hrecv, hresponse⟩ := exists_of_askPeer hname hask hfound.2
      refine ⟨trivial, fun answer hanswer _ => Or.inr (Or.inl ?_)⟩
      obtain rfl := ReadPhase.answered.inj hanswer
      refine ⟨es, peer, n, v, r, List.prefix_append es [e], ?_, List.getLast?_concat, hholds, hrecv, hresponse⟩
      rw [hw]
      exact hn
    · exact traced_of_open gethostbyname ⟨rfl, hname⟩ fun _ h => ReadPhase.noConfusion h

theorem traced_miss {ip domain : Str} (hdomain : domain = name) (hname : IsQuery name) (peer : Str)
    (peers : List Str) : Traced gethostbyname start name es (w.miss ip domain peer peers) :=
  traced_of_open gethostbyname ⟨hdomain, hname⟩ fun _ h => ReadPhase.noConfusion h

theorem traced_giveUp {ip domain : Str} (hdomain : domain = name) :
    Traced gethostbyname start name es (w.giveUp gethostbyname ip domain) := by
  subst hdomain
  unfold ReadWorld.giveUp
  cases w.cluster ip with
  | none => exact traced_notAvailable gethostbyname rfl
  | some n =>
    refine ⟨trivial, fun answer hanswer hne => Or.inr (Or.inr ?_)⟩
    obtain rfl := ReadPhase.answered.inj hanswer
    exact (newRecord_answer n gethostbyname domain).resolve_left hne

theorem traced_go (h : Traced gethostbyname start name es w)
    (hw : run (ReadWorld.step gethostbyname) start es = w) (e : ReadEvent) :
    Traced gethostbyname start name (es ++ [e]) (w.step gethostbyname .go) := by
  have hcarries := h.carries
  unfold ReadWorld.step
  unfold AsksFor at hcarries
  cases hphase : w.phase with
  | arriving ip text =>
    rw [hphase] at hcarries
    exact traced_arrive gethostbyname hw hcarries.1 hcarries.2 e
  | asking ip domain peers =>
    rw [hphase] at hcarries
    cases peers with
    | nil => exact traced_giveUp gethostbyname hcarries.1
    | cons peer peers => exact traced_ask gethostbyname hw hcarries.1 hcarries.2 e
  | answered answer => exact ⟨h.carries, fun a ha hne => (h.sourced a ha hne).concat gethostbyname _⟩

end Step

/-- In every run, the read keeps its name, and its answer has a source. -/
theorem traced_run (cl : Cluster) (ip₀ : Str) {text₀ : Str} (hline : Unbroken (strip text₀)) (es : List ReadEvent) :
    Traced gethostbyname (.start cl ip₀ text₀) (askedName text₀) es
      (run (ReadWorld.step gethostbyname) (.start cl ip₀ text₀) es) := by
  induction es using List.reverseRecOn with
  | nil => exact traced_of_open gethostbyname ⟨rfl, hline⟩ fun _ h => ReadPhase.noConfusion h
  | append_singleton es e ih =>
    rw [run_concat]
    generalize hw : run (ReadWorld.step gethostbyname) (.start cl ip₀ text₀) es = w at ih ⊢
    cases e with
    | node ip e => exact ⟨ih.carries, fun answer h hne => (ih.sourced answer h hne).concat gethostbyname _⟩
    | go => exact traced_go gethostbyname ih hw .go
    | late =>
      rcases step_late gethostbyname w with hgo | ⟨ip, domain, peer, peers, hphase, hmiss⟩
      · rw [hgo]
        exact traced_go gethostbyname ih hw .late
      · have hcarries := ih.carries
        unfold AsksFor at hcarries
        rw [hphase] at hcarries
        rw [hmiss]
        exact traced_miss gethostbyname hcarries.1 hcarries.2 peer peers

/-! ### The answer is one line -/

theorem clean_newRecord {n : Node} (h : Clean n) (hresolves : Resolves gethostbyname) {domain : Str}
    (hd : Unbroken domain) : Clean (n.newRecord gethostbyname domain).1 := by
  cases hip : gethostbyname domain with
  | none =>
    unfold Node.newRecord
    rw [hip]
    exact h
  | some ip =>
    have hone := oneLine_of_ipv4 (hresolves domain ip hip)
    have hsame : n.newRecord gethostbyname domain = n.newRecord (fun _ => some ip) domain := by
      unfold Node.newRecord
      rw [hip]
    rw [hsame]
    exact clean_step h (.newRecord ⟨domain, hd⟩ ⟨ip, hone.no_newline, hone.no_return⟩)

/-- The next step of a read keeps all nodes clean. -/
theorem clean_go {name : Str} {w : ReadWorld} (hclean : ∀ ip n, w.cluster ip = some n → Clean n)
    (hresolves : Resolves gethostbyname) (hcarries : AsksFor name w) (ip : Str) (n : Node)
    (hn : (w.step gethostbyname .go).cluster ip = some n) : Clean n := by
  unfold ReadWorld.step at hn
  unfold AsksFor at hcarries
  cases hphase : w.phase with
  | arriving x text =>
    simp only [hphase] at hn
    unfold ReadWorld.arrive at hn
    split at hn
    · exact hclean ip n hn
    · exact hclean ip n hn
  | asking x domain peers =>
    rw [hphase] at hcarries
    simp only [hphase] at hn
    cases peers with
    | cons peer peers => exact hclean ip n hn
    | nil =>
      -- The resolution is the only step of a read that changes a node.
      obtain ⟨rfl, hname⟩ := hcarries
      simp only at hn
      unfold ReadWorld.giveUp at hn
      split at hn
      · exact hclean ip n hn
      · rename_i m hm
        change (if ip = x then some _ else w.cluster ip) = some n at hn
        split at hn
        · rw [← Option.some.inj hn]
          exact clean_newRecord gethostbyname (hclean x m hm) hresolves ⟨hname.no_newline, hname.no_return⟩
        · exact hclean ip n hn
  | answered answer =>
    simp only [hphase] at hn
    exact hclean ip n hn

/-- All nodes stay clean while a read is on its way. -/
theorem clean_run {cl : Cluster} (hclean : ∀ ip n, cl ip = some n → Clean n) (hresolves : Resolves gethostbyname)
    {ip₀ text₀ : Str} (hline : Unbroken (strip text₀)) (es : List ReadEvent) (ip : Str) (n : Node)
    (hn : (run (ReadWorld.step gethostbyname) (.start cl ip₀ text₀) es).cluster ip = some n) : Clean n := by
  induction es using List.reverseRecOn generalizing ip n with
  | nil => exact hclean ip n hn
  | append_singleton es e ih =>
    have hcarries := (traced_run gethostbyname cl ip₀ hline es).carries
    rw [run_concat] at hn
    generalize run (ReadWorld.step gethostbyname) (.start cl ip₀ text₀) es = w at ih hn hcarries
    cases e with
    | node x e =>
      obtain ⟨m, hm, hstep⟩ := Cluster.exists_of_step hn
      rcases hstep with rfl | rfl
      · exact clean_step (ih ip m hm) e
      · exact ih ip n hm
    | go => exact clean_go gethostbyname ih hresolves hcarries ip n hn
    | late =>
      rcases step_late gethostbyname w with hgo | ⟨x, domain, peer, peers, -, hmiss⟩
      · rw [hgo] at hn
        exact clean_go gethostbyname ih hresolves hcarries ip n hn
      · rw [hmiss] at hn
        exact ih ip n hn

/-- **Where the answer of a read comes from.** Whatever happens at the nodes while a read is on its way, the answer
is one line. What comes back over the nodes that have forwarded the read is this line, if all of them get it in time,
and else `N/A` (also for an empty line, if there is such a node). And unless the answer is `N/A`, it was the address
of the asked name at the node where the way ends, or at the last peer that node has asked (as far as one `recv`
brings it), or it is the resolver's. -/
theorem read_sourced {cl : Cluster} (hclean : ∀ ip n, cl ip = some n → Clean n)
    (hresolves : Resolves gethostbyname) (ip₀ : Str) (line : Line) (es : List ReadEvent) {answer : Str}
    (hanswer : (run (ReadWorld.step gethostbyname) (.start cl ip₀ line.val) es).phase = .answered answer) :
    OneLine answer ∧
    (∀ inTime : List Bool,
      inTime.length = (run (ReadWorld.step gethostbyname) (.start cl ip₀ line.val) es).forwards →
      comesBack answer inTime = if inTime = [] ∨ answer ≠ [] ∧ false ∉ inTime then answer else notAvailable) ∧
    (answer ≠ notAvailable → AnsweredFrom gethostbyname (.start cl ip₀ line.val) (askedName line.val) es
      (run (ReadWorld.step gethostbyname) (.start cl ip₀ line.val) es) answer) := by
  have hline : Unbroken (strip line.val) := Unbroken.of_mem line.property fun _ hc => mem_of_mem_strip hc
  have hsourced := (traced_run gethostbyname cl ip₀ hline es).sourced answer hanswer
  have hone : OneLine answer := by
    by_cases hne : answer = notAvailable
    · rw [hne]
      exact oneLine_notAvailable
    · rcases hsourced hne with ⟨early, x, n, -, hn, -, hholds⟩ |
        ⟨early, x, n, v, r, -, hn, -, hholds, hrecv, rfl⟩ | hip
      · exact (clean_run gethostbyname hclean hresolves hline early x n hn).records _ _ hholds.2
      · have hv := (clean_run gethostbyname hclean hresolves hline early x n hn).records _ _ hholds.2
        exact oneLine_recv hv hrecv
      · exact oneLine_of_ipv4 (hresolves _ _ hip)
  exact ⟨hone, fun inTime _ => comesBack_eq hone inTime, hsourced⟩

omit [Unicode] in
theorem clean_site {ip : Str} {n : Node} (h : site ip = some n) : Clean n := by
  rcases site_cases h with ⟨-, rfl⟩ | ⟨-, rfl⟩
  · exact clean_main _ _ _ _ _
  · have hplain : '\n' ∉ "10.0.0.2;1;2".toList ∧ '\r' ∉ "10.0.0.2;1;2".toList := by decide
    exact @clean_step Unicode.ascii _ (clean_main _ _ _ _ _) (.beat ⟨"10.0.0.2;1;2".toList, hplain⟩ 0)

omit [Unicode] in
theorem siteLine_plain : '\n' ∉ "a.com".toList ∧ '\r' ∉ "a.com".toList := by decide

omit [Unicode] in
/-- A read of a name that the leader does not own. -/
def siteRead : ReadWorld := .start site "10.0.0.2".toList "a.com".toList

omit [Unicode] in
/-- The leader answers with the record of the follower. -/
theorem read_sourced_peer :
    (run (@ReadWorld.step Unicode.ascii fun _ => none) siteRead [.go, .go]).phase = .answered "1.1.1.1".toList ∧
    @AnsweredFrom Unicode.ascii (fun _ => none) siteRead "a.com".toList [.go, .go]
      (run (@ReadWorld.step Unicode.ascii fun _ => none) siteRead [.go, .go]) "1.1.1.1".toList := by
  have hanswer : (run (@ReadWorld.step Unicode.ascii fun _ => none) siteRead [.go, .go]).phase =
      .answered "1.1.1.1".toList := rfl
  have hresolves : Resolves fun _ => none := fun _ ip h => absurd h (Option.some_ne_none ip).symm
  have hsourced := @read_sourced Unicode.ascii (fun _ => none) site (fun _ _ h => clean_site h) hresolves
    "10.0.0.2".toList ⟨"a.com".toList, siteLine_plain⟩ [.go, .go] _ hanswer
  exact ⟨hanswer, hsourced.2.2 (by decide)⟩

end DsDns
