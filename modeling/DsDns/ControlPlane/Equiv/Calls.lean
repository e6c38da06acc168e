/-
  The two-level cache is transparent, whatever runs at the same time.

  A message is `Faithful` when it asks for a name or stores the answer for it. `CacheSound` (every
  entry is the answer for its key) is kept by faithful messages, and a server with that property replies
  to a `GET` with the answer or with a text that is no hit (`l1_faithful`, `l2_faithful`). Against such
  replies every path of a call asks faithful messages only and ends with the answer or with a miss:
  this is the contract `transparency`, and it suits `resolve` (`transparency_suits`). `Inv` puts the
  caches, the rest of every call, and the abandoned messages together, and every event keeps it.
-/
import DsDns.ControlPlane.Calls
import DsDns.ControlPlane.Equiv.CacheClient

namespace DsDns

open Interaction

/-! ### Host names and answers -/

theorem toNat_of_isAlphanum {c : Char} (h : c.isAlphanum = true) : 48 ≤ c.toNat ∧ c.toNat ≤ 122 := by
  rcases Bool.or_eq_true_iff.mp (show (c.isAlpha || c.isDigit) = true from h) with halpha | hdigit
  · rcases Bool.or_eq_true_iff.mp (show (c.isUpper || c.isLower) = true from halpha) with hup | hlow
    · obtain ⟨h1, h2⟩ := of_decide_eq_true hup
      have h1' : 65 ≤ c.toNat := h1
      have h2' : c.toNat ≤ 90 := h2
      omega
    · obtain ⟨h1, h2⟩ := Bool.and_eq_true_iff.mp hlow
      have h1' : 97 ≤ c.toNat := of_decide_eq_true h1
      have h2' : c.toNat ≤ 122 := of_decide_eq_true h2
      omega
  · obtain ⟨h1, h2⟩ := Bool.and_eq_true_iff.mp hdigit
    have h1' : 48 ≤ c.toNat := of_decide_eq_true h1
    have h2' : c.toNat ≤ 57 := of_decide_eq_true h2
    omega

theorem not_space_of_hostName (d : HostName) {c : Char} (hc : c ∈ d.val) : isSpace c = false := by
  rcases d.property c hc with halnum | rfl | rfl
  · have hrange := toNat_of_isAlphanum halnum
    unfold isSpace
    simp
    omega
  · decide
  · decide

theorem not_mem_hostName (d : HostName) {c : Char} (halnum : c.isAlphanum = false) (hminus : c ≠ '-')
    (hdot : c ≠ '.') : c ∉ d.val := by
  intro hc
  rcases d.property c hc with h | h | h
  · rw [halnum] at h
    exact absurd h (by simp)
  · exact hminus h
  · exact hdot h

theorem strip_hostName (d : HostName) : strip d.val = d.val :=
  strip_of_no_space fun _ hc => not_space_of_hostName d hc

/-- What Java takes for whitespace is whitespace for Python. -/
theorem isSpace_of_isWhitespace {c : Char} (h : isWhitespace c = true) : isSpace c = true := by
  unfold isWhitespace at h
  unfold isSpace
  simp at h ⊢
  omega

theorem strip_of_isBlank {s : Str} (h : isBlank s = true) : strip s = [] :=
  strip_of_spaces fun c hc => isSpace_of_isWhitespace (List.all_eq_true.mp h c hc)

theorem readLine_line {s : Str} (hn : '\n' ∉ s) (hr : '\r' ∉ s) : readLine (s ++ ['\n']) = some s := by
  have hkeep : ∀ c ∈ s, decide (c ≠ '\n' ∧ c ≠ '\r') = true := by
    intro c hc
    apply decide_eq_true
    constructor
    · rintro rfl
      exact hn hc
    · rintro rfl
      exact hr hc
  unfold readLine
  rw [if_neg (by simp), List.takeWhile_append_of_pos hkeep, List.takeWhile_cons_of_neg (by simp),
    List.append_nil]

section Answers

variable {dataPlane f : Str → Str}

theorem Answers.newline (h : Answers dataPlane f) (d : HostName) : '\n' ∉ f d :=
  (readLine_eq_some (h.line d)).1

theorem Answers.return (h : Answers dataPlane f) (d : HostName) : '\r' ∉ f d :=
  (readLine_eq_some (h.line d)).2

/-- The only answer that counts as none is `N/A`. -/
theorem Answers.of_isBlank (h : Answers dataPlane f) (d : HostName) (hblank : isBlank (f d) = true) :
    f d = "N/A".toList := by
  rcases h.proper d with hna | ⟨hstrip, hne, -⟩
  · exact hna
  · rw [← hstrip, strip_of_isBlank hblank] at hne
    exact absurd rfl hne

end Answers

/-! ### Faithful messages -/

/-- A message that asks for the name, or stores its answer. -/
def Faithful (f : Str → Str) (d message : Str) : Prop :=
  message = getMessage d ∨ message = setMessage d (f d) ∧ f d ≠ "N/A".toList

/-- Every entry is the answer for its key. -/
def CacheSound (f : Str → Str) (c : LruCache) : Prop := ∀ k v, c.get? k = some v → v = f k

/-- What a server may write back for a message about the name: no hit but the answer. -/
def ReplySound (f : Str → Str) (d message reply : Str) : Prop :=
  message = getMessage d → ∀ line, readLine reply = some line → isHit line = true → line = f d

section Faithful

variable {dataPlane f : Str → Str}

theorem newline_of_faithful (h : Answers dataPlane f) {d : HostName} {message : Str}
    (hm : Faithful f d message) : '\n' ∉ message := by
  have hd : '\n' ∉ d.val := not_mem_hostName d (by decide) (by decide) (by decide)
  rcases hm with rfl | ⟨rfl, -⟩
  · simp [getMessage, hd]
  · simp [setMessage, hd, h.newline d]

variable [Unicode]

/-- The only key a faithful message sets is the name, to its answer. -/
theorem set_of_faithful (h : Answers dataPlane f) {d : HostName} {message k v : Str}
    (hm : Faithful f d message) (hparse : parseCommand (rstrip message) = .set k v) : v = f k := by
  rcases hm with rfl | ⟨rfl, hne⟩
  · rw [parseCommand_getMessage] at hparse
    exact absurd hparse (by simp)
  · rw [parseCommand_setMessage (not_mem_hostName d (by decide) (by decide) (by decide)),
      strip_hostName d] at hparse
    obtain ⟨rfl, rfl⟩ := Command.set.inj hparse
    rcases h.proper d with hna | ⟨hstrip, -⟩
    · exact absurd hna hne
    · exact hstrip

/-- An L1 server handles a faithful message. -/
theorem l1_faithful (h : Answers dataPlane f) {d : HostName} {message : Str}
    (hm : Faithful f d message) {c : LruCache} (hc : CacheSound f c) :
    CacheSound f (L1.handleClient c (message ++ ['\n'])).1 ∧
      ReplySound f d message (L1.handleClient c (message ++ ['\n'])).2 := by
  have hnewline := newline_of_faithful h hm
  unfold L1.handleClient
  by_cases hlen : byteLength message ≤ streamLimit
  · rw [serve_line _ _ (received_line hnewline hlen)]
    constructor
    · intro k v hv
      rcases get?_of_l1_processCommand hv with hold | hset
      · exact hc k v hold
      · exact set_of_faithful h hm hset
    · rintro rfl line hline hhit
      have hparse := parseCommand_getMessage d.val
      rw [strip_hostName d] at hparse
      rw [l1_reply hparse] at hline
      cases hv : c.get? d with
      | none =>
        rw [hv] at hline
        obtain rfl := Option.some.inj ((readLine_line (by decide) (by decide)).symm.trans hline)
        exact absurd hhit (by decide)
      | some v =>
        obtain rfl := hc d v hv
        rw [hv] at hline
        exact (Option.some.inj ((readLine_line (h.newline d) (h.return d)).symm.trans hline)).symm
  · -- The reader raises: nothing is run and nothing is written.
    unfold serve
    rw [received_long hnewline (by omega)]
    exact ⟨hc, fun _ line hline => absurd hline (by simp [serveLines, readLine])⟩

/-- An L2 server handles a faithful message. -/
theorem l2_faithful (h : Answers dataPlane f) {d : HostName} {message : Str}
    (hm : Faithful f d message) {s : L2Cache} (hs : CacheSound f s.cache) (clock : ℕ → Time) :
    CacheSound f (L2.handleClient clock s (message ++ ['\n'])).1.cache ∧
      ReplySound f d message (L2.handleClient clock s (message ++ ['\n'])).2 := by
  have hnewline := newline_of_faithful h hm
  unfold L2.handleClient
  by_cases hlen : byteLength message ≤ streamLimit
  · rw [serve_line _ _ (received_line hnewline hlen)]
    constructor
    · intro k v hv
      rcases get?_of_l2_processCommand hv with hold | hset
      · exact hs k v hold
      · exact set_of_faithful h hm hset
    · rintro rfl line hline hhit
      have hparse := parseCommand_getMessage d.val
      rw [strip_hostName d] at hparse
      rcases @l2_reply _ (clock 0) s _ _ hparse with hv | hlease | hlease
      · rw [hs d _ hv] at hline
        exact (Option.some.inj ((readLine_line (h.newline d) (h.return d)).symm.trans hline)).symm
      · -- A lease, granted or not, is no hit.
        rw [hlease] at hline
        obtain rfl := Option.some.inj ((readLine_line (by decide) (by decide)).symm.trans hline)
        exact absurd hhit (by decide)
      · rw [hlease] at hline
        obtain rfl := Option.some.inj ((readLine_line (by decide) (by decide)).symm.trans hline)
        exact absurd hhit (by decide)
  · unfold serve
    rw [received_long hnewline (by omega)]
    exact ⟨hs, fun _ line hline => absurd hline (by simp [serveLines, readLine])⟩

end Faithful

/-! ### The contract of a call -/

/-- The contract of a call about the name `d`: it asks faithful messages, hits are answers, the data
plane answers or fails, and the call ends with the answer or after a miss. -/
def transparency (f : Str → Str) (d : Str) : Contract Request Request.Reply Str Bool where
  asks
    | .send tier _ message =>
      (tier = .dataPlane → message = d) ∧ (tier ≠ .dataPlane → Faithful f d message)
    | .sleep => True
  replies
    | .send tier _ message, arrived =>
      (tier = .dataPlane → ∀ line, arrived.bind readLine = some line → line = f d) ∧
      (tier ≠ .dataPlane → ∀ reply ∈ arrived, ReplySound f d message reply)
    | .sleep, _ => True
  note := noteMiss
  ends missed v := v = f d ∨ v = [] ∧ missed = true

theorem transparency_suits {dataPlane f : Str → Str} (h : Answers dataPlane f) (d : HostName) :
    Suits (transparency f d) d fun v => v = f d ∧ f d ≠ "N/A".toList := by
  constructor
  · intro tier ip htier
    exact ⟨fun heq => absurd heq htier, fun _ => Or.inl rfl⟩
  · rintro tier ip v htier ⟨rfl, hne⟩
    exact ⟨fun heq => absurd heq htier, fun _ => Or.inr ⟨rfl, hne⟩⟩
  · intro ip
    exact ⟨fun _ => rfl, fun hne => absurd rfl hne⟩
  · trivial
  · intro tier ip arrived r htier hreplies hr hhit
    obtain ⟨reply, harrived, hline⟩ := Option.bind_eq_some_iff.mp hr
    obtain rfl := hreplies.2 htier reply harrived rfl r hline hhit
    refine ⟨rfl, fun hna => ?_⟩
    rw [hna] at hhit
    exact absurd hhit (by decide)
  · intro ip arrived r hreplies hr _ hne
    obtain rfl := hreplies.1 rfl r hr
    exact ⟨rfl, hne⟩
  · intro missed ip arrived hreplies hnone
    refine Or.inr ⟨rfl, ?_⟩
    -- Nothing came, or a text that is no value: only `N/A` is one of the answers.
    show (missed || (arrived.bind readLine).all (· = "N/A".toList)) = true
    cases hr : arrived.bind readLine with
    | none => simp
    | some r =>
      have hna : r = "N/A".toList := by
        rcases hnone r hr with hblank | hna
        · obtain rfl := hreplies.1 rfl r hr
          exact h.of_isBlank d hblank
        · exact hna
      rw [Option.all_some, hna, decide_eq_true rfl, Bool.or_true]
  · rintro missed v ⟨rfl, -⟩
    exact Or.inl rfl

/-! ### The world -/

/-- What every event keeps. -/
structure CallInv (f : Str → Str) (w : CallWorld) : Prop where
  l1 : ∀ ip, CacheSound f (w.l1 ip)
  l2 : ∀ ip, CacheSound f (w.l2 ip).cache
  calls : ∀ c ∈ w.calls, Meets (transparency f c.domain) c.missed c.client
  stray : ∀ p ∈ w.stray, p.1 ≠ .dataPlane → ∃ d : HostName, Faithful f d p.2.2

theorem callInv_start (f : Str → Str) (capacity1 capacity2 : Str → ℕ) :
    CallInv f (CallWorld.start capacity1 capacity2) := by
  constructor
  · intro ip k v hv
    exact absurd hv (by simp [CallWorld.start])
  · intro ip k v hv
    exact absurd hv (by simp [CallWorld.start])
  · intro c hc
    exact absurd hc (by simp [CallWorld.start])
  · intro p hp
    exact absurd hp (by simp [CallWorld.start])

theorem transparent_of_inv {f : Str → Str} {w : CallWorld} (h : CallInv f w) : Transparent f w := by
  refine ⟨h.l1, h.l2, fun c hc v hv => ?_⟩
  have hmeets := h.calls c hc
  rw [hv] at hmeets
  exact hmeets

/-- A call goes on with a reply that its contract allows. -/
theorem calls_set {f : Str → Str} {w : CallWorld} (h : CallInv f w) {i : ℕ} {domain : HostName}
    {q : Request} {next : q.Reply → Client Str} {missed : Bool}
    (hcall : w.calls[i]? = some ⟨domain, .ask q next, missed⟩) {r : q.Reply}
    (hr : (transparency f domain).replies q r) :
    ∀ c ∈ w.calls.set i ⟨domain, next r, noteMiss missed q r⟩,
      Meets (transparency f c.domain) c.missed c.client := by
  intro c hc
  rcases List.mem_or_eq_of_mem_set hc with hold | rfl
  · exact h.calls c hold
  · exact (h.calls _ (List.mem_of_getElem? hcall)).2 r hr

/-- What a waiting call asks, its contract admits. -/
theorem asks_of_call {f : Str → Str} {w : CallWorld} (h : CallInv f w) {i : ℕ} {domain : HostName}
    {q : Request} {next : q.Reply → Client Str} {missed : Bool}
    (hcall : w.calls[i]? = some ⟨domain, .ask q next, missed⟩) : (transparency f domain).asks q :=
  (h.calls _ (List.mem_of_getElem? hcall)).1

theorem callInv_abandon {f : Str → Str} {w : CallWorld} (h : CallInv f w) (i : ℕ) :
    CallInv f (w.abandon i) := by
  unfold CallWorld.abandon
  split
  · rename_i domain tier ip message next missed hcall
    refine ⟨h.l1, h.l2, calls_set h hcall ?_, ?_⟩
    · refine ⟨fun _ line hline => ?_, fun _ reply hreply => ?_⟩
      · exact absurd hline (by simp)
      · exact absurd hreply (by simp)
    · intro p hp htier
      rcases List.mem_append.mp hp with hnew | hold
      · obtain ⟨address, -, rfl⟩ := Option.map_eq_some_iff.mp (Option.mem_toList.mp hnew)
        exact ⟨domain, (asks_of_call h hcall).2 htier⟩
      · exact h.stray p hold htier
  · exact h

theorem callInv_wake {f : Str → Str} {w : CallWorld} (h : CallInv f w) (i : ℕ) (interrupted : Bool) :
    CallInv f (w.wake i interrupted) := by
  unfold CallWorld.wake
  split
  · rename_i domain next missed hcall
    exact ⟨h.l1, h.l2, calls_set h hcall (q := .sleep) (r := interrupted) trivial, h.stray⟩
  · exact h

theorem callInv_resolve {dataPlane f : Str → Str} (hf : Answers dataPlane f) {w : CallWorld}
    (h : CallInv f w) (config : ZoneConfig) (domain : HostName) :
    CallInv f { w with
      calls := w.calls ++ [⟨domain, CacheClient.resolve config domain, false⟩] } := by
  refine ⟨h.l1, h.l2, fun c hc => ?_, h.stray⟩
  rcases List.mem_append.mp hc with hold | hnew
  · exact h.calls c hold
  · obtain rfl := List.mem_singleton.mp hnew
    exact resolve_meets (transparency_suits hf domain) config false

variable [Unicode]

/-- A cache server handles a faithful message. -/
theorem callInv_serve {dataPlane f : Str → Str} (hf : Answers dataPlane f) {w : CallWorld}
    (h : CallInv f w) {d : HostName} {tier : Tier} (ip : Str) {message : Str} (now : Time)
    (hm : tier ≠ .dataPlane → Faithful f d message) :
    CallInv f (w.serve dataPlane tier ip message now).1 ∧
      (tier ≠ .dataPlane → ReplySound f d message (w.serve dataPlane tier ip message now).2) := by
  cases tier with
  | l1 =>
    obtain ⟨hcache, hreply⟩ := l1_faithful hf (hm (by decide)) (h.l1 ip)
    refine ⟨⟨fun x => ?_, h.l2, h.calls, h.stray⟩, fun _ => hreply⟩
    show CacheSound f (if x = ip then _ else w.l1 x)
    split
    · exact hcache
    · exact h.l1 x
  | l2 =>
    obtain ⟨hcache, hreply⟩ := l2_faithful hf (hm (by decide)) (h.l2 ip) fun _ => now
    refine ⟨⟨h.l1, fun x => ?_, h.calls, h.stray⟩, fun _ => hreply⟩
    show CacheSound f (if x = ip then _ else w.l2 x).cache
    split
    · exact hcache
    · exact h.l2 x
  | dataPlane => exact ⟨h, fun hne => absurd rfl hne⟩

theorem callInv_exchange {dataPlane f : Str → Str} (hf : Answers dataPlane f) {w : CallWorld}
    (h : CallInv f w) (i : ℕ) (now : Time) : CallInv f (w.exchange dataPlane i now) := by
  unfold CallWorld.exchange
  split
  · rename_i domain tier ip message next missed hcall
    split
    · exact h
    · rename_i address _
      have hasks := asks_of_call h hcall
      obtain ⟨hserved, hreply⟩ := callInv_serve hf h address now hasks.2
      have hcalls := calls_set h hcall (r := some (w.serve dataPlane tier address message now).2)
        (by
          refine ⟨?_, ?_⟩
          · rintro rfl line hline
            obtain rfl : message = domain.val := hasks.1 rfl
            exact Option.some.inj (hline.symm.trans (hf.line domain))
          · intro htier reply hreply'
            rw [← Option.some.inj hreply']
            exact hreply htier)
      exact ⟨hserved.l1, hserved.l2, hcalls, hserved.stray⟩
  · exact h

theorem callInv_arrive {dataPlane f : Str → Str} (hf : Answers dataPlane f) {w : CallWorld}
    (h : CallInv f w) (k : ℕ) (now : Time) : CallInv f (w.arrive dataPlane k now) := by
  unfold CallWorld.arrive
  split
  · rename_i tier ip message hstray
    have hstray' : ∀ p ∈ w.stray.eraseIdx k, p.1 ≠ .dataPlane → ∃ d : HostName, Faithful f d p.2.2 :=
      fun p hp => h.stray p (List.mem_of_mem_eraseIdx hp)
    by_cases htier : tier = .dataPlane
    · subst htier
      exact ⟨h.l1, h.l2, h.calls, hstray'⟩
    · obtain ⟨d, hm⟩ := h.stray _ (List.mem_of_getElem? hstray) htier
      obtain ⟨hserved, -⟩ := callInv_serve (d := d) hf h ip now fun _ => hm
      exact ⟨hserved.l1, hserved.l2, hserved.calls, hstray'⟩
  · exact h

/-- **The step lemma.** -/
theorem callInv_step {dataPlane f : Str → Str} (hf : Answers dataPlane f) {w : CallWorld}
    (h : CallInv f w) (e : CallEvent) : CallInv f (w.step dataPlane e) := by
  cases e with
  | resolve config domain => exact callInv_resolve hf h config domain
  | exchange i now => exact callInv_exchange hf h i now
  | abandon i => exact callInv_abandon h i
  | arrive k now => exact callInv_arrive hf h k now
  | wake i interrupted => exact callInv_wake h i interrupted

/-- **The two-level cache is transparent.** When the data plane answers every name `d` with `f d`, then
in every state that any number of concurrent calls can lead to, whatever fails, expires or is evicted,
every cache entry is the answer for its key and every call that has ended returned the answer for its
name, or the empty text after a miss of its own at the data plane. -/
theorem cache_transparent {dataPlane f : Str → Str} (hf : Answers dataPlane f)
    (capacity1 capacity2 : Str → ℕ) (es : List CallEvent) :
    Always (Transparent f) (CallWorld.step dataPlane) (CallWorld.start capacity1 capacity2) es := by
  have hinv : Always (CallInv f) (CallWorld.step dataPlane) (CallWorld.start capacity1 capacity2) es :=
    always_of_step (callInv_start f capacity1 capacity2) fun _ e h => callInv_step hf h e
  exact hinv.mono fun _ h => transparent_of_inv h

omit [Unicode] in
/-- A data plane with one address for every name. -/
theorem answers_const : Answers (fun _ => "1.2.3.4\n".toList) fun _ => "1.2.3.4".toList :=
  ⟨fun _ => by decide, fun _ => Or.inr (by decide)⟩

omit [Unicode] in
/-- The name `a.com`. -/
def exampleName : HostName := ⟨"a.com".toList, by
  intro c hc
  have hc' : c ∈ ['a', '.', 'c', 'o', 'm'] := hc
  simp only [List.mem_cons, List.not_mem_nil, or_false] at hc'
  rcases hc' with rfl | rfl | rfl | rfl | rfl <;> decide⟩

omit [Unicode] in
/-- Two calls for one name: the first is granted the lease, the second waits, its first retry is
answered from L2, and the set that stores the hit in L1 arrives late. -/
theorem cache_transparent_two :
    Transparent (fun _ => "1.2.3.4".toList)
      (run (@CallWorld.step Unicode.ascii fun _ => "1.2.3.4\n".toList)
        (CallWorld.start (fun _ => 1) fun _ => 1)
        [.resolve ⟨some "127.0.0.1".toList, [], []⟩ exampleName,
          .resolve ⟨some "127.0.0.1".toList, [], []⟩ exampleName,
          .exchange 0 0, .exchange 1 0, .exchange 0 0, .exchange 1 0, .exchange 0 0, .exchange 0 0,
          .wake 1 false, .exchange 1 second, .abandon 1, .arrive 0 second]) :=
  @cache_transparent Unicode.ascii _ _ answers_const (fun _ => 1) (fun _ => 1) _ _ (List.prefix_refl _)

end DsDns
