/-
  What a request without a response has sent.

  The name is read before the caches and the data plane are asked, the question section and the address
  afterwards. So a request that gets no response may have sent messages: `silent_iff` says exactly when none of its
  runs without a response sends any. A run is over the replies that can be (`Request.Honest`): without an address
  there is no connection, and nothing arrives.
-/
import DsDns.ControlPlane.Calls
import DsDns.ControlPlane.Equiv.CacheClient
import DsDns.ControlPlane.Equiv.DnsServer
import DsDns.ControlPlane.Equiv.Injection
import DsDns.ControlPlane.Equiv.Stage

namespace DsDns

open Interaction

/-! ### Messages and replies -/

/-- Something arrives on a connection only. -/
def Request.Honest : (q : Request) → q.Reply → Prop
  | .send _ ip _, arrived => arrived = (none : Option Str) ∨ (connection ip).isSome
  | .sleep, _ => True

/-- The question is a message to a server. -/
def Request.Sends : Request → Prop
  | .send _ ip _ => (connection ip).isSome
  | .sleep => False

/-- Where the messages for a name go. -/
def tierAddress (config : ZoneConfig) (domain : Str) : Tier → Option Str
  | .l1 => selectServer config config.l1Servers domain
  | .l2 => selectServer config config.l2Servers domain
  | .dataPlane => config.leaderIp

/-- The name has no server. -/
def Unreachable (config : ZoneConfig) (domain : Str) : Prop :=
  ∀ tier, connection (tierAddress config domain tier) = none

/-- A line that the caches or the data plane can answer with and that is not taken for a miss; `resolve` looks for
the texts of leases in the answers of the caches only. -/
structure MayArrive (config : ZoneConfig) (r : Str) : Prop where
  oneLine : '\n' ∉ r ∧ '\r' ∉ r
  not_blank : isBlank r = false
  not_miss : r ≠ "N/A".toList
  lease : startsWith r "LEASE;".toList = true → (connection config.leaderIp).isSome

theorem exists_honest (q : Request) : ∃ r, q.Honest r := by
  cases q with
  | send tier ip message => exact ⟨none, Or.inl rfl⟩
  | sleep => exact ⟨true, trivial⟩

theorem runs_send {α : Type} {tier : Tier} {ip : Option Str} {message : Str} {f : Option Str → Client α}
    {asked : List Request} {a : α} : Runs Request.Honest (CacheClient.send tier ip message >>= f) asked a ↔
      ∃ (arrived : Option Str) (later : List Request), asked = .send tier ip message :: later ∧
        (arrived = none ∨ (connection ip).isSome) ∧
        Runs Request.Honest (f (arrived.bind readLine)) later a :=
  runs_ask

/-- A `send` that gets this reply, in front of a program that has a run. -/
theorem exists_runs_send {α : Type} {tier : Tier} {ip : Option Str} {message : Str}
    {f : Option Str → Client α} {a : α} (arrived : Option Str)
    (hhonest : arrived = none ∨ (connection ip).isSome)
    (h : ∃ later, Runs Request.Honest (f (arrived.bind readLine)) later a) :
    ∃ asked, Runs Request.Honest (CacheClient.send tier ip message >>= f) asked a := by
  obtain ⟨later, hlater⟩ := h
  exact ⟨_, runs_send.mpr ⟨arrived, later, rfl, hhonest, hlater⟩⟩

/-! ### Runs of `resolve` -/

section Resolve

variable {config : ZoneConfig} {domain v r : Str} {asked : List Request}

theorem ip_of_asks {tier : Tier} {ip : Option Str} {message : Str}
    (h : Asks (CacheClient.resolve config domain) (.send tier ip message)) :
    ip = tierAddress config domain tier := by
  obtain ⟨stage, hstage⟩ := (resolve_follows config domain).of_asks h
  cases stage with
  | storing =>
    obtain ⟨v, hv⟩ := hstage
    cases hv
    rfl
  | closing =>
    obtain ⟨v, hv⟩ := hstage
    cases hv
    rfl
  | sleeping waits => cases hstage
  | ended => exact absurd hstage id
  | _ =>
    cases hstage
    rfl

/-- Without servers nothing is sent. -/
theorem not_sends_of_unreachable (hun : Unreachable config domain)
    (h : Runs Request.Honest (CacheClient.resolve config domain) asked v) : ∀ q ∈ asked, ¬ q.Sends := by
  intro q hq hsends
  cases q with
  | sleep => exact hsends
  | send tier ip message =>
    have hconnected : (connection ip).isSome := hsends
    rw [ip_of_asks (h.asks hq), hun tier] at hconnected
    exact absurd hconnected (by simp)

/-- The result of a call is empty, or may have arrived. -/
theorem mayArrive_of_runs (h : Runs Request.Honest (CacheClient.resolve config domain) asked v) :
    v = [] ∨ MayArrive config v := by
  let c : Contract Request Request.Reply Str Unit :=
    { asks := fun _ => True
      replies := fun q r =>
        (∀ tier ip message, q = .send tier ip message → ip = tierAddress config domain tier) ∧ q.Honest r
      note := fun _ _ _ => ()
      ends := fun _ v => v = [] ∨ MayArrive config v }
  have hsuits : Suits c domain (MayArrive config) := by
    constructor
    · intros
      trivial
    · intros
      trivial
    · intros
      trivial
    · trivial
    · intro tier ip arrived r _ _ hr hhit
      obtain ⟨text, -, hline⟩ := Option.bind_eq_some_iff.mp hr
      unfold isHit at hhit
      simp only [Bool.and_eq_true, Bool.not_eq_true', decide_eq_true_eq] at hhit
      obtain ⟨⟨hblank, hmiss⟩, hlease⟩ := hhit
      exact ⟨readLine_eq_some hline, hblank, hmiss, fun h => absurd (hlease.symm.trans h) (by decide)⟩
    · intro ip arrived r hreply hr hblank hmiss
      obtain ⟨text, harrived, hline⟩ := Option.bind_eq_some_iff.mp hr
      refine ⟨readLine_eq_some hline, hblank, hmiss, fun _ => ?_⟩
      obtain ⟨hip, hhonest⟩ := hreply
      have hleader : ip = config.leaderIp := hip _ _ _ rfl
      rcases hhonest with hnone | hconnected
      · rw [harrived] at hnone
        exact absurd hnone (by simp)
      · rwa [← hleader]
    · intros
      exact Or.inl rfl
    · exact fun _ _ hgood => Or.inr hgood
  have hplaced : Runs c.replies (CacheClient.resolve config domain) asked v :=
    h.of_asks fun q hq tier ip message heq => ip_of_asks (heq ▸ hq)
  obtain ⟨_, hends⟩ := (resolve_meets hsuits config ()).of_runs hplaced
  exact hends

/-- A run that sends nothing has found no address. -/
theorem unreachable_of_runs (h : Runs Request.Honest (CacheClient.resolve config domain) asked v)
    (hsilent : ∀ q ∈ asked, ¬ q.Sends) : Unreachable config domain := by
  have hnone : ∀ {tier : Tier} {ip : Option Str} {message : Str} {arrived : Option Str},
      .send tier ip message ∈ asked → arrived = none ∨ (connection ip).isSome = true →
      connection ip = none ∧ arrived = none := by
    intro tier ip message arrived hq hor
    have hno : ¬ (connection ip).isSome = true := hsilent _ hq
    exact ⟨Option.not_isSome_iff_eq_none.mp hno, hor.resolve_right hno⟩
  -- L1 is asked first, then L2, then the data plane.
  obtain ⟨arrived, later, h1, hhonest, h⟩ := runs_send.mp h
  obtain ⟨hl1, rfl⟩ := hnone (by rw [h1]; exact List.mem_cons_self) hhonest
  obtain ⟨arrived, later, h2, hhonest, h⟩ := runs_send.mp
    (show Runs Request.Honest (CacheClient.resolveL2 config _ _ domain) later v from h)
  obtain ⟨hl2, rfl⟩ := hnone (by
    rw [h1, h2]
    exact List.mem_cons_of_mem _ List.mem_cons_self) hhonest
  obtain ⟨first, value, later, h3, h, -⟩ := runs_bind.mp
    (show Runs Request.Honest (CacheClient.fetchAndStore config _ _ domain) later v from h)
  obtain ⟨arrived, later, h4, hhonest, -⟩ := runs_send.mp h
  obtain ⟨hleader, -⟩ := hnone (by
    rw [h1, h2, h3, h4]
    exact List.mem_cons_of_mem _ (List.mem_cons_of_mem _ List.mem_cons_self)) hhonest
  intro tier
  cases tier with
  | l1 => exact hl1
  | l2 => exact hl2
  | dataPlane => exact hleader

theorem readLine_of_mayArrive (h : MayArrive config r) : readLine r = some r := by
  have hne : r ≠ [] := by
    rintro rfl
    exact absurd h.not_blank (by decide)
  have hall : ∀ c ∈ r, decide (c ≠ '\n' ∧ c ≠ '\r') = true := by
    intro c hc
    apply decide_eq_true
    constructor
    · rintro rfl
      exact h.oneLine.1 hc
    · rintro rfl
      exact h.oneLine.2 hc
  unfold readLine
  rw [if_neg hne, List.takeWhile_eq_self_iff.mpr hall]

theorem MayArrive.isHit (h : MayArrive config r) (hlease : startsWith r "LEASE;".toList = false) :
    isHit r = true := by
  unfold DsDns.isHit
  rw [h.not_blank, hlease, decide_eq_true h.not_miss]
  rfl

/-- With a leader, both caches may fail and the data plane answers. -/
theorem exists_runs_of_leader (hleader : (connection config.leaderIp).isSome) (hr : MayArrive config r) :
    ∃ asked, Runs Request.Honest (CacheClient.resolve config domain) asked r := by
  have hline : Option.bind (some r) readLine = some r := readLine_of_mayArrive hr
  have hfetched : ∃ first, Runs Request.Honest (CacheClient.fetchFromDataPlane config domain) first r := by
    refine exists_runs_send (some r) (Or.inr hleader) ?_
    rw [hline]
    refine ⟨[], runs_pure.mpr ⟨rfl, (if_neg ?_).symm⟩⟩
    rintro (hblank | hmiss)
    · rw [hr.not_blank] at hblank
      exact absurd hblank (by simp)
    · exact hr.not_miss hmiss
  have hstored : ∃ later, Runs Request.Honest (do
      let _ ← CacheClient.send .l2 (tierAddress config domain .l2) (setMessage domain r)
      let _ ← CacheClient.send .l1 (tierAddress config domain .l1) (setMessage domain r)
      return r) later r :=
    exists_runs_send none (Or.inl rfl)
      (exists_runs_send none (Or.inl rfl) ⟨[], runs_pure.mpr ⟨rfl, rfl⟩⟩)
  obtain ⟨first, hfirst⟩ := hfetched
  obtain ⟨later, hlater⟩ := hstored
  refine exists_runs_send none (Or.inl rfl) (exists_runs_send none (Or.inl rfl) ?_)
  refine ⟨_, runs_bind.mpr ⟨first, r, later, rfl, hfirst, ?_⟩⟩
  rw [if_neg (by rw [hr.not_blank]; simp)]
  exact hlater

/-- Every line that may arrive is the result of some call, if the name has a server. -/
theorem exists_runs_of_mayArrive (hreach : ¬ Unreachable config domain) (hr : MayArrive config r) :
    ∃ asked, Runs Request.Honest (CacheClient.resolve config domain) asked r := by
  by_cases hleader : (connection config.leaderIp).isSome = true
  · exact exists_runs_of_leader hleader hr
  have hline : Option.bind (some r) readLine = some r := readLine_of_mayArrive hr
  have hhit : DsDns.isHit r = true := hr.isHit (Bool.eq_false_iff.mpr fun hlease => hleader (hr.lease hlease))
  have hdone : ∃ later, Runs Request.Honest (pure r : Client Str) later r := ⟨[], runs_pure.mpr ⟨rfl, rfl⟩⟩
  by_cases hl1 : (connection (tierAddress config domain .l1)).isSome = true
  · -- L1 has the value.
    refine exists_runs_send (some r) (Or.inr hl1) ?_
    rw [hline]
    show ∃ later, Runs Request.Honest (if DsDns.isHit r then _ else _) later r
    rw [if_pos hhit]
    exact hdone
  · -- L2 has it.
    have hl2 : (connection (tierAddress config domain .l2)).isSome = true := by
      by_contra hl2
      apply hreach
      intro tier
      cases tier with
      | l1 => exact Option.not_isSome_iff_eq_none.mp hl1
      | l2 => exact Option.not_isSome_iff_eq_none.mp hl2
      | dataPlane => exact Option.not_isSome_iff_eq_none.mp hleader
    refine exists_runs_send none (Or.inl rfl) ?_
    refine exists_runs_send (some r) (Or.inr hl2) ?_
    rw [hline]
    show ∃ later, Runs Request.Honest (if DsDns.isHit r then _ else _) later r
    rw [if_pos hhit]
    exact exists_runs_send none (Or.inl rfl) hdone

end Resolve

/-! ### Requests -/

/-- A response fails where the question or the address does. -/
theorem buildResponse_eq_none_iff {getByName : Str → Option (List UInt8)} {query : List UInt8} {ip : Str}
    (h : 12 ≤ query.length) : buildResponse getByName query (if isBlank ip then none else some ip) = none ↔
      questionSection query = none ∨ isBlank ip = false ∧ getByName ip = none := by
  unfold buildResponse
  rw [if_neg (by omega), foundAddress_resolved]
  cases hquestion : questionSection query with
  | none => exact iff_of_true rfl (Or.inl rfl)
  | some question =>
    rw [or_iff_right (by simp)]
    cases hblank : isBlank ip with
    | true => exact iff_of_false (by simp [answerSection]) (by simp)
    | false =>
      cases hname : getByName ip with
      | none => exact iff_of_true (by simp [answerSection, hname]) ⟨rfl, rfl⟩
      | some addr => exact iff_of_false (by simp [answerSection, hname]) (by simp)

variable [Unicode] [Jvm]

namespace DnsServer

/-- Whenever the request gets no response, it has sent no message. -/
def Silent (s : DnsServer) (now : Time) (query : List UInt8) (clientIp : Str) : Prop :=
  ∀ asked, Runs Request.Honest (s.handleRequest now query clientIp).2 asked none → ∀ q ∈ asked, ¬ q.Sends

/-- The runs of a request that is looked up. -/
theorem runs_handleRequest {s : DnsServer} {now : Time} {query : List UInt8} {clientIp domain : Str}
    (hlimited : (s.rateLimiter.isRateLimited clientIp now).2 = false)
    (hparse : parseDomain query = some domain) (hname : isBlank domain = false)
    (hexternal : s.aclManager.isInternalRequest clientIp = false) (asked : List Request) :
    Runs Request.Honest (s.handleRequest now query clientIp).2 asked none ↔
      ∃ ip, Runs Request.Honest (CacheClient.resolve s.zoneConfig domain) asked ip ∧
        (questionSection query = none ∨ isBlank ip = false ∧ s.getByName ip = none) := by
  have hlength : 12 ≤ query.length := by
    by_contra hshort
    unfold parseDomain at hparse
    rw [if_pos (by omega)] at hparse
    exact absurd hparse (by simp)
  have hdomain : (parseDomain query).filter (fun domain => !isBlank domain) = some domain :=
    Option.filter_eq_some_iff.mpr ⟨hparse, by simp [hname]⟩
  have hrequest : (s.handleRequest now query clientIp).2 = CacheClient.resolve s.zoneConfig domain >>= fun ip =>
      pure (buildResponse s.getByName query (if isBlank ip then none else some ip)) := by
    unfold handleRequest
    simp only [hlimited]
    unfold answer lookup
    simp only [hdomain, hexternal, Bool.false_eq_true, if_false]
  rw [hrequest, runs_bind]
  constructor
  · rintro ⟨first, ip, later, rfl, hfirst, hlater⟩
    obtain ⟨rfl, hnone⟩ := runs_pure.mp hlater
    rw [List.append_nil]
    exact ⟨ip, hfirst, (buildResponse_eq_none_iff hlength).mp hnone.symm⟩
  · rintro ⟨ip, hrun, hnone⟩
    refine ⟨asked, ip, [], (List.append_nil asked).symm, hrun, ?_⟩
    exact runs_pure.mpr ⟨rfl, ((buildResponse_eq_none_iff hlength).mpr hnone).symm⟩

/-- A request that is not looked up sends nothing. -/
theorem silent_of_not_looked_up {s : DnsServer} {now : Time} {query : List UInt8} {clientIp : Str}
    (h : (s.rateLimiter.isRateLimited clientIp now).2 = true ∨ ∀ domain, parseDomain query = some domain →
      isBlank domain = false → s.aclManager.isInternalRequest clientIp = true) :
    s.Silent now query clientIp := by
  have hpure : ∃ response, (s.handleRequest now query clientIp).2 = pure response := by
    unfold handleRequest
    simp only
    cases hlimited : (s.rateLimiter.isRateLimited clientIp now).2 with
    | true => exact ⟨none, rfl⟩
    | false =>
      have hinternal := h.resolve_left (by rw [hlimited]; simp)
      show ∃ response, s.answer query clientIp = pure response
      unfold answer
      cases hdomain : (parseDomain query).filter fun domain => !isBlank domain with
      | none => exact ⟨_, rfl⟩
      | some domain =>
        obtain ⟨hparse, hname⟩ := Option.filter_eq_some_iff.mp hdomain
        unfold lookup
        rw [hinternal domain hparse (by simpa using hname)]
        exact ⟨_, rfl⟩
  obtain ⟨response, hresponse⟩ := hpure
  intro asked hrun
  rw [hresponse] at hrun
  obtain ⟨rfl, -⟩ := runs_pure.mp hrun
  simp

/-- A request that is looked up is silent if its name has no server, or if everything that is looked at after
the resolution is in order. -/
theorem silent_iff_of_looked_up {s : DnsServer} {now : Time} {query : List UInt8} {clientIp domain : Str}
    (hlimited : (s.rateLimiter.isRateLimited clientIp now).2 = false)
    (hparse : parseDomain query = some domain) (hname : isBlank domain = false)
    (hexternal : s.aclManager.isInternalRequest clientIp = false) :
    s.Silent now query clientIp ↔ Unreachable s.zoneConfig domain ∨
      (questionSection query).isSome ∧ ∀ r, MayArrive s.zoneConfig r → (s.getByName r).isSome := by
  have hruns := runs_handleRequest hlimited hparse hname hexternal
  constructor
  · intro hsilent
    rw [or_iff_not_imp_left]
    intro hreach
    constructor
    · by_contra hquestion
      obtain ⟨asked, ip, hrun⟩ := exists_runs exists_honest (CacheClient.resolve s.zoneConfig domain)
      have hnone : questionSection query = none := Option.not_isSome_iff_eq_none.mp hquestion
      exact hreach (unreachable_of_runs hrun
        (hsilent asked ((hruns asked).mpr ⟨ip, hrun, Or.inl hnone⟩)))
    · intro r hr
      by_contra haddr
      obtain ⟨asked, hrun⟩ := exists_runs_of_mayArrive hreach hr
      have hnone : s.getByName r = none := Option.not_isSome_iff_eq_none.mp haddr
      exact hreach (unreachable_of_runs hrun
        (hsilent asked ((hruns asked).mpr ⟨r, hrun, Or.inr ⟨hr.not_blank, hnone⟩⟩)))
  · intro h asked hrun
    obtain ⟨ip, hrun, hfails⟩ := (hruns asked).mp hrun
    rcases h with hun | ⟨hquestion, hnames⟩
    · exact not_sends_of_unreachable hun hrun
    · -- The response has been built, so the request is answered.
      rcases hfails with hnone | ⟨hblank, hnone⟩
      · rw [hnone] at hquestion
        exact absurd hquestion (by simp)
      · rcases mayArrive_of_runs hrun with rfl | hip
        · exact absurd hblank (by decide)
        · have haddr := hnames ip hip
          rw [hnone] at haddr
          exact absurd haddr (by simp)

end DnsServer

/-- **A request without a response has sent nothing** exactly if it is not looked up, if its name has no server, or
if it has a question section and every line that may arrive is an address. -/
theorem silent_iff (s : DnsServer) (now : Time) (query : List UInt8) (clientIp : Str) :
    s.Silent now query clientIp ↔
      (s.rateLimiter.isRateLimited clientIp now).2 = true ∨ ∀ domain, parseDomain query = some domain →
        isBlank domain = false → s.aclManager.isInternalRequest clientIp = true ∨
          Unreachable s.zoneConfig domain ∨
            (questionSection query).isSome ∧ ∀ r, MayArrive s.zoneConfig r → (s.getByName r).isSome := by
  cases hlimited : (s.rateLimiter.isRateLimited clientIp now).2 with
  | true => exact iff_of_true (DnsServer.silent_of_not_looked_up (Or.inl hlimited)) (Or.inl rfl)
  | false =>
    rw [or_iff_right (by simp)]
    by_cases hlooked : ∃ domain, parseDomain query = some domain ∧ isBlank domain = false ∧
        s.aclManager.isInternalRequest clientIp = false
    · obtain ⟨domain, hparse, hname, hexternal⟩ := hlooked
      rw [DnsServer.silent_iff_of_looked_up hlimited hparse hname hexternal]
      constructor
      · intro h domain' hparse' _
        obtain rfl := Option.some.inj (hparse.symm.trans hparse')
        exact Or.inr h
      · intro h
        exact (h domain hparse hname).resolve_left (by rw [hexternal]; simp)
    · have hinternal : ∀ domain, parseDomain query = some domain → isBlank domain = false →
          s.aclManager.isInternalRequest clientIp = true := by
        intro domain hparse hname
        by_contra hexternal
        exact hlooked ⟨domain, hparse, hname, Bool.eq_false_iff.mpr hexternal⟩
      refine iff_of_true (DnsServer.silent_of_not_looked_up (Or.inr hinternal)) ?_
      exact fun domain hparse hname => Or.inl (hinternal domain hparse hname)

omit [Unicode] [Jvm] in
/-- A server with both caches and the data plane on one machine. -/
def localServer : DnsServer := { plainServer with zoneConfig := localZone }

omit [Unicode] [Jvm] in
/-- A query for `a` without a question section: L1 answers, and there is no response. -/
theorem runs_short {query : List UInt8} (hparse : @parseDomain Jvm.ascii query = some ['a'])
    (hquestion : questionSection query = none) : Runs Request.Honest
      (@DnsServer.handleRequest Unicode.ascii Jvm.ascii localServer 0 query "8.8.8.8".toList).2
      [.send .l1 (some "127.0.0.1".toList) "GET;a".toList] none := by
  have hrun : Runs Request.Honest (CacheClient.resolve localZone ['a'])
      [.send .l1 (some "127.0.0.1".toList) "GET;a".toList] "1.1.1.1".toList :=
    runs_send.mpr ⟨some "1.1.1.1".toList, [], rfl, Or.inr (by decide), runs_pure.mpr ⟨rfl, rfl⟩⟩
  exact (@DnsServer.runs_handleRequest Unicode.ascii Jvm.ascii localServer 0 query "8.8.8.8".toList ['a']
    (by decide) hparse (by decide) (by decide) _).mpr ⟨_, hrun, Or.inl hquestion⟩

omit [Unicode] [Jvm] in
/-- A query whose name ends with the packet, and one without QTYPE and QCLASS. -/
theorem not_silent_short :
    Runs Request.Honest
      (@DnsServer.handleRequest Unicode.ascii Jvm.ascii localServer 0 unterminated "8.8.8.8".toList).2
      [.send .l1 (some "127.0.0.1".toList) "GET;a".toList] none ∧
    ¬ @DnsServer.Silent Unicode.ascii Jvm.ascii localServer 0 unterminated "8.8.8.8".toList ∧
    Runs Request.Honest
      (@DnsServer.handleRequest Unicode.ascii Jvm.ascii localServer 0 (unterminated ++ [0]) "8.8.8.8".toList).2
      [.send .l1 (some "127.0.0.1".toList) "GET;a".toList] none ∧
    ¬ @DnsServer.Silent Unicode.ascii Jvm.ascii localServer 0 (unterminated ++ [0]) "8.8.8.8".toList := by
  have hunterminated := @runs_short unterminated (by decide) (by decide)
  have hterminated := @runs_short (unterminated ++ [0]) (by decide) (by decide)
  have hsends : (connection (some "127.0.0.1".toList)).isSome = true := by decide
  refine ⟨hunterminated, fun hsilent => ?_, hterminated, fun hsilent => ?_⟩
  · exact hsilent _ hunterminated _ List.mem_cons_self hsends
  · exact hsilent _ hterminated _ List.mem_cons_self hsends

end DsDns
