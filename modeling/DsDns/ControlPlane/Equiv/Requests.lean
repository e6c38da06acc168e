/-
  Every answer is for the name that was asked.

  A request gets its response from the call that it has started, the call its value from the caches and the data
  plane, and the caches hold nothing but answers of the data plane (`CallInv`). `Served` puts these together, and
  every event keeps it (`served_step`). So whatever the requests, the other servers and the network do, a response
  carries the address that the data plane has for the name in the question, or it denies the name after a miss of
  the request's own call (`answers_right`).
-/
import DsDns.ControlPlane.Requests
import DsDns.ControlPlane.Equiv.Bill
import DsDns.ControlPlane.Equiv.NameText

namespace DsDns

/-- `handleRequest` is what `RequestWorld.request` does, then the call, then `respond`. -/
theorem answer_eq [Unicode] [Jvm] (s : DnsServer) (query : List UInt8) (clientIp : Str) : s.answer query clientIp =
    match (parseDomain query).filter fun domain => !isBlank domain with
    | none => pure (buildResponse s.getByName query none)
    | some domain =>
      if s.aclManager.isInternalRequest clientIp then pure (s.respond query internalAddress)
      else CacheClient.resolve s.zoneConfig domain >>= fun ipAddress => pure (s.respond query ipAddress) := by
  unfold DnsServer.answer DnsServer.lookup
  cases (parseDomain query).filter fun domain => !isBlank domain with
  | none => rfl
  | some domain => cases s.aclManager.isInternalRequest clientIp <;> rfl

/-! ### The response on the wire -/

/-- A decoder reads in the response the identifier of the query and its question, and the address as the only
record, or none. -/
def Tells (query : List UInt8) (question : DnsQuestion) (addr : Option (List UInt8)) (response : List UInt8) : Prop :=
  ∃ id, (readBe16 query).map Prod.fst = some id ∧
    decodeMessage response = some (⟨headerOf id addr.isSome, [question],
      addr.toList.map fun a => ⟨question.name, 1, 1, ttlSeconds, 4, a⟩, [], []⟩, [])

/-- What the builder makes of a text that is an address, or blank. -/
theorem tells_of_respond {s : DnsServer} {query response : List UInt8} {question : DnsQuestion}
    (h : HostQuery query question) (hfour : ∀ ip addr, s.getByName ip = some addr → addr.length = 4) {ip : Str}
    (hresponse : s.respond query ip = some response) :
    (isBlank ip = true ∧ Tells query question none response) ∨
      isBlank ip = false ∧ ∃ addr, s.getByName ip = some addr ∧ Tells query question (some addr) response := by
  have hlabels : ∀ label ∈ question.name, IsLabel label := fun label hl => (h.isLabel label hl).1
  obtain ⟨id, hid, hlt, hbuild⟩ :=
    @buildResponse_hostQuery s.getByName query question h (if isBlank ip then none else some ip)
  unfold DnsServer.respond at hresponse
  rw [hbuild] at hresponse
  cases hblank : isBlank ip with
  | true =>
    rw [hblank] at hresponse
    left
    obtain rfl := Option.some.inj hresponse
    exact ⟨rfl, id, hid, decodeMessage_responseOf hlt hlabels h.qtype h.qclass⟩
  | false =>
    right
    have hfound : foundAddress (if isBlank ip = true then none else some ip) = some ip := by
      rw [hblank]
      exact foundAddress_eq_some_iff.mpr ⟨rfl, hblank⟩
    rw [hfound] at hresponse
    obtain ⟨answer, hanswer, rfl⟩ := Option.map_eq_some_iff.mp hresponse
    obtain ⟨addr, haddr, rfl⟩ := Option.map_eq_some_iff.mp hanswer
    refine ⟨rfl, addr, haddr, id, hid, ?_⟩
    have hlength := hfour ip addr haddr
    rw [decodeMessage_responseOf hlt hlabels h.qtype h.qclass, Option.isSome_some, if_pos rfl, readMany_one,
      readRecord_answerRecord hlabels, if_neg (by omega), List.take_of_length_le (by omega),
      List.drop_eq_nil_iff.mpr (by omega)]
    rfl

theorem IsHostByte.toNat_lt {b : UInt8} (h : IsHostByte b) : b.toNat < 128 := by
  rcases h with h | rfl | rfl
  · have hb := b.toNat_lt
    have hchar : (Char.ofNat b.toNat).toNat = b.toNat := by
      rw [Char.ofNat, dif_pos (Or.inl (show b.toNat < 0xD800 by omega))]
      rfl
    have hle := (toNat_of_isAlphanum h).2
    omega
  · decide
  · decide

theorem IsHostByte.not_whitespace {b : UInt8} (h : IsHostByte b) :
    isWhitespace (Char.ofNat b.toNat).toLower = false := by
  have hall : ∀ n < 128, ((Char.ofNat n).isAlphanum = true ∨ n = 45 ∨ n = 95) →
      isWhitespace (Char.ofNat n).toLower = false := by decide +kernel
  apply hall b.toNat h.toNat_lt
  rcases h with h | rfl | rfl
  · exact Or.inl h
  · exact Or.inr (Or.inl rfl)
  · exact Or.inr (Or.inr rfl)

theorem not_blank_dottedName {query : List UInt8} {question : DnsQuestion} (h : HostQuery query question)
    (hne : question.name ≠ []) : isBlank (dottedName question.name) = false := by
  obtain ⟨label, labels, hname⟩ := List.exists_cons_of_ne_nil hne
  obtain ⟨hlabel, hbytes⟩ := h.isLabel label (by rw [hname]; exact List.mem_cons_self)
  obtain ⟨b, bytes, rfl⟩ : ∃ b bytes, label = b :: bytes :=
    List.exists_cons_of_ne_nil (by rintro rfl; exact absurd hlabel.1 (by decide))
  have hfirst : (Char.ofNat b.toNat).toLower ∈ dottedName question.name := by
    have hlower : (Char.ofNat b.toNat).toLower ∈ lowerLabel (b :: bytes) := List.mem_cons_self
    rw [hname]
    unfold dottedName
    cases labels with
    | nil =>
      rw [List.map_singleton, List.intercalate_singleton]
      exact hlower
    | cons next labels =>
      rw [List.map_cons, List.map_cons, List.intercalate_cons_cons, List.append_assoc]
      exact List.mem_append_left _ hlower
  apply Bool.eq_false_iff.mpr
  intro hall
  have := List.all_eq_true.mp hall _ hfirst
  rw [(hbytes b List.mem_cons_self).not_whitespace] at this
  exact absurd this (by decide)

/-- The text of the name in a query for a host. -/
theorem parseDomain_of_hostQuery [Jvm] (hjvm : Jvm.Ascii ‹Jvm›) {query : List UInt8} {question : DnsQuestion}
    (h : HostQuery query question) (hne : question.name ≠ []) :
    parseDomain query = some (dottedName question.name) := by
  obtain ⟨tail, htail⟩ := h.bytes
  have hquery : IsQueryFor query question.name :=
    ⟨h.length, fun label hl => (h.isLabel label hl).1,
      fun label hl b hb => ((h.isLabel label hl).2 b hb).toNat_lt, _, htail⟩
  rw [parseDomain_of_isQueryFor hjvm hquery, if_neg hne]

/-! ### What every event keeps -/

section Served

variable [Unicode] [Jvm]

/-- Where a response is from. -/
def FromCall (server : DnsServer) (w : CallWorld) (r : Returned) : Prop :=
  r.response = none ∨
  ((parseDomain r.query).filter (fun domain => !isBlank domain) = none ∧
    r.response = buildResponse server.getByName r.query none) ∨
  (server.aclManager.isInternalRequest r.clientIp = true ∧ r.response = server.respond r.query internalAddress) ∨
  ∃ i c v, r.call = some i ∧ w.calls[i]? = some c ∧ parseDomain r.query = some c.domain.val ∧
    server.aclManager.isInternalRequest r.clientIp = false ∧ c.client = .done v ∧
    r.response = server.respond r.query v

/-- What every event keeps: the configuration of the server, the caches and calls, and what the requests have to do
with them. -/
structure Served (f : Str → Str) (server : DnsServer) (w : RequestWorld) : Prop where
  getByName : w.server.getByName = server.getByName
  aclManager : w.server.aclManager = server.aclManager
  calls : CallInv f w.calls
  waiting : ∀ r ∈ w.waiting, server.aclManager.isInternalRequest r.clientIp = false ∧
    ∃ c, w.calls.calls[r.call]? = some c ∧ parseDomain r.query = some c.domain.val
  returned : ∀ r ∈ w.returned, FromCall server w.calls r

variable {dataPlane f : Str → Str} {server : DnsServer} {w : RequestWorld}

omit [Jvm] in
/-- A call keeps its name, and its result once it has one. -/
theorem call_kept {w : CallWorld} {i : ℕ} {c : Call} (h : w.calls[i]? = some c) (e : CallEvent) :
    ∃ c', (w.step dataPlane e).calls[i]? = some c' ∧ c'.domain = c.domain ∧
      ∀ v, c.client = .done v → c' = c := by
  rcases callStep_step dataPlane w i e with ⟨hsame, -⟩ | ⟨hnone, -⟩ |
    ⟨domain, q, next, missed, missed', r, hbefore, -, -, hafter⟩
  · exact ⟨c, hsame.trans h, rfl, fun _ _ => rfl⟩
  · exact absurd (hnone.symm.trans h) (by simp)
  · obtain rfl := Option.some.inj (hbefore.symm.trans h)
    exact ⟨_, hafter, rfl, fun v hv => absurd hv (by simp)⟩

theorem fromCall_step {w : CallWorld} {r : Returned} (h : FromCall server w r) (e : CallEvent) :
    FromCall server (w.step dataPlane e) r := by
  rcases h with h | h | h | ⟨i, c, v, hi, hc, hparse, hexternal, hv, hresponse⟩
  · exact Or.inl h
  · exact Or.inr (Or.inl h)
  · exact Or.inr (Or.inr (Or.inl h))
  · obtain ⟨c', hc', -, hdone⟩ := call_kept hc e
    obtain rfl := hdone v hv
    exact Or.inr (Or.inr (Or.inr ⟨i, c', v, hi, hc', hparse, hexternal, hv, hresponse⟩))

omit [Unicode] [Jvm] in
theorem respond_congr {s s' : DnsServer} (h : s.getByName = s'.getByName) (query : List UInt8) (ipAddress : Str) :
    s.respond query ipAddress = s'.respond query ipAddress := by
  unfold DnsServer.respond
  rw [h]

theorem served_start {server : DnsServer} (f : Str → Str) (capacity1 capacity2 : Str → ℕ) :
    Served f server (RequestWorld.start server capacity1 capacity2) where
  getByName := rfl
  aclManager := rfl
  calls := callInv_start f capacity1 capacity2
  waiting _ hr := absurd hr List.not_mem_nil
  returned _ hr := absurd hr List.not_mem_nil

/-- Another request that is over. -/
theorem Served.return (h : Served f server w) {r : Returned} (hr : FromCall server w.calls r) :
    Served f server { w with returned := w.returned ++ [r] } where
  getByName := h.getByName
  aclManager := h.aclManager
  calls := h.calls
  waiting := h.waiting
  returned x hx := by
    rcases List.mem_append.mp hx with hx | hx
    · exact h.returned x hx
    · rw [List.mem_singleton.mp hx]
      exact hr

/-- Something happens to the calls. -/
theorem Served.call (hf : Answers dataPlane f) (h : Served f server w) (e : CallEvent) :
    Served f server { w with calls := w.calls.step dataPlane e } where
  getByName := h.getByName
  aclManager := h.aclManager
  calls := callInv_step hf h.calls e
  waiting r hr := by
    obtain ⟨hexternal, c, hc, hparse⟩ := h.waiting r hr
    obtain ⟨c', hc', hdomain, -⟩ := call_kept hc e
    refine ⟨hexternal, c', hc', ?_⟩
    rw [hdomain]
    exact hparse
  returned r hr := fromCall_step (h.returned r hr) e

omit [Unicode] in
/-- The name of a request is what `parseDomain` reads. -/
theorem HostRequest.parseDomain_eq {r : HostRequest} {domain : HostName} (h : r.name = some domain) :
    parseDomain r.query = some domain.val := by
  have hparsed := r.parsed
  rw [h, Option.map_some] at hparsed
  exact (Option.filter_eq_some_iff.mp hparsed).1

theorem served_request (hf : Answers dataPlane f) (h : Served f server w) (now : Time) (r : HostRequest)
    (clientIp : Str) : Served f server (w.request dataPlane now r clientIp) := by
  -- The decision of the rate limiter changes the server, but nothing that a response depends on.
  have hlimiter : ∀ limiter, Served f server { w with server := { w.server with rateLimiter := limiter } } :=
    fun _ => ⟨h.getByName, h.aclManager, h.calls, h.waiting, h.returned⟩
  unfold RequestWorld.request
  simp only
  split
  · exact (hlimiter _).return (Or.inl rfl)
  split
  · rename_i hname
    have hparse := r.parsed
    rw [hname, Option.map_none] at hparse
    exact (hlimiter _).return (Or.inr (Or.inl ⟨hparse, congrArg (buildResponse · r.query none) h.getByName⟩))
  · rename_i domain hname
    split
    · rename_i hinternal
      exact (hlimiter _).return
        (Or.inr (Or.inr (Or.inl ⟨h.aclManager ▸ hinternal, respond_congr h.getByName r.query internalAddress⟩)))
    · rename_i hexternal
      have hcall := (hlimiter (w.server.rateLimiter.isRateLimited clientIp now).1).call hf
        (.resolve w.server.zoneConfig domain)
      refine ⟨hcall.getByName, hcall.aclManager, hcall.calls, fun x hx => ?_, hcall.returned⟩
      rcases List.mem_append.mp hx with hx | hx
      · exact hcall.waiting x hx
      · obtain rfl := List.mem_singleton.mp hx
        refine ⟨?_, _, List.getElem?_concat_length, HostRequest.parseDomain_eq hname⟩
        rw [← h.aclManager]
        exact Bool.eq_false_iff.mpr hexternal

theorem served_respond (h : Served f server w) (k : ℕ) : Served f server (w.respond k) := by
  unfold RequestWorld.respond
  cases hk : w.waiting[k]? with
  | none => exact h
  | some r =>
    obtain ⟨hexternal, c, hc, hparse⟩ := h.waiting r (List.mem_of_getElem? hk)
    simp only
    rw [hc]
    obtain ⟨domain, v | ⟨q, next⟩, missed⟩ := c
    · have hfrom : FromCall server w.calls ⟨r.query, r.clientIp, some r.call, w.server.respond r.query v⟩ := by
        exact Or.inr (Or.inr (Or.inr
          ⟨r.call, _, v, rfl, hc, hparse, hexternal, rfl, respond_congr h.getByName r.query v⟩))
      have hreturn := h.return hfrom
      exact ⟨hreturn.getByName, hreturn.aclManager, hreturn.calls,
        fun x hx => hreturn.waiting x (List.mem_of_mem_eraseIdx hx), hreturn.returned⟩
    · exact h

/-- **The step lemma.** -/
theorem served_step (hf : Answers dataPlane f) (h : Served f server w) (e : RequestEvent) :
    Served f server (w.step dataPlane e) := by
  cases e with
  | request now r clientIp => exact served_request hf h now r clientIp
  | call e => exact h.call hf e
  | respond k => exact served_respond h k

/-! ### Answers -/

/-- **Every answer is right.** In every run of requests, of the calls they start, of calls of other servers and of
whatever the network and the caches do: a response to a query for a host name has the identifier and the question
of the query, and one record with the address the client is to get: the internal one for an internal client, and for
the others the address for `f` of the name in the question. Instead of this record a client that is not internal can
be told that the name does not exist, if the call of this request has not heard an answer for this name from the
data plane. -/
theorem answers_right (hf : Answers dataPlane f) (hjvm : Jvm.Ascii ‹Jvm›)
    (hfour : ∀ ip addr, server.getByName ip = some addr → addr.length = 4) (capacity1 capacity2 : Str → ℕ)
    (es : List RequestEvent) :
    let w := run (RequestWorld.step dataPlane) (RequestWorld.start server capacity1 capacity2) es
    ∀ r ∈ w.returned, ∀ question, HostQuery r.query question → question.name ≠ [] → ∀ response,
      r.response = some response →
      if server.aclManager.isInternalRequest r.clientIp then
        ∃ addr, server.getByName internalAddress = some addr ∧ Tells r.query question (some addr) response
      else
        (∃ addr, server.getByName (f (dottedName question.name)) = some addr ∧
          Tells r.query question (some addr) response) ∨
        (Tells r.query question none response ∧ ∃ i c, r.call = some i ∧ w.calls.calls[i]? = some c ∧
          c.domain.val = dottedName question.name ∧ c.missed = true) := by
  intro w r hr question hquery hne response hresponse
  have hserved : Served f server w :=
    run_invariant (served_start f capacity1 capacity2) fun _ e h => served_step hf h e
  have hname := parseDomain_of_hostQuery hjvm hquery hne
  rcases hserved.returned r hr with hnone | ⟨hunnamed, -⟩ | ⟨hinternal, hbuilt⟩ |
    ⟨i, c, v, hi, hc, hparse, hexternal, hv, hbuilt⟩
  · exact absurd (hnone.symm.trans hresponse) (by simp)
  · rw [hname] at hunnamed
    have hblank := Option.filter_eq_none_iff.mp hunnamed _ rfl
    rw [not_blank_dottedName hquery hne] at hblank
    exact absurd rfl hblank
  · rw [if_pos hinternal]
    rcases tells_of_respond hquery hfour (hbuilt.symm.trans hresponse) with ⟨hblank, -⟩ | ⟨-, htells⟩
    · exact absurd hblank (by decide)
    · exact htells
  · rw [if_neg (Bool.eq_false_iff.mp hexternal)]
    have hdomain : c.domain.val = dottedName question.name := Option.some.inj (hparse.symm.trans hname)
    have hresult := (transparent_of_inv hserved.calls).results c (List.mem_of_getElem? hc) v hv
    rcases hresult with rfl | ⟨rfl, hmissed⟩
    · left
      rw [← hdomain]
      rcases tells_of_respond hquery hfour (hbuilt.symm.trans hresponse) with ⟨hblank, -⟩ | ⟨-, htells⟩
      · rw [hf.of_isBlank c.domain hblank] at hblank
        exact absurd hblank (by decide)
      · exact htells
    · right
      rcases tells_of_respond hquery hfour (hbuilt.symm.trans hresponse) with ⟨-, htells⟩ | ⟨hblank, -⟩
      · exact ⟨htells, i, c, hi, hc, hdomain, hmissed⟩
      · exact absurd hblank (by decide)

end Served

/-- A server without cache servers of its own, whose data plane knows one address. -/
def oneNodeServer : DnsServer where
  rateLimiter := RateLimiter.start 100 10
  aclManager := ⟨"192.168".toList, 10, 13⟩
  zoneConfig := ⟨some "127.0.0.1".toList, [], []⟩
  getByName ip := if ip = "1.2.3.4".toList then some [1, 2, 3, 4] else none

/-- The name in the packet. -/
def packetName : HostName := ⟨"a.bc".toList, by
  intro c hc
  have hc' : c ∈ ['a', '.', 'b', 'c'] := hc
  simp only [List.mem_cons, List.not_mem_nil, or_false] at hc'
  rcases hc' with rfl | rfl | rfl | rfl <;> decide⟩

/-- The query for `a.bc`. -/
def hostRequest : @HostRequest Jvm.ascii := @HostRequest.mk Jvm.ascii hostPacket (some packetName) (by decide)

/-- A query for `a.bc` misses in both caches and is answered by the data plane. -/
def oneRequest : List (@RequestEvent Jvm.ascii) :=
  [@RequestEvent.request Jvm.ascii 0 hostRequest "9.9.9.9".toList] ++
    List.replicate 5 (@RequestEvent.call Jvm.ascii (.exchange 0 0)) ++ [@RequestEvent.respond Jvm.ascii 0]

theorem answers_right_one :
    let w := run (@RequestWorld.step Unicode.ascii Jvm.ascii fun _ => "1.2.3.4\n".toList)
      (RequestWorld.start oneNodeServer (fun _ => 1) fun _ => 1) oneRequest
    ∃ response, w.returned.map Returned.response = [some response] ∧
      Tells hostPacket ⟨[[97], [98, 99]], 1, 1⟩ (some [1, 2, 3, 4]) response := by
  intro w
  have hfour : ∀ ip addr, oneNodeServer.getByName ip = some addr → addr.length = 4 := by
    intro ip addr h
    unfold oneNodeServer at h
    simp only at h
    split at h
    · obtain rfl := Option.some.inj h
      rfl
    · exact absurd h (by simp)
  have hright := @answers_right Unicode.ascii Jvm.ascii _ _ oneNodeServer answers_const Jvm.ascii_ascii hfour
    (fun _ => 1) (fun _ => 1) oneRequest
  let response : List UInt8 := [0, 0, 129, 128, 0, 1, 0, 1, 0, 0, 0, 0, 1, 97, 2, 98, 99, 0, 0, 1, 0, 1, 192, 12, 0, 1,
    0, 1, 0, 0, 0, 60, 0, 4, 1, 2, 3, 4]
  have hreturned : w.returned = [⟨hostPacket, "9.9.9.9".toList, some 0, some response⟩] := by decide
  refine ⟨response, by rw [hreturned]; rfl, ?_⟩
  have htells := hright _ (by rw [hreturned]; exact List.mem_cons_self) _ hostQuery_hostPacket (by decide) response rfl
  rw [if_neg (by decide)] at htells
  rcases htells with ⟨addr, haddr, htells⟩ | ⟨-, i, c, hi, hc, -, hmissed⟩
  · obtain rfl := Option.some.inj haddr
    exact htells
  · -- The data plane has answered.
    obtain rfl := Option.some.inj hi
    have hfalse : w.calls.calls[0]?.map Call.missed = some false := rfl
    rw [hc, Option.map_some, hmissed] at hfalse
    exact absurd hfalse (by decide)

end DsDns
