/-
  What the server may answer.

  A response is a header and the question of the query, and at most one record for an address that the request
  may be answered with (`MayAnswer`, `ends_answer_cases`, `ends_answer`). The record has type A and class IN
  whatever was asked (`answers_match_iff`), and it comes on top of a question that may fill the packet
  (`tcp_framing_iff`).
-/
import DsDns.ControlPlane.DnsServer
import DsDns.ControlPlane.Equiv.DnsResponseBuilder

namespace DsDns

open Interaction

section Responses

variable [Unicode] [Jvm]

namespace DnsServer

/-- Some outcome of the resolution answers the request with the address. -/
def MayAnswer (s : DnsServer) (query : List UInt8) (clientIp : Str) (addr : List UInt8) : Prop :=
  ∃ domain ip, parseDomain query = some domain ∧ isBlank domain = false ∧
    Ends (s.lookup domain clientIp) ip ∧ isBlank ip = false ∧ s.getByName ip = some addr

/-! ### The responses of a request -/

theorem ends_handleRequest {s : DnsServer} {now : Time} {query : List UInt8} {clientIp : Str}
    {response : Option (List UInt8)} : Ends (s.handleRequest now query clientIp).2 response ↔
      if (s.rateLimiter.isRateLimited clientIp now).2 then response = none
      else Ends (s.answer query clientIp) response := by
  unfold handleRequest
  simp only
  cases (s.rateLimiter.isRateLimited clientIp now).2 with
  | true => exact ends_pure
  | false => exact Iff.rfl

/-- A response has no record, or one for an address that the request may be answered with. -/
theorem ends_answer_cases {s : DnsServer} {query response : List UInt8} {clientIp : Str}
    (h : Ends (s.answer query clientIp) (some response)) :
    ∃ question, questionSection query = some question ∧
      (response = responseHeader query false ++ question ∨ ∃ addr, s.MayAnswer query clientIp addr ∧
        response = responseHeader query true ++ question ++ answerRecord addr) := by
  unfold answer at h
  split at h
  · have hbuild := ends_pure.mp h
    obtain ⟨question, hquestion, hresponse⟩ := buildResponse_none rfl hbuild.symm
    exact ⟨question, hquestion, Or.inl hresponse⟩
  · rename_i domain hdomain
    obtain ⟨hparse, hname⟩ := Option.filter_eq_some_iff.mp hdomain
    obtain ⟨ip, hip, hbuild⟩ := ends_bind.mp h
    have hresponse := (ends_pure.mp hbuild).symm
    cases hblank : isBlank ip with
    | true =>
      rw [if_pos hblank] at hresponse
      obtain ⟨question, hquestion, hresponse⟩ := buildResponse_none rfl hresponse
      exact ⟨question, hquestion, Or.inl hresponse⟩
    | false =>
      obtain ⟨-, question, answer, hquestion, hanswer, heq⟩ := buildResponse_eq_some_iff.mp hresponse
      rw [foundAddress_resolved, hblank] at hanswer heq
      obtain ⟨addr, haddr, rfl⟩ := Option.map_eq_some_iff.mp hanswer
      refine ⟨question, hquestion, Or.inr ⟨addr, ⟨domain, ip, hparse, ?_, hip, hblank, haddr⟩, heq⟩⟩
      simpa using hname

/-- Every address that the request may be answered with is in a response. -/
theorem ends_answer {s : DnsServer} {query question addr : List UInt8} {clientIp : Str}
    (hquestion : questionSection query = some question) (h : s.MayAnswer query clientIp addr) :
    Ends (s.answer query clientIp)
      (some (responseHeader query true ++ question ++ answerRecord addr)) := by
  obtain ⟨domain, ip, hparse, hname, hip, hblank, haddr⟩ := h
  have hdomain : (parseDomain query).filter (fun domain => !isBlank domain) = some domain :=
    Option.filter_eq_some_iff.mpr ⟨hparse, by simp [hname]⟩
  have hlength : 12 ≤ query.length := by
    by_contra hshort
    unfold parseDomain at hparse
    rw [if_pos (by omega)] at hparse
    exact absurd hparse (by simp)
  unfold answer
  rw [hdomain]
  apply ends_bind.mpr
  refine ⟨ip, hip, ends_pure.mpr ?_⟩
  symm
  apply buildResponse_eq_some_iff.mpr
  rw [foundAddress_resolved, hblank]
  refine ⟨hlength, question, answerRecord addr, hquestion, ?_, rfl⟩
  show (s.getByName ip).map answerRecord = _
  rw [haddr]
  rfl

end DnsServer

end Responses

/-! ### What is asked and what is answered -/

/-- A type, a class, and what follows. -/
def readTypeAndClass (bytes : List UInt8) : Option ((ℕ × ℕ) × List UInt8) := do
  let (type, bytes) ← readBe16 bytes
  let (cls, bytes) ← readBe16 bytes
  some ((type, cls), bytes)

/-- What is asked: QTYPE and QCLASS behind the zero byte of the name, and the bytes that follow. -/
def asked (message : List UInt8) : Option ((ℕ × ℕ) × List UInt8) :=
  readTypeAndClass (message.drop (qnameEnd message + 1))

/-- What a record answers: TYPE and CLASS behind the two bytes of its owner. -/
def answered (record : List UInt8) : Option (ℕ × ℕ) := (readTypeAndClass (record.drop 2)).map Prod.fst

/-- The record of a response, if there is one, has the type and the class of its question. -/
def AnswersMatch (response : List UInt8) : Prop :=
  ∀ question record, asked response = some (question, record) →
    ∀ answer, answered record = some answer → answer = question

theorem drop_qnameEnd {message name rest : List UInt8} (hname : 0 ∉ name)
    (hmessage : message.drop 12 = name ++ 0 :: rest) : message.drop (qnameEnd message + 1) = rest := by
  rw [qnameEnd_eq hname hmessage, Nat.add_assoc, ← List.drop_drop, hmessage, List.drop_length_add_append]
  rfl

theorem readTypeAndClass_append {last : List UInt8} (h : last.length = 4) (rest : List UInt8) :
    ∃ question, readTypeAndClass (last ++ rest) = some (question, rest) ∧
      ∀ more, readTypeAndClass (last ++ more) = some (question, more) := by
  match last, h with
  | [a, b, c, d], _ => exact ⟨_, rfl, fun _ => rfl⟩

/-- The question that is asked is the question that is echoed. -/
theorem asked_response {query question header tail : List UInt8} (hheader : header.length = 12)
    (hquestion : questionSection query = some question) :
    ∃ type rest, asked query = some (type, rest) ∧ asked (header ++ question ++ tail) = some (type, tail) := by
  obtain ⟨name, last, rest, hname, hlast, rfl, hquery⟩ := questionSection_eq_some_iff.mp hquestion
  obtain ⟨type, hread, hmore⟩ := readTypeAndClass_append hlast rest
  have hresponse : (header ++ (name ++ 0 :: last) ++ tail).drop 12 = name ++ 0 :: (last ++ tail) := by
    rw [List.append_assoc, List.drop_left' hheader, List.append_assoc, List.cons_append]
  rw [List.append_assoc, List.cons_append] at hquery
  refine ⟨type, rest, ?_, ?_⟩
  · unfold asked
    rw [drop_qnameEnd hname hquery]
    exact hread
  · unfold asked
    rw [drop_qnameEnd hname hresponse]
    exact hmore tail

theorem length_of_readTypeAndClass {bytes rest : List UInt8} {type : ℕ × ℕ}
    (h : readTypeAndClass bytes = some (type, rest)) : 4 ≤ bytes.length := by
  match bytes, h with
  | _ :: _ :: _ :: _ :: rest, _ =>
    simp only [List.length_cons]
    omega

/-- A query that asks something has a question section. -/
theorem questionSection_of_asked {query rest : List UInt8} {type : ℕ × ℕ} (h : asked query = some (type, rest)) :
    ∃ question, questionSection query = some question := by
  unfold asked at h
  rcases exists_first_zero (query.drop 12) with hnone | ⟨name, last, hquery, hname⟩
  · have hle := length_le_qnameEnd hnone
    rw [List.drop_of_length_le (by omega)] at h
    exact absurd h (by simp [readTypeAndClass, readBe16])
  · rw [drop_qnameEnd hname hquery] at h
    have hlength := length_of_readTypeAndClass h
    rw [questionSection_of_zero hname hquery, if_neg (by omega)]
    exact ⟨_, rfl⟩

theorem answered_answerRecord (addr : List UInt8) : answered (answerRecord addr) = some (1, 1) := rfl

/-- A response without a record answers nothing. -/
theorem answersMatch_empty {query question : List UInt8} (hquestion : questionSection query = some question) :
    AnswersMatch (responseHeader query false ++ question) := by
  intro type record hechoed answer hanswer
  have hlength := length_questionSection hquestion
  have hheader : (responseHeader query false).length = 12 := length_responseHeader (by omega) false
  obtain ⟨_, _, -, hasked⟩ := @asked_response query question _ [] hheader hquestion
  rw [List.append_nil] at hasked
  obtain ⟨-, rfl⟩ := Prod.mk.inj (Option.some.inj (hasked.symm.trans hechoed))
  exact absurd hanswer (by simp [answered, readTypeAndClass, readBe16])

/-- A response with a record answers questions for type A and class IN. -/
theorem answersMatch_answer_iff {query question : List UInt8}
    (hquestion : questionSection query = some question) (addr : List UInt8) :
    AnswersMatch (responseHeader query true ++ question ++ answerRecord addr) ↔
      ∀ type rest, asked query = some (type, rest) → type = (1, 1) := by
  have hlength := length_questionSection hquestion
  have hheader : (responseHeader query true).length = 12 := length_responseHeader (by omega) true
  obtain ⟨type, rest, hasked, hechoed⟩ := @asked_response query question _ (answerRecord addr) hheader hquestion
  constructor
  · intro hmatch type' rest' hasked'
    obtain ⟨rfl, -⟩ := Prod.mk.inj (Option.some.inj (hasked.symm.trans hasked'))
    exact (hmatch type _ hechoed (1, 1) (answered_answerRecord addr)).symm
  · intro htype type' record hechoed' answer hanswer
    obtain ⟨rfl, rfl⟩ := Prod.mk.inj (Option.some.inj (hechoed.symm.trans hechoed'))
    obtain rfl := Option.some.inj hanswer
    exact (htype type rest hasked).symm

/-- **Answers match questions** exactly if the client is limited, if no outcome of the resolution yields an
address, or if the question is for type A and class IN. -/
theorem answers_match_iff [Unicode] [Jvm] (s : DnsServer) (now : Time) (query : List UInt8) (clientIp : Str) :
    (∀ response, Ends (s.handleRequest now query clientIp).2 (some response) → AnswersMatch response) ↔
      (s.rateLimiter.isRateLimited clientIp now).2 = true ∨ (∀ addr, ¬ s.MayAnswer query clientIp addr) ∨
        ∀ type rest, asked query = some (type, rest) → type = (1, 1) := by
  simp only [DnsServer.ends_handleRequest]
  cases hlimited : (s.rateLimiter.isRateLimited clientIp now).2 with
  | true => exact iff_of_true (fun response h => absurd h (by simp)) (Or.inl rfl)
  | false =>
    simp only [Bool.false_eq_true, if_false, false_or]
    constructor
    · intro hmatch
      rw [or_iff_not_imp_left]
      intro hanswer type rest hasked
      push Not at hanswer
      obtain ⟨addr, haddr⟩ := hanswer
      obtain ⟨question, hquestion⟩ := questionSection_of_asked hasked
      have hresponse := hmatch _ (DnsServer.ends_answer hquestion haddr)
      exact (answersMatch_answer_iff hquestion addr).mp hresponse type rest hasked
    · intro h response hends
      obtain ⟨question, hquestion, hresponse⟩ := DnsServer.ends_answer_cases hends
      rcases hresponse with rfl | ⟨addr, haddr, rfl⟩
      · exact answersMatch_empty hquestion
      · rcases h with hnone | htype
        · exact absurd haddr (hnone addr)
        · exact (answersMatch_answer_iff hquestion addr).mpr htype

/-- A query for `a.bc`, of type 28 (AAAA). -/
def aaaaPacket : List UInt8 := List.replicate 12 0 ++ [1, 97, 2, 98, 99, 0, 0, 28, 0, 1]

/-- A server with the configured limits, on a platform that knows the internal address. -/
def plainServer : DnsServer where
  rateLimiter := RateLimiter.start 100 10
  aclManager := ⟨"192.168".toList, 10, 13⟩
  zoneConfig := ⟨none, [], []⟩
  getByName s := if s = internalAddress then some [192, 168, 1, 1] else none

/-- Internal clients are not looked up. -/
theorem mayAnswer_internal {query : List UInt8} {domain : Str}
    (hparse : @parseDomain Jvm.ascii query = some domain) (hname : isBlank domain = false) :
    @DnsServer.MayAnswer Unicode.ascii Jvm.ascii plainServer query "192.168.10.5".toList [192, 168, 1, 1] := by
  have hinternal : @AclManager.isInternalRequest Unicode.ascii plainServer.aclManager
      "192.168.10.5".toList = true := by decide
  refine ⟨domain, internalAddress, hparse, hname, ?_, by decide, rfl⟩
  unfold DnsServer.lookup
  rw [if_pos hinternal]
  exact ends_pure.mpr rfl

/-- A query for an AAAA record is answered with an A record. -/
theorem not_answers_match_aaaa : ∃ response,
    Ends (@DnsServer.handleRequest Unicode.ascii Jvm.ascii plainServer 0 aaaaPacket "192.168.10.5".toList).2
      (some response) ∧ ¬ AnswersMatch response := by
  have hquestion : questionSection aaaaPacket = some [1, 97, 2, 98, 99, 0, 0, 28, 0, 1] := by decide
  have hlimited : (plainServer.rateLimiter.isRateLimited "192.168.10.5".toList 0).2 = false := by decide
  have hmay := mayAnswer_internal (show @parseDomain Jvm.ascii aaaaPacket = some "a.bc".toList by decide)
    (by decide)
  refine ⟨responseHeader aaaaPacket true ++ [1, 97, 2, 98, 99, 0, 0, 28, 0, 1] ++
    answerRecord [192, 168, 1, 1], ?_, ?_⟩
  · apply (@DnsServer.ends_handleRequest Unicode.ascii Jvm.ascii _ _ _ _ _).mpr
    rw [hlimited]
    exact @DnsServer.ends_answer Unicode.ascii Jvm.ascii _ _ _ _ _ hquestion hmay
  · intro hmatch
    have hasked : asked (responseHeader aaaaPacket true ++ [1, 97, 2, 98, 99, 0, 0, 28, 0, 1] ++
        answerRecord [192, 168, 1, 1]) = some ((28, 1), answerRecord [192, 168, 1, 1]) := by decide
    exact absurd (hmatch _ _ hasked _ (answered_answerRecord _)) (by decide)

/-! ### The length in front of a response -/

/-- The number in front is the number of bytes that follow; nothing at all may be written. -/
def Framed (written : List UInt8) : Prop :=
  ∀ length response, readBe16 written = some (length, response) → length = response.length

/-- Nothing is written for a request that is not answered. -/
theorem framed_nil : Framed [] := by
  intro length response h
  exact absurd h (by simp [readBe16])

theorem framed_iff (response : List UInt8) :
    Framed (be16 response.length ++ response) ↔ response.length ≤ 65535 := by
  unfold Framed
  rw [readBe16_be16]
  constructor
  · intro h
    have hmod := h _ _ rfl
    omega
  · intro hle length rest heq
    obtain ⟨rfl, rfl⟩ := Prod.mk.inj (Option.some.inj heq)
    omega

/-- What is written for a query that arrives in one piece. -/
theorem ends_handleTcpClient [Unicode] [Jvm] {s : DnsServer} {now : Time} {query : List UInt8} {clientIp : Str}
    (hpos : 1 ≤ query.length) (hle : query.length ≤ 65535) {written : List UInt8} :
    Ends (s.handleTcpClient now (be16 query.length ++ query) clientIp).2 written ↔
      ∃ response, Ends (s.handleRequest now query clientIp).2 response ∧
        written = DnsServer.tcpReply response := by
  have hlength : (UInt8.ofNat (query.length / 256)).toNat * 256 + (UInt8.ofNat query.length).toNat =
      query.length := by
    rw [UInt8.toNat_ofNat', UInt8.toNat_ofNat']
    omega
  have hrequest : s.handleTcpClient now (be16 query.length ++ query) clientIp =
      ((s.handleRequest now query clientIp).1,
        (s.handleRequest now query clientIp).2 >>= fun response => pure (DnsServer.tcpReply response)) := by
    have hreceived : be16 query.length ++ query =
        UInt8.ofNat (query.length / 256) :: UInt8.ofNat query.length :: query := rfl
    rw [hreceived]
    unfold DnsServer.handleTcpClient
    simp only
    rw [hlength, if_neg (by omega), if_neg (by omega), List.take_length]
  rw [hrequest]
  show Ends (_ >>= _) written ↔ _
  rw [ends_bind]
  exact exists_congr fun response => and_congr_right fun _ => ends_pure

/-- A response without a record is no longer than the query. -/
theorem framed_empty {query question : List UInt8} (hquestion : questionSection query = some question)
    (hle : query.length ≤ 65535) : Framed (DnsServer.tcpReply (some (responseHeader query false ++ question))) := by
  have hlength := length_questionSection hquestion
  apply (framed_iff _).mpr
  rw [List.length_append, length_responseHeader (by omega)]
  omega

/-- A response with a record is twelve bytes and the address longer than its header and question. -/
theorem length_response {query question : List UInt8} (hquestion : questionSection query = some question)
    (addr : List UInt8) :
    (responseHeader query true ++ question ++ answerRecord addr).length =
      qnameEnd query + 17 + addr.length := by
  obtain ⟨hle, hend⟩ := length_questionSection hquestion
  have hrecord : (answerRecord addr).length = 12 + addr.length := by
    unfold answerRecord
    simp only [List.length_append, length_be16, length_be32, List.length_cons, List.length_nil]
  rw [List.length_append, List.length_append, length_responseHeader (by omega), hrecord]
  omega

/-- A response with a record is written with its length in front. -/
theorem ends_handleTcpClient_answer [Unicode] [Jvm] {s : DnsServer} {now : Time}
    {query question addr : List UInt8} {clientIp : Str} (hpos : 1 ≤ query.length)
    (hle : query.length ≤ 65535) (hlimited : (s.rateLimiter.isRateLimited clientIp now).2 = false)
    (hquestion : questionSection query = some question) (haddr : s.MayAnswer query clientIp addr) :
    ∃ response, Ends (s.handleTcpClient now (be16 query.length ++ query) clientIp).2
        (be16 response.length ++ response) ∧ response.length = qnameEnd query + 17 + addr.length := by
  refine ⟨_, (ends_handleTcpClient hpos hle).mpr ⟨some _, ?_, rfl⟩, length_response hquestion addr⟩
  apply DnsServer.ends_handleRequest.mpr
  rw [hlimited]
  exact DnsServer.ends_answer hquestion haddr

/-- **The framing is exact** if and only if the client is limited, the query has no question section, or no
address that the request may be answered with makes the response longer than 65535 bytes. -/
theorem tcp_framing_iff [Unicode] [Jvm] (s : DnsServer) (now : Time) {query : List UInt8} (clientIp : Str)
    (hpos : 1 ≤ query.length) (hle : query.length ≤ 65535) :
    (∀ written, Ends (s.handleTcpClient now (be16 query.length ++ query) clientIp).2 written →
      Framed written) ↔
    (s.rateLimiter.isRateLimited clientIp now).2 = true ∨ questionSection query = none ∨
      ∀ addr, s.MayAnswer query clientIp addr → qnameEnd query + 17 + addr.length ≤ 65535 := by
  constructor
  · intro hframed
    by_contra hnot
    push Not at hnot
    obtain ⟨hlimited, hsection, addr, haddr, hlong⟩ := hnot
    obtain ⟨question, hquestion⟩ := Option.ne_none_iff_exists'.mp hsection
    obtain ⟨response, hends, hlength⟩ := ends_handleTcpClient_answer hpos hle
      (Bool.eq_false_iff.mpr hlimited) hquestion haddr
    have hfits := (framed_iff response).mp (hframed _ hends)
    omega
  · intro h written hends
    obtain ⟨response, hrequest, rfl⟩ := (ends_handleTcpClient hpos hle).mp hends
    cases response with
    | none => exact framed_nil
    | some response =>
      rw [DnsServer.ends_handleRequest] at hrequest
      split at hrequest
      · exact absurd hrequest (by simp)
      · rename_i hlimited
        obtain ⟨question, hquestion, hresponse⟩ := DnsServer.ends_answer_cases hrequest
        rcases hresponse with rfl | ⟨addr, haddr, rfl⟩
        · exact framed_empty hquestion hle
        · apply (framed_iff _).mpr
          rw [length_response hquestion]
          rcases h with hrate | hnone | hshort
          · exact absurd hrate hlimited
          · exact absurd (hquestion.symm.trans hnone) (by simp)
          · exact hshort addr haddr

theorem tcp_framing_iff_aaaa :
    (∀ written, Ends (@DnsServer.handleTcpClient Unicode.ascii Jvm.ascii plainServer 0
      (be16 aaaaPacket.length ++ aaaaPacket) "192.168.10.5".toList).2 written → Framed written) ↔
    (plainServer.rateLimiter.isRateLimited "192.168.10.5".toList 0).2 = true ∨
      questionSection aaaaPacket = none ∨
      ∀ addr, @DnsServer.MayAnswer Unicode.ascii Jvm.ascii plainServer aaaaPacket "192.168.10.5".toList addr →
        qnameEnd aaaaPacket + 17 + addr.length ≤ 65535 :=
  @tcp_framing_iff Unicode.ascii Jvm.ascii plainServer 0 aaaaPacket "192.168.10.5".toList (by decide) (by decide)

/-- A name of 1024 labels. -/
def fullName : List (List UInt8) := List.replicate 1023 (List.replicate 63 45) ++ [List.replicate 45 45]

/-- A query as long as the two bytes in front can say. -/
def fullPacket : List UInt8 := List.replicate 12 0 ++ (encodeLabels fullName ++ [0, 0, 1, 0, 1])

theorem length_encodeLabels_replicate (n : ℕ) (label : List UInt8) :
    (encodeLabels (List.replicate n label)).length = n * (label.length + 1) := by
  induction n with
  | zero => simp
  | succ n ih =>
    rw [List.replicate_succ, encodeLabels_cons, List.length_cons, List.length_append, ih, Nat.succ_mul]
    omega

theorem length_fullName : (encodeLabels fullName).length = 65518 := by
  unfold fullName
  rw [encodeLabels_append, List.length_append, length_encodeLabels_replicate, List.length_replicate,
    encodeLabels_cons, List.length_cons, List.length_append, List.length_replicate]
  rfl

theorem length_fullPacket : fullPacket.length = 65535 := by
  unfold fullPacket
  rw [List.length_append, List.length_append, length_fullName]
  rfl

theorem drop_fullPacket : fullPacket.drop 12 = encodeLabels fullName ++ 0 :: [0, 1, 0, 1] := rfl

theorem last_mem_fullName : List.replicate 45 45 ∈ fullName :=
  List.mem_append_right _ (List.mem_singleton.mpr rfl)

theorem isLabel_fullName : ∀ label ∈ fullName, IsLabel label ∧ ∀ b ∈ label, b = 45 := by
  intro label hlabel
  have hshape : label = List.replicate 63 45 ∨ label = List.replicate 45 45 := by
    rcases List.mem_append.mp hlabel with h | h
    · exact Or.inl (List.eq_of_mem_replicate h)
    · exact Or.inr (List.mem_singleton.mp h)
  rcases hshape with rfl | rfl
  · exact ⟨by simp [IsLabel], fun b hb => List.eq_of_mem_replicate hb⟩
  · exact ⟨by simp [IsLabel], fun b hb => List.eq_of_mem_replicate hb⟩

theorem zero_not_mem_fullName : 0 ∉ encodeLabels fullName := by
  rw [zero_mem_encodeLabels fun label hl => (isLabel_fullName label hl).1]
  rintro ⟨label, hl, hzero⟩
  exact absurd ((isLabel_fullName label hl).2 0 hzero) (by decide)

/-- The name is a text of dashes and dots. -/
theorem parseDomain_fullPacket :
    ∃ domain, @parseDomain Jvm.ascii fullPacket = some domain ∧ isBlank domain = false := by
  have hscanned : ∀ label ∈ fullName, IsScanned label := fun label hl => (isLabel_fullName label hl).1.scanned
  have hne : fullName ≠ [] := List.ne_nil_of_mem last_mem_fullName
  have hsome := (@parseDomain_isSome_iff Jvm.ascii Jvm.keepsText_ascii fullPacket).mpr
    ⟨by rw [length_fullPacket]; omega, fullName, _, hne, hscanned, drop_fullPacket, stops_zero _⟩
  obtain ⟨domain, hdomain⟩ := Option.isSome_iff_exists.mp hsome
  have hlabels : queryLabels fullPacket = some fullName := by
    have hscan : scanName fullPacket.length (fullPacket.drop 12) = some (fullName, 0 :: [0, 1, 0, 1]) := by
      apply (scanName_eq_some_iff (by rw [List.length_drop]; omega)).mpr
      exact ⟨drop_fullPacket, hscanned, stops_zero _⟩
    unfold queryLabels
    rw [readLabels, hscan]
    rfl
  have hdash : '-' ∈ domain := by
    apply (@mem_parseDomain Jvm.ascii fullPacket domain hdomain '-' (by decide) (by decide) (by decide)).mpr
    exact ⟨fullName, hlabels, List.replicate 45 45, last_mem_fullName, by decide⟩
  refine ⟨domain, hdomain, ?_⟩
  by_contra hblank
  rw [Bool.not_eq_false] at hblank
  exact absurd (List.all_eq_true.mp hblank '-' hdash) (by decide)

/-- The response to the longest query has 65551 bytes, and the two bytes in front of it say 15. -/
theorem not_framed_full : 1 ≤ fullPacket.length ∧ fullPacket.length ≤ 65535 ∧ ∃ response,
    Ends (@DnsServer.handleTcpClient Unicode.ascii Jvm.ascii plainServer 0
      (be16 fullPacket.length ++ fullPacket) "192.168.10.5".toList).2 (be16 response.length ++ response) ∧
    response.length = 65551 ∧ readBe16 (be16 response.length ++ response) = some (15, response) := by
  obtain ⟨domain, hparse, hname⟩ := parseDomain_fullPacket
  have hlimited : (plainServer.rateLimiter.isRateLimited "192.168.10.5".toList 0).2 = false := by decide
  have hquestion := questionSection_of_zero zero_not_mem_fullName drop_fullPacket
  have hend := qnameEnd_eq zero_not_mem_fullName drop_fullPacket
  rw [if_neg (by simp)] at hquestion
  have hpos : 1 ≤ fullPacket.length := by
    rw [length_fullPacket]
    omega
  have hle : fullPacket.length ≤ 65535 := by
    rw [length_fullPacket]
  obtain ⟨response, hends, hlength⟩ := @ends_handleTcpClient_answer Unicode.ascii Jvm.ascii plainServer 0
    fullPacket _ _ "192.168.10.5".toList hpos hle hlimited hquestion (mayAnswer_internal hparse hname)
  rw [hend, length_fullName] at hlength
  have htotal : response.length = 65551 := hlength
  refine ⟨hpos, hle, response, hends, htotal, ?_⟩
  rw [readBe16_be16, htotal]

end DsDns
