/-
  What the response builder copies and what it adds.

  `questionSection_eq_some_iff` is the exact description of the copy: it ends five bytes after the start of the
  first zero byte. If that is the one that ends the name, the three walks over the name agree
  (`walks_agree_iff`), and the response can be read back as long as the address has the four bytes that the
  record claims (`response_decodes_iff`).
-/
import DsDns.ControlPlane.DnsResponseBuilder
import DsDns.ControlPlane.Equiv.QueryName

namespace DsDns

/-! ### The question -/

theorem takeWhile_ne_zero {name : List UInt8} (h : 0 ∉ name) (rest : List UInt8) :
    (name ++ 0 :: rest).takeWhile (· ≠ 0) = name := by
  have hne : ∀ b ∈ name, decide (b ≠ 0) = true := by
    intro b hb
    apply decide_eq_true
    rintro rfl
    exact h hb
  rw [List.takeWhile_append_of_pos hne, List.takeWhile_cons_of_neg (by simp), List.append_nil]

/-- A sequence of bytes has no zero byte, or it is cut at the first. -/
theorem exists_first_zero (bytes : List UInt8) : 0 ∉ bytes ∨
    ∃ name rest, bytes = name ++ 0 :: rest ∧ 0 ∉ name := by
  by_cases h : (0 : UInt8) ∈ bytes
  · exact Or.inr (List.eq_append_cons_of_mem h)
  · exact Or.inl h

/-- Without a zero byte the search ends behind the packet. -/
theorem length_le_qnameEnd {query : List UInt8} (h : 0 ∉ query.drop 12) : query.length ≤ qnameEnd query := by
  have hall : (query.drop 12).takeWhile (· ≠ 0) = query.drop 12 := by
    apply List.takeWhile_eq_self_iff.mpr
    intro b hb
    apply decide_eq_true
    rintro rfl
    exact h hb
  unfold qnameEnd
  rw [hall, List.length_drop]
  omega

theorem qnameEnd_eq {query name rest : List UInt8} (hname : 0 ∉ name)
    (hquery : query.drop 12 = name ++ 0 :: rest) : qnameEnd query = 12 + name.length := by
  unfold qnameEnd
  rw [hquery, takeWhile_ne_zero hname]

theorem questionSection_of_short {query : List UInt8} (h : 0 ∉ query.drop 12) :
    questionSection query = none := by
  unfold questionSection
  rw [if_pos (length_le_qnameEnd h)]

theorem questionSection_of_zero {query name rest : List UInt8} (hname : 0 ∉ name)
    (hquery : query.drop 12 = name ++ 0 :: rest) :
    questionSection query = if rest.length < 4 then none else some (name ++ 0 :: rest.take 4) := by
  have hend := qnameEnd_eq hname hquery
  have hlength := congrArg List.length hquery
  rw [List.length_drop, List.length_append, List.length_cons] at hlength
  unfold questionSection
  simp only
  rw [hend, if_neg (by omega), hquery, Nat.add_sub_cancel_left]
  by_cases hshort : rest.length < 4
  · rw [if_pos hshort, if_pos (by omega)]
  · rw [if_neg hshort, if_neg (by omega), Nat.add_assoc, List.take_length_add_append]
    rfl

/-- The copy reaches from byte 12 to four bytes after the first zero byte. -/
theorem questionSection_eq_some_iff {query question : List UInt8} :
    questionSection query = some question ↔ ∃ name last rest, 0 ∉ name ∧ last.length = 4 ∧
      question = name ++ 0 :: last ∧ query.drop 12 = question ++ rest := by
  constructor
  · intro h
    rcases exists_first_zero (query.drop 12) with hnone | ⟨name, rest, hquery, hname⟩
    · rw [questionSection_of_short hnone] at h
      exact absurd h (by simp)
    · rw [questionSection_of_zero hname hquery] at h
      split at h
      · exact absurd h (by simp)
      · rename_i hlong
        obtain rfl := Option.some.inj h
        refine ⟨name, rest.take 4, rest.drop 4, hname, ?_, rfl, ?_⟩
        · rw [List.length_take]
          omega
        · rw [hquery, List.append_assoc, List.cons_append, List.take_append_drop]
  · rintro ⟨name, last, rest, hname, hlast, rfl, hquery⟩
    rw [List.append_assoc, List.cons_append] at hquery
    rw [questionSection_of_zero hname hquery, if_neg (by rw [List.length_append]; omega),
      List.take_left' hlast]

/-- The length of the question, which is part of the query. -/
theorem length_questionSection {query question : List UInt8} (h : questionSection query = some question) :
    12 + question.length ≤ query.length ∧ qnameEnd query + 5 = 12 + question.length := by
  obtain ⟨name, last, rest, hname, hlast, rfl, hquery⟩ := questionSection_eq_some_iff.mp h
  have hend : qnameEnd query = 12 + name.length := by
    rw [List.append_assoc, List.cons_append] at hquery
    exact qnameEnd_eq hname hquery
  have hlength := congrArg List.length hquery
  rw [List.length_drop, List.length_append, List.length_append, List.length_cons] at hlength
  rw [hend, List.length_append, List.length_cons]
  omega

theorem length_responseHeader {query : List UInt8} (h : 12 ≤ query.length) (found : Bool) :
    (responseHeader query found).length = 12 := by
  have htake : (query.take 2).length = 2 := by
    rw [List.length_take]
    omega
  unfold responseHeader
  simp only [List.length_append, htake, length_be16]

theorem buildResponse_eq_some_iff {getByName : Str → Option (List UInt8)} {query response : List UInt8}
    {ipAddress : Option Str} : buildResponse getByName query ipAddress = some response ↔
      12 ≤ query.length ∧ ∃ question answer, questionSection query = some question ∧
        answerSection getByName (foundAddress ipAddress) = some answer ∧
          response = responseHeader query (foundAddress ipAddress).isSome ++ question ++ answer := by
  unfold buildResponse
  split
  · exact iff_of_false (by simp) fun h => by omega
  · simp only [Option.bind_eq_bind, Option.bind_eq_some_iff, Option.some.injEq]
    constructor
    · rintro ⟨question, hquestion, answer, hanswer, rfl⟩
      exact ⟨by omega, question, answer, hquestion, hanswer, rfl⟩
    · rintro ⟨-, question, answer, hquestion, hanswer, rfl⟩
      exact ⟨question, hquestion, answer, hanswer, rfl⟩

theorem foundAddress_eq_some_iff {ipAddress : Option Str} {s : Str} :
    foundAddress ipAddress = some s ↔ ipAddress = some s ∧ isBlank s = false := by
  simp [foundAddress, Option.filter_eq_some_iff]

/-- A response without an address. -/
theorem buildResponse_none {getByName : Str → Option (List UInt8)} {query response : List UInt8}
    {ipAddress : Option Str} (hnone : foundAddress ipAddress = none)
    (h : buildResponse getByName query ipAddress = some response) :
    ∃ question, questionSection query = some question ∧
      response = responseHeader query false ++ question := by
  obtain ⟨-, question, answer, hquestion, hanswer, rfl⟩ := buildResponse_eq_some_iff.mp h
  rw [hnone] at hanswer ⊢
  obtain rfl := Option.some.inj hanswer
  exact ⟨question, hquestion, List.append_nil _⟩

theorem foundAddress_resolved (ip : Str) :
    foundAddress (if isBlank ip then none else some ip) = if isBlank ip then none else some ip := by
  cases hblank : isBlank ip with
  | true => rfl
  | false => exact foundAddress_eq_some_iff.mpr ⟨rfl, hblank⟩

/-! ### Three walks over one name -/

theorem skipName_encode {labels : List (List UInt8)} {fuel : ℕ} (h : ∀ label ∈ labels, IsLabel label)
    (hfuel : labels.length < fuel) (rest : List UInt8) :
    skipName fuel (encodeLabels labels ++ 0 :: rest) = rest := by
  induction labels generalizing fuel with
  | nil =>
    obtain ⟨fuel, rfl⟩ : ∃ m, fuel = m + 1 := ⟨fuel - 1, by omega⟩
    rfl
  | cons label labels ih =>
    obtain ⟨fuel, rfl⟩ : ∃ m, fuel = m + 1 := ⟨fuel - 1, by omega⟩
    obtain ⟨⟨hpos, hle⟩, hlabels⟩ := List.forall_mem_cons.mp h
    have hlength := toNat_length (show label.length < 256 by omega)
    have hzero : UInt8.ofNat label.length ≠ 0 := by
      intro h0
      rw [h0] at hlength
      exact absurd hlength (by simp; omega)
    rw [encodeLabels_cons, List.cons_append, skipName, if_neg hzero, hlength, List.append_assoc,
      List.drop_left]
    exact ih hlabels (by rw [List.length_cons] at hfuel; omega)

/-- The two bytes as `parseQType` puts them together. -/
theorem shift_or (hi lo : UInt8) : hi.toNat <<< 8 ||| lo.toNat = hi.toNat * 256 + lo.toNat := by
  have hlo : lo.toNat < 2 ^ 8 := lo.toNat_lt
  rw [Nat.shiftLeft_eq, Nat.mul_comm, ← Nat.two_pow_add_eq_or_of_lt hlo]

/-- A name from byte 12 to the zero byte at `e`, with four bytes behind it. -/
structure NameEndsAt (request : List UInt8) (labels : List (List UInt8)) (e : ℕ) : Prop where
  length : 12 ≤ request.length
  isLabel : ∀ label ∈ labels, IsLabel label
  name : ∃ rest, request.drop 12 = encodeLabels labels ++ 0 :: rest ∧ 4 ≤ rest.length
  ends : e = 12 + (encodeLabels labels).length

/-- The walks agree that the name ends at `e`: the loop of `parseDomain` takes the labels and stops there,
`parseQType` reads the two bytes after it, and for every address that can be answered a response is built
whose question goes from byte 12 to the fourth byte after it. -/
structure WalksAgree (getByName : Str → Option (List UInt8)) (request : List UInt8)
    (labels : List (List UInt8)) (e : ℕ) : Prop where
  parseDomain : scanName request.length (request.drop 12) = some (labels, request.drop e)
  parseQType : (readBe16 (request.drop (e + 1))).map (fun r => (r.1 : ℤ)) = some (parseQType request)
  buildResponse : ∀ ipAddress answer, answerSection getByName (foundAddress ipAddress) = some answer →
    buildResponse getByName request ipAddress =
      some (responseHeader request (foundAddress ipAddress).isSome ++ (request.drop 12).take (e + 5 - 12) ++
        answer)

theorem NameEndsAt.drop_end {request rest : List UInt8} {labels : List (List UInt8)} {e : ℕ}
    (h : NameEndsAt request labels e) (hrequest : request.drop 12 = encodeLabels labels ++ 0 :: rest) :
    request.drop e = 0 :: rest := by
  rw [h.ends, ← List.drop_drop, hrequest, List.drop_left]

theorem NameEndsAt.scanName_eq {request : List UInt8} {labels : List (List UInt8)} {e : ℕ}
    (h : NameEndsAt request labels e) :
    scanName request.length (request.drop 12) = some (labels, request.drop e) := by
  obtain ⟨rest, hrequest, -⟩ := h.name
  rw [h.drop_end hrequest]
  apply (scanName_eq_some_iff (by rw [List.length_drop]; omega)).mpr
  exact ⟨hrequest, fun label hl => (h.isLabel label hl).scanned, stops_zero rest⟩

theorem NameEndsAt.parseQType_eq {request : List UInt8} {labels : List (List UInt8)} {e : ℕ}
    (h : NameEndsAt request labels e) :
    (readBe16 (request.drop (e + 1))).map (fun r => (r.1 : ℤ)) = some (parseQType request) := by
  obtain ⟨rest, hrequest, hrest⟩ := h.name
  have hafter : request.drop (e + 1) = rest := by
    rw [← List.drop_drop, h.drop_end hrequest]
    rfl
  have hcount := length_le_length_encodeLabels labels
  have hlength := congrArg List.length hrequest
  rw [List.length_drop, List.length_append, List.length_cons] at hlength
  have hskip : skipName request.length (request.drop 12) = rest := by
    rw [hrequest]
    exact skipName_encode h.isLabel (by omega) rest
  unfold parseQType
  rw [if_neg (by omega), hafter, hskip]
  match rest, hrest with
  | hi :: lo :: _, _ =>
    simp only [shift_or]
    rfl

/-- No length byte is zero. -/
theorem zero_mem_encodeLabels {labels : List (List UInt8)} (h : ∀ label ∈ labels, IsLabel label) :
    0 ∈ encodeLabels labels ↔ ∃ label ∈ labels, 0 ∈ label := by
  unfold encodeLabels
  rw [List.mem_flatMap]
  refine exists_congr fun label => and_congr_right fun hlabel => ?_
  obtain ⟨hpos, hle⟩ := h label hlabel
  have hlength := toNat_length (show label.length < 256 by omega)
  have hzero : (0 : UInt8) ≠ UInt8.ofNat label.length := by
    intro h0
    rw [← h0] at hlength
    rw [← hlength] at hpos
    exact absurd hpos (by decide)
  rw [List.mem_cons]
  exact or_iff_right hzero

/-- **The walks agree** exactly on the names without a zero byte in a label. -/
theorem walks_agree_iff (getByName : Str → Option (List UInt8)) {request : List UInt8}
    {labels : List (List UInt8)} {e : ℕ} (h : NameEndsAt request labels e) :
    WalksAgree getByName request labels e ↔ ∀ label ∈ labels, 0 ∉ label := by
  obtain ⟨rest, hrequest, hrest⟩ := h.name
  have hzero : 0 ∉ encodeLabels labels ↔ ∀ label ∈ labels, 0 ∉ label := by
    rw [zero_mem_encodeLabels h.isLabel]
    simp
  have htake : (request.drop 12).take (e + 5 - 12) = encodeLabels labels ++ 0 :: rest.take 4 := by
    have hend : e + 5 - 12 = (encodeLabels labels).length + 5 := by
      have := h.ends
      omega
    rw [hend, hrequest, List.take_length_add_append]
    rfl
  rw [← hzero]
  constructor
  · -- Without an address, the response is the header and the question.
    intro hagree
    have hresponse := hagree.buildResponse none [] rfl
    obtain ⟨-, question, answer, hquestion, hanswer, heq⟩ := buildResponse_eq_some_iff.mp hresponse
    obtain rfl := Option.some.inj hanswer
    obtain ⟨name, last, more, hname, hlast, rfl, hbody⟩ := questionSection_eq_some_iff.mp hquestion
    rw [List.append_nil, List.append_nil, htake] at heq
    have hsame := List.append_cancel_left heq
    have hlength := congrArg List.length hsame
    simp only [List.length_append, List.length_cons, List.length_take] at hlength
    have hlabels := (List.append_inj hsame (by omega)).1
    rw [hlabels]
    exact hname
  · -- The first zero byte behind the header is the one that ends the name.
    intro hname
    refine ⟨h.scanName_eq, h.parseQType_eq, fun ipAddress answer hanswer => ?_⟩
    apply buildResponse_eq_some_iff.mpr
    refine ⟨h.length, _, answer, ?_, hanswer, rfl⟩
    rw [questionSection_of_zero hname hrequest, if_neg (by omega), htake]

/-- A query for `a.bc`, of type and class 1. -/
def hostPacket : List UInt8 := List.replicate 12 0 ++ [1, 97, 2, 98, 99, 0, 0, 1, 0, 1]

theorem walks_agree_iff_plain :
    WalksAgree (fun _ => none) hostPacket [[97], [98, 99]] 17 ↔ ∀ label ∈ [[97], [98, 99]], (0 : UInt8) ∉ label :=
  walks_agree_iff (fun _ => none)
    ⟨by decide, by simp [IsLabel], ⟨[0, 1, 0, 1], by decide, by decide⟩, by decide⟩

/-- A query whose name is one label of three bytes, the second of them zero. -/
def zeroPacket : List UInt8 := List.replicate 12 0 ++ [3, 97, 0, 98, 0, 0, 1, 0, 1]

/-- The question that is copied ends four bytes after the zero byte in the label. -/
theorem not_walks_agree_zero :
    NameEndsAt zeroPacket [[97, 0, 98]] 16 ∧ ¬ WalksAgree (fun _ => none) zeroPacket [[97, 0, 98]] 16 := by
  refine ⟨⟨by decide, by simp [IsLabel], ⟨[0, 1, 0, 1], by decide, by decide⟩, by decide⟩, fun h => ?_⟩
  have hshort := h.buildResponse none [] rfl
  exact absurd hshort (by decide)

/-! ### Reading a response back -/

/-- The bytes of a host name: letters, digits, `-` and `_`. -/
def IsHostByte (b : UInt8) : Prop := (Char.ofNat b.toNat).isAlphanum ∨ b = 45 ∨ b = 95

/-- A query of at least 12 bytes for a host name. -/
structure HostQuery (query : List UInt8) (question : DnsQuestion) : Prop where
  length : 12 ≤ query.length
  isLabel : ∀ label ∈ question.name, IsLabel label ∧ ∀ b ∈ label, IsHostByte b
  qtype : question.qtype < 65536
  qclass : question.qclass < 65536
  bytes : ∃ tail, query.drop 12 =
    encodeLabels question.name ++ 0 :: (be16 question.qtype ++ be16 question.qclass ++ tail)

/-- A decoder reads the response to its end, and finds the identifier and the question of the query, the QR
bit, and as many answers as the header counts, all for the name of the question and with as much data as
they claim. -/
def Decodes (query : List UInt8) (question : DnsQuestion) (response : List UInt8) : Prop :=
  ∃ message, decodeMessage response = some (message, []) ∧
    (readBe16 query).map Prod.fst = some message.header.id ∧ message.header.isResponse ∧
    message.questions = [question] ∧ message.answers.length = message.header.anCount ∧
    ∀ record ∈ message.answers, record.name = question.name ∧ record.rdLength = record.rdata.length

theorem be16_toNat (a b : UInt8) : be16 (a.toNat * 256 + b.toNat) = [a, b] := by
  have ha := a.toNat_lt
  have hb := b.toNat_lt
  have hhi : UInt8.ofNat ((a.toNat * 256 + b.toNat) / 256) = a := by
    apply UInt8.toNat_inj.mp
    rw [UInt8.toNat_ofNat']
    omega
  have hlo : UInt8.ofNat (a.toNat * 256 + b.toNat) = b := by
    apply UInt8.toNat_inj.mp
    rw [UInt8.toNat_ofNat']
    omega
  unfold be16
  rw [hhi, hlo]

/-- The header that the builder writes. -/
def headerOf (id : ℕ) (found : Bool) : DnsHeader :=
  ⟨id, if found then 0x8180 else 0x8183, 1, if found then 1 else 0, 0, 0⟩

theorem responseHeader_eq {query : List UInt8} (h : 12 ≤ query.length) (found : Bool) :
    ∃ id, (readBe16 query).map Prod.fst = some id ∧ id < 65536 ∧
      responseHeader query found = encodeHeader (headerOf id found) := by
  match query, h with
  | a :: b :: query, _ =>
    refine ⟨a.toNat * 256 + b.toNat, rfl, ?_, ?_⟩
    · have ha := a.toNat_lt
      have hb := b.toNat_lt
      omega
    · unfold responseHeader encodeHeader headerOf
      rw [be16_toNat]
      rfl

section Decode

variable {id : ℕ} {found : Bool} {question : DnsQuestion} {answer : List UInt8}

/-- A response, field by field. -/
def responseOf (id : ℕ) (found : Bool) (question : DnsQuestion) (answer : List UInt8) : List UInt8 :=
  encodeHeader (headerOf id found) ++
    (encodeLabels question.name ++ 0 :: (be16 question.qtype ++ be16 question.qclass ++ answer))

theorem length_responseOf :
    (responseOf id found question answer).length =
      12 + ((encodeLabels question.name).length + (5 + answer.length)) := by
  unfold responseOf
  simp only [List.length_append, List.length_cons, length_be16]
  show 12 + _ = _
  omega

theorem readName_responseOf (hlabels : ∀ label ∈ question.name, IsLabel label) {fuel : ℕ}
    (hfuel : (encodeLabels question.name).length < fuel) :
    readName (responseOf id found question answer) fuel
        (encodeLabels question.name ++ 0 :: (be16 question.qtype ++ be16 question.qclass ++ answer)) =
      some (question.name, be16 question.qtype ++ be16 question.qclass ++ answer) :=
  readName_encode _ _ hlabels (by have := length_le_length_encodeLabels question.name; omega)

theorem readQuestion_responseOf (hlabels : ∀ label ∈ question.name, IsLabel label)
    (hqtype : question.qtype < 65536) (hqclass : question.qclass < 65536) :
    readQuestion (responseOf id found question answer)
        (encodeLabels question.name ++ 0 :: (be16 question.qtype ++ be16 question.qclass ++ answer)) =
      some (question, answer) := by
  have hfuel := @length_responseOf id found question answer
  rw [readQuestion_eq (readName_responseOf hlabels (by omega)), Nat.mod_eq_of_lt hqtype,
    Nat.mod_eq_of_lt hqclass]

/-- What is read of a response depends on its answer section only. -/
theorem decodeMessage_responseOf (hid : id < 65536) (hlabels : ∀ label ∈ question.name, IsLabel label)
    (hqtype : question.qtype < 65536) (hqclass : question.qclass < 65536) :
    decodeMessage (responseOf id found question answer) =
      (readMany (readRecord (responseOf id found question answer)) (if found then 1 else 0) answer).map
        fun r => (⟨headerOf id found, [question], r.1, [], []⟩, r.2) := by
  have hflags : (headerOf id found).flags < 65536 := by
    show (if found then 0x8180 else 0x8183 : ℕ) < 65536
    split <;> omega
  have hcount : (headerOf id found).anCount < 65536 := by
    show (if found then 1 else 0 : ℕ) < 65536
    split <;> omega
  have hheader := readHeader_encode hid hflags (show 1 < 65536 by omega) hcount (show 0 < 65536 by omega)
    (show 0 < 65536 by omega) (encodeLabels question.name ++
      0 :: (be16 question.qtype ++ be16 question.qclass ++ answer))
  exact decodeMessage_of_question hheader rfl rfl rfl (readQuestion_responseOf hlabels hqtype hqclass)

/-- The pointer of the record leads to the question's name; the data is what the address has. -/
theorem readRecord_answerRecord {addr : List UInt8} (hlabels : ∀ label ∈ question.name, IsLabel label) :
    readRecord (responseOf id found question (answerRecord addr)) (answerRecord addr) =
      if addr.length < 4 then none
      else some (⟨question.name, 1, 1, ttlSeconds, 4, addr.take 4⟩, addr.drop 4) := by
  have hlength := @length_responseOf id found question (answerRecord addr)
  obtain ⟨fuel, hfuel⟩ : ∃ m, (responseOf id found question (answerRecord addr)).length = m + 1 :=
    ⟨_, by rw [hlength]; exact (Nat.succ_pred_eq_of_pos (by omega)).symm⟩
  have hname : readName (responseOf id found question (answerRecord addr))
      (responseOf id found question (answerRecord addr)).length (answerRecord addr) =
        some (question.name, be16 1 ++ be16 1 ++ be32 ttlSeconds ++ be16 4 ++ addr) := by
    rw [hfuel]
    apply readName_pointer (by decide)
    exact readName_responseOf hlabels (by omega)
  exact readRecord_eq hname

end Decode

theorem IsHostByte.ne_zero {b : UInt8} (h : IsHostByte b) : b ≠ 0 := by
  rintro rfl
  rcases h with h | h | h
  · exact absurd h (by decide)
  · exact absurd h (by decide)
  · exact absurd h (by decide)

/-- A response to a query for a host name. -/
theorem buildResponse_hostQuery {getByName : Str → Option (List UInt8)} {query : List UInt8}
    {question : DnsQuestion} (h : HostQuery query question) (ipAddress : Option Str) :
    ∃ id, (readBe16 query).map Prod.fst = some id ∧ id < 65536 ∧
      buildResponse getByName query ipAddress =
        (answerSection getByName (foundAddress ipAddress)).map
          (responseOf id (foundAddress ipAddress).isSome question) := by
  obtain ⟨tail, hquery⟩ := h.bytes
  obtain ⟨id, hid, hlt, hheader⟩ := responseHeader_eq h.length (foundAddress ipAddress).isSome
  have hname : 0 ∉ encodeLabels question.name := by
    rw [zero_mem_encodeLabels fun label hl => (h.isLabel label hl).1]
    rintro ⟨label, hl, hzero⟩
    exact ((h.isLabel label hl).2 0 hzero).ne_zero rfl
  have hquestion : questionSection query =
      some (encodeLabels question.name ++ 0 :: (be16 question.qtype ++ be16 question.qclass)) :=
    questionSection_of_zero hname hquery
  refine ⟨id, hid, hlt, ?_⟩
  have hlength := h.length
  unfold buildResponse
  rw [if_neg (by omega), hquestion]
  simp only
  rw [hheader]
  cases answerSection getByName (foundAddress ipAddress) with
  | none => rfl
  | some answer =>
    show some _ = some _
    unfold responseOf
    simp only [List.append_assoc, List.cons_append]

/-- A response with an address can be read back if the address is as long as the record says. -/
theorem decodes_answer_iff {query : List UInt8} {question : DnsQuestion} (h : HostQuery query question)
    {id : ℕ} (hid : (readBe16 query).map Prod.fst = some id) (hlt : id < 65536) (addr : List UInt8) :
    Decodes query question (responseOf id true question (answerRecord addr)) ↔ addr.length = 4 := by
  have hlabels : ∀ label ∈ question.name, IsLabel label := fun label hl => (h.isLabel label hl).1
  have hdecode := @decodeMessage_responseOf id true question (answerRecord addr) hlt hlabels h.qtype h.qclass
  rw [if_pos rfl, readMany_one, readRecord_answerRecord hlabels] at hdecode
  by_cases hshort : addr.length < 4
  · rw [if_pos hshort] at hdecode
    refine iff_of_false ?_ (by omega)
    rintro ⟨message, hmessage, -⟩
    rw [hdecode] at hmessage
    exact absurd hmessage (by simp)
  · rw [if_neg hshort] at hdecode
    constructor
    · rintro ⟨message, hmessage, -⟩
      rw [hdecode] at hmessage
      have hrest : addr.drop 4 = [] := congrArg Prod.snd (Option.some.inj hmessage)
      have hle := List.drop_eq_nil_iff.mp hrest
      omega
    · -- The record is the last thing in the message.
      intro hfour
      have hrest : addr.drop 4 = [] := List.drop_eq_nil_iff.mpr (by omega)
      rw [hrest] at hdecode
      refine ⟨_, hdecode, hid, (by decide : Nat.testBit 0x8180 15 = true), rfl, rfl, fun record hrecord => ?_⟩
      obtain rfl := List.mem_singleton.mp hrecord
      refine ⟨rfl, ?_⟩
      show 4 = (addr.take 4).length
      rw [List.length_take]
      omega

/-- A response without an answer. -/
theorem decodes_empty {query : List UInt8} {question : DnsQuestion} (h : HostQuery query question) {id : ℕ}
    (hid : (readBe16 query).map Prod.fst = some id) (hlt : id < 65536) :
    Decodes query question (responseOf id false question []) := by
  have hlabels : ∀ label ∈ question.name, IsLabel label := fun label hl => (h.isLabel label hl).1
  have hdecode := @decodeMessage_responseOf id false question [] hlt hlabels h.qtype h.qclass
  exact ⟨_, hdecode, hid, (by decide : Nat.testBit 0x8183 15 = true), rfl, rfl, by simp⟩

/-- **Responses can be read back** exactly if the address in them has four bytes. -/
theorem response_decodes_iff (getByName : Str → Option (List UInt8)) {query : List UInt8}
    {question : DnsQuestion} (h : HostQuery query question) (ipAddress : Option Str) :
    (∀ response, buildResponse getByName query ipAddress = some response → Decodes query question response) ↔
      ∀ s, ipAddress = some s → isBlank s = false → ∀ addr, getByName s = some addr → addr.length = 4 := by
  obtain ⟨id, hid, hlt, hbuild⟩ := @buildResponse_hostQuery getByName query question h ipAddress
  rw [hbuild]
  cases hfound : foundAddress ipAddress with
  | none =>
    refine iff_of_true (fun response hresponse => ?_) fun s hs hblank => ?_
    · obtain rfl := Option.some.inj hresponse
      exact decodes_empty h hid hlt
    · have hsome := foundAddress_eq_some_iff.mpr ⟨hs, hblank⟩
      rw [hfound] at hsome
      exact absurd hsome (by simp)
  | some s =>
    obtain ⟨hs, hblank⟩ := foundAddress_eq_some_iff.mp hfound
    have hanswer : answerSection getByName (some s) = (getByName s).map answerRecord := rfl
    rw [hanswer]
    constructor
    · intro hdecodes t ht _ addr haddr
      obtain rfl := Option.some.inj (hs.symm.trans ht)
      rw [haddr] at hdecodes
      exact (decodes_answer_iff h hid hlt addr).mp (hdecodes _ rfl)
    · intro hfour response hresponse
      cases haddr : getByName s with
      | none =>
        rw [haddr] at hresponse
        exact absurd hresponse (by simp)
      | some addr =>
        rw [haddr] at hresponse
        obtain rfl := Option.some.inj hresponse
        exact (decodes_answer_iff h hid hlt addr).mpr (hfour s hs hblank addr haddr)

/-- A platform that knows one address of each family. -/
def twoAddresses (s : Str) : Option (List UInt8) :=
  if s = "192.0.2.1".toList then some [192, 0, 2, 1]
  else if s = "2001:db8::1".toList then some [0x20, 0x01, 0x0D, 0xB8, 0, 0, 0, 0, 0, 0, 0, 0, 0, 0, 0, 1]
  else none

theorem hostQuery_hostPacket : HostQuery hostPacket ⟨[[97], [98, 99]], 1, 1⟩ where
  length := by decide
  isLabel := by simp [IsLabel, IsHostByte]
  qtype := by decide
  qclass := by decide
  bytes := ⟨[], by decide⟩

theorem response_decodes_iff_plain :
    (∀ response, buildResponse twoAddresses hostPacket (some "192.0.2.1".toList) = some response →
      Decodes hostPacket ⟨[[97], [98, 99]], 1, 1⟩ response) ↔
    ∀ s, some "192.0.2.1".toList = some s → isBlank s = false →
      ∀ addr, twoAddresses s = some addr → addr.length = 4 :=
  response_decodes_iff twoAddresses hostQuery_hostPacket (some "192.0.2.1".toList)

/-- The record with a longer address still claims four bytes, and twelve are left over. -/
theorem not_response_decodes_ipv6 :
    (∀ s addr, twoAddresses s = some addr → addr.length = 4 ∨ addr.length = 16) ∧
    ∃ response, buildResponse twoAddresses hostPacket (some "2001:db8::1".toList) = some response ∧
      ¬ Decodes hostPacket ⟨[[97], [98, 99]], 1, 1⟩ response := by
  constructor
  · intro s addr h
    unfold twoAddresses at h
    split at h
    · obtain rfl := Option.some.inj h
      exact Or.inl rfl
    · split at h
      · obtain rfl := Option.some.inj h
        exact Or.inr rfl
      · exact absurd h (by simp)
  · obtain ⟨response, hresponse⟩ := Option.isSome_iff_exists.mp
      (by decide : (buildResponse twoAddresses hostPacket (some "2001:db8::1".toList)).isSome = true)
    refine ⟨response, hresponse, ?_⟩
    rintro ⟨message, hmessage, -⟩
    have hleft : ((buildResponse twoAddresses hostPacket (some "2001:db8::1".toList)).bind decodeMessage).map
        (fun r => r.2.length) = some 12 := by decide +kernel
    rw [hresponse, Option.bind_some, hmessage] at hleft
    exact absurd hleft (by simp)

end DsDns
