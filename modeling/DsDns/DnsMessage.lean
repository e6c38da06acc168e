/-
  Messages in the wire format of RFC 1035.

  A name is a sequence of labels, each after a byte with its length, and ends with a zero byte or with a
  pointer to where it goes on. `decodeMessage` reads the header, and then as many questions and records as
  the header says; with the message it returns the bytes it has not read.

  Every reader comes with a lemma that says what it makes of the encoding followed by other bytes:
  `readBe16_be16`, `readName_encode`, `readName_pointer`.
-/
import Mathlib.Data.List.Basic
import Mathlib.Data.Nat.Notation

namespace DsDns

/-! ### Numbers -/

/-- A number of 16 bits, the high byte first. -/
def be16 (n : ℕ) : List UInt8 := [UInt8.ofNat (n / 256), UInt8.ofNat n]

/-- A number of 32 bits, the high byte first. -/
def be32 (n : ℕ) : List UInt8 :=
  [UInt8.ofNat (n / 16777216), UInt8.ofNat (n / 65536), UInt8.ofNat (n / 256), UInt8.ofNat n]

def readBe16 : List UInt8 → Option (ℕ × List UInt8)
  | hi :: lo :: rest => some (hi.toNat * 256 + lo.toNat, rest)
  | _ => none

def readBe32 : List UInt8 → Option (ℕ × List UInt8)
  | a :: b :: c :: d :: rest =>
    some (a.toNat * 16777216 + b.toNat * 65536 + c.toNat * 256 + d.toNat, rest)
  | _ => none

theorem length_be16 (n : ℕ) : (be16 n).length = 2 := rfl

theorem length_be32 (n : ℕ) : (be32 n).length = 4 := rfl

theorem readBe16_be16 (n : ℕ) (rest : List UInt8) : readBe16 (be16 n ++ rest) = some (n % 65536, rest) := by
  show some ((UInt8.ofNat (n / 256)).toNat * 256 + (UInt8.ofNat n).toNat, rest) = _
  rw [UInt8.toNat_ofNat', UInt8.toNat_ofNat']
  have hsum : n / 256 % 2 ^ 8 * 256 + n % 2 ^ 8 = n % 65536 := by omega
  rw [hsum]

theorem readBe32_be32 (n : ℕ) (rest : List UInt8) :
    readBe32 (be32 n ++ rest) = some (n % 4294967296, rest) := by
  show some ((UInt8.ofNat (n / 16777216)).toNat * 16777216 + (UInt8.ofNat (n / 65536)).toNat * 65536 +
    (UInt8.ofNat (n / 256)).toNat * 256 + (UInt8.ofNat n).toNat, rest) = _
  rw [UInt8.toNat_ofNat', UInt8.toNat_ofNat', UInt8.toNat_ofNat', UInt8.toNat_ofNat']
  have hsum : n / 16777216 % 2 ^ 8 * 16777216 + n / 65536 % 2 ^ 8 * 65536 + n / 256 % 2 ^ 8 * 256 +
      n % 2 ^ 8 = n % 4294967296 := by omega
  rw [hsum]

/-! ### Names -/

/-- The labels of a name, each after its length. -/
def encodeLabels (labels : List (List UInt8)) : List UInt8 :=
  labels.flatMap fun label => UInt8.ofNat label.length :: label

/-- The lengths that a length byte can say. -/
def IsLabel (label : List UInt8) : Prop := 1 ≤ label.length ∧ label.length ≤ 63

instance (label : List UInt8) : Decidable (IsLabel label) := instDecidableAnd

/-- Read a name, in at most as many steps as the first argument says; a pointer counts from the start
of the message. -/
def readName (message : List UInt8) : ℕ → List UInt8 → Option (List (List UInt8) × List UInt8)
  | 0, _ => none
  | _, [] => none
  | fuel + 1, len :: rest =>
    if len.toNat = 0 then some ([], rest)
    else if len.toNat < 64 then
      if rest.length < len.toNat then none
      else (readName message fuel (rest.drop len.toNat)).map fun r => (rest.take len.toNat :: r.1, r.2)
    else if len.toNat < 192 then none
    else
      rest.head?.bind fun lo =>
        (readName message fuel (message.drop ((len.toNat - 192) * 256 + lo.toNat))).map fun r =>
          (r.1, rest.tail)

@[simp] theorem encodeLabels_nil : encodeLabels [] = [] := rfl

theorem encodeLabels_cons (label : List UInt8) (labels : List (List UInt8)) :
    encodeLabels (label :: labels) = UInt8.ofNat label.length :: (label ++ encodeLabels labels) := rfl

theorem encodeLabels_append (labels more : List (List UInt8)) :
    encodeLabels (labels ++ more) = encodeLabels labels ++ encodeLabels more := List.flatMap_append

theorem toNat_length {label : List UInt8} (h : label.length < 256) :
    (UInt8.ofNat label.length).toNat = label.length := by
  rw [UInt8.toNat_ofNat']
  omega

/-- There are at least as many bytes as labels. -/
theorem length_le_length_encodeLabels (labels : List (List UInt8)) :
    labels.length ≤ (encodeLabels labels).length := by
  induction labels with
  | nil => exact Nat.le_refl 0
  | cons label labels ih =>
    rw [encodeLabels_cons, List.length_cons, List.length_cons, List.length_append]
    omega

theorem readName_encode (message rest : List UInt8) {labels : List (List UInt8)} {fuel : ℕ}
    (h : ∀ label ∈ labels, IsLabel label) (hfuel : labels.length < fuel) :
    readName message fuel (encodeLabels labels ++ 0 :: rest) = some (labels, rest) := by
  induction labels generalizing fuel with
  | nil =>
    obtain ⟨fuel, rfl⟩ : ∃ m, fuel = m + 1 := ⟨fuel - 1, by rw [List.length_nil] at hfuel; omega⟩
    rfl
  | cons label labels ih =>
    obtain ⟨fuel, rfl⟩ : ∃ m, fuel = m + 1 := ⟨fuel - 1, by omega⟩
    obtain ⟨hlabel, hlabels⟩ := List.forall_mem_cons.mp h
    obtain ⟨hpos, hle⟩ := hlabel
    have hlength := toNat_length (show label.length < 256 by omega)
    have htail : readName message fuel (encodeLabels labels ++ 0 :: rest) = some (labels, rest) :=
      ih hlabels (by rw [List.length_cons] at hfuel; omega)
    rw [encodeLabels_cons, List.cons_append, readName, hlength, if_neg (by omega), if_pos (by omega),
      List.append_assoc, if_neg (by rw [List.length_append]; omega), List.drop_left, List.take_left, htail]
    rfl

/-- A pointer to a name. -/
theorem readName_pointer {message rest : List UInt8} {hi lo : UInt8} {fuel : ℕ}
    {labels : List (List UInt8)} {after : List UInt8} (hhi : 192 ≤ hi.toNat)
    (h : readName message fuel (message.drop ((hi.toNat - 192) * 256 + lo.toNat)) = some (labels, after)) :
    readName message (fuel + 1) (hi :: lo :: rest) = some (labels, rest) := by
  rw [readName, if_neg (by omega), if_neg (by omega), if_neg (by omega), List.head?_cons,
    Option.bind_some, h]
  rfl

/-! ### Questions, records and messages -/

/-- A question. -/
structure DnsQuestion where
  name : List (List UInt8)
  qtype : ℕ
  qclass : ℕ
  deriving DecidableEq

/-- A resource record, with the length it claims for its data. -/
structure DnsRecord where
  name : List (List UInt8)
  rtype : ℕ
  rclass : ℕ
  ttl : ℕ
  rdLength : ℕ
  rdata : List UInt8
  deriving DecidableEq

/-- The header: the identifier, the flags, and how many entries each section has. -/
structure DnsHeader where
  id : ℕ
  flags : ℕ
  qdCount : ℕ
  anCount : ℕ
  nsCount : ℕ
  arCount : ℕ
  deriving DecidableEq

/-- A message. -/
structure DnsMessage where
  header : DnsHeader
  questions : List DnsQuestion
  answers : List DnsRecord
  authorities : List DnsRecord
  additionals : List DnsRecord
  deriving DecidableEq

/-- The QR bit: the message is a response. -/
def DnsHeader.isResponse (h : DnsHeader) : Bool := h.flags.testBit 15

/-- Read six numbers. -/
def readHeader (bytes : List UInt8) : Option (DnsHeader × List UInt8) := do
  let (id, bytes) ← readBe16 bytes
  let (flags, bytes) ← readBe16 bytes
  let (qdCount, bytes) ← readBe16 bytes
  let (anCount, bytes) ← readBe16 bytes
  let (nsCount, bytes) ← readBe16 bytes
  let (arCount, bytes) ← readBe16 bytes
  some (⟨id, flags, qdCount, anCount, nsCount, arCount⟩, bytes)

/-- Read a name, a type and a class. -/
def readQuestion (message bytes : List UInt8) : Option (DnsQuestion × List UInt8) := do
  let (name, bytes) ← readName message message.length bytes
  let (qtype, bytes) ← readBe16 bytes
  let (qclass, bytes) ← readBe16 bytes
  some (⟨name, qtype, qclass⟩, bytes)

/-- Read a record; its data must be there in full. -/
def readRecord (message bytes : List UInt8) : Option (DnsRecord × List UInt8) := do
  let (name, bytes) ← readName message message.length bytes
  let (rtype, bytes) ← readBe16 bytes
  let (rclass, bytes) ← readBe16 bytes
  let (ttl, bytes) ← readBe32 bytes
  let (rdLength, bytes) ← readBe16 bytes
  if bytes.length < rdLength then none
  else some (⟨name, rtype, rclass, ttl, rdLength, bytes.take rdLength⟩, bytes.drop rdLength)

/-- Read the entries of a section. -/
def readMany {α : Type} (read : List UInt8 → Option (α × List UInt8)) :
    ℕ → List UInt8 → Option (List α × List UInt8)
  | 0, bytes => some ([], bytes)
  | n + 1, bytes => do
    let (entry, bytes) ← read bytes
    let (entries, bytes) ← readMany read n bytes
    some (entry :: entries, bytes)

/-- Read a message, and return it with what is left. -/
def decodeMessage (message : List UInt8) : Option (DnsMessage × List UInt8) := do
  let (header, bytes) ← readHeader message
  let (questions, bytes) ← readMany (readQuestion message) header.qdCount bytes
  let (answers, bytes) ← readMany (readRecord message) header.anCount bytes
  let (authorities, bytes) ← readMany (readRecord message) header.nsCount bytes
  let (additionals, bytes) ← readMany (readRecord message) header.arCount bytes
  some (⟨header, questions, answers, authorities, additionals⟩, bytes)

/-- The bytes of a header. -/
def encodeHeader (h : DnsHeader) : List UInt8 :=
  be16 h.id ++ be16 h.flags ++ be16 h.qdCount ++ be16 h.anCount ++ be16 h.nsCount ++ be16 h.arCount

theorem readHeader_encode {h : DnsHeader} (hid : h.id < 65536) (hflags : h.flags < 65536)
    (hqd : h.qdCount < 65536) (han : h.anCount < 65536) (hns : h.nsCount < 65536) (har : h.arCount < 65536)
    (rest : List UInt8) : readHeader (encodeHeader h ++ rest) = some (h, rest) := by
  unfold readHeader encodeHeader
  simp only [List.append_assoc, readBe16_be16, Option.bind_eq_bind, Option.bind_some,
    Nat.mod_eq_of_lt, hid, hflags, hqd, han, hns, har]

theorem readQuestion_eq {message bytes rest : List UInt8} {name : List (List UInt8)} {qtype qclass : ℕ}
    (hname : readName message message.length bytes = some (name, be16 qtype ++ be16 qclass ++ rest)) :
    readQuestion message bytes = some (⟨name, qtype % 65536, qclass % 65536⟩, rest) := by
  unfold readQuestion
  simp only [hname, List.append_assoc, readBe16_be16, Option.bind_eq_bind, Option.bind_some]

/-- A record whose data may be longer or shorter than it says. -/
theorem readRecord_eq {message bytes data : List UInt8} {name : List (List UInt8)}
    {rtype rclass ttl rdLength : ℕ} (hname : readName message message.length bytes =
      some (name, be16 rtype ++ be16 rclass ++ be32 ttl ++ be16 rdLength ++ data)) :
    readRecord message bytes =
      if data.length < rdLength % 65536 then none
      else some (⟨name, rtype % 65536, rclass % 65536, ttl % 4294967296, rdLength % 65536,
        data.take (rdLength % 65536)⟩, data.drop (rdLength % 65536)) := by
  unfold readRecord
  simp only [hname, List.append_assoc, readBe16_be16, readBe32_be32, Option.bind_eq_bind, Option.bind_some]

theorem readMany_one {α : Type} {read : List UInt8 → Option (α × List UInt8)} {bytes : List UInt8} :
    readMany read 1 bytes = (read bytes).map fun r => ([r.1], r.2) := by
  simp only [readMany]
  cases read bytes <;> rfl

/-- A message with one question and no records but answers. -/
theorem decodeMessage_of_question {message body rest : List UInt8} {h : DnsHeader} {question : DnsQuestion}
    (hheader : readHeader message = some (h, body)) (hqd : h.qdCount = 1) (hns : h.nsCount = 0)
    (har : h.arCount = 0) (hquestion : readQuestion message body = some (question, rest)) :
    decodeMessage message =
      (readMany (readRecord message) h.anCount rest).map fun r => (⟨h, [question], r.1, [], []⟩, r.2) := by
  unfold decodeMessage
  simp only [hheader, hqd, hns, har, readMany_one, hquestion, Option.bind_eq_bind, Option.bind_some,
    Option.map_some]
  cases readMany (readRecord message) h.anCount rest <;> rfl

end DsDns
