/-
  `DnsRequestParser.java` and `DnsResponseBuilder.java` once more, with the positions they compute.

  Every access names its index, an `int` that wraps around, and fails outside of the array. The loops take
  turns up to a fuel; `none` means that it has run out. What these functions return is what the functions of
  the same names over lists return.
-/
import DsDns.ControlPlane.DnsRequestParser
import DsDns.ControlPlane.DnsResponseBuilder
import DsDns.WhileLoop

namespace DsDns.Indexed

/-- The `int` of a sum or a difference of `int`s. -/
def int32 (x : ℤ) : ℤ := (x + 2147483648) % 4294967296 - 2147483648

/-- `IndexOutOfBoundsException`. -/
inductive OutOfBounds where
  | mk
  deriving DecidableEq

/-- `request[pos]`. -/
def byteAt (request : List UInt8) (pos : ℤ) : Except OutOfBounds UInt8 :=
  if 0 ≤ pos then
    match request[pos.toNat]? with
    | some b => .ok b
    | none => .error .mk
  else .error .mk

/-- The bytes that `new String(request, pos, len)` decodes, and that `out.write(request, pos, len)` copies. -/
def copyOf (request : List UInt8) (pos len : ℤ) : Except OutOfBounds (List UInt8) :=
  if 0 ≤ pos ∧ 0 ≤ len ∧ pos ≤ request.length - len then .ok ((request.drop pos.toNat).take len.toNat)
  else .error .mk

/-! ### `DnsRequestParser` -/

/-- One turn of the loop of `parseQType`. -/
def qTypeTurn (request : List UInt8) (pos : ℤ) : Except OutOfBounds (Turn ℤ ℤ) :=
  if pos < request.length then do
    let labelLen ← byteAt request pos
    if labelLen = 0 then .ok (.exit (int32 (pos + 1)))
    -- There is no check of the label against the packet here.
    else .ok (.next (int32 (pos + (1 + labelLen.toNat))))
  else .ok (.exit pos)

/-- What `parseQType` does after its loop. -/
def readQType (request : List UInt8) (pos : ℤ) : Except OutOfBounds ℤ :=
  if request.length ≤ int32 (pos + 1) then .ok (-1)
  else do
    let hi ← byteAt request pos
    let lo ← byteAt request (int32 (pos + 1))
    .ok ((hi.toNat <<< 8 ||| lo.toNat : ℕ) : ℤ)

/-- The `try` block of `parseQType`. -/
def tryQType (fuel : ℕ) (request : List UInt8) : Option (Except OutOfBounds ℤ) :=
  (whileLoop (qTypeTurn request) fuel 12).map fun pos => pos.bind (readQType request)

/-- `DnsRequestParser.parseQType`. -/
def parseQType (fuel : ℕ) (request : List UInt8) : Option ℤ :=
  if request.length < 12 then some (-1)
  else
    (tryQType fuel request).map fun
      | .ok qtype => qtype
      | .error _ => -1

section

variable [Jvm]

/-- The variables of `parseDomain`. -/
structure NameState where
  domain : Str
  pos : ℤ

/-- One turn of the loop of `parseDomain`; it leaves the loop with the name, or with `null`. -/
def domainTurn (request : List UInt8) (s : NameState) : Except OutOfBounds (Turn NameState (Option Str)) :=
  if s.pos < request.length then do
    let labelLen ← byteAt request s.pos
    if labelLen = 0 then .ok (.exit (some s.domain))
    else if labelLen &&& 0xC0 = 0xC0 then .ok (.exit (some s.domain))
    else
      let pos := int32 (s.pos + 1)
      if request.length < int32 (pos + labelLen.toNat) then .ok (.exit none)
      else do
        let label ← copyOf request pos labelLen.toNat
        .ok (.next ⟨appendLabel s.domain label, int32 (pos + labelLen.toNat)⟩)
  else .ok (.exit (some s.domain))

/-- The `try` block of `parseDomain`. -/
def tryDomain (fuel : ℕ) (request : List UInt8) : Option (Except OutOfBounds (Option Str)) :=
  whileLoop (domainTurn request) fuel ⟨[], 12⟩

/-- `DnsRequestParser.parseDomain`. -/
def parseDomain (fuel : ℕ) (request : List UInt8) : Option (Option Str) :=
  if request.length < 12 then some none
  else
    (tryDomain fuel request).map fun
      | .ok (some domain) =>
        let result := Jvm.toLowerCase domain
        if result = [] then none else some result
      | .ok none => none
      | .error _ => none

end

/-! ### `DnsResponseBuilder` -/

/-- One turn of the loop that looks for the end of the QNAME. -/
def endTurn (query : List UInt8) (qnameEnd : ℤ) : Except OutOfBounds (Turn ℤ ℤ) :=
  if qnameEnd < query.length then do
    let b ← byteAt query qnameEnd
    if b ≠ 0 then .ok (.next (int32 (qnameEnd + 1))) else .ok (.exit qnameEnd)
  else .ok (.exit qnameEnd)

/-- The question section, from the position `qnameEnd`. -/
def copyQuestion (query : List UInt8) (qnameEnd : ℤ) : Except OutOfBounds (Option (List UInt8)) :=
  if query.length ≤ qnameEnd then .ok none
  else
    let questionLen := int32 (int32 (int32 (qnameEnd - 12) + 1) + 4)
    if query.length < int32 (12 + questionLen) then .ok none else (copyOf query 12 questionLen).map some

/-- `DnsResponseBuilder.buildResponse`. No branch of it catches `OutOfBounds`. -/
def buildResponse (getByName : Str → Option (List UInt8)) (fuel : ℕ) (query : List UInt8) (ipAddress : Option Str) :
    Option (Except OutOfBounds (Option (List UInt8))) :=
  if query.length < 12 then some (.ok none)
  else
    (whileLoop (endTurn query) fuel 12).map fun qnameEnd => do
      let id₀ ← byteAt query 0
      let id₁ ← byteAt query 1
      let qnameEnd ← qnameEnd
      let question ← copyQuestion query qnameEnd
      let found := foundAddress ipAddress
      .ok do
        let question ← question
        let answer ← answerSection getByName found
        some (responseHeader [id₀, id₁] found.isSome ++ question ++ answer)

end DsDns.Indexed
