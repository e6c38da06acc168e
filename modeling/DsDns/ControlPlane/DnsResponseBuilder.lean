/-
  `DnsResponseBuilder.java`: the answer to a query, as bytes.

  The question of the query is copied: everything from byte 12 to the first zero byte, and five bytes
  from there on. What `InetAddress.getByName` makes of an address is a parameter: the bytes of the address,
  or `none` for an `UnknownHostException`.
-/
import DsDns.ControlPlane.CacheClient
import DsDns.DnsMessage

namespace DsDns

/-- `TTL_SECONDS`. -/
def ttlSeconds : ℕ := 60

/-- `qnameEnd`: the first zero byte from byte 12 on, or the length of the query. -/
def qnameEnd (query : List UInt8) : ℕ := 12 + ((query.drop 12).takeWhile (· ≠ 0)).length

/-- The header: the identifier of the query, then flags and counts. -/
def responseHeader (query : List UInt8) (found : Bool) : List UInt8 :=
  query.take 2 ++ be16 (if found then 0x8180 else 0x8183) ++ be16 1 ++ be16 (if found then 1 else 0) ++
    be16 0 ++ be16 0

/-- The question section, copied from the query: QNAME, zero byte, QTYPE and QCLASS. -/
def questionSection (query : List UInt8) : Option (List UInt8) :=
  if query.length ≤ qnameEnd query then none
  else
    let questionLen := (qnameEnd query - 12) + 1 + 4
    if query.length < 12 + questionLen then none else some ((query.drop 12).take questionLen)

/-- The answer record: TYPE, CLASS and RDLENGTH are the same for every address. -/
def answerRecord (addr : List UInt8) : List UInt8 :=
  [0xC0, 0x0C] ++ be16 1 ++ be16 1 ++ be32 ttlSeconds ++ be16 4 ++ addr

/-- The answer section: one record if an address was found. -/
def answerSection (getByName : Str → Option (List UInt8)) : Option Str → Option (List UInt8)
  | none => some []
  | some ipAddress => (getByName ipAddress).map answerRecord

/-- The address that is not `null` and not blank. -/
def foundAddress (ipAddress : Option Str) : Option Str := ipAddress.filter fun s => !isBlank s

/-- `DnsResponseBuilder.buildResponse`; `none` is `null`. -/
def buildResponse (getByName : Str → Option (List UInt8)) (query : List UInt8) (ipAddress : Option Str) :
    Option (List UInt8) :=
  if query.length < 12 then none
  else do
    let found := foundAddress ipAddress
    let question ← questionSection query
    let answer ← answerSection getByName found
    some (responseHeader query found.isSome ++ question ++ answer)

end DsDns
