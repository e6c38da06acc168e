/-
  `DnsServer.java`: from the bytes of a query to the bytes of a response.

  What a name resolves to is up to the caches and the data plane, so the pipeline is a program with the
  questions of `CacheClient.resolve`. The rate limiter is asked first, and its decision is part of the state.
-/
import DsDns.ControlPlane.AclManager
import DsDns.ControlPlane.DnsRequestParser
import DsDns.ControlPlane.DnsResponseBuilder
import DsDns.ControlPlane.RateLimiter

namespace DsDns

variable [Unicode] [Jvm]

/-- The components of `class DnsServer`, and what the platform makes of an address. -/
structure DnsServer where
  rateLimiter : RateLimiter
  aclManager : AclManager
  zoneConfig : ZoneConfig
  getByName : Str → Option (List UInt8)

/-- The address that internal clients get. -/
def internalAddress : Str := "192.168.1.1".toList

namespace DnsServer

omit [Jvm] in
/-- The address for a name: the internal one, or what the name resolves to. -/
def lookup (s : DnsServer) (domain clientIp : Str) : Client Str :=
  if s.aclManager.isInternalRequest clientIp then pure internalAddress
  else CacheClient.resolve s.zoneConfig domain

/-- `handleRequest` for a client that is not limited. -/
def answer (s : DnsServer) (query : List UInt8) (clientIp : Str) : Client (Option (List UInt8)) :=
  match (parseDomain query).filter fun domain => !isBlank domain with
  | none => pure (buildResponse s.getByName query none)
  | some domain => do
    let ipAddress ← s.lookup domain clientIp
    let resolvedIp := if isBlank ipAddress then none else some ipAddress
    return buildResponse s.getByName query resolvedIp

/-- `DnsServer.handleRequest` at the time `now`; `none` is `null`. -/
def handleRequest (s : DnsServer) (now : Time) (query : List UInt8) (clientIp : Str) :
    DnsServer × Client (Option (List UInt8)) :=
  let (rateLimiter, limited) := s.rateLimiter.isRateLimited clientIp now
  let s := { s with rateLimiter := rateLimiter }
  (s, if limited then pure none else s.answer query clientIp)

omit [Unicode] [Jvm] in
/-- What is written for a response: its length, of which `writeShort` keeps the low 16 bits, and the
response. -/
def tcpReply : Option (List UInt8) → List UInt8
  | none => []
  | some response => be16 response.length ++ response

/-- `DnsServer.handleTcpClient` on everything that a client sends: what is written back. -/
def handleTcpClient (s : DnsServer) (now : Time) (received : List UInt8) (clientIp : Str) :
    DnsServer × Client (List UInt8) :=
  match received with
  | hi :: lo :: rest =>
    let msgLen := hi.toNat * 256 + lo.toNat
    if msgLen = 0 then (s, pure [])
    -- The connection ends before the message does.
    else if rest.length < msgLen then (s, pure [])
    else
      let (s, response) := s.handleRequest now (rest.take msgLen) clientIp
      (s, do return tcpReply (← response))
  | _ => (s, pure [])

end DnsServer

end DsDns
