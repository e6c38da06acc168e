/-
  A DNS server at work: its requests, its calls of `resolve`, and everything these calls meet.

  `handleRequest` runs to its end for a client that is limited or internal and for a packet without a name; in all
  other cases it starts a call and builds the response when the call has ended. Any number of requests are under way
  at once, each in a thread of its own. The calls are those of `CallWorld`, and other servers may use the caches
  with calls of their own. Like the calls the requests are for host names: `resolve` passes any other name on to the
  caches and the data plane as well, where a space or a line break in it makes another message.
-/
import DsDns.ControlPlane.Calls
import DsDns.ControlPlane.DnsServer

namespace DsDns

/-- A packet without a name that is not blank, or with that of a host. -/
structure HostRequest [Jvm] where
  query : List UInt8
  name : Option HostName
  parsed : (parseDomain query).filter (fun domain => !isBlank domain) = name.map Subtype.val

/-- A request that has been taken on: the packet, the client, and the number of the call that it waits for. -/
structure Inquiry where
  query : List UInt8
  clientIp : Str
  call : ℕ

/-- What `handleRequest` has returned for a packet, and the call that the address is from, if any. -/
structure Returned where
  query : List UInt8
  clientIp : Str
  call : Option ℕ
  response : Option (List UInt8)
  deriving DecidableEq

/-- The server, the calls, the requests that wait for one of them, and those that are over. -/
structure RequestWorld where
  server : DnsServer
  calls : CallWorld
  waiting : List Inquiry
  returned : List Returned

/-- What can happen. -/
inductive RequestEvent [Jvm] where
  | request (now : Time) (r : HostRequest) (clientIp : Str)
  /-- Something happens to the calls, also to those of other servers. -/
  | call (e : CallEvent)
  /-- The call of the request number `k` of those that wait has ended. -/
  | respond (k : ℕ)

/-- `handleRequest` from the address on. -/
def DnsServer.respond (s : DnsServer) (query : List UInt8) (ipAddress : Str) : Option (List UInt8) :=
  buildResponse s.getByName query (if isBlank ipAddress then none else some ipAddress)

namespace RequestWorld

/-- No requests, and empty caches of any capacities. -/
def start (server : DnsServer) (capacity1 capacity2 : Str → ℕ) : RequestWorld where
  server := server
  calls := CallWorld.start capacity1 capacity2
  waiting := []
  returned := []

variable [Unicode] [Jvm]

/-- `handleRequest` up to the call of `resolve`, or to its end where it makes none. -/
def request (dataPlane : Str → Str) (w : RequestWorld) (now : Time) (r : HostRequest) (clientIp : Str) :
    RequestWorld :=
  let (rateLimiter, limited) := w.server.rateLimiter.isRateLimited clientIp now
  let w := { w with server := { w.server with rateLimiter := rateLimiter } }
  if limited then { w with returned := w.returned ++ [⟨r.query, clientIp, none, none⟩] }
  else
    -- The name that `parseDomain` reads, if it reads one that is not blank.
    match r.name with
    | none =>
      let response := buildResponse w.server.getByName r.query none
      { w with returned := w.returned ++ [⟨r.query, clientIp, none, response⟩] }
    | some domain =>
      if w.server.aclManager.isInternalRequest clientIp then
        let response := w.server.respond r.query internalAddress
        { w with returned := w.returned ++ [⟨r.query, clientIp, none, response⟩] }
      else
        { w with
          calls := w.calls.step dataPlane (.resolve w.server.zoneConfig domain)
          waiting := w.waiting ++ [⟨r.query, clientIp, w.calls.calls.length⟩] }

omit [Unicode] [Jvm] in
/-- `handleRequest` goes on after its call has ended. -/
def respond (w : RequestWorld) (k : ℕ) : RequestWorld :=
  match w.waiting[k]? with
  | none => w
  | some r =>
    match w.calls.calls[r.call]? with
    | some ⟨_, .done ipAddress, _⟩ =>
      { w with
        waiting := w.waiting.eraseIdx k
        returned := w.returned ++ [⟨r.query, r.clientIp, some r.call, w.server.respond r.query ipAddress⟩] }
    | _ => w

/-- The world after one event. -/
def step (dataPlane : Str → Str) (w : RequestWorld) : RequestEvent → RequestWorld
  | .request now r clientIp => w.request dataPlane now r clientIp
  | .call e => { w with calls := w.calls.step dataPlane e }
  | .respond k => w.respond k

end RequestWorld

end DsDns
