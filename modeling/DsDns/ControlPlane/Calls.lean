/-
  Any number of calls of `resolve` at the same time, the cache servers they talk to, and the data plane.

  A call waits at its next question. An `exchange` brings the message of a `send` to its server and the
  answer back; `abandon` makes the `send` return null, and its message may still `arrive` later, or
  never. Which call goes on when, and what the clock of a server shows, is up to the events.
-/
import DsDns.Caches.Server
import DsDns.ControlPlane.CacheClient
import DsDns.Transition

namespace DsDns

/-- A name made of letters, digits, hyphens and dots. -/
abbrev HostName := { domain : Str // ∀ c ∈ domain, c.isAlphanum = true ∨ c = '-' ∨ c = '.' }

/-- One call of `resolve`: what it still has to do, and whether one of its exchanges with the data
plane has failed or was answered `N/A`. -/
structure Call where
  domain : HostName
  client : Client Str
  missed : Bool

/-- What a reply adds to `Call.missed`. -/
def noteMiss (missed : Bool) : (q : Request) → q.Reply → Bool
  | .send .dataPlane _ _, arrived => missed || (arrived.bind readLine).all (· = "N/A".toList)
  | .send .l1 _ _, _ => missed
  | .send .l2 _ _, _ => missed
  | .sleep, _ => missed

/-- The cache servers by address, the calls, and the messages whose calls have given up on them. -/
structure CallWorld where
  l1 : Str → LruCache
  l2 : Str → L2Cache
  calls : List Call
  stray : List (Tier × Str × Str)

/-- What can happen. -/
inductive CallEvent where
  | resolve (config : ZoneConfig) (domain : HostName)
  | exchange (i : ℕ) (now : Time)
  | abandon (i : ℕ)
  | arrive (k : ℕ) (now : Time)
  | wake (i : ℕ) (interrupted : Bool)

/-- The address `send` connects to, unless it is null or blank. -/
def connection (ip : Option Str) : Option Str := ip.filter fun ip => !isBlank ip

namespace CallWorld

/-- Empty caches of any capacities, and no calls. -/
def start (capacity1 capacity2 : Str → ℕ) : CallWorld where
  l1 ip := .empty (capacity1 ip)
  l2 ip := { cache := .empty (capacity2 ip), leaseMap := fun _ => none }
  calls := []
  stray := []

variable [Unicode]

/-- A message reaches its server at the time `now`: the new state, and what the server writes back. -/
def serve (dataPlane : Str → Str) (w : CallWorld) (tier : Tier) (ip message : Str) (now : Time) :
    CallWorld × Str :=
  match tier with
  | .l1 =>
    let served := L1.handleClient (w.l1 ip) (message ++ ['\n'])
    ({ w with l1 := fun x => if x = ip then served.1 else w.l1 x }, served.2)
  | .l2 =>
    let served := L2.handleClient (fun _ => now) (w.l2 ip) (message ++ ['\n'])
    ({ w with l2 := fun x => if x = ip then served.1 else w.l2 x }, served.2)
  | .dataPlane => (w, dataPlane message)

/-- The call number `i` sends its message and reads the answer. -/
def exchange (dataPlane : Str → Str) (w : CallWorld) (i : ℕ) (now : Time) : CallWorld :=
  match w.calls[i]? with
  | some ⟨domain, .ask (.send tier ip message) next, missed⟩ =>
    match connection ip with
    | none => w
    | some address =>
      let served := w.serve dataPlane tier address message now
      let resumed : Call :=
        ⟨domain, next (some served.2), noteMiss missed (.send tier ip message) (some served.2)⟩
      { served.1 with calls := w.calls.set i resumed }
  | _ => w

omit [Unicode] in
/-- The `send` of the call number `i` returns null. -/
def abandon (w : CallWorld) (i : ℕ) : CallWorld :=
  match w.calls[i]? with
  | some ⟨domain, .ask (.send tier ip message) next, missed⟩ =>
    { w with
      calls := w.calls.set i ⟨domain, next none, noteMiss missed (.send tier ip message) none⟩
      stray := ((connection ip).map fun address => (tier, address, message)).toList ++ w.stray }
  | _ => w

/-- An abandoned message reaches its server after all. -/
def arrive (dataPlane : Str → Str) (w : CallWorld) (k : ℕ) (now : Time) : CallWorld :=
  match w.stray[k]? with
  | some (tier, ip, message) =>
    { (w.serve dataPlane tier ip message now).1 with stray := w.stray.eraseIdx k }
  | none => w

omit [Unicode] in
/-- The sleep of the call number `i` ends. -/
def wake (w : CallWorld) (i : ℕ) (interrupted : Bool) : CallWorld :=
  match w.calls[i]? with
  | some ⟨domain, .ask .sleep next, missed⟩ =>
    { w with calls := w.calls.set i ⟨domain, next interrupted, missed⟩ }
  | _ => w

/-- The world after one event. -/
def step (dataPlane : Str → Str) (w : CallWorld) : CallEvent → CallWorld
  | .resolve config domain =>
    { w with calls := w.calls ++ [⟨domain, CacheClient.resolve config domain, false⟩] }
  | .exchange i now => w.exchange dataPlane i now
  | .abandon i => w.abandon i
  | .arrive k now => w.arrive dataPlane k now
  | .wake i interrupted => w.wake i interrupted

end CallWorld

/-- The data plane answers with one line for every name: `N/A`, or a trimmed non-blank text that cannot
be taken for a lease. -/
structure Answers (dataPlane f : Str → Str) : Prop where
  line : ∀ d : HostName, readLine (dataPlane d) = some (f d)
  proper : ∀ d : HostName, f d = "N/A".toList ∨
    strip (f d) = f d ∧ f d ≠ [] ∧ startsWith (f d) "LEASE;".toList = false

/-- **Transparent**: every cache entry is the answer for its key, and every call that has ended returned
the answer for its name, or the empty text after a miss of its own at the data plane. -/
structure Transparent (f : Str → Str) (w : CallWorld) : Prop where
  l1 : ∀ ip k v, (w.l1 ip).get? k = some v → v = f k
  l2 : ∀ ip k v, (w.l2 ip).cache.get? k = some v → v = f k
  results : ∀ c ∈ w.calls, ∀ v, c.client = .done v →
    v = f c.domain ∨ v = [] ∧ c.missed = true

end DsDns
