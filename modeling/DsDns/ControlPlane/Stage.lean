/-
  The stages of a call of `resolve`.

  `waits` counts the answers of L2 that have told the call to wait: the one to its first `GET`, and the
  ones to its polls. `followStages` is the automaton whose states are the stages; `Equiv/Stage` shows that
  it follows `CacheClient.resolve`.
-/
import DsDns.ControlPlane.CacheClient

namespace DsDns

/-- What a call of `resolve` is about to do. -/
inductive Stage where
  /-- Look into L1. -/
  | started
  /-- Look into L2, after so many answers that told it to wait. -/
  | looking (waits : ℕ)
  /-- Sleep before the next poll. -/
  | sleeping (waits : ℕ)
  /-- Ask the data plane, and store the answer or not. -/
  | fetching (store : Bool)
  /-- Store the value in L2. -/
  | storing
  /-- Store the value in L1. -/
  | closing
  | ended
  deriving DecidableEq

/-- How many answers have told the call to wait, before it stops looking into L2. -/
def Stage.waits : Stage → Option ℕ
  | .started => some 0
  | .looking waits => some waits
  | .sleeping waits => some waits
  | _ => none

/-- The call has not heard from the data plane. -/
def Stage.unfetched : Stage → Bool
  | .started => true
  | .looking _ => true
  | .sleeping _ => true
  | .fetching _ => true
  | _ => false

/-- The call asks the data plane. -/
def Stage.isFetching : Stage → Bool
  | .fetching _ => true
  | _ => false

/-- The line tells a call to wait: to its first `GET` a lease text other than `LEASE;GRANTED`, later one
that does not start so. -/
def tellsToWait (waits : ℕ) (r : Str) : Bool :=
  startsWith r "LEASE;".toList &&
    !(if waits = 0 then decide (r = "LEASE;GRANTED".toList) else startsWith r "LEASE;GRANTED".toList)

/-- The stage after L2 has answered a `GET`. -/
def Stage.afterLookup (waits : ℕ) : Option Str → Stage
  | none => .fetching (waits = 0)
  | some r =>
    if isHit r then .closing
    else if tellsToWait waits r then
      if waits < leaseMaxRetries then .sleeping (waits + 1) else .fetching false
    else .fetching (waits = 0 || startsWith r "LEASE;".toList)

/-- The stage after the data plane has answered. -/
def Stage.afterFetch (store : Bool) (response : Option Str) : Stage :=
  if store && response.any fun r => !isBlank r && r ≠ "N/A".toList then .storing else .ended

/-- The stage after a reply. -/
def Stage.next : Stage → (q : Request) → q.Reply → Stage
  | .started, .send _ _ _, arrived =>
    if (Option.bind arrived readLine).any isHit then .ended else .looking 0
  | .looking waits, .send _ _ _, arrived => .afterLookup waits (Option.bind arrived readLine)
  | .sleeping waits, .sleep, interrupted =>
    if interrupted = true then .fetching false else .looking waits
  | .fetching store, .send _ _ _, arrived => .afterFetch store (Option.bind arrived readLine)
  | .storing, _, _ => .closing
  | .closing, _, _ => .ended
  | stage, _, _ => stage

/-- What a call asks in a stage. -/
def Stage.Asks (config : ZoneConfig) (domain : Str) : Stage → Request → Prop
  | .started, q => q = .send .l1 (selectServer config config.l1Servers domain) (getMessage domain)
  | .looking _, q => q = .send .l2 (selectServer config config.l2Servers domain) (getMessage domain)
  | .sleeping _, q => q = .sleep
  | .fetching _, q => q = .send .dataPlane config.leaderIp domain
  | .storing, q =>
    ∃ v, q = .send .l2 (selectServer config config.l2Servers domain) (setMessage domain v)
  | .closing, q =>
    ∃ v, q = .send .l1 (selectServer config config.l1Servers domain) (setMessage domain v)
  | .ended, _ => False

/-- The automaton of the stages. -/
def followStages (config : ZoneConfig) (domain : Str) :
    Interaction.Automaton Request Request.Reply Str Stage where
  asks := Stage.Asks config domain
  next := Stage.next
  ends stage _ := stage = .ended

end DsDns
