/-
  `RateLimiter.java` as its threads see it.

  `isRateLimited` reads the clock and looks up the queue of its address, and only then waits for the lock of that
  queue; `reset` removes the queues from the map, one address after the other. So a call may count in a queue that
  the map no longer has. `SharedLimiter` is the map with these steps apart.
-/
import DsDns.CellMap
import DsDns.ControlPlane.RateLimiter

namespace DsDns

/-- The block of `isRateLimited` that holds the lock of the queue. -/
def RateLimiter.count (maxQueries : ℤ) (window : Time) (timestamps : List Time) (now : Time) : List Time × Bool :=
  let timestamps := evict (now - window) timestamps
  if maxQueries ≤ timestamps.length then (timestamps, true) else (timestamps ++ [now], false)

/-- `windowMap`, the queues, and the calls on their way and over. -/
abbrev SharedLimiter := CellMap Str (List Time) Time Bool

/-- A call has read the clock and found its queue, a call holds its lock, or `reset` has come to an address. -/
abbrev LimiterEvent := CellEvent Str Time

namespace SharedLimiter

/-- No calls. -/
def start : SharedLimiter := CellMap.start []

/-- The limiter after one event. -/
def step (maxQueries windowSeconds : ℤ) : SharedLimiter → LimiterEvent → SharedLimiter :=
  CellMap.step [] (RateLimiter.count maxQueries (windowSeconds * second))

/-- The calls of one address that found their queue between two resets, in the order in which they counted. -/
def callsOf (log : List (Outcome Str Time Bool)) (clientIp : Str) (resets : ℕ) : List ClientQuery :=
  (CellMap.actsOf log clientIp resets).map (ClientQuery.mk clientIp)

end SharedLimiter

end DsDns
