/-
  `RateLimiter.java`: a queue of admitted times for each address.

  A call drops the times before the window from the front of the queue, and is admitted if fewer than
  `maxQueries` are left. The clock is read before the queue is locked, so the readings of a run need not
  come in order; `RateTrace` is the limiter together with all it has admitted and all it has dropped.
-/
import DsDns.SlidingWindow
import DsDns.DataPlane.State
import DsDns.Transition

namespace DsDns

/-- `class RateLimiter`. -/
structure RateLimiter where
  maxQueries : ℤ
  windowSeconds : ℤ
  /-- The queue of each address, oldest first. -/
  windowMap : Str → Option (List Time)

namespace RateLimiter

/-- A limiter that has seen no call. -/
def start (maxQueries windowSeconds : ℤ) : RateLimiter := ⟨maxQueries, windowSeconds, fun _ => none⟩

/-- The length of the window. -/
def window (r : RateLimiter) : Time := r.windowSeconds * second

/-- `windowMap.computeIfAbsent(clientIp, k -> new ArrayDeque<>())`. -/
def timestamps (r : RateLimiter) (clientIp : Str) : List Time := (r.windowMap clientIp).getD []

/-- The queue of one address changed in place. -/
def store (r : RateLimiter) (clientIp : Str) (timestamps : List Time) : RateLimiter :=
  { r with windowMap := fun ip => if ip = clientIp then some timestamps else r.windowMap ip }

/-- The loop that polls the timestamps before `cutoff`. -/
def evict (cutoff : Time) (timestamps : List Time) : List Time := timestamps.dropWhile fun t => t < cutoff

/-- `RateLimiter.isRateLimited` with the clock at `now`. -/
def isRateLimited (r : RateLimiter) (clientIp : Str) (now : Time) : RateLimiter × Bool :=
  let cutoff := now - r.window
  let timestamps := evict cutoff (r.timestamps clientIp)
  if r.maxQueries ≤ timestamps.length then (r.store clientIp timestamps, true)
  else (r.store clientIp (timestamps ++ [now]), false)

@[simp] theorem timestamps_store (r : RateLimiter) (clientIp ip : Str) (ts : List Time) :
    (r.store clientIp ts).timestamps ip = if ip = clientIp then ts else r.timestamps ip := by
  unfold timestamps store
  simp only
  split <;> rfl

end RateLimiter

/-! ### Runs -/

/-- A call of `isRateLimited` and the clock it reads. -/
structure ClientQuery where
  clientIp : Str
  now : Time

/-- A limiter, and for each address the times it has admitted and those it has dropped from the queue. -/
structure RateTrace where
  limiter : RateLimiter
  admitted : Str → List Time
  evicted : Str → List Time

namespace RateTrace

/-- Before the first call. -/
def start (maxQueries windowSeconds : ℤ) : RateTrace :=
  ⟨RateLimiter.start maxQueries windowSeconds, fun _ => [], fun _ => []⟩

/-- The call is rejected. -/
def rejects (s : RateTrace) (q : ClientQuery) : Bool := (s.limiter.isRateLimited q.clientIp q.now).2

/-- The queue that the call counts. -/
def kept (s : RateTrace) (q : ClientQuery) : List Time :=
  RateLimiter.evict (q.now - s.limiter.window) (s.limiter.timestamps q.clientIp)

/-- What the call drops from the queue. -/
def drops (s : RateTrace) (q : ClientQuery) : List Time :=
  (s.limiter.timestamps q.clientIp).takeWhile fun t => t < q.now - s.limiter.window

/-- One call. -/
def step (s : RateTrace) (q : ClientQuery) : RateTrace where
  limiter := (s.limiter.isRateLimited q.clientIp q.now).1
  admitted := fun ip =>
    if ip = q.clientIp ∧ s.rejects q = false then s.admitted ip ++ [q.now] else s.admitted ip
  evicted := fun ip => if ip = q.clientIp then s.evicted ip ++ s.drops q else s.evicted ip

/-- The limiter after the calls. -/
def after (maxQueries windowSeconds : ℤ) (calls : List ClientQuery) : RateTrace :=
  run step (start maxQueries windowSeconds) calls

/-- The readings never decrease. -/
def Clocked (calls : List ClientQuery) : Prop := (calls.map ClientQuery.now).Pairwise (· ≤ ·)

instance (calls : List ClientQuery) : Decidable (Clocked calls) :=
  inferInstanceAs (Decidable (List.Pairwise _ _))

/-- The admitted calls of one address. -/
def callsOf (s : RateTrace) (ip : Str) : List ClientQuery := (s.admitted ip).map (ClientQuery.mk ip)

end RateTrace

end DsDns
