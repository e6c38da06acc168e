/-
  The limiter with threads is one limiter for each address and reset.

  The queue of an address is a cell of the map, so what the calls make of it is what they make of it alone
  (`CellMap.linked_run`), and that is what the sequential limiter has for the address (`timestamps_after`).
-/
import DsDns.ControlPlane.SharedLimiter
import DsDns.ControlPlane.Equiv.RateLimiter

namespace DsDns

/-- `isRateLimited` counts in the queue of its address. -/
theorem RateLimiter.isRateLimited_eq (r : RateLimiter) (clientIp : Str) (now : Time) :
    r.isRateLimited clientIp now =
      let (timestamps, limited) := count r.maxQueries r.window (r.timestamps clientIp) now
      (r.store clientIp timestamps, limited) := by
  unfold isRateLimited count
  simp only
  split <;> rfl

namespace RateTrace

/-- The queue of an address after calls of that address only. -/
theorem timestamps_after (maxQueries windowSeconds : ℤ) (clientIp : Str) (readings : List Time) :
    (after maxQueries windowSeconds (readings.map (ClientQuery.mk clientIp))).limiter.timestamps clientIp =
      CellMap.alone [] (RateLimiter.count maxQueries (windowSeconds * second)) readings := by
  induction readings using List.reverseRecOn with
  | nil => rfl
  | append_singleton readings now ih =>
    have hmax := maxQueries_run (start maxQueries windowSeconds) (readings.map (ClientQuery.mk clientIp))
    have hwindow := window_run (start maxQueries windowSeconds) (readings.map (ClientQuery.mk clientIp))
    rw [CellMap.alone_concat, ← ih, List.map_append, List.map_singleton]
    unfold after at ih ⊢
    rw [run_concat, step, RateLimiter.isRateLimited_eq, hmax, hwindow]
    simp only [RateLimiter.timestamps_store, if_pos]
    rfl

theorem rejects_after (maxQueries windowSeconds : ℤ) (clientIp : Str) (readings : List Time) (now : Time) :
    (after maxQueries windowSeconds (readings.map (ClientQuery.mk clientIp))).rejects ⟨clientIp, now⟩ =
      (RateLimiter.count maxQueries (windowSeconds * second)
        (CellMap.alone [] (RateLimiter.count maxQueries (windowSeconds * second)) readings) now).2 := by
  have hmax := maxQueries_run (start maxQueries windowSeconds) (readings.map (ClientQuery.mk clientIp))
  have hwindow := window_run (start maxQueries windowSeconds) (readings.map (ClientQuery.mk clientIp))
  rw [← timestamps_after]
  unfold rejects after
  rw [RateLimiter.isRateLimited_eq, hmax, hwindow]
  rfl

end RateTrace

namespace SharedLimiter

/-- **The limiter with threads and resets.** In every run of any number of threads, a call is decided as by a
limiter that no other thread uses and that has had only the earlier calls of its address that found their queue
between the same two resets; and a queue in the map holds what such a limiter has after all of them. -/
theorem shared_rate_limit (maxQueries windowSeconds : ℤ) (es : List LimiterEvent) :
    (∀ early o late, (run (step maxQueries windowSeconds) start es).log = early ++ o :: late →
      o.result = (RateTrace.after maxQueries windowSeconds (callsOf early o.key o.round)).rejects ⟨o.key, o.act⟩) ∧
    ∀ clientIp queue, (run (step maxQueries windowSeconds) start es).map clientIp = some queue →
      (run (step maxQueries windowSeconds) start es).cells queue =
        (RateTrace.after maxQueries windowSeconds (callsOf (run (step maxQueries windowSeconds) start es).log clientIp
          ((run (step maxQueries windowSeconds) start es).rounds clientIp))).limiter.timestamps clientIp := by
  have hlinked := CellMap.linked_run [] (RateLimiter.count maxQueries (windowSeconds * second)) es
  constructor
  · intro early o late hlog
    unfold callsOf
    rw [RateTrace.rejects_after]
    exact hlinked.decided early o late hlog
  · intro clientIp queue hmap
    unfold callsOf
    rw [RateTrace.timestamps_after]
    exact hlinked.cell_eq hmap

/-- A call that found its queue before a reset does not count for the calls after it: with a limit of one, both are
admitted. -/
example :
    let ip := "192.0.2.1".toList
    let es := [.find ip 0, .remove ip, .enter 0, .find ip 1, .enter 0]
    (run (step 1 10) start es).log.map Outcome.result = [false, false] := by decide +kernel

end SharedLimiter

end DsDns
