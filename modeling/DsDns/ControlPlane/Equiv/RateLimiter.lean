/-
  What the rate limiter admits.

  The queue of an address loses times at its front and gains them at its end, so in every run it is what
  is left of the admitted times (`split_run`). If the readings of the clock never decrease, everything lost
  is before the window of every later call (`inOrder_run`), and the queue counts exactly the admitted times in
  the window.

  The bound on closed intervals needs less: only that no call finds room for the sole reason that times near
  its reading are gone already (`Timely`, `atMost_run`).
-/
import DsDns.ControlPlane.RateLimiter

namespace DsDns.RateTrace

variable {s : RateTrace} {q : ClientQuery}

/-! ### One call -/

theorem rejects_eq_true_iff : s.rejects q = true ↔ s.limiter.maxQueries ≤ (s.kept q).length := by
  unfold rejects RateLimiter.isRateLimited kept
  simp only
  split
  · rename_i h
    exact iff_of_true rfl h
  · rename_i h
    exact iff_of_false (by simp) h

theorem rejects_eq_false_iff : s.rejects q = false ↔ ((s.kept q).length : ℤ) < s.limiter.maxQueries := by
  rw [← not_le, ← rejects_eq_true_iff, Bool.not_eq_true]

/-- A call changes the queue of its address and nothing else. -/
theorem limiter_step : (s.step q).limiter =
    s.limiter.store q.clientIp (if s.rejects q then s.kept q else s.kept q ++ [q.now]) := by
  have hrejects := @rejects_eq_true_iff s q
  show (s.limiter.isRateLimited q.clientIp q.now).1 = _
  unfold RateLimiter.isRateLimited
  simp only
  split
  · rename_i h
    rw [if_pos (hrejects.mpr h)]
    rfl
  · rename_i h
    rw [if_neg fun hr => h (hrejects.mp hr)]
    rfl

@[simp] theorem maxQueries_step : (s.step q).limiter.maxQueries = s.limiter.maxQueries := by
  rw [limiter_step]
  rfl

@[simp] theorem window_step : (s.step q).limiter.window = s.limiter.window := by
  rw [limiter_step]
  rfl

theorem timestamps_step (ip : Str) : (s.step q).limiter.timestamps ip =
    if ip = q.clientIp then if s.rejects q then s.kept q else s.kept q ++ [q.now]
    else s.limiter.timestamps ip := by
  rw [limiter_step, RateLimiter.timestamps_store]

/-- The times in front of the cutoff, and the others. -/
theorem drops_append_kept (s : RateTrace) (q : ClientQuery) :
    s.drops q ++ s.kept q = s.limiter.timestamps q.clientIp := List.takeWhile_append_dropWhile

theorem lt_of_mem_drops {t : Time} (h : t ∈ s.drops q) : t < q.now - s.limiter.window :=
  of_decide_eq_true (List.mem_takeWhile_imp (p := fun t => decide (t < q.now - s.limiter.window)) h)

theorem maxQueries_run (s : RateTrace) (calls : List ClientQuery) :
    (run step s calls).limiter.maxQueries = s.limiter.maxQueries := by
  induction calls generalizing s with
  | nil => rfl
  | cons q calls ih => rw [run_cons, ih, maxQueries_step]

theorem window_run (s : RateTrace) (calls : List ClientQuery) :
    (run step s calls).limiter.window = s.limiter.window := by
  induction calls generalizing s with
  | nil => rfl
  | cons q calls ih => rw [run_cons, ih, window_step]

/-! ### The queue is the end of what was admitted -/

/-- The queues are what is left of the admitted times. -/
def Split (s : RateTrace) : Prop := ∀ ip, s.admitted ip = s.evicted ip ++ s.limiter.timestamps ip

theorem split_step (h : s.Split) (q : ClientQuery) : (s.step q).Split := by
  intro ip
  rw [timestamps_step]
  show (if ip = q.clientIp ∧ s.rejects q = false then s.admitted ip ++ [q.now] else s.admitted ip) =
    (if ip = q.clientIp then s.evicted ip ++ s.drops q else s.evicted ip) ++ _
  by_cases hip : ip = q.clientIp
  · subst hip
    rw [if_pos rfl, if_pos rfl, h q.clientIp, ← drops_append_kept s q]
    cases s.rejects q <;> simp
  · rw [if_neg hip, if_neg hip, if_neg fun hand => hip hand.1]
    exact h ip

/-- **In every run**, the queue of an address is the end of its admitted times. -/
theorem split_run (maxQueries windowSeconds : ℤ) (calls : List ClientQuery) :
    (run step (start maxQueries windowSeconds) calls).Split :=
  run_invariant (fun _ => rfl) fun _ q hs => split_step hs q

/-! ### Readings in any order -/

/-- The call finds no room that it would not find if the times near its reading were all still there. -/
def Timely (s : RateTrace) (q : ClientQuery) : Prop :=
  ((s.kept q).length : ℤ) < s.limiter.maxQueries →
    ((s.kept q).length + (between (q.now - s.limiter.window) (q.now + s.limiter.window)
      (s.evicted q.clientIp)).length : ℤ) < s.limiter.maxQueries

instance (s : RateTrace) (q : ClientQuery) : Decidable (s.Timely q) :=
  inferInstanceAs (Decidable (_ → _))

/-- The limit is kept for every address, and every queue keeps it, too. -/
structure Limited (s : RateTrace) : Prop where
  split : s.Split
  atMost : ∀ ip, AtMost s.limiter.maxQueries s.limiter.window (s.admitted ip)
  length_le : ∀ ip, ((s.limiter.timestamps ip).length : ℤ) ≤ s.limiter.maxQueries

theorem limited_start {maxQueries : ℤ} (h : 0 ≤ maxQueries) (windowSeconds : ℤ) :
    (start maxQueries windowSeconds).Limited :=
  ⟨fun _ => rfl, fun _ => atMost_nil h _, fun _ => h⟩

/-- What a call drops itself is not near its reading. -/
theorem between_drops (s : RateTrace) (q : ClientQuery) :
    between (q.now - s.limiter.window) (q.now + s.limiter.window) (s.drops q) = [] := by
  apply List.filter_eq_nil_iff.mpr
  intro t ht
  have hlt := lt_of_mem_drops ht
  rw [decide_eq_true_eq]
  rintro ⟨hge, -⟩
  exact absurd hlt (not_lt.mpr hge)

theorem length_kept_le (s : RateTrace) (q : ClientQuery) :
    (s.kept q).length ≤ (s.limiter.timestamps q.clientIp).length := by
  rw [← drops_append_kept, List.length_append]
  omega

/-- An admitted call keeps the limit if it is timely. -/
theorem Limited.atMost_step (h : s.Limited) (hq : s.Timely q) (ip : Str) :
    AtMost s.limiter.maxQueries s.limiter.window ((s.step q).admitted ip) := by
  show AtMost _ _ (if ip = q.clientIp ∧ s.rejects q = false then s.admitted ip ++ [q.now] else s.admitted ip)
  split
  · rename_i hadmit
    obtain ⟨rfl, hadmit⟩ := hadmit
    have hroom := hq (rejects_eq_false_iff.mp hadmit)
    have hsplit : s.admitted q.clientIp = (s.evicted q.clientIp ++ s.drops q) ++ s.kept q := by
      rw [List.append_assoc, drops_append_kept]
      exact h.split q.clientIp
    -- Only the times that were dropped before could count without being in the queue.
    apply (h.atMost q.clientIp).concat_kept hsplit
    rw [between_append, between_drops, List.append_nil]
    exact hroom
  · exact h.atMost ip

theorem Limited.length_step_le (h : s.Limited) (q : ClientQuery) (ip : Str) :
    (((s.step q).limiter.timestamps ip).length : ℤ) ≤ s.limiter.maxQueries := by
  rw [timestamps_step]
  split
  · rename_i hip
    subst hip
    have hkept := length_kept_le s q
    have hle := h.length_le q.clientIp
    cases hrejects : s.rejects q with
    | true =>
      rw [if_pos rfl]
      omega
    | false =>
      have hlt := rejects_eq_false_iff.mp hrejects
      rw [if_neg (by simp), List.length_append, List.length_singleton]
      omega
  · exact h.length_le ip

theorem limited_step (h : s.Limited) (hq : s.Timely q) : (s.step q).Limited where
  split := split_step h.split q
  atMost := by
    intro ip
    rw [maxQueries_step, window_step]
    exact h.atMost_step hq ip
  length_le := by
    intro ip
    rw [maxQueries_step]
    exact h.length_step_le q ip

theorem limited_run {maxQueries windowSeconds : ℤ} {calls : List ClientQuery} (h : 0 ≤ maxQueries)
    (hcalls : Along Timely step (start maxQueries windowSeconds) calls) :
    Always Limited step (start maxQueries windowSeconds) calls :=
  hcalls.always (limited_start h windowSeconds) fun _ _ => limited_step

/-- **The rate limit under concurrent callers.** Whatever the order of the readings, as long as every call
is timely no closed interval of the length of the window has more than `maxQueries` admitted times. -/
theorem rate_limit_of_timely (maxQueries windowSeconds : ℤ) (calls : List ClientQuery) (h : 0 ≤ maxQueries)
    (hcalls : Along Timely step (start maxQueries windowSeconds) calls) :
    Always (fun s => ∀ ip, AtMost maxQueries (windowSeconds * second) (s.admitted ip)) step
      (start maxQueries windowSeconds) calls := by
  intro early hp ip
  have hlimited := (limited_run h hcalls early hp).atMost ip
  rw [maxQueries_run, window_run] at hlimited
  exact hlimited

/-- Four calls whose last one has waited two milliseconds for the queue. -/
def overtaken : List ClientQuery :=
  [0, 1000000, 1002000000, 1000000000].map (ClientQuery.mk "192.0.2.1".toList)

/-- With room for four, the last call would have been admitted anyway: the two times that the third has dropped
are counted. -/
theorem rate_limit_of_timely_overtaken :
    Always (fun s => ∀ ip, AtMost 4 (1 * second) (s.admitted ip)) step (start 4 1) overtaken :=
  rate_limit_of_timely 4 1 overtaken (by decide) (by decide +kernel)

/-- The last call finds room, because the third has dropped two times that are still in its window: three of
the four times are within one second, and the limit is two. -/
theorem not_rate_limit_overtaken :
    ¬ AtMost 2 (1 * second) ((run step (start 2 1) overtaken).admitted "192.0.2.1".toList) := by
  have hthree : (between 0 (0 + 1 * second)
      ((run step (start 2 1) overtaken).admitted "192.0.2.1".toList)).length = 3 := by decide +kernel
  intro h
  have hle := h 0
  rw [hthree] at hle
  omega

/-! ### Readings that never decrease -/

/-- After calls whose readings came in order, none later than `n`. -/
structure InOrder (s : RateTrace) (n : Time) : Prop where
  split : s.Split
  sorted : ∀ ip, (s.admitted ip).Pairwise (· ≤ ·)
  le : ∀ ip, ∀ t ∈ s.admitted ip, t ≤ n
  gone : ∀ ip, ∀ t ∈ s.evicted ip, t < n - s.limiter.window

theorem inOrder_start (maxQueries windowSeconds : ℤ) (n : Time) :
    (start maxQueries windowSeconds).InOrder n :=
  ⟨fun _ => rfl, fun _ => List.Pairwise.nil, fun _ t ht => absurd ht (by simp [start]),
    fun _ t ht => absurd ht (by simp [start])⟩

theorem InOrder.mono {n m : Time} (h : s.InOrder n) (hnm : n ≤ m) : s.InOrder m where
  split := h.split
  sorted := h.sorted
  le := fun ip t ht => (h.le ip t ht).trans hnm
  gone := fun ip t ht => (h.gone ip t ht).trans_le (sub_le_sub_right hnm _)

/-- The queue that a call counts are the admitted times in its window. -/
theorem InOrder.kept_eq (h : s.InOrder q.now) :
    s.kept q = between (q.now - s.limiter.window) q.now (s.admitted q.clientIp) := by
  have hsorted : (s.limiter.timestamps q.clientIp).Pairwise (· ≤ ·) := by
    have hadmitted := h.sorted q.clientIp
    rw [h.split] at hadmitted
    exact (List.pairwise_append.mp hadmitted).2.1
  have hgone : (s.evicted q.clientIp).filter (fun t => q.now - s.limiter.window ≤ t) = [] := by
    apply List.filter_eq_nil_iff.mpr
    intro t ht
    rw [decide_eq_true_eq, not_le]
    exact h.gone q.clientIp t ht
  rw [← filter_eq_between (h.le q.clientIp), h.split, List.filter_append, hgone, List.nil_append]
  exact dropWhile_eq_filter hsorted

theorem InOrder.step (h : s.InOrder q.now) : (s.step q).InOrder q.now := by
  refine ⟨split_step h.split q, fun ip => ?_, fun ip t ht => ?_, fun ip t ht => ?_⟩
  · show (if ip = q.clientIp ∧ s.rejects q = false then s.admitted ip ++ [q.now] else s.admitted ip).Pairwise _
    split
    · refine List.pairwise_append.mpr ⟨h.sorted ip, List.pairwise_singleton _ _, fun t ht x hx => ?_⟩
      rw [List.mem_singleton.mp hx]
      exact h.le ip t ht
    · exact h.sorted ip
  · change t ∈ (if ip = q.clientIp ∧ s.rejects q = false then s.admitted ip ++ [q.now] else s.admitted ip) at ht
    split at ht
    · rcases List.mem_append.mp ht with ht | ht
      · exact h.le ip t ht
      · rw [List.mem_singleton.mp ht]
    · exact h.le ip t ht
  · rw [window_step]
    change t ∈ (if ip = q.clientIp then s.evicted ip ++ s.drops q else s.evicted ip) at ht
    split at ht
    · rcases List.mem_append.mp ht with ht | ht
      · exact h.gone ip t ht
      · exact lt_of_mem_drops ht
    · exact h.gone ip t ht

theorem clocked_concat {calls : List ClientQuery} :
    Clocked (calls ++ [q]) ↔ Clocked calls ∧ ∀ p ∈ calls, p.now ≤ q.now := by
  unfold Clocked
  rw [List.map_append, List.pairwise_append]
  constructor
  · rintro ⟨hcalls, -, hle⟩
    exact ⟨hcalls, fun p hp => hle _ (List.mem_map_of_mem hp) _ (by simp)⟩
  · rintro ⟨hcalls, hle⟩
    refine ⟨hcalls, List.pairwise_singleton _ _, fun t ht x hx => ?_⟩
    obtain ⟨p, hp, rfl⟩ := List.mem_map.mp ht
    rw [List.map_singleton, List.mem_singleton] at hx
    rw [hx]
    exact hle p hp

theorem inOrder_run (maxQueries windowSeconds : ℤ) {calls : List ClientQuery} {n : Time}
    (hclock : Clocked calls) (hn : ∀ q ∈ calls, q.now ≤ n) :
    (run step (start maxQueries windowSeconds) calls).InOrder n := by
  induction calls using List.reverseRecOn generalizing n with
  | nil => exact inOrder_start maxQueries windowSeconds n
  | append_singleton calls q ih =>
    obtain ⟨hclock, hle⟩ := clocked_concat.mp hclock
    rw [run_concat]
    exact (ih hclock hle).step.mono (hn q (by simp))

/-- A call rejects if the admitted times in its window are `maxQueries`. -/
theorem InOrder.rejects_iff (h : s.InOrder q.now) : s.rejects q = true ↔ s.limiter.maxQueries ≤
    (between (q.now - s.limiter.window) q.now (s.admitted q.clientIp)).length := by
  rw [rejects_eq_true_iff, h.kept_eq]

/-- In order, no time is gone that is near the reading of a call. -/
theorem InOrder.timely (h : s.InOrder q.now) : s.Timely q := by
  intro hroom
  have hnone : between (q.now - s.limiter.window) (q.now + s.limiter.window) (s.evicted q.clientIp) = [] := by
    apply List.filter_eq_nil_iff.mpr
    intro t ht
    rw [decide_eq_true_eq]
    rintro ⟨hge, -⟩
    exact absurd (h.gone q.clientIp t ht) (not_lt.mpr hge)
  rw [hnone]
  simpa using hroom

theorem along_timely (maxQueries windowSeconds : ℤ) {calls : List ClientQuery} (hclock : Clocked calls) :
    Along Timely step (start maxQueries windowSeconds) calls := by
  induction calls using List.reverseRecOn with
  | nil => trivial
  | append_singleton calls q ih =>
    obtain ⟨hclock, hle⟩ := clocked_concat.mp hclock
    exact (along_concat q).mpr ⟨ih hclock, (inOrder_run _ _ hclock hle).timely⟩

/-! ### One address alone -/

theorem clocked_callsOf {n : Time} (h : s.InOrder n) (ip : Str) : Clocked (s.callsOf ip) := by
  unfold Clocked callsOf
  have hreadings : ClientQuery.now ∘ ClientQuery.mk ip = id := rfl
  rw [List.map_map, hreadings, List.map_id]
  exact h.sorted ip

/-- Two limiters that have admitted the same times of an address decide alike. -/
theorem rejects_congr {s₁ s₂ : RateTrace} (h₁ : s₁.InOrder q.now) (h₂ : s₂.InOrder q.now)
    (hmax : s₁.limiter.maxQueries = s₂.limiter.maxQueries) (hwindow : s₁.limiter.window = s₂.limiter.window)
    (hsame : s₁.admitted q.clientIp = s₂.admitted q.clientIp) : s₁.rejects q = s₂.rejects q := by
  rw [Bool.eq_iff_iff, h₁.rejects_iff, h₂.rejects_iff, hmax, hwindow, hsame]

section Alone

variable (maxQueries windowSeconds : ℤ) {calls : List ClientQuery}

theorem inOrder_callsOf (hclock : Clocked calls) (hle : ∀ p ∈ calls, p.now ≤ q.now) (ip : Str) :
    (after maxQueries windowSeconds ((after maxQueries windowSeconds calls).callsOf ip)).InOrder q.now := by
  have hcalls : (after maxQueries windowSeconds calls).InOrder q.now :=
    inOrder_run maxQueries windowSeconds hclock hle
  apply inOrder_run maxQueries windowSeconds (clocked_callsOf hcalls ip)
  intro p hp
  obtain ⟨t, ht, rfl⟩ := List.mem_map.mp hp
  exact hcalls.le ip t ht

theorem rejects_callsOf (hclock : Clocked calls) (hle : ∀ p ∈ calls, p.now ≤ q.now)
    (hsame : (after maxQueries windowSeconds
      ((after maxQueries windowSeconds calls).callsOf q.clientIp)).admitted q.clientIp =
        (after maxQueries windowSeconds calls).admitted q.clientIp) :
    (after maxQueries windowSeconds ((after maxQueries windowSeconds calls).callsOf q.clientIp)).rejects q =
      (after maxQueries windowSeconds calls).rejects q := by
  apply rejects_congr (inOrder_callsOf _ _ hclock hle q.clientIp) (inOrder_run _ _ hclock hle) _ _ hsame
  · unfold after
    rw [maxQueries_run, maxQueries_run]
  · unfold after
    rw [window_run, window_run]

/-- The admitted calls of one address are all admitted again without the other calls. -/
theorem admitted_callsOf (hclock : Clocked calls) (ip : Str) :
    (after maxQueries windowSeconds ((after maxQueries windowSeconds calls).callsOf ip)).admitted ip =
      (after maxQueries windowSeconds calls).admitted ip := by
  induction calls using List.reverseRecOn with
  | nil => rfl
  | append_singleton calls q ih =>
    obtain ⟨hclock, hle⟩ := clocked_concat.mp hclock
    have hsame := ih hclock
    have hafter : after maxQueries windowSeconds (calls ++ [q]) =
        (after maxQueries windowSeconds calls).step q := run_concat q
    have hadmitted : (after maxQueries windowSeconds (calls ++ [q])).admitted ip =
        if ip = q.clientIp ∧ (after maxQueries windowSeconds calls).rejects q = false then
          (after maxQueries windowSeconds calls).admitted ip ++ [q.now]
        else (after maxQueries windowSeconds calls).admitted ip := by
      rw [hafter]
      rfl
    by_cases hadmit : ip = q.clientIp ∧ (after maxQueries windowSeconds calls).rejects q = false
    · -- The call is made again, after the earlier ones of its address, and is admitted again.
      rw [if_pos hadmit] at hadmitted
      obtain ⟨rfl, hadmit⟩ := hadmit
      have hcalls : (after maxQueries windowSeconds (calls ++ [q])).callsOf q.clientIp =
          (after maxQueries windowSeconds calls).callsOf q.clientIp ++ [q] := by
        unfold callsOf
        rw [hadmitted, List.map_append]
        rfl
      have hagain := rejects_callsOf maxQueries windowSeconds hclock hle hsame
      rw [hadmitted, hcalls]
      show (run step _ (_ ++ [q])).admitted q.clientIp = _
      rw [run_concat]
      show (if _ then _ else _) = _
      rw [if_pos ⟨rfl, hagain.trans hadmit⟩]
      exact congrArg (· ++ [q.now]) hsame
    · -- The call is not among those that are made again.
      rw [if_neg hadmit] at hadmitted
      have hcalls : (after maxQueries windowSeconds (calls ++ [q])).callsOf ip =
          (after maxQueries windowSeconds calls).callsOf ip := congrArg _ hadmitted
      rw [hcalls, hadmitted]
      exact hsame

end Alone

/-- **The sliding window is exact.** While the readings never decrease, a call is rejected exactly if
`maxQueries` calls of its address were admitted in the window that ends with it, and as if the admitted calls
of its address had been the only ones; no closed interval of the length of the window has more than
`maxQueries` admitted times of an address, and no queue holds more. -/
theorem rate_limit_exact (maxQueries windowSeconds : ℤ) (calls : List ClientQuery) (hclock : Clocked calls) :
    (∀ early q late, calls = early ++ q :: late →
      ((after maxQueries windowSeconds early).rejects q = true ↔
        maxQueries ≤ (between (q.now - windowSeconds * second) q.now
          ((after maxQueries windowSeconds early).admitted q.clientIp)).length) ∧
      (after maxQueries windowSeconds early).rejects q =
        (after maxQueries windowSeconds ((after maxQueries windowSeconds early).callsOf q.clientIp)).rejects q) ∧
    (0 ≤ maxQueries → ∀ ip,
      AtMost maxQueries (windowSeconds * second) ((after maxQueries windowSeconds calls).admitted ip) ∧
      (((after maxQueries windowSeconds calls).limiter.timestamps ip).length : ℤ) ≤ maxQueries) := by
  constructor
  · rintro early q late rfl
    rw [← List.singleton_append, ← List.append_assoc] at hclock
    have hfirst : Clocked (early ++ [q]) :=
      hclock.sublist ((List.sublist_append_left _ late).map ClientQuery.now)
    obtain ⟨hearly, hle⟩ := clocked_concat.mp hfirst
    have horder : (after maxQueries windowSeconds early).InOrder q.now :=
      inOrder_run maxQueries windowSeconds hearly hle
    constructor
    · have hiff := horder.rejects_iff
      unfold after at hiff ⊢
      rw [maxQueries_run, window_run] at hiff
      exact hiff
    · have hsame := admitted_callsOf maxQueries windowSeconds hearly q.clientIp
      exact (rejects_callsOf maxQueries windowSeconds hearly hle hsame).symm
  · intro h ip
    have halong := along_timely maxQueries windowSeconds hclock
    have hlimited := limited_run h halong calls (List.prefix_refl calls)
    have hatMost := hlimited.atMost ip
    have hlength := hlimited.length_le ip
    rw [maxQueries_run] at hatMost hlength
    rw [window_run] at hatMost
    exact ⟨hatMost, hlength⟩

/-- The first three calls, in order. -/
theorem rate_limit_exact_three :
    (∀ early q late, overtaken.take 3 = early ++ q :: late →
      ((after 2 1 early).rejects q = true ↔
        2 ≤ ((between (q.now - 1 * second) q.now ((after 2 1 early).admitted q.clientIp)).length : ℤ)) ∧
      (after 2 1 early).rejects q = (after 2 1 ((after 2 1 early).callsOf q.clientIp)).rejects q) ∧
    (0 ≤ (2 : ℤ) → ∀ ip,
      AtMost 2 (1 * second) ((after 2 1 (overtaken.take 3)).admitted ip) ∧
      (((after 2 1 (overtaken.take 3)).limiter.timestamps ip).length : ℤ) ≤ 2) :=
  rate_limit_exact 2 1 (overtaken.take 3) (by decide +kernel)

end DsDns.RateTrace
