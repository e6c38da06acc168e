/-
  The stages follow a call of `resolve`.

  `resolve_follows` goes through the program once, with the retry loop by induction on the turns it has
  left: there are `leaseMaxRetries + 1` answers that a call can be told to wait by, so in the stage
  `sleeping waits` it has `leaseMaxRetries + 1 - waits` turns left. From there on only stages are
  compared: a call asks the data plane exactly in the stage `fetching`.
-/
import DsDns.ControlPlane.Stage

namespace DsDns

open Interaction

section Follows

variable {config : ZoneConfig} {domain : Str}

/-- A response of the data plane that is no value ends a call with the empty text. -/
theorem afterFetch_of_miss {store : Bool} {response : Option Str}
    (h : ∀ r, response = some r → isBlank r = true ∨ r = "N/A".toList) :
    Stage.afterFetch store response = .ended := by
  unfold Stage.afterFetch
  cases response with
  | none => simp
  | some r => rcases h r rfl with hblank | hna <;> simp [*]

theorem afterFetch_of_value {r : Str} (h : ¬ (isBlank r = true ∨ r = "N/A".toList)) :
    Stage.afterFetch true (some r) = .storing := by
  rw [not_or, Bool.not_eq_true] at h
  unfold Stage.afterFetch
  rw [Option.any_some, h.1, decide_eq_true h.2]
  rfl

theorem fetch_follows : Follows (followStages config domain) (.fetching false)
    (CacheClient.fetchFromDataPlane config domain) := by
  refine ⟨rfl, fun arrived => ?_⟩
  show Follows _ Stage.ended (Interaction.bind (done (Option.bind arrived readLine)) _)
  cases Option.bind arrived readLine <;> rfl

/-- Storing a value in L1 is the last thing a call does. -/
theorem close_follows (v r : Str) : Follows (followStages config domain) .closing (do
    let _ ← CacheClient.send .l1 (selectServer config config.l1Servers domain) (setMessage domain v)
    return r) :=
  ⟨⟨v, rfl⟩, fun _ => rfl⟩

theorem fetchAndStore_follows : Follows (followStages config domain) (.fetching true)
    (CacheClient.fetchAndStore config (selectServer config config.l2Servers domain)
      (selectServer config config.l1Servers domain) domain) := by
  refine ⟨rfl, fun arrived => ?_⟩
  show Follows _ (Stage.afterFetch true (Option.bind arrived readLine))
    (Interaction.bind (Interaction.bind (done (Option.bind arrived readLine)) _) _)
  cases Option.bind arrived readLine with
  | none => rfl
  | some r =>
    show Follows _ _ (if isBlank (if isBlank r = true ∨ r = "N/A".toList then [] else r) = true then
      (pure _ : Client Str) else _)
    by_cases hmiss : isBlank r = true ∨ r = "N/A".toList
    · rw [afterFetch_of_miss fun r' hr' => by rwa [← Option.some.inj hr'], if_pos hmiss]
      rfl
    · rw [if_neg hmiss, afterFetch_of_value hmiss, if_neg fun hblank => hmiss (Or.inl hblank)]
      exact ⟨⟨r, rfl⟩, fun _ => close_follows r r⟩

/-- The answer to a `GET` at L2, as the loop of `waitForLease` reads it. -/
theorem poll_follows {waits : ℕ} (hpos : waits ≠ 0) {again : Client Str}
    (hagain : Follows (followStages config domain)
      (if waits < leaseMaxRetries then .sleeping (waits + 1) else .fetching false) again)
    (response : Option Str) :
    Follows (followStages config domain) (.afterLookup waits response) (match response with
      | none => CacheClient.fetchFromDataPlane config domain
      | some r =>
        if isHit r then do
          let _ ← CacheClient.send .l1 (selectServer config config.l1Servers domain)
            (setMessage domain r)
          return r
        else if ¬ startsWith r "LEASE;".toList then CacheClient.fetchFromDataPlane config domain
        else if startsWith r "LEASE;GRANTED".toList then
          CacheClient.fetchAndStore config (selectServer config config.l2Servers domain)
            (selectServer config config.l1Servers domain) domain
        else again) := by
  cases response with
  | none =>
    show Follows _ (Stage.fetching (decide (waits = 0))) _
    rw [decide_eq_false hpos]
    exact fetch_follows
  | some r =>
    show Follows _ (if isHit r = true then _ else _) (if isHit r = true then _ else _)
    by_cases hhit : isHit r = true
    · rw [if_pos hhit, if_pos hhit]
      exact close_follows r r
    · rw [if_neg hhit, if_neg hhit]
      unfold tellsToWait
      rw [if_neg hpos, decide_eq_false hpos]
      -- No hit: a lease text is granted or not, and anything else sends it to the data plane.
      by_cases hlease : startsWith r "LEASE;".toList = true
      · rw [if_neg (not_not_intro hlease), hlease]
        by_cases hgrant : startsWith r "LEASE;GRANTED".toList = true
        · rw [if_pos hgrant, hgrant]
          exact fetchAndStore_follows
        · rw [if_neg hgrant, Bool.eq_false_iff.mpr hgrant]
          exact hagain
      · rw [if_pos hlease, Bool.eq_false_iff.mpr hlease]
        exact fetch_follows

/-- The retry loop, by induction on the turns it has left. -/
theorem waitForLease_follows (retries waits : ℕ) (hturns : waits + retries = leaseMaxRetries + 1)
    (hpos : waits ≠ 0) : Follows (followStages config domain)
      (if waits ≤ leaseMaxRetries then .sleeping waits else .fetching false)
      (CacheClient.waitForLease config (selectServer config config.l2Servers domain)
        (selectServer config config.l1Servers domain) domain retries) := by
  induction retries generalizing waits with
  | zero =>
    rw [if_neg (by omega)]
    exact fetch_follows
  | succ retries ih =>
    rw [if_pos (by omega)]
    refine ⟨rfl, fun interrupted => ?_⟩
    cases interrupted with
    | true => exact fetch_follows
    | false =>
      refine ⟨rfl, fun arrived => ?_⟩
      have hagain := ih (waits + 1) (by omega) (by omega)
      simp only [Nat.add_one_le_iff] at hagain
      exact poll_follows hpos hagain (Option.bind arrived readLine)

theorem resolveL2_follows : Follows (followStages config domain) (.looking 0)
    (CacheClient.resolveL2 config (selectServer config config.l2Servers domain)
      (selectServer config config.l1Servers domain) domain) := by
  refine ⟨rfl, fun arrived => ?_⟩
  show Follows _ (Stage.afterLookup 0 (Option.bind arrived readLine)) (match Option.bind arrived readLine with
    | none => _
    | some r => _)
  cases Option.bind arrived readLine with
  | none => exact fetchAndStore_follows
  | some r =>
    show Follows _ (if isHit r = true then _ else _) (if isHit r = true then _ else _)
    by_cases hhit : isHit r = true
    · rw [if_pos hhit, if_pos hhit]
      exact close_follows r r
    · rw [if_neg hhit, if_neg hhit]
      unfold tellsToWait
      by_cases hgrant : r = "LEASE;GRANTED".toList
      · subst hgrant
        exact fetchAndStore_follows
      · -- A lease text that is not exactly `LEASE;GRANTED` starts the polls.
        rw [if_neg hgrant, if_pos rfl, decide_eq_false hgrant]
        by_cases hlease : startsWith r "LEASE;".toList = true
        · rw [if_pos hlease, hlease]
          exact waitForLease_follows leaseMaxRetries 1 (by decide) (by decide)
        · rw [if_neg hlease, Bool.eq_false_iff.mpr hlease]
          exact fetchAndStore_follows

/-- **The stages follow a call of `resolve`.** -/
theorem resolve_follows (config : ZoneConfig) (domain : Str) :
    Follows (followStages config domain) .started (CacheClient.resolve config domain) := by
  refine ⟨rfl, fun arrived => ?_⟩
  show Follows _ (if (Option.bind arrived readLine).any isHit = true then _ else _)
    (match Option.bind arrived readLine with
    | none => _
    | some r => _)
  cases Option.bind arrived readLine with
  | none => exact resolveL2_follows
  | some r =>
    show Follows _ (if isHit r = true then _ else _) (if isHit r = true then _ else _)
    by_cases hhit : isHit r = true
    · rw [if_pos hhit, if_pos hhit]
      rfl
    · rw [if_neg hhit, if_neg hhit]
      exact resolveL2_follows

end Follows

/-! ### What the stages say -/

/-- Once the data plane has answered, it is not asked again. -/
theorem unfetched_next {stage : Stage} {q : Request} {r : q.Reply}
    (h : (stage.next q r).unfetched = true) : stage.unfetched = true := by
  cases stage with
  | storing => exact absurd h (by simp [Stage.next, Stage.unfetched])
  | closing => exact absurd h (by simp [Stage.next, Stage.unfetched])
  | ended => exact absurd h (by simp [Stage.next, Stage.unfetched])
  | _ => rfl

section Asks

variable {config : ZoneConfig} {domain : Str} {stage : Stage} {ip : Option Str} {message : Str}

theorem stage_of_l1 (h : stage.Asks config domain (.send .l1 ip message)) :
    stage = .started ∨ stage = .closing := by
  cases stage with
  | started => exact Or.inl rfl
  | closing => exact Or.inr rfl
  | storing =>
    obtain ⟨v, hv⟩ := h
    cases hv
  | _ => cases h

theorem stage_of_l2 (h : stage.Asks config domain (.send .l2 ip message)) :
    (∃ waits, stage = .looking waits ∧ message = getMessage domain) ∨
      stage = .storing ∧ ∃ v, message = setMessage domain v := by
  cases stage with
  | looking waits =>
    cases h
    exact Or.inl ⟨waits, rfl, rfl⟩
  | storing =>
    obtain ⟨v, hv⟩ := h
    cases hv
    exact Or.inr ⟨rfl, v, rfl⟩
  | closing =>
    obtain ⟨v, hv⟩ := h
    cases hv
  | _ => cases h

theorem stage_of_dataPlane (h : stage.Asks config domain (.send .dataPlane ip message)) :
    ∃ store, stage = .fetching store := by
  cases stage with
  | fetching store => exact ⟨store, rfl⟩
  | storing =>
    obtain ⟨v, hv⟩ := h
    cases hv
  | closing =>
    obtain ⟨v, hv⟩ := h
    cases hv
  | _ => cases h

theorem stage_of_sleep (h : stage.Asks config domain .sleep) : ∃ waits, stage = .sleeping waits := by
  cases stage with
  | sleeping waits => exact ⟨waits, rfl⟩
  | storing =>
    obtain ⟨v, hv⟩ := h
    cases hv
  | closing =>
    obtain ⟨v, hv⟩ := h
    cases hv
  | _ => cases h

end Asks

/-- A call turns to the data plane after a line that is no hit and, unless the call is out of turns, does
not tell it to wait. -/
theorem isFetching_afterLookup (waits : ℕ) (line : Option Str) :
    (Stage.afterLookup waits line).isFetching = true ↔ line.any isHit = false ∧
      (line.any (tellsToWait waits) = true → leaseMaxRetries ≤ waits) := by
  cases line with
  | none => exact iff_of_true rfl ⟨rfl, fun h => absurd h (by simp)⟩
  | some r =>
    rw [Option.any_some, Option.any_some, Stage.afterLookup]
    by_cases hhit : isHit r = true
    · rw [if_pos hhit]
      exact iff_of_false (by simp [Stage.isFetching]) fun h => absurd h.1 (by simp [hhit])
    · rw [if_neg hhit]
      have hmiss : isHit r = false := Bool.eq_false_iff.mpr hhit
      by_cases htells : tellsToWait waits r = true
      · rw [if_pos htells]
        by_cases hturns : waits < leaseMaxRetries
        · rw [if_pos hturns]
          apply iff_of_false (by simp [Stage.isFetching])
          intro h
          have hle := h.2 htells
          omega
        · rw [if_neg hturns]
          exact iff_of_true rfl ⟨hmiss, fun _ => Nat.not_lt.mp hturns⟩
      · rw [if_neg htells]
        exact iff_of_true rfl ⟨hmiss, fun h => absurd h htells⟩

/-- After a line that tells it to wait the call has one turn less. -/
theorem waits_afterLookup {waits w : ℕ} {line : Option Str}
    (h : (Stage.afterLookup waits line).waits = some w) :
    line.any (tellsToWait waits) = true ∧ w = waits + 1 := by
  cases line with
  | none => exact absurd h (by simp [Stage.afterLookup, Stage.waits])
  | some r =>
    rw [Stage.afterLookup] at h
    split at h
    · exact absurd h (by simp [Stage.waits])
    · split at h
      · rename_i htells
        split at h
        · exact ⟨htells, (Option.some.inj h).symm⟩
        · exact absurd h (by simp [Stage.waits])
      · exact absurd h (by simp [Stage.waits])

/-- After the data plane has answered, a call looks nowhere any more. -/
theorem afterFetch_over (store : Bool) (response : Option Str) :
    (Stage.afterFetch store response).waits = none ∧
      (Stage.afterFetch store response).unfetched = false ∧
      (Stage.afterFetch store response).isFetching = false := by
  unfold Stage.afterFetch
  split
  · exact ⟨rfl, rfl, rfl⟩
  · exact ⟨rfl, rfl, rfl⟩

section Next

variable {config : ZoneConfig} {domain : Str} {stage : Stage}

/-- Only an answer of L2 adds to the count of a call. -/
theorem waits_next {q : Request} {r : q.Reply} {n : ℕ} (hq : ∀ ip message, q ≠ .send .l2 ip message)
    (hasks : stage.Asks config domain q) (h : (stage.next q r).waits = some n) :
    stage.waits = some n := by
  cases stage with
  | started =>
    obtain rfl : q = _ := hasks
    rw [Stage.next] at h
    split at h
    · exact absurd h (by simp [Stage.waits])
    · exact h
  | looking waits => exact absurd hasks (hq _ _)
  | sleeping waits =>
    obtain rfl : q = .sleep := hasks
    rw [Stage.next] at h
    split at h
    · exact absurd h (by simp [Stage.waits])
    · exact h
  | fetching store =>
    obtain rfl : q = _ := hasks
    exact absurd ((afterFetch_over store _).1.symm.trans h) (by simp)
  | storing => exact absurd h (by simp [Stage.next, Stage.waits])
  | closing => exact absurd h (by simp [Stage.next, Stage.waits])
  | ended => exact hasks.elim

/-- No answer of L1 or of the data plane makes a call ask the data plane. -/
theorem isFetching_next {tier : Tier} {ip : Option Str} {message : Str} (htier : tier ≠ .l2)
    (hasks : stage.Asks config domain (.send tier ip message)) (arrived : Option Str) :
    (stage.next (.send tier ip message) arrived).isFetching = false := by
  cases stage with
  | started =>
    rw [Stage.next]
    split
    · rfl
    · rfl
  | looking waits => exact absurd (Request.send.inj hasks).1 htier
  | sleeping waits => exact absurd hasks (by simp [Stage.Asks])
  | fetching store => exact (afterFetch_over store _).2.2
  | storing => rfl
  | closing => rfl
  | ended => exact hasks.elim

end Next

end DsDns
