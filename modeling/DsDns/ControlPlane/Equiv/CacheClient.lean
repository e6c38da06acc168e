/-
  What a call of `resolve` asks, whatever it is told.

  `Suits c domain good` collects what a contract has to admit for a call about the name `domain`: its
  messages, with values that are `good`, and that hits and fetched values are `good`. Every path of the
  call then keeps the contract (`resolve_meets`): the four ways to a result and the retry loop are gone
  through once, here. The rest of the module is what a cache server reads in the messages.
-/
import DsDns.Caches.Equiv.Server
import DsDns.ControlPlane.CacheClient

namespace DsDns

open Interaction

/-! ### Replies -/

theorem readLine_eq_some {text line : Str} (h : readLine text = some line) : '\n' ∉ line ∧ '\r' ∉ line := by
  unfold readLine at h
  split at h
  · exact absurd h (by simp)
  · rw [← Option.some.inj h]
    constructor
    · intro hmem
      have hc := List.mem_takeWhile_imp hmem
      simp at hc
    · intro hmem
      have hc := List.mem_takeWhile_imp hmem
      simp at hc

theorem isBlank_nil : isBlank [] = true := rfl

/-! ### Calls -/

/-- A contract that fits the calls about the name `domain`: `good` are the values it may store. -/
structure Suits {γ : Type} (c : Contract Request Request.Reply Str γ) (domain : Str)
    (good : Str → Prop) : Prop where
  asks_get : ∀ tier ip, tier ≠ .dataPlane → c.asks (.send tier ip (getMessage domain))
  asks_set : ∀ tier ip v, tier ≠ .dataPlane → good v → c.asks (.send tier ip (setMessage domain v))
  asks_data : ∀ ip, c.asks (.send .dataPlane ip domain)
  asks_sleep : c.asks .sleep
  hit : ∀ tier ip (arrived : Option Str) r, tier ≠ .dataPlane →
    c.replies (.send tier ip (getMessage domain)) arrived → arrived.bind readLine = some r →
    isHit r = true → good r
  fetched : ∀ ip (arrived : Option Str) r, c.replies (.send .dataPlane ip domain) arrived →
    arrived.bind readLine = some r → isBlank r = false → r ≠ "N/A".toList → good r
  missed : ∀ g ip (arrived : Option Str), c.replies (.send .dataPlane ip domain) arrived →
    (∀ r, arrived.bind readLine = some r → isBlank r = true ∨ r = "N/A".toList) →
    c.ends (c.note g (.send .dataPlane ip domain) arrived) []
  ends : ∀ g v, good v → c.ends g v

section Calls

variable {γ : Type} {c : Contract Request Request.Reply Str γ} {domain : Str} {good : Str → Prop}

/-- A `send` in front of a program. -/
theorem meets_send {α : Type} {c : Contract Request Request.Reply α γ} {g : γ} {tier : Tier}
    {ip : Option Str} {message : Str} {f : Option Str → Client α}
    (hasks : c.asks (.send tier ip message))
    (hnext : ∀ arrived : Option Str, c.replies (.send tier ip message) arrived →
      Meets c (c.note g (.send tier ip message) arrived) (f (arrived.bind readLine))) :
    Meets c g (CacheClient.send tier ip message >>= f) :=
  ⟨hasks, hnext⟩

/-- A fetched value may be stored, or it is empty and the call may end with it. -/
theorem fetchFromDataPlane_meets (h : Suits c domain good) (config : ZoneConfig) (g : γ) :
    Meets (c.ending fun g v => good v ∨ v = [] ∧ c.ends g []) g
      (CacheClient.fetchFromDataPlane config domain) := by
  refine meets_send ?_ ?_
  · exact h.asks_data _
  intro arrived harrived
  cases hr : arrived.bind readLine with
  | none =>
    right
    exact ⟨rfl, h.missed g _ arrived harrived fun r hr' => by rw [hr] at hr'; exact absurd hr' (by simp)⟩
  | some r =>
    show good _ ∨ _
    by_cases hmiss : isBlank r = true ∨ r = "N/A".toList
    · right
      rw [if_pos hmiss]
      refine ⟨rfl, h.missed g _ arrived harrived fun r' hr' => ?_⟩
      rw [hr] at hr'
      rw [← Option.some.inj hr']
      exact hmiss
    · left
      rw [if_neg hmiss]
      rw [not_or, Bool.not_eq_true] at hmiss
      exact h.fetched _ arrived r harrived hr hmiss.1 hmiss.2

/-- The last step of several paths: the value as it was fetched. -/
theorem fetch_ends (h : Suits c domain good) (config : ZoneConfig) (g : γ) :
    Meets c g (CacheClient.fetchFromDataPlane config domain) := by
  refine (fetchFromDataPlane_meets h config g).mono ?_
  intro g v hv
  rcases hv with hgood | ⟨rfl, hends⟩
  · exact h.ends g v hgood
  · exact hends

theorem fetchAndStore_meets (h : Suits c domain good) (config : ZoneConfig) (l2Ip l1Ip : Option Str)
    (g : γ) : Meets c g (CacheClient.fetchAndStore config l2Ip l1Ip domain) := by
  apply meets_bind
  refine (fetchFromDataPlane_meets h config g).mono ?_
  intro g v hv
  rcases hv with hgood | ⟨rfl, hends⟩
  · split
    · exact h.ends g v hgood
    · apply meets_send (h.asks_set .l2 _ v (by decide) hgood)
      intro _ _
      apply meets_send (h.asks_set .l1 _ v (by decide) hgood)
      intro _ _
      exact h.ends _ v hgood
  · rw [if_pos isBlank_nil]
    exact hends

/-- Storing a hit of L2 in L1. -/
theorem store_meets (h : Suits c domain good) (l1Ip : Option Str) {v : Str} (hgood : good v) (g : γ) :
    Meets c g (do
      let _ ← CacheClient.send .l1 l1Ip (setMessage domain v)
      return v) := by
  apply meets_send (h.asks_set .l1 _ v (by decide) hgood)
  intro _ _
  exact h.ends _ v hgood

/-- The retry loop, by induction on the turns it has left. -/
theorem waitForLease_meets (h : Suits c domain good) (config : ZoneConfig) (l2Ip l1Ip : Option Str)
    (retries : ℕ) (g : γ) :
    Meets c g (CacheClient.waitForLease config l2Ip l1Ip domain retries) := by
  induction retries generalizing g with
  | zero => exact fetch_ends h config g
  | succ retries ih =>
    refine ⟨h.asks_sleep, fun interrupted _ => ?_⟩
    cases interrupted with
    | true => exact fetch_ends h config _
    | false =>
      apply meets_send (h.asks_get .l2 _ (by decide))
      intro arrived harrived
      cases hr : arrived.bind readLine with
      | none => exact fetch_ends h config _
      | some r =>
        show Meets c _ (if isHit r then _ else _)
        split
        · rename_i hhit
          exact store_meets h l1Ip (h.hit .l2 _ arrived r (by decide) harrived hr hhit) _
        · split
          · exact fetch_ends h config _
          · split
            · exact fetchAndStore_meets h config l2Ip l1Ip _
            · exact ih _

theorem resolveL2_meets (h : Suits c domain good) (config : ZoneConfig) (l2Ip l1Ip : Option Str)
    (g : γ) : Meets c g (CacheClient.resolveL2 config l2Ip l1Ip domain) := by
  apply meets_send (h.asks_get .l2 _ (by decide))
  intro arrived harrived
  cases hr : arrived.bind readLine with
  | none => exact fetchAndStore_meets h config l2Ip l1Ip _
  | some r =>
    show Meets c _ (if isHit r then _ else _)
    split
    · rename_i hhit
      exact store_meets h l1Ip (h.hit .l2 _ arrived r (by decide) harrived hr hhit) _
    · split
      · exact fetchAndStore_meets h config l2Ip l1Ip _
      · split
        · exact waitForLease_meets h config l2Ip l1Ip leaseMaxRetries _
        · exact fetchAndStore_meets h config l2Ip l1Ip _

/-- **Every path of a call keeps a contract that suits it.** -/
theorem resolve_meets (h : Suits c domain good) (config : ZoneConfig) (g : γ) :
    Meets c g (CacheClient.resolve config domain) := by
  apply meets_send (h.asks_get .l1 _ (by decide))
  intro arrived harrived
  cases hr : arrived.bind readLine with
  | none => exact resolveL2_meets h config _ _ _
  | some r =>
    show Meets c _ (if isHit r then _ else _)
    split
    · rename_i hhit
      exact h.ends _ r (h.hit .l1 _ arrived r (by decide) harrived hr hhit)
    · exact resolveL2_meets h config _ _ _

end Calls

/-! ### Messages -/

variable [Unicode]

theorem parseCommand_getMessage (domain : Str) :
    parseCommand (rstrip (getMessage domain)) = .get (strip domain) := by
  have hstrip : rstrip (getMessage domain) = "GET;".toList ++ rstrip domain :=
    rstrip_append_cons (c := ';') (by decide) "GET".toList domain
  rw [hstrip, parseCommand_get, strip_rstrip]

/-- The key of a `SET` ends at the first semicolon of the name. -/
theorem parseCommand_setMessage_cut {key : Str} (h : ';' ∉ key) (rest value : Str) :
    parseCommand (rstrip (setMessage (key ++ ';' :: rest) value)) =
      .set (strip key) (strip (rest ++ ';' :: value)) := by
  have hstrip : rstrip (setMessage (key ++ ';' :: rest) value) =
      "SET;".toList ++ (key ++ ';' :: (rest ++ ';' :: rstrip value)) := by
    rw [setMessage, rstrip_append_cons (by decide), List.append_assoc, List.append_assoc,
      List.cons_append]
  have hvalue : rest ++ ';' :: rstrip value = rstrip (rest ++ ';' :: value) :=
    (rstrip_append_cons (by decide) rest value).symm
  rw [hstrip, parseCommand_set h, hvalue, strip_rstrip]

theorem parseCommand_setMessage {domain : Str} (h : ';' ∉ domain) (value : Str) :
    parseCommand (rstrip (setMessage domain value)) = .set (strip domain) (strip value) := by
  have hstrip : rstrip (setMessage domain value) =
      "SET;".toList ++ (domain ++ ';' :: rstrip value) := by
    rw [setMessage, rstrip_append_cons (by decide), List.append_assoc]
  rw [hstrip, parseCommand_set h, strip_rstrip]

end DsDns
