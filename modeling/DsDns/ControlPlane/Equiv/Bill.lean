/-
  What a call of `resolve` costs at most.

  `Stage.bill` is the price of everything that a call may still ask, for any price of a question; every question is
  paid from it (`cost_add_bill_next`), whatever the reply. So a call asks L1 at most twice, L2 at most 32 times
  and the data plane once, and sleeps at most 30 times (`resolve_bill`). What it stores in the caches is what it
  returns (`resolve_stores`). In the world of all calls a call takes the steps of its own program and no others
  (`traced_step`), hence the bounds hold there, however the calls, the servers and the network go on
  (`calls_bounded`).
-/
import DsDns.ControlPlane.Equiv.Calls
import DsDns.ControlPlane.Equiv.Silence

namespace DsDns

open Interaction

/-! ### The bill -/

/-- What a question costs: a price for each tier, and one for a sleep. -/
def Request.cost (price : Tier → ℕ) (sleep : ℕ) : Request → ℕ
  | .send tier _ _ => price tier
  | .sleep => sleep

/-- The most that a call can cost from a stage on. -/
def Stage.bill (price : Tier → ℕ) (sleep : ℕ) : Stage → ℕ
  | .started => price .l1 + (price .l2 + 30 * (sleep + price .l2) + (price .dataPlane + price .l2 + price .l1))
  | .looking waits =>
    price .l2 + (30 - waits) * (sleep + price .l2) + (price .dataPlane + price .l2 + price .l1)
  | .sleeping waits =>
    sleep + (price .l2 + (30 - waits) * (sleep + price .l2) + (price .dataPlane + price .l2 + price .l1))
  | .fetching true => price .dataPlane + price .l2 + price .l1
  | .fetching false => price .dataPlane
  | .storing => price .l2 + price .l1
  | .closing => price .l1
  | .ended => 0

variable (price : Tier → ℕ) (sleep : ℕ)

theorem bill_fetching_le (store : Bool) :
    (Stage.fetching store).bill price sleep ≤ price .dataPlane + price .l2 + price .l1 := by
  cases store with
  | true => exact Nat.le_refl _
  | false =>
    show price .dataPlane ≤ _
    omega

theorem bill_afterFetch_le (store : Bool) (response : Option Str) :
    price .dataPlane + (Stage.afterFetch store response).bill price sleep ≤ (Stage.fetching store).bill price sleep := by
  unfold Stage.afterFetch
  cases store with
  | false =>
    rw [Bool.false_and, if_neg Bool.false_ne_true]
    exact Nat.le_refl _
  | true =>
    split
    · show price .dataPlane + (price .l2 + price .l1) ≤ price .dataPlane + price .l2 + price .l1
      omega
    · show price .dataPlane + 0 ≤ price .dataPlane + price .l2 + price .l1
      omega

theorem bill_afterLookup_le (waits : ℕ) (response : Option Str) :
    price .l2 + (Stage.afterLookup waits response).bill price sleep ≤ (Stage.looking waits).bill price sleep := by
  have hfetching := bill_fetching_le price sleep
  have hlooking : (Stage.looking waits).bill price sleep =
      price .l2 + (30 - waits) * (sleep + price .l2) + (price .dataPlane + price .l2 + price .l1) := rfl
  have hfetch : ∀ store, price .l2 + (Stage.fetching store).bill price sleep ≤
      (Stage.looking waits).bill price sleep := by
    intro store
    have := hfetching store
    omega
  unfold Stage.afterLookup
  cases response with
  | none => exact hfetch _
  | some r =>
    simp only
    split
    · show price .l2 + price .l1 ≤ _
      omega
    · split
      · split
        · -- One more wait: its sleep and its poll are paid from the turns that are left.
          rename_i hwaits
          have hturn : 30 - waits = (30 - (waits + 1)) + 1 := by
            have : waits < 30 := hwaits
            omega
          show price .l2 + (sleep + (price .l2 + (30 - (waits + 1)) * (sleep + price .l2) +
            (price .dataPlane + price .l2 + price .l1))) ≤ _
          rw [hlooking, hturn, Nat.succ_mul]
          omega
        · exact hfetch _
      · exact hfetch _

/-- **Every question is paid.** -/
theorem cost_add_bill_next (config : ZoneConfig) (domain : Str) (stage : Stage) (q : Request) (r : q.Reply)
    (h : stage.Asks config domain q) : q.cost price sleep + (stage.next q r).bill price sleep ≤ stage.bill price sleep := by
  cases stage with
  | started =>
    obtain rfl := h
    show price .l1 + (if _ then Stage.ended else Stage.looking 0).bill price sleep ≤ price .l1 + _
    split
    · show price .l1 + 0 ≤ price .l1 + _
      omega
    · exact Nat.le_refl _
  | looking waits =>
    obtain rfl := h
    exact bill_afterLookup_le price sleep waits _
  | sleeping waits =>
    obtain rfl := h
    show sleep + (if r = true then Stage.fetching false else Stage.looking waits).bill price sleep ≤
      sleep + (Stage.looking waits).bill price sleep
    split
    · show sleep + price .dataPlane ≤ sleep + (price .l2 + _ + (price .dataPlane + price .l2 + price .l1))
      omega
    · exact Nat.le_refl _
  | fetching store =>
    obtain rfl := h
    exact bill_afterFetch_le price sleep store _
  | storing =>
    obtain ⟨v, rfl⟩ := h
    exact Nat.le_refl _
  | closing =>
    obtain ⟨v, rfl⟩ := h
    exact Nat.le_refl _
  | ended => exact absurd h id

/-- **What a call costs at most**, so far or as a whole. -/
theorem resolve_bill {replies : (q : Request) → q.Reply → Prop} {config : ZoneConfig} {domain : Str}
    {asked : List Request} {left : Client Str}
    (h : Reaches replies (CacheClient.resolve config domain) asked left) :
    (asked.map (Request.cost price sleep)).sum ≤
      2 * price .l1 + 32 * price .l2 + price .dataPlane + 30 * sleep := by
  have hsum := (resolve_follows config domain).cost_le (cost_add_bill_next price sleep config domain) h
  have hbill : Stage.started.bill price sleep =
      price .l1 + (price .l2 + 30 * (sleep + price .l2) + (price .dataPlane + price .l2 + price .l1)) := rfl
  omega

section Attained

variable {config : ZoneConfig} {domain : Str} {l1Ip l2Ip : Option Str}

/-- The data plane has a value, which is stored in both caches. -/
theorem runs_fetchAndStore (hleader : (connection config.leaderIp).isSome) :
    Runs Request.Honest (CacheClient.fetchAndStore config l2Ip l1Ip domain)
      [.send .dataPlane config.leaderIp domain, .send .l2 l2Ip (setMessage domain ['1']),
        .send .l1 l1Ip (setMessage domain ['1'])] ['1'] := by
  have hfetch : Runs Request.Honest (CacheClient.fetchFromDataPlane config domain)
      [.send .dataPlane config.leaderIp domain] ['1'] :=
    runs_send.mpr ⟨some ['1'], [], rfl, Or.inr hleader, runs_pure.mpr ⟨rfl, rfl⟩⟩
  refine runs_bind.mpr ⟨_, ['1'], _, rfl, hfetch, ?_⟩
  rw [if_neg (by decide)]
  exact runs_send.mpr ⟨none, _, rfl, Or.inl rfl, runs_send.mpr ⟨none, _, rfl, Or.inl rfl, runs_pure.mpr ⟨rfl, rfl⟩⟩⟩

/-- Told to wait as often as it has turns but one, and granted the lease at last. -/
theorem exists_runs_waitForLease (domain : Str) (l1Ip : Option Str) (hl2 : (connection l2Ip).isSome)
    (hleader : (connection config.leaderIp).isSome) (retries : ℕ) :
    ∃ asked v, Runs Request.Honest (CacheClient.waitForLease config l2Ip l1Ip domain (retries + 1)) asked v ∧
      ∀ (price : Tier → ℕ) (sleep : ℕ), (asked.map (Request.cost price sleep)).sum =
        (retries + 1) * (sleep + price .l2) + (price .dataPlane + price .l2 + price .l1) := by
  -- One turn, with what comes after its answer.
  have hturn : ∀ (retries : ℕ) (line : Str) (later : List Request) (v : Str), readLine line = some line →
      isHit line = false → startsWith line "LEASE;".toList = true →
      Runs Request.Honest (if startsWith line "LEASE;GRANTED".toList then
        CacheClient.fetchAndStore config l2Ip l1Ip domain
        else CacheClient.waitForLease config l2Ip l1Ip domain retries) later v →
      Runs Request.Honest (CacheClient.waitForLease config l2Ip l1Ip domain (retries + 1))
        (.sleep :: .send .l2 l2Ip (getMessage domain) :: later) v := by
    intro retries line later v hread hhit hlease hlater
    refine runs_ask.mpr ⟨false, _, rfl, trivial, ?_⟩
    refine runs_send.mpr ⟨some line, later, rfl, Or.inr hl2, ?_⟩
    rw [Option.bind_some, hread]
    simp only
    rw [if_neg (Bool.eq_false_iff.mp hhit), if_neg (not_not_intro hlease)]
    exact hlater
  induction retries with
  | zero =>
    refine ⟨_, ['1'], hturn 0 "LEASE;GRANTED".toList _ _ rfl rfl rfl (runs_fetchAndStore hleader), fun price sleep => ?_⟩
    show sleep + (price .l2 + (price .dataPlane + (price .l2 + (price .l1 + 0)))) = _
    omega
  | succ retries ih =>
    obtain ⟨asked, v, hrun, hsum⟩ := ih
    refine ⟨_, v, hturn (retries + 1) "LEASE;WAIT".toList asked v rfl rfl rfl hrun, fun price sleep => ?_⟩
    show sleep + (price .l2 + (asked.map (Request.cost price sleep)).sum) = _
    rw [hsum, Nat.succ_mul (retries + 1)]
    omega

/-- **The bound is attained**, if the call can reach L2 and the leader. -/
theorem resolve_bill_attained (hl2 : (connection (tierAddress config domain .l2)).isSome)
    (hleader : (connection config.leaderIp).isSome) :
    ∃ asked v, Runs Request.Honest (CacheClient.resolve config domain) asked v ∧
      ∀ (price : Tier → ℕ) (sleep : ℕ), (asked.map (Request.cost price sleep)).sum =
        2 * price .l1 + 32 * price .l2 + price .dataPlane + 30 * sleep := by
  obtain ⟨asked, v, hrun, hsum⟩ := exists_runs_waitForLease domain (tierAddress config domain .l1) hl2 hleader 29
  refine ⟨_, v, runs_send.mpr ⟨none, _, rfl, Or.inl rfl,
    runs_send.mpr ⟨some "LEASE;WAIT".toList, asked, rfl, Or.inr hl2, hrun⟩⟩, fun price sleep => ?_⟩
  show price .l1 + (price .l2 + (asked.map (Request.cost price sleep)).sum) = _
  rw [hsum]
  omega

end Attained

/-! ### What a call stores -/

/-- The question stores the value `v` for the name in a cache. -/
def Request.Stores (domain v : Str) (q : Request) : Prop :=
  ∃ tier ip, tier ≠ .dataPlane ∧ q = .send tier ip (setMessage domain v)

/-- Whatever the call stores is what it returns. -/
def StoresResult (domain : Str) (t : Client Str) : Prop :=
  ∀ asked v, Runs Request.Honest t asked v → ∀ q ∈ asked, ∀ w, q.Stores domain w → w = v

section Stores

variable {domain : Str}

theorem not_stores_get (tier : Tier) (ip : Option Str) (w : Str) :
    ¬ (Request.send tier ip (getMessage domain)).Stores domain w := by
  rintro ⟨tier', ip', -, heq⟩
  have hmessage : getMessage domain = setMessage domain w := by
    injection heq
  exact absurd (List.cons.inj hmessage).1 (by decide)

theorem not_stores_dataPlane (ip : Option Str) (message w : Str) :
    ¬ (Request.send .dataPlane ip message).Stores domain w := by
  rintro ⟨tier, ip', hne, heq⟩
  injection heq with htier
  exact hne htier.symm

theorem not_stores_sleep (w : Str) : ¬ Request.sleep.Stores domain w := by
  rintro ⟨tier, ip, -, heq⟩
  cases heq

theorem setMessage_inj {v w : Str} (h : setMessage domain v = setMessage domain w) : v = w := by
  unfold setMessage at h
  exact (List.cons.inj (List.append_cancel_left h)).2

theorem storesResult_pure (v : Str) : StoresResult domain (pure v) := by
  intro asked a h q hq
  obtain ⟨rfl, -⟩ := runs_pure.mp h
  exact absurd hq List.not_mem_nil

/-- A question that stores nothing. -/
theorem storesResult_send {tier : Tier} {ip : Option Str} {message : Str} {f : Option Str → Client Str}
    (hno : ∀ w, ¬ (Request.send tier ip message).Stores domain w) (hf : ∀ line, StoresResult domain (f line)) :
    StoresResult domain (CacheClient.send tier ip message >>= f) := by
  intro asked v h q hq w hw
  obtain ⟨arrived, later, rfl, -, hlater⟩ := runs_send.mp h
  rcases List.mem_cons.mp hq with rfl | hq
  · exact absurd hw (hno w)
  · exact hf _ later v hlater q hq w hw

/-- A question that stores the value that is returned in the end. -/
theorem storesResult_set {tier : Tier} {ip : Option Str} {value : Str} {f : Option Str → Client Str}
    (hresult : ∀ line asked v, Runs Request.Honest (f line) asked v → v = value)
    (hf : ∀ line, StoresResult domain (f line)) :
    StoresResult domain (CacheClient.send tier ip (setMessage domain value) >>= f) := by
  intro asked v h q hq w hw
  obtain ⟨arrived, later, rfl, -, hlater⟩ := runs_send.mp h
  rcases List.mem_cons.mp hq with rfl | hq
  · obtain ⟨tier', ip', -, heq⟩ := hw
    injection heq with _ _ hmessage
    rw [hresult _ _ _ hlater, setMessage_inj hmessage]
  · exact hf _ later v hlater q hq w hw

theorem runs_setThen {tier : Tier} {ip : Option Str} {value v : Str} {asked : List Request}
    (h : Runs Request.Honest (do
      let _ ← CacheClient.send tier ip (setMessage domain value)
      return value) asked v) : v = value := by
  obtain ⟨arrived, later, -, -, hlater⟩ := runs_send.mp h
  exact (runs_pure.mp hlater).2

theorem storesResult_setThen (tier : Tier) (ip : Option Str) (value : Str) : StoresResult domain (do
    let _ ← CacheClient.send tier ip (setMessage domain value)
    return value) :=
  storesResult_set (fun _ _ _ h => (runs_pure.mp h).2) fun _ => storesResult_pure value

variable (config : ZoneConfig) (l1Ip l2Ip : Option Str)

theorem storesResult_fetch : StoresResult domain (CacheClient.fetchFromDataPlane config domain) := by
  apply storesResult_send (not_stores_dataPlane config.leaderIp domain)
  intro line
  cases line with
  | none => exact storesResult_pure []
  | some r => exact storesResult_pure _

theorem storesResult_fetchAndStore :
    StoresResult domain (CacheClient.fetchAndStore config l2Ip l1Ip domain) := by
  intro asked v h q hq w hw
  obtain ⟨first, value, later, rfl, hfirst, hlater⟩ := runs_bind.mp h
  rcases List.mem_append.mp hq with hq | hq
  · -- The fetch alone stores nothing.
    obtain ⟨arrived, rest, rfl, -, hrest⟩ := runs_send.mp hfirst
    rcases List.mem_cons.mp hq with rfl | hq
    · exact absurd hw (not_stores_dataPlane _ _ w)
    · cases hline : arrived.bind readLine with
      | none =>
        rw [hline] at hrest
        rw [(runs_pure.mp hrest).1] at hq
        exact absurd hq List.not_mem_nil
      | some r =>
        rw [hline] at hrest
        rw [(runs_pure.mp hrest).1] at hq
        exact absurd hq List.not_mem_nil
  · have hstored : StoresResult domain (if isBlank value then (pure value : Client Str) else do
        let _ ← CacheClient.send .l2 l2Ip (setMessage domain value)
        let _ ← CacheClient.send .l1 l1Ip (setMessage domain value)
        return value) := by
      split
      · exact storesResult_pure value
      · exact storesResult_set (fun _ _ _ h => runs_setThen h) fun _ => storesResult_setThen .l1 l1Ip value
    exact hstored later v hlater q hq w hw

/-- By induction on the turns that are left. -/
theorem storesResult_waitForLease (retries : ℕ) :
    StoresResult domain (CacheClient.waitForLease config l2Ip l1Ip domain retries) := by
  induction retries with
  | zero => exact storesResult_fetch config
  | succ retries ih =>
    intro asked v h q hq w hw
    obtain ⟨interrupted, later, rfl, -, hlater⟩ := runs_ask.mp h
    rcases List.mem_cons.mp hq with rfl | hq
    · exact absurd hw (not_stores_sleep w)
    cases interrupted with
    | true => exact storesResult_fetch config later v hlater q hq w hw
    | false =>
      refine storesResult_send (not_stores_get .l2 l2Ip) (fun line => ?_) later v hlater q hq w hw
      cases line with
      | none => exact storesResult_fetch config
      | some r =>
        simp only
        split
        · exact storesResult_setThen .l1 l1Ip r
        · split
          · exact storesResult_fetch config
          · split
            · exact storesResult_fetchAndStore config l1Ip l2Ip
            · exact ih

theorem storesResult_resolveL2 : StoresResult domain (CacheClient.resolveL2 config l2Ip l1Ip domain) := by
  apply storesResult_send (not_stores_get .l2 l2Ip)
  intro line
  cases line with
  | none => exact storesResult_fetchAndStore config l1Ip l2Ip
  | some r =>
    simp only
    split
    · exact storesResult_setThen .l1 l1Ip r
    · split
      · exact storesResult_fetchAndStore config l1Ip l2Ip
      · split
        · exact storesResult_waitForLease config l1Ip l2Ip leaseMaxRetries
        · exact storesResult_fetchAndStore config l1Ip l2Ip

/-- **What a call stores is what it returns.** -/
theorem resolve_stores (domain : Str) : StoresResult domain (CacheClient.resolve config domain) := by
  apply storesResult_send (not_stores_get .l1 _)
  intro line
  cases line with
  | none => exact storesResult_resolveL2 config _ _
  | some r =>
    simp only
    split
    · exact storesResult_pure r
    · exact storesResult_resolveL2 config _ _

end Stores

/-! ### The world of all calls -/

/-- The question a call waits at. -/
def Call.question (c : Call) : Option Request :=
  match c.client with
  | .ask q _ => some q
  | .done _ => none

/-- The event answers the question `q` of the call number `i`. -/
def CallEvent.answersTo (i : ℕ) (q : Request) : CallEvent → Bool
  | .exchange j _ => j = i && match q with
    | .send _ ip _ => (connection ip).isSome
    | .sleep => false
  | .abandon j => j = i && match q with
    | .send _ _ _ => true
    | .sleep => false
  | .wake j _ => j = i && decide (q = .sleep)
  | .resolve _ _ => false
  | .arrive _ _ => false

/-- The question of the call number `i` that an event answers. -/
def CallWorld.answered (w : CallWorld) (i : ℕ) (e : CallEvent) : Option Request :=
  (w.calls[i]?.bind Call.question).filter fun q => e.answersTo i q

section World

variable [Unicode] (dataPlane : Str → Str)

/-- The questions of the call number `i` that have been answered in a run, in this order. -/
def CallWorld.trace (i : ℕ) : CallWorld → List CallEvent → List Request
  | _, [] => []
  | w, e :: es => (w.answered i e).toList ++ CallWorld.trace i (w.step dataPlane e) es

theorem serve_calls (w : CallWorld) (tier : Tier) (ip message : Str) (now : Time) :
    (w.serve dataPlane tier ip message now).1.calls = w.calls := by
  cases tier <;> rfl

/-- What an event has done to the call number `i`: nothing, start it, or answer its question. -/
def CallStep (w w' : CallWorld) (i : ℕ) (answered : Option Request) : Prop :=
  (w'.calls[i]? = w.calls[i]? ∧ answered = none) ∨
  (w.calls[i]? = none ∧ answered = none ∧ ∃ config domain,
    w'.calls[i]? = some ⟨domain, CacheClient.resolve config domain.val, false⟩) ∨
  ∃ domain q next missed missed' r, w.calls[i]? = some ⟨domain, .ask q next, missed⟩ ∧ answered = some q ∧
    q.Honest r ∧ w'.calls[i]? = some ⟨domain, next r, missed'⟩

omit [Unicode] in
theorem answered_of_ask {w : CallWorld} {i : ℕ} {domain : HostName} {q : Request} {next : q.Reply → Client Str}
    {missed : Bool} (h : w.calls[i]? = some ⟨domain, .ask q next, missed⟩) (e : CallEvent) :
    w.answered i e = if e.answersTo i q then some q else none := by
  unfold CallWorld.answered
  rw [h]
  rfl

omit [Unicode] in
/-- An event that answers the call number `i` if it waits at all leaves it alone if it does not. -/
theorem callStep_of_idle {w w' : CallWorld} {i : ℕ} (e : CallEvent) (hsame : w'.calls[i]? = w.calls[i]?)
    (h : ∀ c, w.calls[i]? = some c → ∀ q, c.question = some q → e.answersTo i q = false) :
    CallStep w w' i (w.answered i e) := by
  left
  refine ⟨hsame, ?_⟩
  unfold CallWorld.answered
  cases hcall : w.calls[i]? with
  | none => rfl
  | some c =>
    rw [Option.bind_some, Option.filter_eq_none_iff]
    intro q hq
    rw [h c hcall q hq]
    exact Bool.false_ne_true

theorem callStep_exchange (w : CallWorld) (i : ℕ) (now : Time) :
    CallStep w (w.exchange dataPlane i now) i (w.answered i (.exchange i now)) := by
  unfold CallWorld.exchange
  split
  · rename_i domain tier ip message next missed hcall
    split
    · rename_i hip
      apply callStep_of_idle _ rfl
      intro c hc q hq
      rw [hcall] at hc
      obtain rfl := Option.some.inj hc
      obtain rfl := Option.some.inj hq
      simp [CallEvent.answersTo, hip]
    · rename_i address hip
      right; right
      have hlt : i < w.calls.length := (List.getElem?_eq_some_iff.mp hcall).1
      refine ⟨domain, _, next, missed, _, some (w.serve dataPlane tier address message now).2, hcall, ?_,
        Or.inr (by rw [hip]; rfl), List.getElem?_set_self hlt⟩
      rw [answered_of_ask hcall, if_pos]
      simp [CallEvent.answersTo, hip]
  · rename_i hother
    apply callStep_of_idle _ rfl
    intro c hc q hq
    obtain ⟨domain, v | ⟨_ | _, next⟩, missed⟩ := c
    · exact absurd hq (by simp [Call.question])
    · exact absurd hc (hother _ _ _ _ _ _)
    · obtain rfl := Option.some.inj hq
      simp [CallEvent.answersTo]

omit [Unicode] in
theorem callStep_abandon (w : CallWorld) (i : ℕ) : CallStep w (w.abandon i) i (w.answered i (.abandon i)) := by
  unfold CallWorld.abandon
  split
  · rename_i domain tier ip message next missed hcall
    right; right
    have hlt : i < w.calls.length := (List.getElem?_eq_some_iff.mp hcall).1
    refine ⟨domain, _, next, missed, _, none, hcall, ?_, Or.inl rfl, List.getElem?_set_self hlt⟩
    rw [answered_of_ask hcall, if_pos]
    simp [CallEvent.answersTo]
  · rename_i hother
    apply callStep_of_idle _ rfl
    intro c hc q hq
    obtain ⟨domain, v | ⟨_ | _, next⟩, missed⟩ := c
    · exact absurd hq (by simp [Call.question])
    · exact absurd hc (hother _ _ _ _ _ _)
    · obtain rfl := Option.some.inj hq
      simp [CallEvent.answersTo]

omit [Unicode] in
theorem callStep_wake (w : CallWorld) (i : ℕ) (interrupted : Bool) :
    CallStep w (w.wake i interrupted) i (w.answered i (.wake i interrupted)) := by
  unfold CallWorld.wake
  split
  · rename_i domain next missed hcall
    right; right
    have hlt : i < w.calls.length := (List.getElem?_eq_some_iff.mp hcall).1
    refine ⟨domain, _, next, missed, missed, interrupted, hcall, ?_, trivial, List.getElem?_set_self hlt⟩
    rw [answered_of_ask hcall, if_pos]
    simp [CallEvent.answersTo]
  · rename_i hother
    apply callStep_of_idle _ rfl
    intro c hc q hq
    obtain ⟨domain, v | ⟨_ | _, next⟩, missed⟩ := c
    · exact absurd hq (by simp [Call.question])
    · obtain rfl := Option.some.inj hq
      simp [CallEvent.answersTo]
    · exact absurd hc (hother _ _ _)

/-- An event of another call changes the list of the calls elsewhere. -/
theorem callStep_other (w : CallWorld) {i j : ℕ} (h : j ≠ i) (now : Time) (interrupted : Bool) :
    CallStep w (w.exchange dataPlane j now) i (w.answered i (.exchange j now)) ∧
      CallStep w (w.abandon j) i (w.answered i (.abandon j)) ∧
      CallStep w (w.wake j interrupted) i (w.answered i (.wake j interrupted)) := by
  have hno : ∀ q, (CallEvent.exchange j now).answersTo i q = false ∧ (CallEvent.abandon j).answersTo i q = false ∧
      (CallEvent.wake j interrupted).answersTo i q = false := by
    intro q
    simp [CallEvent.answersTo, h]
  refine ⟨callStep_of_idle _ ?_ fun _ _ q _ => (hno q).1, callStep_of_idle _ ?_ fun _ _ q _ => (hno q).2.1,
    callStep_of_idle _ ?_ fun _ _ q _ => (hno q).2.2⟩
  · unfold CallWorld.exchange
    split
    · split
      · rfl
      · exact List.getElem?_set_ne h
    · rfl
  · unfold CallWorld.abandon
    split
    · exact List.getElem?_set_ne h
    · rfl
  · unfold CallWorld.wake
    split
    · exact List.getElem?_set_ne h
    · rfl

/-- What an event does to the call number `i`. -/
theorem callStep_step (w : CallWorld) (i : ℕ) (e : CallEvent) :
    CallStep w (w.step dataPlane e) i (w.answered i e) := by
  cases e with
  | resolve config domain =>
    show CallStep w { w with calls := w.calls ++ [_] } i _
    rcases Nat.lt_trichotomy i w.calls.length with hlt | rfl | hgt
    · exact callStep_of_idle _ (List.getElem?_append_left hlt) fun _ _ _ _ => rfl
    · right; left
      have hnone : w.calls[w.calls.length]? = none := List.getElem?_eq_none (Nat.le_refl _)
      refine ⟨hnone, ?_, config, domain, ?_⟩
      · unfold CallWorld.answered
        rw [hnone]
        rfl
      · exact List.getElem?_concat_length
    · refine callStep_of_idle _ ?_ fun _ _ _ _ => rfl
      rw [List.getElem?_eq_none (by
        rw [List.length_append]
        exact hgt), List.getElem?_eq_none (Nat.le_of_lt hgt)]
  | exchange j now =>
    by_cases h : j = i
    · subst h
      exact callStep_exchange dataPlane w j now
    · exact (callStep_other dataPlane w h now false).1
  | abandon j =>
    by_cases h : j = i
    · subst h
      exact callStep_abandon w j
    · exact (callStep_other dataPlane w h 0 false).2.1
  | arrive k now =>
    refine callStep_of_idle _ ?_ fun _ _ _ _ => rfl
    show (w.arrive dataPlane k now).calls[i]? = _
    unfold CallWorld.arrive
    split
    · rw [serve_calls]
    · rfl
  | wake j interrupted =>
    by_cases h : j = i
    · subst h
      exact callStep_wake w j interrupted
    · exact (callStep_other dataPlane w h 0 interrupted).2.2

theorem trace_concat (w : CallWorld) (i : ℕ) (es : List CallEvent) (e : CallEvent) :
    w.trace dataPlane i (es ++ [e]) =
      w.trace dataPlane i es ++ ((run (CallWorld.step dataPlane) w es).answered i e).toList := by
  induction es generalizing w with
  | nil => exact List.append_nil _
  | cons e' es ih =>
    show (w.answered i e').toList ++ (w.step dataPlane e').trace dataPlane i (es ++ [e]) = _
    rw [ih, ← List.append_assoc]
    rfl

/-- **A call takes the steps of its own program**: in a run from a state in which the call number `i` does not
exist yet, it has come from a `resolve` to where it is by the questions of its trace. -/
theorem reaches_trace {w : CallWorld} {i : ℕ} (hnew : w.calls[i]? = none) (es : List CallEvent) :
    ((run (CallWorld.step dataPlane) w es).calls[i]? = none → w.trace dataPlane i es = []) ∧
    ∀ c, (run (CallWorld.step dataPlane) w es).calls[i]? = some c → ∃ config,
      Reaches Request.Honest (CacheClient.resolve config c.domain) (w.trace dataPlane i es) c.client := by
  induction es using List.reverseRecOn with
  | nil => exact ⟨fun _ => rfl, fun c hc => absurd (hnew.symm.trans hc) (by simp)⟩
  | append_singleton es e ih =>
    obtain ⟨hnone, hsome⟩ := ih
    rw [run_concat, trace_concat]
    rcases callStep_step dataPlane (run (CallWorld.step dataPlane) w es) i e with ⟨hsame, hno⟩ |
      ⟨hbefore, hno, config, domain, hafter⟩ | ⟨domain, q, next, missed, missed', r, hbefore, hq, hr, hafter⟩
    · rw [hsame, hno, Option.toList_none, List.append_nil]
      exact ⟨hnone, hsome⟩
    · rw [hafter, hno, hnone hbefore]
      refine ⟨fun h => absurd h (by simp), fun c hc => ⟨config, ?_⟩⟩
      obtain rfl := Option.some.inj hc
      exact Reaches.here _
    · rw [hafter, hq]
      refine ⟨fun h => absurd h (by simp), fun c hc => ?_⟩
      obtain ⟨config, hreaches⟩ := hsome _ hbefore
      obtain rfl := Option.some.inj hc
      exact ⟨config, hreaches.concat hr⟩

/-- **Every call is bounded**, whatever the other calls, the servers and the network do. Of the questions of a call
that have been answered, at most two went to L1, 32 to L2, one to the data plane, and 30 were sleeps, at any
prices; when it has ended, everything it has stored is what it returned; and until then it waits for an
answer that can come. -/
theorem calls_bounded (capacity1 capacity2 : Str → ℕ) (es : List CallEvent) (i : ℕ) (c : Call)
    (hc : (run (CallWorld.step dataPlane) (CallWorld.start capacity1 capacity2) es).calls[i]? = some c) :
    let asked := (CallWorld.start capacity1 capacity2).trace dataPlane i es
    (∀ (price : Tier → ℕ) (sleep : ℕ), (asked.map (Request.cost price sleep)).sum ≤
        2 * price .l1 + 32 * price .l2 + price .dataPlane + 30 * sleep) ∧
      (∀ v, c.client = .done v → ∀ q ∈ asked, ∀ x, q.Stores c.domain x → x = v) ∧
      ((∃ v, c.client = .done v) ∨
        ∃ e, ((run (CallWorld.step dataPlane) (CallWorld.start capacity1 capacity2) es).answered i e).isSome) := by
  intro asked
  obtain ⟨config, hreaches⟩ := (reaches_trace dataPlane (i := i) rfl es).2 c hc
  refine ⟨fun price sleep => resolve_bill price sleep hreaches, fun v hv q hq x hx => ?_, ?_⟩
  · rw [hv] at hreaches
    exact resolve_stores config c.domain _ v hreaches.runs q hq x hx
  · obtain ⟨domain, v | ⟨_ | _, next⟩, missed⟩ := c
    · exact Or.inl ⟨v, rfl⟩
    · right
      refine ⟨.abandon i, ?_⟩
      rw [answered_of_ask hc, if_pos (by simp [CallEvent.answersTo])]
      rfl
    · right
      refine ⟨.wake i false, ?_⟩
      rw [answered_of_ask hc, if_pos (by simp [CallEvent.answersTo])]
      rfl

end World

/-- Two calls for one name: the first is granted the lease, the second waits once and finds the value in L2. -/
def twoCalls : List CallEvent :=
  [.resolve ⟨some "127.0.0.1".toList, [], []⟩ exampleName, .resolve ⟨some "127.0.0.1".toList, [], []⟩ exampleName,
    .exchange 0 0, .exchange 1 0, .exchange 0 0, .exchange 1 0, .exchange 0 0, .exchange 0 0, .wake 1 false,
    .exchange 1 second, .abandon 1]

theorem calls_bounded_two :
    let asked := @CallWorld.trace Unicode.ascii (fun _ => "1.2.3.4\n".toList) 1 (CallWorld.start (fun _ => 1) fun _ => 1)
      twoCalls
    asked.length = 5 ∧ (asked.map (Request.cost (fun _ => 1) 1)).sum ≤ 65 ∧
      ∀ q ∈ asked, ∀ x, q.Stores "a.com".toList x → x = "1.2.3.4".toList := by
  intro asked
  obtain ⟨hbill, hstores, -⟩ := @calls_bounded Unicode.ascii (fun _ => "1.2.3.4\n".toList) (fun _ => 1) (fun _ => 1)
    twoCalls 1 ⟨exampleName, .done "1.2.3.4".toList, false⟩ rfl
  exact ⟨by decide, hbill (fun _ => 1) 1, hstores _ rfl⟩

end DsDns
