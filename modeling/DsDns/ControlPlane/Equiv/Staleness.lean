/-
  When a fetched value does not replace a newer one.

  Leases are granted one after the other, and a call fetches after it has read of its own. So as long as
  L2 stores a value only for the call that was granted the lease last, the value it holds was fetched
  before that grant, or by that call itself (`StaleInv.current`), and what a call stores is never older
  than what it replaces. The server does not check this: a `SET` carries no lease, and one that comes
  after another call's grant is run like any other (`not_never_stale_late`).
-/
import DsDns.ControlPlane.Equiv.Leasing

namespace DsDns

open Interaction

/-! ### Times -/

/-- What a call knows of is past, and it asked the data plane after its lease was granted. -/
structure LeaseCall.Timed (now : Time) (c : LeaseCall) : Prop where
  answered : ∀ answer ∈ c.answers, ∀ p, answer.lease = some p → p.2 ≤ now
  granted : ∀ t, c.granted = some t → t ≤ now
  fetched : ∀ f, c.fetched = some f → f ≤ now
  order : ∀ t f, c.granted = some t → c.fetched = some f → t ≤ f

/-- What an observer has seen is past. -/
structure LeaseServer.Timely (s : LeaseServer) : Prop where
  lease : ∀ p, s.lease = some p → p.2 ≤ s.now
  last : ∀ p, s.last = some p → p.2 ≤ s.now
  stamp : ∀ t, s.stamp = some t → t ≤ s.now

/-- All that is known is past. -/
structure LeaseWorld.Timely (w : LeaseWorld) : Prop where
  server : w.toLeaseServer.Timely
  calls : ∀ (i : ℕ) (c : LeaseCall), w.calls[i]? = some c → c.Timed w.now

theorem LeaseCall.Timed.mono {now now' : Time} {c : LeaseCall} (h : c.Timed now) (hle : now ≤ now') :
    c.Timed now' where
  answered answer ha p hp := (h.answered answer ha p hp).trans hle
  granted t ht := (h.granted t ht).trans hle
  fetched f hf := (h.fetched f hf).trans hle
  order := h.order

theorem timed_fresh (config : ZoneConfig) (domain : Str) (now : Time) :
    (LeaseCall.fresh config domain).Timed now := by
  refine ⟨fun answer ha => ?_, fun t ht => ?_, fun f hf => ?_, fun t f ht => ?_⟩
  · exact absurd ha (by simp [LeaseCall.fresh])
  · exact absurd ht (by simp [LeaseCall.fresh])
  · exact absurd hf (by simp [LeaseCall.fresh])
  · exact absurd ht (by simp [LeaseCall.fresh])

/-- A call that goes on has nothing on its connection. -/
theorem timed_goesOn {now : Time} {c : LeaseCall} (h : c.Timed now) (client : Client Str) :
    (c.goesOn client).Timed now where
  answered answer ha := absurd ha (by simp [LeaseCall.goesOn])
  granted := h.granted
  fetched := h.fetched
  order := h.order

section Times

variable [Unicode] {config : ZoneConfig} {domain : Str} {w : LeaseWorld} {i : ℕ} {c c' : LeaseCall}
  {e : LeaseEvent}

omit [Unicode] in
theorem fetchedAt_le (h : w.Timely) {f : Time} (hf : w.fetchedAt i = some f) : f ≤ w.now := by
  obtain ⟨c, hc, hfetched⟩ := Option.bind_eq_some_iff.mp hf
  exact (h.calls i c hc).fetched f hfetched

/-- The line of a call leaves only past times. -/
theorem timely_command (h : w.Timely) (key : Str) (i : ℕ) (line : Str) :
    (w.command key i line).toLeaseServer.Timely := by
  refine ⟨fun p hp => ?_, fun p hp => ?_, fun s hs => ?_⟩
  · change (if grants key w.now w.l2 line = true then _ else if sets key line = true then _ else _) =
      some p at hp
    split at hp
    · rw [← Option.some.inj hp]
      exact le_refl w.now
    · split at hp
      · exact absurd hp (by simp)
      · exact h.server.lease p hp
  · change (if grants key w.now w.l2 line = true then _ else _) = some p at hp
    split at hp
    · rw [← Option.some.inj hp]
      exact le_refl w.now
    · exact h.server.last p hp
  · change (if sets key line = true then (w.fetchedAt i).or w.stamp else w.stamp) = some s at hs
    split at hs
    · rcases Option.or_eq_some_iff.mp hs with hfetched | ⟨-, hold⟩
      · exact fetchedAt_le h hfetched
      · exact h.server.stamp s hold
    · exact h.server.stamp s hs

/-- What moves a call keeps its times in order. A call that reads of its lease has not fetched. -/
theorem timed_moves (hw : w.Timely) (h : c.Timed w.now)
    (hmove : LeaseCall.Moves (cacheKey domain) w i e c c') : c'.Timed w.now := by
  cases hmove with
  | serve hunread =>
    refine ⟨fun answer ha p hp => ?_, h.granted, h.fetched, h.order⟩
    rcases List.mem_append.mp ha with hold | hnew
    · exact h.answered answer hold p hp
    · obtain rfl := List.mem_singleton.mp hnew
      exact (timely_command hw (cacheKey domain) i _).lease p hp
  | @read _ ip message next answer later hclient hanswers =>
    have hgoesOn := timed_goesOn h (next (some (written c.answers)))
    by_cases hgrant : c.fetched = none ∧ answer.text = "LEASE;GRANTED".toList ∧
        answer.lease.map Prod.fst = some i
    · refine ⟨hgoesOn.answered, fun t ht => ?_, h.fetched, fun t f _ hf => ?_⟩
      · have hlease : answer.lease.map Prod.snd = some t := by
          change (if _ then _ else _) = some t at ht
          rwa [if_pos hgrant] at ht
        obtain ⟨p, hp, rfl⟩ := Option.map_eq_some_iff.mp hlease
        exact h.answered answer (by simp [hanswers]) p hp
      · change c.fetched = some f at hf
        rw [hgrant.1] at hf
        exact absurd hf (by simp)
    · -- Any other answer leaves the grant the call knows of.
      have hsame : (c.reads i answer (next (some (written c.answers)))).granted = c.granted :=
        if_neg hgrant
      refine ⟨hgoesOn.answered, fun t ht => ?_, h.fetched, fun t f ht hf => ?_⟩
      · rw [hsame] at ht
        exact h.granted t ht
      · rw [hsame] at ht
        exact h.order t f ht hf
  | fail hclient => exact timed_goesOn h _
  | l1 arrived hclient => exact timed_goesOn h _
  | dataPlane arrived hclient =>
    refine ⟨fun answer ha => ?_, h.granted, fun f hf => ?_, fun t f ht hf => ?_⟩
    · exact absurd ha (by simp [LeaseCall.goesOn])
    · rw [← Option.some.inj hf]
    · rw [← Option.some.inj hf]
      exact h.granted t ht
  | wake interrupted hclient => exact timed_goesOn h _

/-- **Time goes on, and what has happened is past.** -/
theorem timely_step (h : w.Timely) (e : LeaseEvent) : (w.step config domain e).Timely := by
  have hserver : (w.step config domain e).toLeaseServer.Timely ∧
      w.now ≤ (w.step config domain e).now := by
    apply step_server fun s => s.Timely ∧ w.now ≤ s.now
    · exact fun j line _ => ⟨timely_command h _ j line, le_refl w.now⟩
    · intro delay
      have hle : w.now ≤ w.now + (delay : Time) :=
        Int.le_add_of_nonneg_right (Int.natCast_nonneg delay)
      refine ⟨⟨fun p hp => ?_, fun p hp => ?_, fun s hs => ?_⟩, hle⟩
      · exact (h.server.lease p hp).trans hle
      · exact (h.server.last p hp).trans hle
      · exact (h.server.stamp s hs).trans hle
    · exact fun line _ _ => ⟨⟨h.server.lease, h.server.last, h.server.stamp⟩, le_refl w.now⟩
    · exact ⟨h.server, le_refl w.now⟩
  refine ⟨hserver.1, fun i c' hc' => ?_⟩
  rcases step_call hc' with hold | ⟨-, rfl⟩ | ⟨c, hc, hmove⟩
  · exact (h.calls i c' hold).mono hserver.2
  · exact timed_fresh config domain _
  · exact (timed_moves h (h.calls i c hc) hmove).mono hserver.2

/-! ### The value that is stored -/

/-- No call is forgotten. -/
theorem length_step (w : LeaseWorld) (e : LeaseEvent) :
    w.calls.length ≤ (w.step config domain e).calls.length := by
  cases e with
  | resolve => simp [LeaseWorld.step]
  | tick delay => exact le_refl _
  | _ =>
    simp only [LeaseWorld.step, LeaseWorld.serve, LeaseWorld.drain, LeaseWorld.read, LeaseWorld.fail,
      LeaseWorld.reply, LeaseWorld.wake, LeaseWorld.command]
    repeat' split
    all_goals simp

/-- A call fetches once. -/
theorem fetchedAt_step (h : LeaseInv config domain w) (e : LeaseEvent) {f : Time}
    (hf : w.fetchedAt i = some f) : (w.step config domain e).fetchedAt i = some f := by
  obtain ⟨c, hc, hfetched⟩ := Option.bind_eq_some_iff.mp hf
  -- The call is still there, and nothing it does makes it fetch a second time.
  have hlt : i < (w.step config domain e).calls.length := by
    obtain ⟨hlt, -⟩ := List.getElem?_eq_some_iff.mp hc
    exact lt_of_lt_of_le hlt (length_step w e)
  have hc' := List.getElem?_eq_getElem hlt
  generalize (w.step config domain e).calls[i] = c' at hc'
  have hsame : c'.fetched = some f := by
    rcases step_call hc' with hold | ⟨hnew, -⟩ | ⟨c₁, hc₁, hmove⟩
    · rw [hc] at hold
      rw [← Option.some.inj hold]
      exact hfetched
    · rw [hc] at hnew
      exact absurd hnew (by simp)
    · obtain rfl : c = c₁ := Option.some.inj (hc.symm.trans hc₁)
      obtain ⟨stage, hstage⟩ := h.calls i c hc
      cases hmove with
      | dataPlane arrived hclient =>
        -- A call that asks the data plane has not heard from it.
        obtain ⟨store, rfl⟩ := stage_of_dataPlane (asks_of_fits hstage hclient)
        rw [hstage.unfetched rfl] at hfetched
        exact absurd hfetched (by simp)
      | _ => exact hfetched
  unfold LeaseWorld.fetchedAt
  rw [hc']
  exact hsame

/-- What every step of a run of current stores keeps: the value stored last was fetched before the last
grant, or by the call it was made to. -/
structure StaleInv (config : ZoneConfig) (domain : Str) (w : LeaseWorld) : Prop where
  lease : LeaseInv config domain w
  timely : w.Timely
  current : ∀ i t s, w.last = some (i, t) → w.stamp = some s → s ≤ t ∨ w.fetchedAt i = some s

omit [Unicode] in
theorem staleInv_start (config : ZoneConfig) (domain : Str) (capacity : ℕ) :
    StaleInv config domain (.start capacity) := by
  refine ⟨leaseInv_start config domain capacity, ⟨⟨?_, ?_, ?_⟩, ?_⟩, ?_⟩
  · exact fun p hp => absurd hp (by simp [LeaseWorld.start])
  · exact fun p hp => absurd hp (by simp [LeaseWorld.start])
  · exact fun s hs => absurd hs (by simp [LeaseWorld.start])
  · exact fun i c hc => absurd hc (by simp [LeaseWorld.start])
  · exact fun i t s hlast => absurd hlast (by simp [LeaseWorld.start])

theorem not_grants_of_sets {key line : Str} {now : Time} {s : L2Cache} (h : sets key line = true) :
    ¬ grants key now s line = true := by
  intro hgrants
  obtain ⟨v, hset⟩ := (@sets_iff _ key s now line).mp h
  rw [(grants_iff.mp hgrants).1] at hset
  exact absurd hset (by simp)

omit [Unicode] in
/-- What the call that was granted the lease last fetched is not older than what is stored. -/
theorem le_of_holds (h : StaleInv config domain w) (hholds : w.Holds i) {s f : Time}
    (hs : w.stamp = some s) (hf : w.fetchedAt i = some f) : s ≤ f := by
  obtain ⟨c, t, hc, hgranted, hlast⟩ := hholds
  rcases h.current i t s hlast hs with hle | hmine
  · have hfetched : c.fetched = some f := by
      rw [LeaseWorld.fetchedAt, hc] at hf
      exact hf
    calc s ≤ t := hle
      _ ≤ f := (h.timely.calls i c hc).order t f hgranted hfetched
  · rw [hf] at hmine
    exact le_of_eq (Option.some.inj hmine).symm

/-- A line that stores nothing for a call that was overtaken. -/
theorem command_current (h : StaleInv config domain w) {key line : Str}
    (hcurrent : sets key line = true → w.Holds i) :
    (∀ s s', w.stamp = some s → (w.command key i line).stamp = some s' → s ≤ s') ∧
    ∀ j t s, (w.command key i line).last = some (j, t) → (w.command key i line).stamp = some s →
      s ≤ t ∨ w.fetchedAt j = some s := by
  by_cases hsets : sets key line = true
  · have hholds := hcurrent hsets
    have hlast : (w.command key i line).last = w.last := if_neg (not_grants_of_sets hsets)
    have hstamp : (w.command key i line).stamp = (w.fetchedAt i).or w.stamp := if_pos hsets
    -- A `SET` of the holder: its value is not older, and the holder stays the last.
    rw [hlast, hstamp]
    constructor
    · intro s s' hs hs'
      rcases Option.or_eq_some_iff.mp hs' with hfetched | ⟨-, hold⟩
      · exact le_of_holds h hholds hs hfetched
      · exact le_of_eq (Option.some.inj (hs.symm.trans hold))
    · intro j t s hj hs
      rcases Option.or_eq_some_iff.mp hs with hfetched | ⟨-, hold⟩
      · obtain ⟨c, t', -, -, hi⟩ := hholds
        obtain ⟨rfl, -⟩ := Prod.mk.inj (Option.some.inj (hi.symm.trans hj))
        exact Or.inr hfetched
      · exact h.current j t s hj hold
  · have hstamp : (w.command key i line).stamp = w.stamp := if_neg hsets
    rw [hstamp]
    refine ⟨fun s s' hs hs' => le_of_eq (Option.some.inj (hs.symm.trans hs')), fun j t s hj hs => ?_⟩
    by_cases hgrants : grants key w.now w.l2 line = true
    · -- The lease is granted now, and whatever is stored was fetched before.
      have hlast : (w.command key i line).last = some (i, w.now) := if_pos hgrants
      rw [hlast] at hj
      obtain ⟨rfl, rfl⟩ := Prod.mk.inj (Option.some.inj hj)
      exact Or.inl (h.timely.server.stamp s hs)
    · have hlast : (w.command key i line).last = w.last := if_neg hgrants
      rw [hlast] at hj
      exact h.current j t s hj hs

/-- A step that stores nothing for a call that was overtaken. -/
theorem step_current (h : StaleInv config domain w) (hcurrent : w.StoresFor LeaseWorld.Holds domain e) :
    (∀ s s', w.stamp = some s → (w.step config domain e).stamp = some s' → s ≤ s') ∧
    ∀ j t s, (w.step config domain e).last = some (j, t) → (w.step config domain e).stamp = some s →
      s ≤ t ∨ w.fetchedAt j = some s := by
  have hidle : (∀ s s', w.stamp = some s → w.stamp = some s' → s ≤ s') ∧
      ∀ j t s, w.last = some (j, t) → w.stamp = some s → s ≤ t ∨ w.fetchedAt j = some s :=
    ⟨fun s s' hs hs' => le_of_eq (Option.some.inj (hs.symm.trans hs')), h.current⟩
  apply step_server fun v => (∀ s s', w.stamp = some s → v.stamp = some s' → s ≤ s') ∧
    ∀ j t s, v.last = some (j, t) → v.stamp = some s → s ≤ t ∨ w.fetchedAt j = some s
  · exact fun i line hruns => command_current h fun hsets => hcurrent i line hruns hsets
  · exact fun _ => hidle
  · exact fun _ _ _ => hidle
  · exact hidle

/-- **The step lemma.** -/
theorem staleInv_step (h : StaleInv config domain w) (hcurrent : w.StoresFor LeaseWorld.Holds domain e) :
    StaleInv config domain (w.step config domain e) := by
  refine ⟨leaseInv_step h.lease e, timely_step h.timely e, fun j t s hj hs => ?_⟩
  rcases (step_current h hcurrent).2 j t s hj hs with hle | hmine
  · exact Or.inl hle
  · exact Or.inr (fetchedAt_step h.lease e hmine)

/-! ### Prompt calls -/

/-- The call number `j` was granted the lease at the time `t`, and may or may not have read of it. -/
def LeaseCall.WasGranted (j : ℕ) (t : Time) (c : LeaseCall) : Prop :=
  c.granted = some t ∨ ∃ answer later, c.answers = answer :: later ∧
    answer.text = "LEASE;GRANTED".toList ∧ answer.lease = some (j, t)

/-- What every step of a run of prompt calls keeps: a lease whose call has not stored a value is the
current one, or too old. -/
structure PromptInv (config : ZoneConfig) (domain : Str) (w : LeaseWorld) : Prop where
  tracked : w.Tracked (cacheKey domain)
  last : ∀ p, w.lease = some p → w.last = some p
  outstanding : ∀ (j : ℕ) (t : Time) (c : LeaseCall), j ∉ w.stored → w.calls[j]? = some c →
    c.WasGranted j t → w.lease = some (j, t) ∨ leaseTtl < w.now - t

omit [Unicode] in
theorem promptInv_start (config : ZoneConfig) (domain : Str) (capacity : ℕ) :
    PromptInv config domain (.start capacity) := by
  refine ⟨⟨apart_start capacity, rfl⟩, fun p hp => ?_, fun j t c _ hc => ?_⟩
  · exact absurd hp (by simp [LeaseWorld.start])
  · exact absurd hc (by simp [LeaseWorld.start])

omit [Unicode] in
theorem wasGranted_goesOn {client : Client Str} {t : Time} (h : (c.goesOn client).WasGranted i t) :
    c.WasGranted i t := by
  rcases h with hgranted | ⟨answer, later, hanswers, -⟩
  · exact Or.inl hgranted
  · exact absurd hanswers (by simp [LeaseCall.goesOn])

/-- A grant that a call has after a move was there before, or L2 gives it in this step. -/
theorem wasGranted_moves (hc : w.calls[i]? = some c)
    (hmove : LeaseCall.Moves (cacheKey domain) w i e c c') {t : Time} (h : c'.WasGranted i t) :
    c.WasGranted i t ∨ (w.step config domain e).lease = some (i, t) := by
  cases hmove with
  | @serve _ line lines hunread =>
    rcases h with hgranted | ⟨answer, later, hanswers, htext, hlease⟩
    · exact Or.inl (Or.inl hgranted)
    · cases hold : c.answers with
      | nil =>
        right
        rw [LeaseCall.served, hold, List.nil_append] at hanswers
        obtain ⟨rfl, -⟩ := List.cons.inj hanswers
        rw [LeaseWorld.step, LeaseWorld.serve, hc]
        simp only [hunread]
        exact hlease
      | cons a as =>
        rw [LeaseCall.served, hold, List.cons_append] at hanswers
        obtain ⟨rfl, -⟩ := List.cons.inj hanswers
        exact Or.inl (Or.inr ⟨a, as, hold, htext, hlease⟩)
  | @read _ ip message next answer later hclient hanswers =>
    left
    rcases h with hgranted | ⟨a, as, hnone, -⟩
    · change (if _ then _ else _) = some t at hgranted
      split at hgranted
      · -- The grant it reads of was on its connection.
        rename_i hgrant
        obtain ⟨⟨j, t'⟩, hlease, rfl⟩ := Option.map_eq_some_iff.mp hgranted
        have hi : answer.lease.map Prod.fst = some i := hgrant.2.2
        rw [hlease] at hi
        obtain rfl : j = i := Option.some.inj hi
        exact Or.inr ⟨answer, later, hanswers, hgrant.2.1, hlease⟩
      · exact Or.inl hgranted
    · have hnil : [] = a :: as := hnone
      exact absurd hnil (by simp)
  | fail hclient => exact Or.inl (wasGranted_goesOn h)
  | l1 arrived hclient => exact Or.inl (wasGranted_goesOn h)
  | @dataPlane _ ip message next arrived hclient =>
    have hgoesOn : (c.goesOn (next arrived)).WasGranted i t := h
    exact Or.inl (wasGranted_goesOn hgoesOn)
  | wake interrupted hclient => exact Or.inl (wasGranted_goesOn h)

/-- A prompt `SET` of a call comes while the call has the current lease. -/
theorem lease_of_prompt (h : PromptInv config domain w) (hprompt : w.StoresFor LeaseWorld.OnTime domain e) {line : Str}
    (hruns : w.runs e = some (i, line)) (hsets : sets (cacheKey domain) line = true) :
    ∃ c t, w.calls[i]? = some c ∧ c.granted = some t ∧ w.lease = some (i, t) := by
  obtain ⟨hstored, c, t, hc, hgranted, hle⟩ := hprompt i line hruns hsets
  refine ⟨c, t, hc, hgranted, ?_⟩
  rcases h.outstanding i t c hstored hc (Or.inl hgranted) with hlease | hold
  · exact hlease
  · exact absurd hle (not_le.mpr hold)

/-- A grant is given only when the lease before is too old. -/
theorem expired_of_grants (h : PromptInv config domain w) {line : Str}
    (hgrants : grants (cacheKey domain) w.now w.l2 line = true) {p : ℕ × Time}
    (hlease : w.lease = some p) : leaseTtl < w.now - p.2 := by
  obtain ⟨hget, hmiss, hanswer, -⟩ := grants_iff.mp hgrants
  have hmap : w.l2.leaseMap (cacheKey domain) = some p.2 := by
    rw [← h.tracked.2, hlease]
    rfl
  exact (granted_iff hget hmiss).mp hanswer p.2 hmap

/-- What a line does to the outstanding leases. -/
theorem outstanding_command (h : PromptInv config domain w) {line : Str}
    (hcurrent : sets (cacheKey domain) line = true → ∃ t, w.lease = some (i, t)) {j : ℕ} {t : Time}
    (hold : w.lease = some (j, t) ∨ leaseTtl < w.now - t)
    (hstored : j ∉ (w.command (cacheKey domain) i line).stored) :
    (w.command (cacheKey domain) i line).lease = some (j, t) ∨ leaseTtl < w.now - t := by
  rcases hold with hlease | hexpired
  · by_cases hgrants : grants (cacheKey domain) w.now w.l2 line = true
    · exact Or.inr (expired_of_grants h hgrants hlease)
    · by_cases hsets : sets (cacheKey domain) line = true
      · -- The lease is the one of the call that stores, and that is no longer outstanding.
        obtain ⟨t', hmine⟩ := hcurrent hsets
        have hji : j = i := (Prod.mk.inj (Option.some.inj (hlease.symm.trans hmine))).1
        have hadded : (w.command (cacheKey domain) i line).stored = i :: w.stored := if_pos hsets
        rw [hadded, hji] at hstored
        exact absurd List.mem_cons_self hstored
      · left
        have hsame : (w.command (cacheKey domain) i line).lease = w.lease := by
          show (if _ then _ else if _ then _ else _) = _
          rw [if_neg hgrants, if_neg hsets]
        rw [hsame, hlease]
  · exact Or.inr hexpired

theorem last_command (h : ∀ p, w.lease = some p → w.last = some p) (key : Str) (i : ℕ) (line : Str)
    {p : ℕ × Time} (hp : (w.command key i line).lease = some p) :
    (w.command key i line).last = some p := by
  change (if _ then _ else if _ then _ else _) = some p at hp
  show (if _ then _ else _) = _
  by_cases hgrants : grants key w.now w.l2 line = true
  · rw [if_pos hgrants] at hp ⊢
    exact hp
  · rw [if_neg hgrants] at hp ⊢
    split at hp
    · exact absurd hp (by simp)
    · exact h p hp

/-- A call stays among those whose value was stored. -/
theorem stored_step (w : LeaseWorld) (e : LeaseEvent) {j : ℕ} (hmem : j ∈ w.stored) :
    j ∈ (w.step config domain e).stored := by
  apply step_server fun s => j ∈ s.stored
  · intro i line _
    show j ∈ if _ then i :: w.stored else w.stored
    split
    · exact List.mem_cons_of_mem i hmem
    · exact hmem
  · exact fun _ => hmem
  · exact fun _ _ _ => hmem
  · exact hmem

theorem last_step (h : ∀ p, w.lease = some p → w.last = some p) (e : LeaseEvent) :
    ∀ p, (w.step config domain e).lease = some p → (w.step config domain e).last = some p := by
  apply step_server fun s => ∀ p, s.lease = some p → s.last = some p
  · exact fun i line _ p hp => last_command h _ i line hp
  · exact fun _ => h
  · exact fun _ _ _ => h
  · exact h

theorem outstanding_step (h : PromptInv config domain w) (hprompt : w.StoresFor LeaseWorld.OnTime domain e) {j : ℕ}
    {t : Time} (hold : w.lease = some (j, t) ∨ leaseTtl < w.now - t) :
    j ∉ (w.step config domain e).stored →
      (w.step config domain e).lease = some (j, t) ∨ leaseTtl < (w.step config domain e).now - t := by
  apply step_server fun s => j ∉ s.stored → s.lease = some (j, t) ∨ leaseTtl < s.now - t
  · intro i line hruns hstored
    apply outstanding_command h _ hold hstored
    intro hsets
    obtain ⟨c, t', -, -, hlease⟩ := lease_of_prompt h hprompt hruns hsets
    exact ⟨t', hlease⟩
  · intro delay _
    have hlater : w.now - t ≤ w.now + (delay : Time) - t :=
      Int.sub_le_sub_right (Int.le_add_of_nonneg_right (Int.natCast_nonneg delay)) t
    exact hold.imp_right fun hexpired => lt_of_lt_of_le hexpired hlater
  · exact fun _ _ _ _ => hold
  · exact fun _ => hold

/-- **The step lemma for prompt calls.** -/
theorem promptInv_step (h : PromptInv config domain w) (hprompt : w.StoresFor LeaseWorld.OnTime domain e) :
    PromptInv config domain (w.step config domain e) := by
  refine ⟨tracked_step h.tracked e, last_step h.last e, fun j t c' hstored hc' hgrant => ?_⟩
  have hbefore : j ∉ w.stored := fun hmem => hstored (stored_step w e hmem)
  rcases step_call hc' with hold | ⟨-, rfl⟩ | ⟨c, hc, hmove⟩
  · exact outstanding_step h hprompt (h.outstanding j t c' hbefore hold hgrant) hstored
  · rcases hgrant with hgranted | ⟨answer, later, hanswers, -⟩
    · exact absurd hgranted (by simp [LeaseCall.fresh])
    · exact absurd hanswers (by simp [LeaseCall.fresh])
  · rcases wasGranted_moves hc hmove hgrant with hold | hnow
    · exact outstanding_step h hprompt (h.outstanding j t c hbefore hc hold) hstored
    · exact Or.inl hnow

/-- Prompt calls are current. -/
theorem current_of_prompt (h : PromptInv config domain w) (hprompt : w.StoresFor LeaseWorld.OnTime domain e) :
    w.StoresFor LeaseWorld.Holds domain e := by
  intro i line hruns hsets
  obtain ⟨c, t, hc, hgranted, hlease⟩ := lease_of_prompt h hprompt hruns hsets
  exact ⟨c, t, hc, hgranted, h.last _ hlease⟩

/-- **A stale fetch does not overwrite a newer value**, on any run of any number of calls for one name,
as long as L2 stores a value of it only for the call that was granted its lease last and has read of it.
That is so as long as it stores a value only for calls whose lease is not too old, and one for each. -/
theorem never_stale (config : ZoneConfig) (domain : Str) (capacity : ℕ) (es : List LeaseEvent) :
    (Along (LeaseWorld.StoresFor LeaseWorld.Holds domain) (LeaseWorld.step config domain)
        (.start capacity) es →
      Along (LeaseWorld.NeverStale config domain) (LeaseWorld.step config domain)
        (.start capacity) es) ∧
    (Along (LeaseWorld.StoresFor LeaseWorld.OnTime domain) (LeaseWorld.step config domain)
        (.start capacity) es →
      Along (LeaseWorld.StoresFor LeaseWorld.Holds domain) (LeaseWorld.step config domain)
        (.start capacity) es) := by
  constructor
  · intro hcurrent
    exact hcurrent.imp (staleInv_start config domain capacity)
      (fun _ _ h hok => staleInv_step h hok) fun _ _ h hok => (step_current h hok).1
  · intro hprompt
    exact hprompt.imp (promptInv_start config domain capacity)
      (fun _ _ h hok => promptInv_step h hok) fun _ _ h hok => current_of_prompt h hok

end Times

/-- A call that finds nothing in L1, is granted the lease of the name, and fetches a value. -/
def fetchNow (i : ℕ) (value : Str) : List LeaseEvent :=
  [.resolve, .reply i none, .serve i, .read i, .tick 1000000000, .reply i (some value)]

/-- A call fetches a value and stores it in time; a second one is answered from the cache. -/
theorem never_stale_two :
    Along (@LeaseWorld.NeverStale Unicode.ascii home "a.com".toList)
      (@LeaseWorld.step Unicode.ascii home "a.com".toList) (.start 1)
      (fetchNow 0 "1.1.1.1\n".toList ++ [.serve 0, .read 0, .resolve, .reply 1 none, .serve 1]) :=
  (@never_stale Unicode.ascii home "a.com".toList 1 _).1
    ((@never_stale Unicode.ascii home "a.com".toList 1 _).2 (by decide +kernel))

/-- A call is granted the lease and fetches a value. Six seconds later the lease is granted again, and a
second call fetches a newer value and stores it. -/
def overtaken : List LeaseEvent :=
  fetchNow 0 "1.1.1.1\n".toList ++ .tick 5000000000 :: fetchNow 1 "2.2.2.2\n".toList ++ [.serve 1]

/-- The `send` of a call to L2 fails, and it fetches a value without a lease. A second call is granted the
lease, and fetches a newer value and stores it. -/
def unleased : List LeaseEvent :=
  [.resolve, .reply 0 none, .fail 0, .tick 1000000000, .reply 0 (some "1.1.1.1\n".toList)] ++
    fetchNow 1 "2.2.2.2\n".toList ++ [.serve 1]

/-- **A late `SET` replaces the newer value**: the value fetched after one second takes the place of the
one fetched after seven, and of the one fetched after two by the holder of the lease. -/
theorem not_never_stale_late :
    (¬ Along (@LeaseWorld.NeverStale Unicode.ascii home "a.com".toList)
        (@LeaseWorld.step Unicode.ascii home "a.com".toList) (.start 1) (overtaken ++ [.serve 0]) ∧
      (run (@LeaseWorld.step Unicode.ascii home "a.com".toList) (.start 1)
        (overtaken ++ [.serve 0])).l2.cache.get? "a.com".toList = some "1.1.1.1".toList) ∧
    ¬ Along (@LeaseWorld.NeverStale Unicode.ascii home "a.com".toList)
      (@LeaseWorld.step Unicode.ascii home "a.com".toList) (.start 1) (unleased ++ [.serve 0]) := by
  refine ⟨⟨fun hnever => ?_, by decide +kernel⟩, fun hnever => ?_⟩
  · have hlast := ((along_concat _).mp hnever).2
    have hle : 7 * second ≤ 1 * second := hlast _ _ (by decide +kernel) (by decide +kernel)
    exact absurd hle (by decide)
  · have hlast := ((along_concat _).mp hnever).2
    have hle : 2 * second ≤ 1 * second := hlast _ _ (by decide +kernel) (by decide +kernel)
    exact absurd hle (by decide)

end DsDns
