/-
  When only the holder of a lease turns to the data plane.

  Two things meet here. The server: while a lease lasts, every other `GET` of the name is told to wait
  (`waiting_command`, from the leases of `Caches/Equiv/Leases`). The client: a call turns to the data
  plane when it is interrupted, when its `send` fails, when it reads something else than a hit or a text
  that tells it to wait, and when it has been told to wait once more than it has polls
  (`turns_iff`, from the stages). `leaseMaxRetries` polls are over long before a lease is, so the two do
  not fit together by themselves; `exclusive_iff_patient` says when they do.
-/
import DsDns.Caches.Equiv.Leases
import DsDns.ControlPlane.Equiv.CacheClient
import DsDns.ControlPlane.Equiv.Stage
import DsDns.ControlPlane.Leasing

namespace DsDns

open Interaction

/-! ### Lines -/

section Lines

variable [Unicode]

theorem grants_iff {key : Str} {now : Time} {s : L2Cache} {line : Str} :
    grants key now s line = true ↔ L2.Granted key s (now, line) now := by
  unfold grants L2.Granted
  cases parseCommand line with
  | get k =>
    simp only [Bool.and_eq_true, decide_eq_true_eq, Option.isNone_iff_eq_none, Command.get.injEq,
      and_true, and_assoc]
  | set k v => simp
  | error => simp

theorem sets_iff {key : Str} {s : L2Cache} {now : Time} {line : Str} :
    sets key line = true ↔ L2.Sets key s (now, line) := by
  unfold sets L2.Sets
  cases parseCommand line with
  | get k => simp
  | set k v => simp
  | error => simp

omit [Unicode] in
/-- What follows the first line of a name starts with a line break. -/
theorem dropWhile_line (domain : Str) :
    ∃ rest, domain.dropWhile (· ≠ '\n') ++ ['\n'] = '\n' :: rest := by
  induction domain with
  | nil => exact ⟨[], rfl⟩
  | cons c domain ih =>
    by_cases hc : c = '\n'
    · rw [List.dropWhile_cons_of_neg (by simp [hc])]
      exact ⟨domain ++ ['\n'], by rw [hc, List.cons_append]⟩
    · rw [List.dropWhile_cons_of_pos (by simp [hc])]
      exact ih

omit [Unicode] in
/-- The first line of a `GET` message is a `GET` of the first line of the name. -/
theorem splitLines_getMessage (domain : Str) : ∃ lines, splitLines (getMessage domain ++ ['\n']) =
    (getMessage (domain.takeWhile (· ≠ '\n')) ++ ['\n']) :: lines := by
  obtain ⟨rest, hrest⟩ := dropWhile_line domain
  have hfirst : '\n' ∉ getMessage (domain.takeWhile (· ≠ '\n')) := by
    intro hmem
    rcases List.mem_append.mp hmem with hget | hname
    · exact absurd hget (by decide)
    · exact absurd (List.mem_takeWhile_imp hname) (by simp)
  have hmessage : getMessage domain ++ ['\n'] =
      getMessage (domain.takeWhile (· ≠ '\n')) ++ '\n' :: rest := by
    rw [← hrest, getMessage, getMessage, List.append_assoc, List.append_assoc, ← List.append_assoc
      (domain.takeWhile _), List.takeWhile_append_dropWhile]
  refine ⟨splitLines rest, ?_⟩
  rw [hmessage, splitLines_append_newline, splitLines_line hfirst, List.singleton_append]

/-- So the first line that L2 runs for a call that looks the name up is a `GET` of its key. -/
theorem parseCommand_first {domain line : Str} {lines : List Str}
    (h : received (getMessage domain ++ ['\n']) = line :: lines) :
    parseCommand (rstrip line) = .get (cacheKey domain) := by
  obtain ⟨later, hsplit⟩ := splitLines_getMessage domain
  have hfirst : received (getMessage domain ++ ['\n']) <+: splitLines (getMessage domain ++ ['\n']) :=
    List.takeWhile_prefix _
  rw [h, hsplit, List.cons_prefix_cons] at hfirst
  rw [hfirst.1, rstrip_append_newline, parseCommand_getMessage]
  rfl

omit [Unicode] in
/-- A call reads the first line of the first answer. -/
theorem readLine_written {answer : LeaseAnswer} {later : List LeaseAnswer}
    (h : ∀ c ∈ answer.text, c ≠ '\n' ∧ c ≠ '\r') :
    readLine (written (answer :: later)) = some answer.text := by
  have hkeep : ∀ c ∈ answer.text, decide (c ≠ '\n' ∧ c ≠ '\r') = true :=
    fun c hc => decide_eq_true (h c hc)
  have htext : written (answer :: later) = answer.text ++ '\n' :: written later := by
    simp [written]
  unfold readLine
  rw [htext, if_neg (by simp), List.takeWhile_append_of_pos hkeep, List.takeWhile_cons_of_neg (by simp),
    List.append_nil]

end Lines

/-! ### The server -/

section Server

variable [Unicode] {key line : Str} {w : LeaseWorld} {i : ℕ}

/-- The lease that an observer sees is the one in `lease_map`. -/
def LeaseServer.Tracked (key : Str) (s : LeaseServer) : Prop :=
  s.l2.Apart ∧ s.lease.map Prod.snd = s.l2.leaseMap key

theorem not_granted {s : L2Cache} {now : Time} (hgrants : ¬ grants key now s line = true) (t : Time) :
    ¬ L2.Granted key s (now, line) t := by
  rintro ⟨hget, hmiss, hanswer, -⟩
  exact hgrants (grants_iff.mpr ⟨hget, hmiss, hanswer, rfl⟩)

/-- Every line keeps the observer right. -/
theorem tracked_command (h : w.Tracked key) (i : ℕ) (line : Str) : (w.command key i line).toLeaseServer.Tracked key := by
  obtain ⟨hapart, hlease⟩ := h
  refine ⟨apart_step hapart _, ?_⟩
  show (if grants key w.now w.l2 line = true then _ else _ : Option (ℕ × Time)).map Prod.snd =
    (L2.step w.l2 (w.now, line)).leaseMap key
  by_cases hgrants : grants key w.now w.l2 line = true
  · rw [if_pos hgrants, (lease_registers key).marks _ _ _ hapart (grants_iff.mp hgrants)]
    rfl
  · rw [if_neg hgrants]
    by_cases hsets : sets key line = true
    · rw [if_pos hsets, (lease_registers key).clears _ _ hapart (sets_iff.mp hsets)]
      · rfl
      · exact not_granted hgrants
    · rw [if_neg hsets, hlease]
      exact ((lease_registers key).leaves _ _ hapart ⟨fun h => hsets (sets_iff.mpr h), not_granted hgrants⟩).symm

/-- A line about another key. -/
theorem tracked_other (h : w.Tracked key) (hgets : gets key line = false) (hsets : sets key line = false) :
    ({ w.toLeaseServer with l2 := L2.step w.l2 (w.now, line) } : LeaseServer).Tracked key := by
  obtain ⟨hapart, hlease⟩ := h
  refine ⟨apart_step hapart _, ?_⟩
  show w.lease.map Prod.snd = (L2.step w.l2 (w.now, line)).leaseMap key
  -- A line that neither gets nor sets the key is no mark in its history.
  have hleave : Leaves (L2.Granted key) (L2.Sets key) w.l2 (w.now, line) := by
    refine ⟨fun h => ?_, fun t ht => ?_⟩
    · rw [← sets_iff, hsets] at h
      exact absurd h (by simp)
    · have hget : gets key line = true := by
        unfold gets
        rw [ht.1]
        exact decide_eq_true rfl
      rw [hgets] at hget
      exact absurd hget (by simp)
  rw [(lease_registers key).leaves _ _ hapart hleave, hlease]

/-- **Whoever finds the lease with another call is told to wait.** -/
theorem waiting_command (h : w.Tracked key) (hget : parseCommand line = .get key) {j : ℕ} {t : Time}
    (hlease : (w.command key i line).lease = some (j, t)) (hother : j ≠ i) :
    L2.answer w.l2 (w.now, line) = "LEASE;WAITING".toList := by
  have hleased : (L2.step w.l2 (w.now, line)).leaseMap key = some t := by
    have hafter := (tracked_command h i line).2
    rw [hlease] at hafter
    exact hafter.symm
  -- If this very line were granted the lease, it would be with this call.
  have hgrants : ¬ grants key w.now w.l2 line = true := by
    intro hgrants
    have hmine : (w.command key i line).lease = some (i, w.now) := if_pos hgrants
    rw [hmine] at hlease
    exact hother (Prod.mk.inj (Option.some.inj hlease)).1.symm
  cases hcached : w.l2.cache.get? key with
  | some v =>
    -- After a hit the key has no lease.
    have hnone : (L2.step w.l2 (w.now, line)).leaseMap key = none := by
      unfold L2.step
      rw [processCommand_get (e := (w.now, line)) hget]
      exact leaseMap_lookup_hit _ _ hcached
    rw [hnone] at hleased
    exact absurd hleased (by simp)
  | none =>
    by_cases hfree : ∀ u, w.l2.leaseMap key = some u → leaseTtl < w.now - u
    · have hanswer := (granted_iff (e := (w.now, line)) hget hcached).mpr hfree
      exact absurd (grants_iff.mpr ⟨hget, hcached, hanswer, rfl⟩) hgrants
    · apply (waiting_iff (e := (w.now, line)) hget hcached).mpr
      push Not at hfree
      exact hfree

end Server

/-! ### The calls -/

/-- What an event does to the call number `i`. -/
inductive LeaseCall.Moves [Unicode] (key : Str) (w : LeaseWorld) (i : ℕ) :
    LeaseEvent → LeaseCall → LeaseCall → Prop where
  | serve {c line lines} (hunread : c.unread = line :: lines) :
      Moves key w i (.serve i) c (c.served ⟨L2.answer w.l2 (w.now, rstrip line),
        (w.command key i (rstrip line)).lease⟩)
  | read {c ip message next answer later} (hclient : c.client = .ask (.send .l2 ip message) next)
      (hanswers : c.answers = answer :: later) :
      Moves key w i (.read i) c (c.reads i answer (next (some (written c.answers))))
  | fail {c ip message next} (hclient : c.client = .ask (.send .l2 ip message) next) :
      Moves key w i (.fail i) c (c.goesOn (next none))
  | l1 {c ip message next} (arrived : Option Str)
      (hclient : c.client = .ask (.send .l1 ip message) next) :
      Moves key w i (.reply i arrived) c (c.goesOn (next arrived))
  | dataPlane {c ip message next} (arrived : Option Str)
      (hclient : c.client = .ask (.send .dataPlane ip message) next) :
      Moves key w i (.reply i arrived) c { c.goesOn (next arrived) with fetched := some w.now }
  | wake {c next} (interrupted : Bool) (hclient : c.client = .ask .sleep next) :
      Moves key w i (.wake i interrupted) c (c.goesOn (next interrupted))

section Calls

variable [Unicode] {config : ZoneConfig} {domain : Str} {w : LeaseWorld} {i : ℕ} {c c' : LeaseCall}
  {e : LeaseEvent}

omit [Unicode] in
/-- A list in which one call was replaced. -/
theorem eq_of_set {calls : List LeaseCall} {j : ℕ} {x : LeaseCall}
    (h : (calls.set j x)[i]? = some c) : i = j ∧ c = x ∨ calls[i]? = some c := by
  rw [List.getElem?_set] at h
  split at h
  · rename_i hij
    split at h
    · exact Or.inl ⟨hij.symm, (Option.some.inj h).symm⟩
    · exact absurd h (by simp)
  · exact Or.inr h

omit [Unicode] in
theorem set_self {calls : List LeaseCall} (hold : calls[i]? = some c) :
    (calls.set i c')[i]? = some c' := by
  obtain ⟨hlt, -⟩ := List.getElem?_eq_some_iff.mp hold
  exact List.getElem?_set_self hlt

/-- The event moves the call number `j`, and leaves the others alone. -/
theorem call_of_set {j : ℕ} {x : LeaseCall} (hc : w.calls[j]? = some c)
    (hmove : LeaseCall.Moves (cacheKey domain) w j e c x) (h : (w.calls.set j x)[i]? = some c') :
    w.calls[i]? = some c' ∨ (w.calls[i]? = none ∧ c' = .fresh config domain) ∨
      ∃ c, w.calls[i]? = some c ∧ LeaseCall.Moves (cacheKey domain) w i e c c' := by
  rcases eq_of_set h with ⟨rfl, rfl⟩ | hold
  · exact Or.inr (Or.inr ⟨c, hc, hmove⟩)
  · exact Or.inl hold

/-- **What a step does to a call**: nothing, unless the call is new or the event is one of its own. -/
theorem step_call (h : (w.step config domain e).calls[i]? = some c') :
    w.calls[i]? = some c' ∨ (w.calls[i]? = none ∧ c' = .fresh config domain) ∨
      ∃ c, w.calls[i]? = some c ∧ LeaseCall.Moves (cacheKey domain) w i e c c' := by
  cases e with
  | tick delay => exact Or.inl h
  | resolve =>
    rw [LeaseWorld.step, List.getElem?_append] at h
    split at h
    · exact Or.inl h
    · rename_i hnew
      -- Beyond the old calls there is only the new one.
      have hfresh : c' = .fresh config domain := List.mem_singleton.mp (List.mem_of_getElem? h)
      exact Or.inr (Or.inl ⟨List.getElem?_eq_none_iff.mpr (Nat.not_lt.mp hnew), hfresh⟩)
  | serve j =>
    rw [LeaseWorld.step, LeaseWorld.serve] at h
    split at h
    · exact Or.inl h
    · rename_i c hc
      split at h
      · exact Or.inl h
      · rename_i line lines hunread
        exact call_of_set hc (.serve hunread) h
  | read j =>
    rw [LeaseWorld.step, LeaseWorld.read] at h
    split at h
    · exact Or.inl h
    · rename_i c hc
      split at h
      · rename_i ip message next answer later hclient hanswers
        exact call_of_set hc (.read hclient hanswers) h
      · exact Or.inl h
  | fail j =>
    rw [LeaseWorld.step, LeaseWorld.fail] at h
    split at h
    · exact Or.inl h
    · rename_i c hc
      split at h
      · rename_i ip message next hclient
        exact call_of_set hc (.fail hclient) h
      · exact Or.inl h
  | reply j arrived =>
    rw [LeaseWorld.step, LeaseWorld.reply] at h
    split at h
    · exact Or.inl h
    · rename_i c hc
      split at h
      · rename_i ip message next hclient
        exact call_of_set hc (.l1 arrived hclient) h
      · rename_i ip message next hclient
        exact call_of_set hc (.dataPlane arrived hclient) h
      · exact Or.inl h
  | wake j interrupted =>
    rw [LeaseWorld.step, LeaseWorld.wake] at h
    split at h
    · exact Or.inl h
    · rename_i c hc
      split at h
      · rename_i next hclient
        exact call_of_set hc (.wake interrupted hclient) h
      · exact Or.inl h
  | drain k =>
    rw [LeaseWorld.step, LeaseWorld.drain] at h
    split at h <;> exact Or.inl h
  | other line =>
    rw [LeaseWorld.step] at h
    split at h <;> exact Or.inl h

/-- The other way round: the events of a call move it. -/
theorem call_of_moves (hc : w.calls[i]? = some c)
    (h : LeaseCall.Moves (cacheKey domain) w i e c c') :
    (w.step config domain e).calls[i]? = some c' := by
  cases h with
  | serve hunread =>
    rw [LeaseWorld.step, LeaseWorld.serve, hc]
    simp only [hunread]
    exact set_self hc
  | read hclient hanswers =>
    rw [LeaseWorld.step, LeaseWorld.read, hc]
    simp only [hclient, hanswers]
    exact set_self hc
  | fail hclient =>
    rw [LeaseWorld.step, LeaseWorld.fail, hc]
    simp only [hclient]
    exact set_self hc
  | l1 arrived hclient =>
    rw [LeaseWorld.step, LeaseWorld.reply, hc]
    simp only [hclient]
    exact set_self hc
  | dataPlane arrived hclient =>
    rw [LeaseWorld.step, LeaseWorld.reply, hc]
    simp only [hclient]
    exact set_self hc
  | wake interrupted hclient =>
    rw [LeaseWorld.step, LeaseWorld.wake, hc]
    simp only [hclient]
    exact set_self hc

/-! ### The stages of the calls -/

/-- What a stage says about its call. -/
structure LeaseCall.Fits (config : ZoneConfig) (domain : Str) (i : ℕ) (stage : Stage)
    (c : LeaseCall) : Prop where
  follows : Follows (followStages config domain) stage c.client
  waits : ∀ n, stage.waits = some n → c.waits = n
  /-- Where the first answer found the lease with another call, it told the call to wait. -/
  first : ∀ n answer later, stage = .looking n → c.answers = answer :: later →
    ∀ j t, answer.lease = some (j, t) → j ≠ i → answer.text = "LEASE;WAITING".toList
  unfetched : stage.unfetched = true → c.fetched = none

/-- What every event keeps. -/
structure LeaseInv (config : ZoneConfig) (domain : Str) (w : LeaseWorld) : Prop where
  tracked : w.Tracked (cacheKey domain)
  calls : ∀ i (c : LeaseCall), w.calls[i]? = some c → ∃ stage, c.Fits config domain i stage

omit [Unicode] in
theorem fits_fresh (config : ZoneConfig) (domain : Str) (i : ℕ) :
    (LeaseCall.fresh config domain).Fits config domain i .started := by
  refine ⟨resolve_follows config domain, fun n hn => Option.some.inj hn, ?_, fun _ => rfl⟩
  rintro n answer later h
  exact absurd h (by simp)

omit [Unicode] in
/-- What a call asks in its stage. -/
theorem asks_of_fits {stage : Stage} {q : Request} {next : q.Reply → Client Str}
    (h : c.Fits config domain i stage) (hclient : c.client = .ask q next) :
    stage.Asks config domain q := by
  have hfollows := h.follows
  rw [hclient] at hfollows
  exact hfollows.1

omit [Unicode] in
/-- A call goes on with a reply. -/
theorem fits_next {stage : Stage} {q : Request} {next : q.Reply → Client Str}
    (h : c.Fits config domain i stage) (hclient : c.client = .ask q next) (r : q.Reply)
    (hgoesOn : c'.client = next r ∧ c'.answers = [])
    (hwaits : ∀ n, (stage.next q r).waits = some n → c'.waits = n)
    (hunfetched : (stage.next q r).unfetched = true → c'.fetched = none) :
    c'.Fits config domain i (stage.next q r) := by
  have hfollows := h.follows
  rw [hclient] at hfollows
  refine ⟨?_, hwaits, ?_, hunfetched⟩
  · rw [hgoesOn.1]
    exact hfollows.2 r
  · intro n answer later _ hanswers
    rw [hgoesOn.2] at hanswers
    exact absurd hanswers (by simp)

/-- A call whose lines L2 runs. -/
theorem fits_served {stage : Stage} {line : Str} {lines : List Str} (hw : w.Tracked (cacheKey domain))
    (h : c.Fits config domain i stage) (hunread : c.unread = line :: lines) :
    (c.served ⟨L2.answer w.l2 (w.now, rstrip line),
      (w.command (cacheKey domain) i (rstrip line)).lease⟩).Fits config domain i stage := by
  refine ⟨h.follows, h.waits, ?_, h.unfetched⟩
  intro n answer later hstage hanswers j t hlease hother
  cases hold : c.answers with
  | nil =>
    -- The first line of the message is the `GET`.
    have hfirst : parseCommand (rstrip line) = .get (cacheKey domain) := by
      unfold LeaseCall.unread at hunread
      split at hunread
      · rename_i ip message next hclient
        split at hunread
        · exact absurd hunread (by simp)
        · rw [hold, List.length_nil, List.drop_zero] at hunread
          rcases stage_of_l2 (asks_of_fits h hclient) with ⟨_, -, rfl⟩ | ⟨hstoring, -⟩
          · exact parseCommand_first hunread
          · rw [hstage] at hstoring
            exact absurd hstoring (by simp)
      · exact absurd hunread (by simp)
    rw [LeaseCall.served, hold, List.nil_append] at hanswers
    obtain ⟨rfl, -⟩ := List.cons.inj hanswers
    exact waiting_command hw hfirst hlease hother
  | cons a as =>
    rw [LeaseCall.served, hold, List.cons_append] at hanswers
    obtain ⟨rfl, -⟩ := List.cons.inj hanswers
    exact h.first n a as hstage hold j t hlease hother

/-- **The step lemma for one call**, by cases on what moves it. -/
theorem fits_moves {stage : Stage} (hw : w.Tracked (cacheKey domain)) (h : c.Fits config domain i stage)
    (hmove : LeaseCall.Moves (cacheKey domain) w i e c c') : ∃ stage', c'.Fits config domain i stage' := by
  cases hmove with
  | serve hunread => exact ⟨stage, fits_served hw h hunread⟩
  | read hclient hanswers =>
    refine ⟨_, fits_next h hclient (some (written c.answers)) ⟨rfl, rfl⟩ ?_
      fun hu => h.unfetched (unfetched_next hu)⟩
    intro n hn
    rcases stage_of_l2 (asks_of_fits h hclient) with ⟨waits, rfl, -⟩ | ⟨rfl, -⟩
    · -- The call and its stage count the same answers.
      obtain ⟨htells, rfl⟩ := waits_afterLookup hn
      have hwaits := h.waits waits rfl
      show (if c.line.any (tellsToWait c.waits) = true then _ else _) = _
      rw [hwaits]
      exact if_pos htells
    · exact absurd hn (by simp [Stage.next, Stage.waits])
  | fail hclient =>
    refine ⟨_, fits_next h hclient none ⟨rfl, rfl⟩ ?_ fun hu => h.unfetched (unfetched_next hu)⟩
    intro n hn
    rcases stage_of_l2 (asks_of_fits h hclient) with ⟨waits, rfl, -⟩ | ⟨rfl, -⟩
    · exact absurd hn (by simp [Stage.next, Stage.afterLookup, Stage.waits])
    · exact absurd hn (by simp [Stage.next, Stage.waits])
  | l1 arrived hclient =>
    refine ⟨_, fits_next h hclient arrived ⟨rfl, rfl⟩ (fun n hn => ?_)
      fun hu => h.unfetched (unfetched_next hu)⟩
    exact h.waits n (waits_next (by simp) (asks_of_fits h hclient) hn)
  | dataPlane arrived hclient =>
    have hasks := asks_of_fits h hclient
    obtain ⟨store, rfl⟩ := stage_of_dataPlane hasks
    refine ⟨_, fits_next h hclient arrived ⟨rfl, rfl⟩ (fun n hn => ?_) fun hu => ?_⟩
    · exact h.waits n (waits_next (by simp) hasks hn)
    · exact absurd ((afterFetch_over store _).2.1.symm.trans hu) (by simp)
  | wake interrupted hclient =>
    have hasks := asks_of_fits h hclient
    obtain ⟨waits, rfl⟩ := stage_of_sleep hasks
    refine ⟨_, fits_next h hclient interrupted ⟨rfl, rfl⟩ (fun n hn => ?_) fun _ => h.unfetched rfl⟩
    exact h.waits n (waits_next (by simp) hasks hn)

/-! ### Every step -/

omit [Unicode] in
/-- What a call does by itself, the server does not notice. -/
theorem server_client (w : LeaseWorld) (i : ℕ) : (w.read i).toLeaseServer = w.toLeaseServer ∧
    (w.fail i).toLeaseServer = w.toLeaseServer ∧ (∀ arrived, (w.reply i arrived).toLeaseServer = w.toLeaseServer) ∧
    ∀ interrupted, (w.wake i interrupted).toLeaseServer = w.toLeaseServer := by
  unfold LeaseWorld.read LeaseWorld.fail LeaseWorld.reply LeaseWorld.wake
  cases w.calls[i]? with
  | none => exact ⟨rfl, rfl, fun _ => rfl, fun _ => rfl⟩
  | some c =>
    refine ⟨?_, ?_, fun arrived => ?_, fun interrupted => ?_⟩
    · simp only
      split <;> rfl
    · simp only
      split <;> rfl
    · simp only
      split <;> rfl
    · simp only
      split <;> rfl

/-- **What a step does to the server**: it runs a line of a call, or one about another key, or time goes
on. A property that holds in these cases, and held before, holds after the step. -/
theorem step_server (P : LeaseServer → Prop) (w : LeaseWorld) (e : LeaseEvent)
    (hruns : ∀ i line, w.runs e = some (i, line) →
      P (w.command (cacheKey domain) i line).toLeaseServer)
    (htick : ∀ delay : ℕ, P { w.toLeaseServer with now := w.now + delay })
    (hother : ∀ line, gets (cacheKey domain) line = false → sets (cacheKey domain) line = false →
      P { w.toLeaseServer with l2 := L2.step w.l2 (w.now, line) })
    (hidle : P w.toLeaseServer) : P (w.step config domain e).toLeaseServer := by
  cases e with
  | serve j =>
    rw [LeaseWorld.step, LeaseWorld.serve]
    cases hcall : w.calls[j]? with
    | none => exact hidle
    | some c =>
      cases hunread : c.unread with
      | nil => simpa only [hunread] using hidle
      | cons line lines =>
        have hrun : w.runs (.serve j) = some (j, rstrip line) := by
          rw [LeaseWorld.runs, hcall, Option.bind_some, hunread]
          rfl
        simpa only [hunread] using hruns j (rstrip line) hrun
  | drain k =>
    rw [LeaseWorld.step, LeaseWorld.drain]
    rcases hstray : w.stray[k]? with _ | ⟨j, _ | ⟨line, lines⟩⟩
    · exact hidle
    · exact hidle
    · have hrun : w.runs (.drain k) = some (j, rstrip line) := by
        rw [LeaseWorld.runs, hstray]
        rfl
      exact hruns j (rstrip line) hrun
  | other line =>
    rw [LeaseWorld.step]
    split
    · exact hidle
    · rename_i habout
      rw [Bool.or_eq_true, not_or, Bool.not_eq_true, Bool.not_eq_true] at habout
      exact hother line habout.1 habout.2
  | tick delay => exact htick delay
  | resolve => exact hidle
  | read j =>
    rw [LeaseWorld.step, (server_client w j).1]
    exact hidle
  | fail j =>
    rw [LeaseWorld.step, (server_client w j).2.1]
    exact hidle
  | reply j arrived =>
    rw [LeaseWorld.step, (server_client w j).2.2.1 arrived]
    exact hidle
  | wake j interrupted =>
    rw [LeaseWorld.step, (server_client w j).2.2.2 interrupted]
    exact hidle

/-- Every step keeps the observer right. -/
theorem tracked_step (h : w.Tracked (cacheKey domain)) (e : LeaseEvent) :
    (w.step config domain e).Tracked (cacheKey domain) := by
  apply step_server (LeaseServer.Tracked (cacheKey domain))
  · exact fun j line _ => tracked_command h j line
  · exact fun _ => h
  · exact fun line hgets hsets => tracked_other h hgets hsets
  · exact h

omit [Unicode] in
theorem leaseInv_start (config : ZoneConfig) (domain : Str) (capacity : ℕ) :
    LeaseInv config domain (.start capacity) := by
  refine ⟨⟨apart_start capacity, rfl⟩, fun i c hc => ?_⟩
  exact absurd hc (by simp [LeaseWorld.start])

/-- **The step lemma.** -/
theorem leaseInv_step (h : LeaseInv config domain w) (e : LeaseEvent) :
    LeaseInv config domain (w.step config domain e) := by
  refine ⟨tracked_step h.tracked e, fun i c' hc' => ?_⟩
  rcases step_call hc' with hold | ⟨-, rfl⟩ | ⟨c, hc, hmove⟩
  · exact h.calls i c' hold
  · exact ⟨.started, fits_fresh config domain i⟩
  · obtain ⟨stage, hstage⟩ := h.calls i c hc
    exact fits_moves h.tracked hstage hmove

/-! ### Turning to the data plane -/

omit [Unicode] in
/-- A call asks the data plane exactly in the stage `fetching`. -/
theorem fetching_of_follows {stage : Stage}
    (h : Follows (followStages config domain) stage c.client) : c.fetching = stage.isFetching := by
  unfold LeaseCall.fetching
  cases hclient : c.client with
  | done v =>
    rw [hclient] at h
    obtain rfl : stage = .ended := h
    rfl
  | ask q next =>
    rw [hclient] at h
    cases q with
    | sleep =>
      obtain ⟨waits, rfl⟩ := stage_of_sleep h.1
      rfl
    | send tier ip message =>
      cases tier with
      | l1 => rcases stage_of_l1 h.1 with rfl | rfl <;> rfl
      | l2 => rcases stage_of_l2 h.1 with ⟨waits, rfl, -⟩ | ⟨rfl, -⟩ <;> rfl
      | dataPlane =>
        obtain ⟨store, rfl⟩ := stage_of_dataPlane h.1
        rfl

omit [Unicode] in
/-- The stage tells whether a call that goes on asks the data plane. -/
theorem fetching_next {stage : Stage} {q : Request} {next : q.Reply → Client Str}
    (h : c.Fits config domain i stage) (hclient : c.client = .ask q next) (r : q.Reply)
    (hgoesOn : c'.client = next r) : c'.fetching = (stage.next q r).isFetching := by
  have hfollows := h.follows
  rw [hclient] at hfollows
  have hnext : Follows (followStages config domain) (stage.next q r) c'.client := by
    rw [hgoesOn]
    exact hfollows.2 r
  exact fetching_of_follows hnext

omit [Unicode] in
theorem looking_iff {ip : Option Str} {message : Str} {next : Option Str → Client Str}
    (hclient : c.client = .ask (.send .l2 ip message) next) :
    c.looking domain = true ↔ message = getMessage domain := by
  unfold LeaseCall.looking
  rw [hclient]
  exact decide_eq_true_iff

omit [Unicode] in
theorem client_of_looking (h : c.looking domain = true) :
    ∃ ip next, c.client = .ask (.send .l2 ip (getMessage domain)) next := by
  unfold LeaseCall.looking at h
  split at h
  · rename_i ip message next hclient
    rw [decide_eq_true_eq] at h
    exact ⟨ip, next, h ▸ hclient⟩
  · exact absurd h (by simp)

omit [Unicode] in
theorem client_of_asleep (h : c.asleep = true) : ∃ next, c.client = .ask .sleep next := by
  unfold LeaseCall.asleep at h
  split at h
  · rename_i next hclient
    exact ⟨next, hclient⟩
  · exact absurd h (by simp)

omit [Unicode] in
theorem getMessage_ne_setMessage (v : Str) : getMessage domain ≠ setMessage domain v := by
  intro h
  have hhead := congrArg List.head? h
  exact absurd hhead (by simp [getMessage, setMessage])

omit [Unicode] in
/-- A call that looks into L2 is in the stage `looking`, after as many answers as it has counted. -/
theorem stage_of_looking {stage : Stage} (h : c.Fits config domain i stage)
    (hlooking : c.looking domain = true) : stage = .looking c.waits := by
  obtain ⟨ip, next, hclient⟩ := client_of_looking hlooking
  rcases stage_of_l2 (asks_of_fits h hclient) with ⟨waits, rfl, -⟩ | ⟨-, v, hset⟩
  · rw [h.waits waits rfl]
  · exact absurd hset (getMessage_ne_setMessage v)

/-- What makes the call number `i` turn to the data plane. -/
def LeaseCall.TurnsBy (domain : Str) (i : ℕ) (c : LeaseCall) : LeaseEvent → Prop
  | .wake j interrupted => j = i ∧ c.asleep = true ∧ interrupted = true
  | .fail j => j = i ∧ c.looking domain = true
  | .read j => j = i ∧ c.looking domain = true ∧ c.answers ≠ [] ∧ c.line.any isHit = false ∧
      (c.line.any (tellsToWait c.waits) = true → leaseMaxRetries ≤ c.waits)
  | _ => False

/-- A call that moves and asks the data plane afterwards was made to by one of these. -/
theorem turnsBy_of_moves {stage : Stage} (h : c.Fits config domain i stage)
    (hmove : LeaseCall.Moves (cacheKey domain) w i e c c') (hbefore : c.fetching = false)
    (hafter : c'.fetching = true) : c.TurnsBy domain i e := by
  cases hmove with
  | serve hunread => exact absurd (hafter.symm.trans hbefore) (by simp)
  | read hclient hanswers =>
    rw [fetching_next h hclient (some (written c.answers)) rfl] at hafter
    rcases stage_of_l2 (asks_of_fits h hclient) with ⟨waits, rfl, hget⟩ | ⟨rfl, -⟩
    · obtain ⟨hmiss, hturns⟩ := (isFetching_afterLookup waits _).mp hafter
      rw [← h.waits waits rfl] at hturns
      exact ⟨rfl, (looking_iff hclient).mpr hget, by simp [hanswers], hmiss, hturns⟩
    · exact absurd hafter (by simp [Stage.next, Stage.isFetching])
  | fail hclient =>
    rw [fetching_next h hclient none rfl] at hafter
    rcases stage_of_l2 (asks_of_fits h hclient) with ⟨waits, rfl, hget⟩ | ⟨rfl, -⟩
    · exact ⟨rfl, (looking_iff hclient).mpr hget⟩
    · exact absurd hafter (by simp [Stage.next, Stage.isFetching])
  | l1 arrived hclient =>
    rw [fetching_next h hclient arrived rfl,
      isFetching_next (by decide) (asks_of_fits h hclient)] at hafter
    exact absurd hafter (by simp)
  | dataPlane arrived hclient =>
    rw [fetching_next h hclient arrived rfl,
      isFetching_next (by decide) (asks_of_fits h hclient)] at hafter
    exact absurd hafter (by simp)
  | wake interrupted hclient =>
    rw [fetching_next h hclient interrupted rfl] at hafter
    obtain ⟨waits, rfl⟩ := stage_of_sleep (asks_of_fits h hclient)
    have hasleep : c.asleep = true := by
      unfold LeaseCall.asleep
      rw [hclient]
    cases interrupted with
    | true => exact ⟨rfl, hasleep, rfl⟩
    | false => exact absurd hafter (by simp [Stage.next, Stage.isFetching])

/-- Each of these moves the call, and then it asks the data plane. -/
theorem moves_of_turnsBy {stage : Stage} (h : c.Fits config domain i stage)
    (hturns : c.TurnsBy domain i e) : c.fetching = false ∧
      ∃ c', LeaseCall.Moves (cacheKey domain) w i e c c' ∧ c'.fetching = true := by
  cases e with
  | wake j interrupted =>
    obtain ⟨rfl, hasleep, rfl⟩ := hturns
    obtain ⟨next, hclient⟩ := client_of_asleep hasleep
    obtain ⟨waits, rfl⟩ := stage_of_sleep (asks_of_fits h hclient)
    refine ⟨fetching_of_follows h.follows, _, .wake true hclient, ?_⟩
    exact fetching_next h hclient true rfl
  | fail j =>
    obtain ⟨rfl, hlooking⟩ := hturns
    obtain ⟨ip, next, hclient⟩ := client_of_looking hlooking
    obtain rfl := stage_of_looking h hlooking
    refine ⟨fetching_of_follows h.follows, _, .fail hclient, ?_⟩
    exact fetching_next h hclient none rfl
  | read j =>
    obtain ⟨rfl, hlooking, hne, hmiss, hout⟩ := hturns
    obtain ⟨ip, next, hclient⟩ := client_of_looking hlooking
    obtain rfl := stage_of_looking h hlooking
    obtain ⟨answer, later, hanswers⟩ := List.exists_cons_of_ne_nil hne
    refine ⟨fetching_of_follows h.follows, _, .read hclient hanswers, ?_⟩
    rw [fetching_next h hclient (some (written c.answers)) rfl]
    exact (isFetching_afterLookup _ _).mpr ⟨hmiss, hout⟩
  | _ => exact absurd hturns (by simp [LeaseCall.TurnsBy])

omit [Unicode] in
theorem fetching_eq_true_iff : w.fetching i = true ↔ ∃ c, w.calls[i]? = some c ∧ c.fetching = true := by
  unfold LeaseWorld.fetching
  rw [Option.any_eq_true]

/-- **When a call turns to the data plane.** -/
theorem turns_iff (h : LeaseInv config domain w) (e : LeaseEvent) (i : ℕ) :
    w.Turns config domain e i ↔ ∃ c, w.calls[i]? = some c ∧ c.TurnsBy domain i e := by
  constructor
  · rintro ⟨hbefore, hafter⟩
    obtain ⟨c', hc', hfetching⟩ := fetching_eq_true_iff.mp hafter
    rcases step_call hc' with hold | ⟨-, rfl⟩ | ⟨c, hc, hmove⟩
    · rw [fetching_eq_true_iff.mpr ⟨c', hold, hfetching⟩] at hbefore
      exact absurd hbefore (by simp)
    · rw [fetching_of_follows (fits_fresh config domain i).follows] at hfetching
      exact absurd hfetching (by decide)
    · obtain ⟨stage, hstage⟩ := h.calls i c hc
      -- The call did not ask the data plane before, so the move has made it.
      have hnot : c.fetching = false := by
        rw [← Bool.not_eq_true]
        intro hc'
        rw [fetching_eq_true_iff.mpr ⟨c, hc, hc'⟩] at hbefore
        exact absurd hbefore (by simp)
      exact ⟨c, hc, turnsBy_of_moves hstage hmove hnot hfetching⟩
  · rintro ⟨c, hc, hturns⟩
    obtain ⟨stage, hstage⟩ := h.calls i c hc
    obtain ⟨hnot, c', hmove, hfetching⟩ := moves_of_turnsBy hstage hturns
    constructor
    · unfold LeaseWorld.fetching
      rw [hc]
      exact hnot
    · exact fetching_eq_true_iff.mpr ⟨c', call_of_moves hc hmove, hfetching⟩

omit [Unicode] in
theorem tellsToWait_waiting (waits : ℕ) : tellsToWait waits "LEASE;WAITING".toList = true := by
  unfold tellsToWait
  by_cases hfirst : waits = 0
  · rw [if_pos hfirst]
    rfl
  · rw [if_neg hfirst]
    rfl

omit [Unicode] in
/-- An answer under the lease of another call tells the call to wait. -/
theorem tells_of_lease {stage : Stage} {answer : LeaseAnswer} {later : List LeaseAnswer}
    (h : c.Fits config domain i stage) (hlooking : c.looking domain = true)
    (hanswers : c.answers = answer :: later) {j : ℕ} {t : Time} (hlease : answer.lease = some (j, t))
    (hother : j ≠ i) : c.line.any (tellsToWait c.waits) = true := by
  have htext := h.first c.waits answer later (stage_of_looking h hlooking) hanswers j t hlease hother
  have hline : c.line = some "LEASE;WAITING".toList := by
    unfold LeaseCall.line
    rw [hanswers, ← htext]
    apply readLine_written
    rw [htext]
    simp
  rw [hline]
  exact tellsToWait_waiting c.waits

/-- **A step is exclusive exactly if it is patient.** -/
theorem exclusive_iff (h : LeaseInv config domain w) (e : LeaseEvent) :
    w.Exclusive config domain e ↔ w.Patient domain e := by
  cases e with
  | wake j interrupted =>
    constructor
    · intro hex c hc hasleep hleased
      rw [← Bool.not_eq_true]
      intro hinterrupted
      exact hex j ((turns_iff h _ j).mpr ⟨c, hc, rfl, hasleep, hinterrupted⟩) hleased
    · intro hpatient i hturns hleased
      obtain ⟨c, hc, rfl, hasleep, hinterrupted⟩ := (turns_iff h _ i).mp hturns
      have hslept := hpatient c hc hasleep hleased
      rw [hinterrupted] at hslept
      exact absurd hslept (by simp)
  | fail j =>
    constructor
    · intro hex c hc hlooking
      exact hex j ((turns_iff h _ j).mpr ⟨c, hc, rfl, hlooking⟩)
    · intro hpatient i hturns
      obtain ⟨c, hc, rfl, hlooking⟩ := (turns_iff h _ i).mp hturns
      exact hpatient c hc hlooking
  | read j =>
    constructor
    · intro hex c answer later hc hlooking hanswers hleased
      by_contra hnot
      rw [not_or, Bool.not_eq_true] at hnot
      -- No hit, and no poll left or no text that tells it to wait: it turns.
      have hturns : c.TurnsBy domain j (.read j) := by
        refine ⟨rfl, hlooking, by simp [hanswers], hnot.1, fun htells => ?_⟩
        by_contra hlt
        exact hnot.2 ⟨Nat.not_le.mp hlt, Or.inr htells⟩
      exact hex j ((turns_iff h _ j).mpr ⟨c, hc, hturns⟩) hleased
    · intro hpatient i hturns hleased
      obtain ⟨c, hc, rfl, hlooking, hne, hmiss, hout⟩ := (turns_iff h _ i).mp hturns
      obtain ⟨answer, later, hanswers⟩ := List.exists_cons_of_ne_nil hne
      rcases hpatient c answer later hc hlooking hanswers hleased with hhit | ⟨hlt, hfound⟩
      · rw [hmiss] at hhit
        exact absurd hhit (by simp)
      · -- An answer given under the lease tells the call to wait, so its polls must be over.
        have htells : c.line.any (tellsToWait c.waits) = true := by
          rcases hfound with hsame | htells
          · obtain ⟨k, t, hlease, hother, -⟩ := hleased
            obtain ⟨stage, hstage⟩ := h.calls _ c hc
            exact tells_of_lease hstage hlooking hanswers (hsame.trans hlease) hother
          · exact htells
        have hle := hout htells
        omega
  | _ =>
    refine iff_of_true (fun i hturns => ?_) trivial
    obtain ⟨c, -, hturns⟩ := (turns_iff h _ i).mp hturns
    exact absurd hturns (by simp [LeaseCall.TurnsBy])

/-- **When a lease keeps the herd away.** On any run of any number of calls for one name, with any
delays, any answers and any other traffic: no call ever turns to the data plane while another one holds
the lease of the name, if and only if every step of the run is patient. -/
theorem exclusive_iff_patient (config : ZoneConfig) (domain : Str) (capacity : ℕ)
    (es : List LeaseEvent) :
    Along (LeaseWorld.Exclusive config domain) (LeaseWorld.step config domain) (.start capacity) es ↔
      Along (LeaseWorld.Patient domain) (LeaseWorld.step config domain) (.start capacity) es :=
  along_iff_along (leaseInv_start config domain capacity) (fun _ e h _ => leaseInv_step h e)
    fun _ e h => exclusive_iff h e

omit [Unicode] in
theorem leasedToOther_iff {w : LeaseWorld} {i : ℕ} : w.LeasedToOther i ↔
    w.lease.any (fun p => p.1 ≠ i ∧ w.now - p.2 ≤ leaseTtl) = true := by
  unfold LeaseWorld.LeasedToOther
  rw [Option.any_eq_true]
  constructor
  · rintro ⟨j, t, hlease, hleased⟩
    exact ⟨(j, t), hlease, decide_eq_true hleased⟩
  · rintro ⟨⟨j, t⟩, hlease, hleased⟩
    exact ⟨j, t, hlease, of_decide_eq_true hleased⟩

omit [Unicode] in
instance (w : LeaseWorld) (i : ℕ) : Decidable (w.LeasedToOther i) :=
  decidable_of_iff _ leasedToOther_iff.symm

omit [Unicode] in
/-- A call reads the first answer on its connection. -/
theorem patient_read {w : LeaseWorld} {i : ℕ} : w.Patient domain (.read i) ↔
    ∀ c ∈ w.calls[i]?, c.looking domain = true → ∀ answer ∈ c.answers.head?, w.LeasedToOther i →
      c.line.any isHit = true ∨ c.waits < leaseMaxRetries ∧
        (answer.lease = w.lease ∨ c.line.any (tellsToWait c.waits) = true) := by
  constructor
  · intro h c hc hlooking answer hanswer
    obtain ⟨later, hanswers⟩ := List.head?_eq_some_iff.mp hanswer
    exact h c answer later hc hlooking hanswers
  · intro h c answer later hc hlooking hanswers
    exact h c hc hlooking answer (by rw [hanswers]; rfl)

omit [Unicode] in
instance (domain : Str) (w : LeaseWorld) : (e : LeaseEvent) → Decidable (w.Patient domain e)
  | .wake i interrupted => inferInstanceAs (Decidable (∀ c ∈ w.calls[i]?, c.asleep = true →
      w.LeasedToOther i → interrupted = false))
  | .fail i => inferInstanceAs (Decidable (∀ c ∈ w.calls[i]?, c.looking domain = true →
      ¬ w.LeasedToOther i))
  | .read _ => decidable_of_iff _ patient_read.symm
  | .tick _ => .isTrue trivial
  | .resolve => .isTrue trivial
  | .serve _ => .isTrue trivial
  | .reply _ _ => .isTrue trivial
  | .drain _ => .isTrue trivial
  | .other _ => .isTrue trivial

end Calls

/-- One poll of the call number `i`, after a tenth of a second. -/
def poll (i : ℕ) : List LeaseEvent := [.tick 100000000, .wake i false, .serve i, .read i]

/-- All servers at one address. -/
def home : ZoneConfig := ⟨some "127.0.0.1".toList, [], []⟩

/-- Two calls find nothing in L1. The first is granted the lease and fetches a value, which it stores while
the second sleeps; the second polls twice and reads the value. -/
def quickFetch : List LeaseEvent :=
  [.resolve, .resolve, .reply 0 none, .reply 1 none, .serve 0, .serve 1, .read 0, .read 1] ++ poll 1 ++
    [.reply 0 (some "1.1.1.1\n".toList), .serve 0] ++ poll 1

/-- The value is there before the polls are over, and the second call does not turn to the data plane. -/
theorem exclusive_iff_patient_quick :
    Along (@LeaseWorld.Exclusive Unicode.ascii home "a.com".toList)
      (@LeaseWorld.step Unicode.ascii home "a.com".toList) (.start 1) quickFetch :=
  (@exclusive_iff_patient Unicode.ascii home "a.com".toList 1 quickFetch).mpr (by decide +kernel)

/-- Two calls find nothing in L1. The first is granted the lease and waits for the data plane, the second
polls. All of its polls but the last have been answered and read, and the last has been answered. -/
def slowFetch : List LeaseEvent :=
  [.resolve, .resolve, .reply 0 none, .reply 1 none, .serve 0, .serve 1, .read 0, .read 1] ++
    (List.replicate 29 (poll 1)).flatten ++ [.tick 100000000, .wake 1 false, .serve 1]

/-- **The polls are over before the lease is**: three seconds after the first call was granted the lease of
five, the second reads its last `LEASE;WAITING` and turns to the data plane. -/
theorem not_exclusive_slow_fetch :
    ¬ Along (@LeaseWorld.Exclusive Unicode.ascii home "a.com".toList)
      (@LeaseWorld.step Unicode.ascii home "a.com".toList) (.start 1) (slowFetch ++ [.read 1]) := by
  intro hex
  have hlast := ((along_concat _).mp hex).2
  have hleased : (run (@LeaseWorld.step Unicode.ascii home "a.com".toList) (.start 1)
      slowFetch).LeasedToOther 1 := ⟨0, 0, by decide +kernel, by decide, by decide +kernel⟩
  exact hlast 1 ⟨by decide +kernel, by decide +kernel⟩ hleased

end DsDns
