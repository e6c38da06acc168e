/-
  Leases exclude each other, whatever else the server is asked.

  `lease_map` is a register for the history of each key (`lease_registers`): a grant writes the time,
  a `SET` empties it, and nothing else changes it. That needs `L2Cache.Apart`, since a hit pops the
  lease of its key, and every command keeps `L2Cache.Apart` (`apart_step`). Evictions do not matter: they
  take a key out of the cache and put none into `lease_map`.
-/
import DsDns.Caches.Equiv.Server
import DsDns.Caches.Leases

namespace DsDns

/-! ### One command -/

theorem get?_eq_none_iff_not_mem {c : LruCache} {k : Str} : c.get? k = none ↔ k ∉ c.cache.keys :=
  OrderedDict.get?_eq_none_iff

/-- In a state that keeps the two maps apart, a cached key has no lease. -/
theorem L2Cache.Apart.leaseMap {s : L2Cache} (h : s.Apart) {k v : Str}
    (hv : s.cache.get? k = some v) : s.leaseMap k = none := by
  by_contra hlease
  apply h k
  constructor
  · exact OrderedDict.mem_keys_of_get?_eq_some hv
  · exact Option.isSome_iff_ne_none.mpr hlease

/-- The two maps are apart when every leased key is missing from the cache. -/
theorem apart_iff {s : L2Cache} : s.Apart ↔ ∀ k t, s.leaseMap k = some t → s.cache.get? k = none := by
  constructor
  · intro h k t ht
    rw [get?_eq_none_iff_not_mem]
    intro hmem
    exact h k ⟨hmem, by rw [ht]; rfl⟩
  · rintro h k ⟨hmem, hlease⟩
    obtain ⟨t, ht⟩ := Option.isSome_iff_exists.mp hlease
    exact get?_eq_none_iff_not_mem.mp (h k t ht) hmem

variable [Unicode]

omit [Unicode] in
/-- A lease that is missing or too old, as `process_command` tests it. -/
theorem all_expired_iff {lease : Option Time} {now : Time} :
    (lease.all fun issuedAt => leaseTtl < now - issuedAt) = true ↔
      ∀ t, lease = some t → leaseTtl < now - t := by
  rw [Option.all_eq_true]
  exact forall₂_congr fun t _ => decide_eq_true_iff

omit [Unicode] in
theorem granted_ne_waiting : "LEASE;GRANTED".toList ≠ "LEASE;WAITING".toList := by decide

section Lookup

omit [Unicode]

variable (now : Time) (s : L2Cache)

/-- A `GET` does not touch the leases of other keys. -/
theorem leaseMap_lookup_ne {k key : Str} (hkey : k ≠ key) :
    (L2.lookup now s key).1.leaseMap k = s.leaseMap k := by
  unfold L2.lookup
  split
  · exact if_neg hkey
  · split
    · exact if_neg hkey
    · rfl

/-- A hit pops the lease. -/
theorem leaseMap_lookup_hit {k v : Str} (hv : s.cache.get? k = some v) :
    (L2.lookup now s k).1.leaseMap k = none := by
  unfold L2.lookup
  rw [hv]
  exact if_pos rfl

/-- A miss is granted the lease when it is missing or too old, and then the lease starts anew. -/
theorem lookup_granted {k : Str} (hmiss : s.cache.get? k = none)
    (hfree : ∀ t, s.leaseMap k = some t → leaseTtl < now - t) :
    (L2.lookup now s k).2 = "LEASE;GRANTED".toList ∧
      (L2.lookup now s k).1.leaseMap k = some now := by
  unfold L2.lookup
  rw [hmiss]
  simp only [if_pos (all_expired_iff.mpr hfree)]
  exact ⟨trivial, if_pos rfl⟩

/-- Otherwise the miss has to wait. -/
theorem lookup_waiting {k : Str} (hmiss : s.cache.get? k = none)
    (hheld : ¬ ∀ t, s.leaseMap k = some t → leaseTtl < now - t) :
    (L2.lookup now s k).2 = "LEASE;WAITING".toList ∧
      (L2.lookup now s k).1.leaseMap k = s.leaseMap k := by
  unfold L2.lookup
  rw [hmiss]
  simp only [if_neg (fun hexpired => hheld (all_expired_iff.mp hexpired))]
  exact ⟨trivial, trivial⟩

end Lookup

/-- What a command is that is a `GET`. -/
theorem processCommand_get {s : L2Cache} {e : Time × Str} {k : Str} (hget : parseCommand e.2 = .get k) :
    L2.processCommand e.1 s e.2 = L2.lookup e.1 s k := by
  rw [l2_processCommand_eq, hget]

/-- A miss is answered `LEASE;GRANTED` when the lease of the key is missing or too old. -/
theorem granted_iff {s : L2Cache} {e : Time × Str} {k : Str} (hget : parseCommand e.2 = .get k)
    (hmiss : s.cache.get? k = none) : L2.answer s e = "LEASE;GRANTED".toList ↔
      ∀ t, s.leaseMap k = some t → leaseTtl < e.1 - t := by
  unfold L2.answer
  rw [processCommand_get hget]
  constructor
  · intro hanswer
    by_contra hheld
    rw [(lookup_waiting e.1 s hmiss hheld).1] at hanswer
    exact granted_ne_waiting hanswer.symm
  · exact fun hfree => (lookup_granted e.1 s hmiss hfree).1

/-- A miss is answered `LEASE;WAITING` when the key has a lease that is not too old. -/
theorem waiting_iff {s : L2Cache} {e : Time × Str} {k : Str} (hget : parseCommand e.2 = .get k)
    (hmiss : s.cache.get? k = none) : L2.answer s e = "LEASE;WAITING".toList ↔
      ∃ t, s.leaseMap k = some t ∧ e.1 - t ≤ leaseTtl := by
  have hheld : (∃ t, s.leaseMap k = some t ∧ e.1 - t ≤ leaseTtl) ↔
      ¬ ∀ t, s.leaseMap k = some t → leaseTtl < e.1 - t := by
    push Not
    rfl
  unfold L2.answer
  rw [processCommand_get hget, hheld]
  constructor
  · intro hanswer hfree
    rw [(lookup_granted e.1 s hmiss hfree).1] at hanswer
    exact granted_ne_waiting hanswer
  · exact fun hheld => (lookup_waiting e.1 s hmiss hheld).1

/-! ### The register of a key -/

/-- **What a command does to a lease**: a grant writes it, a `SET` of the key releases it, and in a state
that keeps the two maps apart nothing else changes it. -/
theorem lease_registers (k : Str) : Registers L2Cache.Apart (fun s => s.leaseMap k) (L2.Granted k)
    (L2.Sets k) L2.step := by
  constructor
  · rintro s e t - ⟨hget, hmiss, hanswer, rfl⟩
    unfold L2.step
    rw [processCommand_get hget]
    exact (lookup_granted e.1 s hmiss ((granted_iff hget hmiss).mp hanswer)).2
  · rintro s e - ⟨v, hset⟩ -
    unfold L2.step
    rw [l2_processCommand_eq, hset]
    exact if_pos rfl
  · rintro s e hapart ⟨hnoSet, hnoGrant⟩
    unfold L2.step
    cases hcommand : parseCommand e.2 with
    | get key =>
      rw [processCommand_get hcommand]
      by_cases hkey : k = key
      · subst hkey
        cases hcached : s.cache.get? k with
        | some v =>
          -- The hit pops the lease of a key that has none.
          rw [leaseMap_lookup_hit e.1 s hcached, hapart.leaseMap hcached]
        | none =>
          apply (lookup_waiting e.1 s hcached _).2
          intro hfree
          exact hnoGrant e.1 ⟨hcommand, hcached, (granted_iff hcommand hcached).mpr hfree, rfl⟩
      · exact leaseMap_lookup_ne e.1 s hkey
    | set key value =>
      have hkey : k ≠ key := by
        rintro rfl
        exact hnoSet ⟨value, hcommand⟩
      rw [l2_processCommand_eq, hcommand]
      exact if_neg hkey
    | error => rw [l2_processCommand_eq, hcommand]

/-! ### Runs -/

omit [Unicode] in
theorem apart_start (capacity : ℕ) : (L2Cache.start capacity).Apart := by
  rw [apart_iff]
  intro k t ht
  exact absurd ht (by simp [L2Cache.start])

/-- **The step lemma**: a command keeps the two maps apart. -/
theorem apart_step {s : L2Cache} (h : s.Apart) (e : Time × Str) : (L2.step s e).Apart := by
  rw [apart_iff]
  intro k t ht
  by_cases hset : L2.Sets k s e
  · -- A `SET` of the key leaves no lease.
    have hreleased : (L2.step s e).leaseMap k = none := by
      apply (lease_registers k).clears s e h hset
      intro u hgrant
      obtain ⟨v, hv⟩ := hset
      rw [hgrant.1] at hv
      exact absurd hv (by simp)
    rw [hreleased] at ht
    exact absurd ht (by simp)
  · -- Nothing else writes the key into the cache, so a value of it was there before.
    by_contra hcached
    obtain ⟨v, hv⟩ := Option.ne_none_iff_exists'.mp hcached
    rcases get?_of_l2_processCommand hv with hold | hset'
    · have hleave : Leaves (L2.Granted k) (L2.Sets k) s e := by
        refine ⟨hset, fun u hgrant => ?_⟩
        rw [hgrant.2.1] at hold
        exact absurd hold (by simp)
      have hsame := (lease_registers k).leaves s e h hleave
      have hnone := h.leaseMap hold
      rw [ht, hnone] at hsame
      exact absurd hsame (by simp)
    · exact hset ⟨v, hset'⟩

theorem always_apart (capacity : ℕ) (es : List (Time × Str)) :
    Always L2Cache.Apart L2.step (L2Cache.start capacity) es :=
  always_of_step (apart_start capacity) fun _ e h => apart_step h e

/-- `lease_map` holds what the history of the key says. -/
theorem leaseMap_run (capacity : ℕ) (es : List (Time × Str)) (k : Str) (t : Time) :
    (run L2.step (L2Cache.start capacity) es).leaseMap k = some t ↔
      L2.LeasedSince k (L2Cache.start capacity) es t :=
  (lease_registers k).since_iff (always_apart capacity es) rfl

/-- After a grant at the time `t`, while the key is not `SET` and the clock does not go back, the key
has a lease granted at `t` or later. -/
theorem leaseMap_of_granted {capacity : ℕ} {early late : List (Time × Str)} {e : Time × Str} {k : Str}
    {t : Time} (hgrant : L2.Granted k (run L2.step (L2Cache.start capacity) early) e t)
    (hnoSet : ∀ x ∈ late, ∀ s, ¬ L2.Sets k s x) (hclock : ∀ x ∈ late, t ≤ x.1) :
    ∃ u, (run L2.step (L2Cache.start capacity) (early ++ e :: late)).leaseMap k = some u ∧ t ≤ u := by
  have hapart : (run L2.step (L2Cache.start capacity) early).Apart :=
    always_apart capacity early early (List.prefix_refl early)
  have hnow := (lease_registers k).marks _ e t hapart hgrant
  have hafter : Always L2Cache.Apart L2.step
      (L2.step (run L2.step (L2Cache.start capacity) early) e) late := by
    intro mid hmid
    have hmid' : early ++ e :: mid <+: early ++ e :: late := by
      rw [List.prefix_append_right_inj, List.prefix_cons_inj]
      exact hmid
    have hstate := always_apart capacity (early ++ e :: late) _ hmid'
    rw [run_append, run_cons] at hstate
    exact hstate
  rw [run_append, run_cons]
  apply (lease_registers k).holds hafter ⟨t, hnow, le_refl t⟩
  apply along_of_mem
  intro s x hx
  refine ⟨hnoSet x hx s, ?_⟩
  rintro u ⟨-, -, -, rfl⟩
  exact hclock x hx

/-- **Leases exclude each other.** On any run of commands from an empty server, with a clock that does
not go back: no key is ever in both maps; a `GET` misses and is answered `LEASE;WAITING` exactly when the
key is not cached and its lease was granted last at most the time to live ago, with no `SET` of the key
since; and two grants of the lease of a key have a `SET` of it between them or are further apart than
the time to live. -/
theorem leases_exclusive (capacity : ℕ) {es : List (Time × Str)} {e : Time × Str}
    (hclock : ((es ++ [e]).map Prod.fst).Pairwise (· ≤ ·)) (k : Str) :
    Always L2Cache.Apart L2.step (L2Cache.start capacity) (es ++ [e]) ∧
    (parseCommand e.2 = .get k →
      (k ∉ (run L2.step (L2Cache.start capacity) es).cache.cache.keys ∧
          L2.answer (run L2.step (L2Cache.start capacity) es) e = "LEASE;WAITING".toList ↔
        k ∉ (run L2.step (L2Cache.start capacity) es).cache.cache.keys ∧
          ∃ t, L2.LeasedSince k (L2Cache.start capacity) es t ∧ e.1 - t ≤ leaseTtl)) ∧
    ∀ early e' late t t', es = early ++ e' :: late →
      L2.Granted k (run L2.step (L2Cache.start capacity) early) e' t' →
      L2.Granted k (run L2.step (L2Cache.start capacity) es) e t →
      (∃ x ∈ late, ∃ s, L2.Sets k s x) ∨ leaseTtl < t - t' := by
  refine ⟨always_apart capacity _, fun hget => ?_, ?_⟩
  · apply and_congr_right
    intro hmiss
    rw [waiting_iff hget (get?_eq_none_iff_not_mem.mpr hmiss)]
    exact exists_congr fun t => and_congr_left fun _ => leaseMap_run capacity es k t
  · rintro early e' late t t' rfl hfirst ⟨hget, hmiss, hanswer, rfl⟩
    by_cases hset : ∃ x ∈ late, ∃ s, L2.Sets k s x
    · exact Or.inl hset
    · right
      have hnoSet : ∀ x ∈ late, ∀ s, ¬ L2.Sets k s x := fun x hx s h => hset ⟨x, hx, s, h⟩
      have hlate : ∀ x ∈ late, t' ≤ x.1 := by
        intro x hx
        rw [← hfirst.2.2.2]
        rw [List.append_assoc, List.map_append, List.cons_append, List.map_cons,
          List.pairwise_append, List.pairwise_cons] at hclock
        exact hclock.2.1.1 x.1 (List.mem_map_of_mem (List.mem_append_left [e] hx))
      -- The lease found by the later grant is the earlier one, or one granted after it.
      obtain ⟨u, hu, hle⟩ := leaseMap_of_granted hfirst hnoSet hlate
      calc leaseTtl < e.1 - u := (granted_iff hget hmiss).mp hanswer u hu
        _ ≤ e.1 - t' := Int.sub_le_sub_left hle e.1

omit [Unicode] in
/-- Two grants of one key, six seconds apart, with a `GET` that waits between them. -/
theorem leases_exclusive_again :
    (∃ x ∈ [(second, "GET;k".toList)], ∃ s, @L2.Sets Unicode.ascii "k".toList s x) ∨
      leaseTtl < 6 * second - 0 :=
  (@leases_exclusive Unicode.ascii 1 [(0, "GET;k".toList), (second, "GET;k".toList)]
    (6 * second, "GET;k".toList) (by decide) "k".toList).2.2 [] _ _ _ _ rfl
    ⟨@parseCommand_get Unicode.ascii "k".toList, by decide, by decide, rfl⟩
    ⟨@parseCommand_get Unicode.ascii "k".toList, by decide, by decide, rfl⟩

omit [Unicode] in
/-- The texts alone do not tell a lease from a value: a key whose value is `LEASE;WAITING` is answered so
while it is cached, and one whose value is `LEASE;GRANTED` is answered so twice in a row. -/
theorem not_exclusive_texts :
    ("k".toList ∈ (run (@L2.step Unicode.ascii) (L2Cache.start 1)
        [(0, "SET;k;LEASE;WAITING".toList)]).cache.cache.keys ∧
      @L2.answer Unicode.ascii (run (@L2.step Unicode.ascii) (L2Cache.start 1)
        [(0, "SET;k;LEASE;WAITING".toList)]) (0, "GET;k".toList) = "LEASE;WAITING".toList) ∧
    @L2.answer Unicode.ascii (run (@L2.step Unicode.ascii) (L2Cache.start 1)
      [(0, "SET;k;LEASE;GRANTED".toList)]) (0, "GET;k".toList) = "LEASE;GRANTED".toList ∧
    @L2.answer Unicode.ascii (run (@L2.step Unicode.ascii) (L2Cache.start 1)
      [(0, "SET;k;LEASE;GRANTED".toList), (0, "GET;k".toList)]) (0, "GET;k".toList) =
        "LEASE;GRANTED".toList := by
  decide

end DsDns
