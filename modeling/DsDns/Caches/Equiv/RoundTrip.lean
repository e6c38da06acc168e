/-
  What a `SET` stores, a `GET` answers.

  `SET` ends its key at the first semicolon and `GET` takes the rest of the line, so for a key with a semicolon
  the two mean different keys. The round trip succeeds then only where there is nothing to store
  (`roundTrip_iff`).
-/
import DsDns.Caches.Equiv.Lru
import DsDns.Caches.Equiv.Server
import DsDns.Caches.Leases

namespace DsDns

/-! ### A cache with room -/

namespace LruCache

/-- The cache may hold something, and holds no more than it may. -/
structure Roomy (c : LruCache) : Prop where
  pos : 0 < c.capacity
  fits : c.cache.length ≤ c.capacity

theorem roomy_empty {capacity : ℕ} (h : 0 < capacity) : (empty capacity).Roomy := ⟨h, Nat.zero_le _⟩

theorem Roomy.step {c : LruCache} (h : c.Roomy) (call : CacheCall) : (c.step call).Roomy := by
  constructor
  · rw [capacity_step]
    exact h.pos
  · rw [capacity_step]
    exact length_step_le h.fits call

/-- Between `c` and `c'` the entry was evicted: it was the first of a full cache. -/
def Evicted (c c' : LruCache) (k : Str) : Prop :=
  c.cache.length = c.capacity ∧ c.cache.keys.head? = some k ∧ c'.get? k = none

/-- The value of every key but `k` is unchanged, unless it was evicted. -/
def Spares (k : Str) (c c' : LruCache) : Prop := ∀ x, x ≠ k → c'.get? x = c.get? x ∨ Evicted c c' x

theorem get?_set_self {c : LruCache} (h : c.Roomy) (key value : Str) :
    (c.set key value).get? key = some value := by
  by_cases hmem : key ∈ c.cache.keys
  · rw [get?_set_of_mem hmem h.fits, if_pos rfl]
  · rw [get?_set_of_not_mem hmem h.pos h.fits, if_pos rfl]

theorem spares_set {c : LruCache} (h : c.Roomy) (key value : Str) : Spares key c (c.set key value) := by
  intro x hx
  by_cases hmem : key ∈ c.cache.keys
  · rw [get?_set_of_mem hmem h.fits, if_neg (Ne.symm hx)]
    exact Or.inl rfl
  · have hvalue := get?_set_of_not_mem hmem h.pos h.fits value x
    rw [if_neg (Ne.symm hx)] at hvalue
    by_cases hfirst : c.cache.length = c.capacity ∧ c.cache.keys.head? = some x
    · rw [if_pos hfirst] at hvalue
      exact Or.inr ⟨hfirst.1, hfirst.2, hvalue⟩
    · rw [if_neg hfirst] at hvalue
      exact Or.inl hvalue

/-- Storing the value that is there already changes no value. -/
theorem get?_set_same {c : LruCache} (h : c.Roomy) {key value : Str} (hvalue : c.get? key = some value)
    (k : Str) : (c.set key value).get? k = c.get? k := by
  rw [get?_set_of_mem (OrderedDict.mem_keys_of_get?_eq_some hvalue) h.fits]
  split
  · rename_i hk
    rw [← hk, hvalue]
  · rfl

/-- A `set` of another key than the one that was meant. -/
theorem spares_set_ne_iff {c : LruCache} (h : c.Roomy) {key k : Str} (hne : key ≠ k) (value : Str) :
    Spares k c (c.set key value) ↔ c.get? key = some value := by
  constructor
  · intro hspares
    rcases hspares key hne with hsame | ⟨-, -, hgone⟩
    · rw [← hsame, get?_set_self h]
    · rw [get?_set_self h] at hgone
      exact absurd hgone (by simp)
  · exact fun hvalue x _ => Or.inl (get?_set_same h hvalue x)

end LruCache

open LruCache

/-! ### Texts -/

/-- A text splits at its first semicolon. -/
theorem exists_semicolon {k : Str} (h : ';' ∈ k) : ∃ a b, k = a ++ ';' :: b ∧ ';' ∉ a ∧
    k.takeWhile (· ≠ ';') = a ∧ (k.dropWhile (· ≠ ';')).tail = b := by
  obtain ⟨a, b, rfl, ha⟩ := List.eq_append_cons_of_mem h
  have hne : ∀ c ∈ a, decide (c ≠ ';') = true := by
    intro c hc
    apply decide_eq_true
    rintro rfl
    exact ha hc
  refine ⟨a, b, rfl, ha, ?_, ?_⟩
  · rw [List.takeWhile_append_of_pos hne, List.takeWhile_cons_of_neg (by simp), List.append_nil]
  · rw [List.dropWhile_append_of_pos hne, List.dropWhile_cons_of_neg (by simp), List.tail_cons]

variable [Unicode]

/-- The key that a `SET` takes from the text `k;v`. -/
def storedKey (k : Str) : Str := strip (k.takeWhile (· ≠ ';'))

/-- The value that a `SET` takes from the text `k;v` if `k` has a semicolon. -/
def storedValue (k v : Str) : Str := strip ((k.dropWhile (· ≠ ';')).tail ++ ';' :: v)

/-- The command that `SET;k;v` is. -/
theorem parseCommand_set_semicolon {k : Str} (h : ';' ∈ k) (v : Str) :
    parseCommand ("SET;".toList ++ (k ++ ';' :: v)) = .set (storedKey k) (storedValue k v) ∧
      storedKey k ≠ k := by
  obtain ⟨a, b, hk, ha, htake, hdrop⟩ := exists_semicolon h
  unfold storedKey storedValue
  rw [htake, hdrop]
  constructor
  · rw [hk, List.append_assoc, List.cons_append]
    exact parseCommand_set ha (b ++ ';' :: v)
  · intro hsame
    rw [← hsame] at h
    exact ha (mem_of_mem_strip h)

/-- The command that `SET;k;v` is without a semicolon in `k`. -/
theorem parseCommand_set_stripped {k v : Str} (h : ';' ∉ k) (hk : strip k = k) (hv : strip v = v) :
    parseCommand ("SET;".toList ++ (k ++ ';' :: v)) = .set k v := by
  rw [parseCommand_set h, hk, hv]

theorem exists_parseCommand_set (k v : Str) :
    ∃ key value, parseCommand ("SET;".toList ++ (k ++ ';' :: v)) = .set key value := by
  by_cases h : ';' ∈ k
  · exact ⟨_, _, (parseCommand_set_semicolon h v).1⟩
  · exact ⟨_, _, parseCommand_set h v⟩

/-! ### Round trips -/

omit [Unicode] in
/-- `SET` answered `OK`, `GET` answered the value, and the other keys kept theirs. -/
def RoundTrip (k v : Str) (c c' : LruCache) (stored answer : Str) : Prop :=
  stored = "OK".toList ∧ answer = v ∧ Spares k c c'

/-- `SET;k;v` and then `GET;k` at L1. -/
def L1.RoundTrip (c : LruCache) (k v : Str) : Prop :=
  let stored := L1.processCommand c ("SET;".toList ++ (k ++ ';' :: v))
  DsDns.RoundTrip k v c stored.1 stored.2 (L1.processCommand stored.1 ("GET;".toList ++ k)).2

/-- `SET;k;v` at the time `now` and then `GET;k` at the time `later` at L2. -/
def L2.RoundTrip (now later : Time) (s : L2Cache) (k v : Str) : Prop :=
  let stored := L2.processCommand now s ("SET;".toList ++ (k ++ ';' :: v))
  DsDns.RoundTrip k v s.cache stored.1.cache stored.2
    (L2.processCommand later stored.1 ("GET;".toList ++ k)).2

omit [Unicode] in
/-- What L2 answers for a key that is not cached. -/
def L2.missAnswer (now : Time) (s : L2Cache) (key : Str) : Str :=
  if (s.leaseMap key).all fun issuedAt => leaseTtl < now - issuedAt then "LEASE;GRANTED".toList
  else "LEASE;WAITING".toList

/-- The key has no semicolon, or the cache has all values already: the part before the first semicolon has the
rest for its value, and the whole has the value `v`, or none if `v` is what a miss answers. -/
def Storable (c : LruCache) (miss k v : Str) : Prop :=
  ';' ∉ k ∨ c.get? (storedKey k) = some (storedValue k v) ∧ (c.get? k).getD miss = v

theorem roundTrip_set_iff {c : LruCache} (h : c.Roomy) {miss k v : Str} (hk : strip k = k) (hv : strip v = v)
    {key value : Str} (hparse : parseCommand ("SET;".toList ++ (k ++ ';' :: v)) = .set key value) :
    (((c.set key value).get? k).getD miss = v ∧ Spares k c (c.set key value)) ↔ Storable c miss k v := by
  unfold Storable
  by_cases hsemicolon : ';' ∈ k
  · obtain ⟨hset, hne⟩ := parseCommand_set_semicolon hsemicolon v
    obtain ⟨rfl, rfl⟩ := Command.set.inj (hparse.symm.trans hset)
    rw [spares_set_ne_iff h hne, or_iff_right (not_not.mpr hsemicolon), and_comm]
    exact and_congr_right fun hvalue => by rw [get?_set_same h hvalue]
  · obtain ⟨rfl, rfl⟩ := Command.set.inj (hparse.symm.trans (parseCommand_set_stripped hsemicolon hk hv))
    refine iff_of_true ⟨?_, spares_set h key value⟩ (Or.inl hsemicolon)
    rw [get?_set_self h, Option.getD_some]

theorem l1_roundTrip_iff {c : LruCache} (h : c.Roomy) {k v : Str} (hk : strip k = k) (hv : strip v = v) :
    L1.RoundTrip c k v ↔ Storable c "N/A".toList k v := by
  obtain ⟨key, value, hparse⟩ := exists_parseCommand_set k v
  unfold L1.RoundTrip DsDns.RoundTrip
  simp only [l1_processCommand_eq, hparse, parseCommand_get, hk, true_and]
  exact roundTrip_set_iff h hk hv hparse

omit [Unicode] in
theorem lookup_answer (now : Time) (s : L2Cache) (key : Str) :
    (L2.lookup now s key).2 = (s.cache.get? key).getD (L2.missAnswer now s key) := by
  unfold L2.lookup L2.missAnswer
  cases s.cache.get? key with
  | none =>
    simp only [Option.getD_none]
    split <;> rfl
  | some value => rfl

theorem l2_roundTrip_iff {s : L2Cache} (h : s.cache.Roomy) (now later : Time) {k v : Str} (hk : strip k = k)
    (hv : strip v = v) : L2.RoundTrip now later s k v ↔ Storable s.cache (L2.missAnswer later s k) k v := by
  obtain ⟨key, value, hparse⟩ := exists_parseCommand_set k v
  unfold L2.RoundTrip DsDns.RoundTrip
  simp only [l2_processCommand_eq, hparse, parseCommand_get, hk, true_and, lookup_answer]
  rw [← roundTrip_set_iff h hk hv hparse]
  refine and_congr_left fun _ => ?_
  -- The `SET` released the lease of its own key only, which the cache now has.
  by_cases hkey : k = key
  · rw [hkey]
    show ((s.cache.set key value).get? key).getD _ = v ↔ _
    rw [get?_set_self h, Option.getD_some, Option.getD_some]
  · have hlease : L2.missAnswer later (({ s with cache := s.cache.set key value } : L2Cache).release key) k =
        L2.missAnswer later s k := by
      unfold L2.missAnswer
      rw [show (({ s with cache := s.cache.set key value } : L2Cache).release key).leaseMap k = s.leaseMap k
        from if_neg hkey]
    rw [hlease]
    rfl

/-! ### Reachable states -/

/-- The state of L1 after `process_command` has run on a line. -/
def L1.step (c : LruCache) (line : Str) : LruCache := (L1.processCommand c line).1

theorem roomy_l1_step {c : LruCache} (h : c.Roomy) (line : Str) : (L1.step c line).Roomy := by
  unfold L1.step
  rw [l1_processCommand_eq]
  cases parseCommand line with
  | get key => exact h.step (.get key)
  | set key value => exact h.step (.set key value)
  | error => exact h

theorem roomy_l2_step {s : L2Cache} (h : s.cache.Roomy) (e : Time × Str) : (L2.step s e).cache.Roomy := by
  unfold L2.step
  rw [l2_processCommand_eq]
  cases parseCommand e.2 with
  | get key =>
    show (L2.lookup e.1 s key).1.cache.Roomy
    unfold L2.lookup
    split
    · exact h.step (.get key)
    · split <;> exact h.step (.get key)
  | set key value => exact h.step (.set key value)
  | error => exact h

/-- **Which commands round-trip**, in every state that commands can bring the two caches into. -/
theorem roundTrip_iff {capacity : ℕ} (hcapacity : 0 < capacity) {k v : Str} (hk : strip k = k)
    (hv : strip v = v) :
    (∀ lines, L1.RoundTrip (run L1.step (.empty capacity) lines) k v ↔
      Storable (run L1.step (.empty capacity) lines) "N/A".toList k v) ∧
    ∀ es now later, L2.RoundTrip now later (run L2.step (.start capacity) es) k v ↔
      Storable (run L2.step (.start capacity) es).cache
        (L2.missAnswer later (run L2.step (.start capacity) es) k) k v := by
  constructor
  · intro lines
    have hroomy : (run L1.step (.empty capacity) lines).Roomy :=
      run_invariant (roomy_empty hcapacity) fun _ line hc => roomy_l1_step hc line
    exact l1_roundTrip_iff hroomy hk hv
  · intro es now later
    have hroomy : (run L2.step (.start capacity) es).cache.Roomy :=
      run_invariant (P := fun s : L2Cache => s.cache.Roomy) (roomy_empty hcapacity)
        fun _ e hs => roomy_l2_step hs e
    exact l2_roundTrip_iff hroomy now later hk hv

omit [Unicode] in
/-- The two caches as the servers start them, and a key without semicolons. -/
theorem roundTrip_iff_address :
    @L1.RoundTrip Unicode.ascii (.empty 50000) "a.com".toList "1.1.1.1".toList ∧
    @L2.RoundTrip Unicode.ascii 0 second (.start 100000) "a.com".toList "1.1.1.1".toList := by
  constructor
  · exact ((@roundTrip_iff Unicode.ascii 50000 (by decide) "a.com".toList "1.1.1.1".toList (by decide)
      (by decide)).1 []).mpr (Or.inl (by decide))
  · exact ((@roundTrip_iff Unicode.ascii 100000 (by decide) "a.com".toList "1.1.1.1".toList (by decide)
      (by decide)).2 [] 0 second).mpr (Or.inl (by decide))

omit [Unicode] in
/-- `SET;a;b;1` stores `b;1` under `a`, and `GET;a;b` finds nothing. -/
theorem not_roundTrip :
    strip "a;b".toList = "a;b".toList ∧ strip ['1'] = ['1'] ∧
    (@L1.step Unicode.ascii (.empty 50000) "SET;a;b;1".toList).get? ['a'] = some "b;1".toList ∧
    (@L1.processCommand Unicode.ascii (@L1.step Unicode.ascii (.empty 50000) "SET;a;b;1".toList)
      "GET;a;b".toList).2 = "N/A".toList ∧
    ¬ @L1.RoundTrip Unicode.ascii (.empty 50000) "a;b".toList ['1'] ∧
    ¬ @L2.RoundTrip Unicode.ascii 0 second (.start 100000) "a;b".toList ['1'] := by
  refine ⟨by decide, by decide, by decide, by decide, fun h => ?_, fun h => ?_⟩
  · exact absurd h.2.1 (by decide)
  · exact absurd h.2.1 (by decide)

end DsDns
