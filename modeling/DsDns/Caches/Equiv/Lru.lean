/-
  The cache is exactly a least-recently-used cache, and a larger one never loses a hit.

  Both operations move the entry of a key to the end (`entries_get_of_hit`, `entries_set`), and `set` drops
  the first if there is one too many. So the keys are those touched most recently, in the order of their last
  touches (`keys_eq_recent`), and the values are the last ones assigned (`get?_eq_lastWrite`).

  Two caches of different capacities do not stay in step: a `get` that only the larger one can answer
  reorders only that one. What every call keeps is `Included`: the smaller cache is a subsequence of the
  larger, and before it has ever been full it is the same.
-/
import DsDns.Caches.Accesses

namespace DsDns

open OrderedDict (toEnd map_fst_toEnd)

namespace LruCache

/-! ### One call -/

@[simp] theorem capacity_step (c : LruCache) (call : CacheCall) : (c.step call).capacity = c.capacity := by
  cases call with
  | get key =>
    show (c.get key).1.capacity = _
    unfold get
    split <;> rfl
  | set key value => rfl

theorem get_of_hit {c : LruCache} {key value : Str} (h : c.get? key = some value) :
    (c.get key).1.cache.entries = toEnd key value c.cache.entries := by
  have hmem : c.cache.contains key = true :=
    OrderedDict.contains_iff.mpr (OrderedDict.mem_keys_of_get?_eq_some h)
  unfold get
  rw [if_pos hmem]
  exact OrderedDict.entries_moveToEnd h

theorem get_of_miss {c : LruCache} {key : Str} (h : c.get? key = none) : (c.get key).1 = c := by
  have hmem : ¬ c.cache.contains key = true := fun hin =>
    OrderedDict.get?_eq_none_iff.mp h (OrderedDict.contains_iff.mp hin)
  unfold get
  rw [if_neg hmem]

theorem entries_touch_set (c : LruCache) (key value : Str) :
    ((c.touch key).set key value).entries = toEnd key value c.cache.entries := by
  unfold touch
  by_cases h : key ∈ c.cache.keys
  · rw [if_pos (OrderedDict.contains_iff.mpr h)]
    exact OrderedDict.entries_set_moveToEnd h value
  · rw [if_neg fun hin => h (OrderedDict.contains_iff.mp hin)]
    exact OrderedDict.entries_set_of_not_mem h value

/-- `set` moves the entry to the end, and drops the first if there are too many. -/
theorem entries_set (c : LruCache) (key value : Str) : (c.set key value).cache.entries =
    if c.capacity < (toEnd key value c.cache.entries).length then
      (toEnd key value c.cache.entries).tail
    else toEnd key value c.cache.entries := by
  have hentries := entries_touch_set c key value
  show (if c.capacity < ((c.touch key).set key value).entries.length then
    ((c.touch key).set key value).popFirst else (c.touch key).set key value).entries = _
  rw [hentries]
  split
  · show ((c.touch key).set key value).entries.tail = _
    rw [hentries]
  · exact hentries

/-- Moving a present key leaves the number of entries as it was. -/
theorem length_toEnd_of_mem {d : OrderedDict Str Str} {key : Str} (h : key ∈ d.keys) (value : Str) :
    (toEnd key value d.entries).length = d.length := by
  have herase := OrderedDict.length_erase_of_mem h
  unfold toEnd
  rw [List.length_append, List.length_singleton]
  exact herase

/-- A new key is one more entry. -/
theorem length_toEnd_of_not_mem {d : OrderedDict Str Str} {key : Str} (h : key ∉ d.keys) (value : Str) :
    (toEnd key value d.entries).length = d.length + 1 := by
  unfold toEnd
  rw [OrderedDict.filter_ne_of_not_mem h, List.length_append, List.length_singleton]
  rfl

/-- Reading adds and drops nothing. -/
theorem length_get (c : LruCache) (key : Str) : (c.get key).1.cache.length = c.cache.length := by
  cases hget : c.get? key with
  | none => rw [get_of_miss hget]
  | some value =>
    show (c.get key).1.cache.entries.length = _
    rw [get_of_hit hget, length_toEnd_of_mem (OrderedDict.mem_keys_of_get?_eq_some hget)]

/-- No call puts more into a cache than there is room for. -/
theorem length_step_le {c : LruCache} (h : c.cache.length ≤ c.capacity) (call : CacheCall) :
    (c.step call).cache.length ≤ c.capacity := by
  cases call with
  | get key =>
    show (c.get key).1.cache.length ≤ _
    rw [length_get]
    exact h
  | set key value =>
    have hlength : (toEnd key value c.cache.entries).length ≤ c.cache.length + 1 := by
      by_cases hmem : key ∈ c.cache.keys
      · rw [length_toEnd_of_mem hmem]
        omega
      · rw [length_toEnd_of_not_mem hmem]
    show (c.set key value).cache.entries.length ≤ _
    rw [entries_set]
    split
    · rw [List.length_tail]
      omega
    · omega

theorem capacity_run (c : LruCache) (calls : List CacheCall) : (run step c calls).capacity = c.capacity := by
  induction calls generalizing c with
  | nil => rfl
  | cons call calls ih => rw [run_cons, ih, capacity_step]

/-! ### The keys -/

theorem touched_get_of_hit {c : LruCache} {key value : Str} (h : c.get? key = some value) :
    c.touched (.get key) = some key := by
  show (if (c.get key).2.isSome then some key else none) = _
  rw [get_snd, h]
  rfl

theorem touched_get_of_miss {c : LruCache} {key : Str} (h : c.get? key = none) :
    c.touched (.get key) = none := by
  show (if (c.get key).2.isSome then some key else none) = _
  rw [get_snd, h]
  rfl

theorem keys_set_of_mem {c : LruCache} {key : Str} (h : key ∈ c.cache.keys)
    (hroom : c.cache.length ≤ c.capacity) (value : Str) :
    (c.set key value).cache.keys = (c.cache.keys.filter fun x => x ≠ key) ++ [key] := by
  have hlength := length_toEnd_of_mem h value
  show (c.set key value).cache.entries.map Prod.fst = _
  rw [entries_set, if_neg (by omega), map_fst_toEnd]
  rfl

theorem keys_set_of_not_mem {c : LruCache} {key : Str} (h : key ∉ c.cache.keys)
    (hroom : c.cache.length ≤ c.capacity) (value : Str) :
    (c.set key value).cache.keys = (c.cache.keys ++ [key]).rtake c.capacity := by
  have hkeys : (toEnd key value c.cache.entries).map Prod.fst = c.cache.keys ++ [key] := by
    rw [toEnd, OrderedDict.filter_ne_of_not_mem h, List.map_append]
    rfl
  have hlength := length_toEnd_of_not_mem h value
  have hone : (c.cache.keys ++ [key]).length = c.cache.length + 1 := by
    rw [List.length_append, OrderedDict.length_keys, List.length_singleton]
  show (c.set key value).cache.entries.map Prod.fst = _
  rw [entries_set]
  split
  · rw [List.map_tail, hkeys, rtake_of_length_succ (by omega)]
  · rw [hkeys, rtake_of_length_le (by omega)]

/-- One call, on the keys. -/
theorem keys_step {c : LruCache} {uses : List Str} (h : c.cache.keys = recent c.capacity uses)
    (call : CacheCall) :
    (c.step call).cache.keys = recent c.capacity (uses ++ (c.touched call).toList) := by
  have hroom : c.cache.length ≤ c.capacity := by
    rw [← OrderedDict.length_keys, h]
    exact length_recent_le c.capacity uses
  cases call with
  | get key =>
    cases hget : c.get? key with
    | none =>
      rw [touched_get_of_miss hget]
      show (c.get key).1.cache.keys = _
      rw [get_of_miss hget, h, Option.toList_none, List.append_nil]
    | some value =>
      have hmem : key ∈ recent c.capacity uses := h ▸ OrderedDict.mem_keys_of_get?_eq_some hget
      rw [touched_get_of_hit hget, Option.toList_some, recent_concat_of_mem hmem, ← h]
      show (c.get key).1.cache.entries.map Prod.fst = _
      rw [get_of_hit hget, map_fst_toEnd]
      rfl
  | set key value =>
    show (c.set key value).cache.keys = recent c.capacity (uses ++ [key])
    by_cases hmem : key ∈ c.cache.keys
    · rw [keys_set_of_mem hmem hroom, recent_concat_of_mem (h ▸ hmem), h]
    · rw [keys_set_of_not_mem hmem hroom, recent_concat_of_not_mem (h ▸ hmem), h]

/-- The keys are the most recently touched ones, in the order of their last touches. -/
theorem keys_eq_recent (capacity : ℕ) (calls : List CacheCall) :
    (run step (empty capacity) calls).cache.keys = recent capacity ((empty capacity).touches calls) := by
  have hcapacity : ∀ calls, (run step (empty capacity) calls).capacity = capacity :=
    capacity_run (empty capacity)
  induction calls using List.reverseRecOn with
  | nil => exact (recent_nil capacity).symm
  | append_singleton calls call ih =>
    have hkeys : (run step (empty capacity) calls).cache.keys =
        recent (run step (empty capacity) calls).capacity ((empty capacity).touches calls) := by
      rw [hcapacity]
      exact ih
    rw [run_concat, touches_concat, keys_step hkeys, hcapacity]

/-! ### The values -/

/-- A present key takes the new value, and nothing is evicted. -/
theorem get?_set_of_mem {c : LruCache} {key : Str} (h : key ∈ c.cache.keys)
    (hroom : c.cache.length ≤ c.capacity) (value k : Str) :
    (c.set key value).get? k = if key = k then some value else c.get? k := by
  have hlength := length_toEnd_of_mem h value
  have hfits : ¬ c.capacity < ((c.touch key).set key value).length := by
    show ¬ c.capacity < ((c.touch key).set key value).entries.length
    rw [entries_touch_set]
    omega
  unfold set get?
  simp only [if_neg hfits]
  rw [OrderedDict.get?_set, get?_touch]
  rfl

/-- A new entry goes behind the oldest one. -/
theorem head?_touch_set {c : LruCache} {key first : Str} (h : key ∉ c.cache.keys)
    (hfirst : c.cache.keys.head? = some first) (value : Str) :
    ((c.touch key).set key value).keys.head? = some first := by
  show (((c.touch key).set key value).entries.map Prod.fst).head? = _
  rw [entries_touch_set, toEnd, OrderedDict.filter_ne_of_not_mem h, List.map_append, List.head?_append]
  show (c.cache.keys.head?).or _ = _
  rw [hfirst, Option.some_or]

/-- A new key in a full cache evicts the first. -/
theorem get?_set_of_not_mem {c : LruCache} {key : Str} (h : key ∉ c.cache.keys) (hpos : 0 < c.capacity)
    (hroom : c.cache.length ≤ c.capacity) (value k : Str) : (c.set key value).get? k =
      if key = k then some value
      else if c.cache.length = c.capacity ∧ c.cache.keys.head? = some k then none else c.get? k := by
  have hlength : ((c.touch key).set key value).length = c.cache.length + 1 := by
    show ((c.touch key).set key value).entries.length = _
    rw [entries_touch_set, length_toEnd_of_not_mem h]
  have hnew : ((c.touch key).set key value).get? k = if key = k then some value else c.get? k := by
    rw [OrderedDict.get?_set, get?_touch]
  unfold set get?
  simp only
  split
  · -- The dictionary has an entry to drop that is not the new one.
    obtain ⟨first, hfirst⟩ : ∃ first, c.cache.keys.head? = some first := by
      cases hkeys : c.cache.keys with
      | nil =>
        have hnone := congrArg List.length hkeys
        rw [OrderedDict.length_keys, List.length_nil] at hnone
        omega
      | cons first rest => exact ⟨first, rfl⟩
    have hne : first ≠ key := by
      rintro rfl
      exact h (List.mem_of_mem_head? hfirst)
    rw [OrderedDict.get?_popFirst, head?_touch_set h hfirst, hnew, hfirst]
    by_cases hk : key = k
    · rw [if_pos hk, if_pos hk, if_neg fun hsome => hne ((Option.some.inj hsome).trans hk.symm)]
    · rw [if_neg hk, if_neg hk]
      refine if_congr ?_ rfl rfl
      exact (and_iff_right (by omega)).symm
  · rw [hnew]
    refine if_congr Iff.rfl rfl (if_neg fun hfull => ?_).symm
    omega

/-- One call, on the value of a key that is still there. -/
theorem get?_step {c : LruCache} {call : CacheCall} {k v : Str} (h : (c.step call).get? k = some v) :
    boundValue k call.write = some v ∨ boundValue k call.write = none ∧ c.get? k = some v := by
  cases call with
  | get key =>
    right
    exact ⟨rfl, (get?_get c key k).symm.trans h⟩
  | set key value =>
    rcases get?_of_get?_set h with ⟨rfl, rfl⟩ | ⟨hne, hold⟩
    · left
      exact if_pos rfl
    · right
      exact ⟨if_neg hne, hold⟩

/-- A cached value is the last one assigned. -/
theorem get?_eq_lastWrite {capacity : ℕ} {calls : List CacheCall} {k v : Str}
    (h : (run step (empty capacity) calls).get? k = some v) :
    lastWrite k (calls.map CacheCall.write) = some v := by
  induction calls using List.reverseRecOn with
  | nil => exact absurd h (by simp)
  | append_singleton calls call ih =>
    rw [run_concat] at h
    rw [List.map_append, lastWrite_append, List.map_singleton, lastWrite_singleton]
    rcases get?_step h with hnew | ⟨hnone, hold⟩
    · rw [hnew, Option.some_or]
    · rw [hnone, Option.none_or]
      exact ih hold

/-- **Exactly least recently used.** After any calls, `get` returns `v` if `v` is what was last assigned to
the key and fewer than `capacity` other keys were touched since the key was touched last, and it returns
nothing otherwise; the keys are in the order of their last touches, distinct, and at most `capacity`. -/
theorem get_exact (capacity : ℕ) (calls : List CacheCall) :
    (∀ k v, ((run step (empty capacity) calls).get k).2 = some v ↔
      lastWrite k (calls.map CacheCall.write) = some v ∧
        ∃ early late, (empty capacity).touches calls = early ++ k :: late ∧ k ∉ late ∧
          late.dedup.length < capacity) ∧
    (run step (empty capacity) calls).cache.keys.Pairwise (UsedBefore ((empty capacity).touches calls)) ∧
    (run step (empty capacity) calls).cache.keys.Nodup ∧
    (run step (empty capacity) calls).cache.length ≤ capacity := by
  have hkeys := keys_eq_recent capacity calls
  refine ⟨fun k v => ?_, ?_, ?_, ?_⟩
  · rw [get_snd, ← mem_recent_iff, ← hkeys]
    constructor
    · intro h
      exact ⟨get?_eq_lastWrite h, OrderedDict.mem_keys_of_get?_eq_some h⟩
    · rintro ⟨hlast, hmem⟩
      obtain ⟨w, hw⟩ := Option.isSome_iff_exists.mp (OrderedDict.get?_isSome_iff.mpr hmem)
      have hvalue := get?_eq_lastWrite hw
      rw [hlast] at hvalue
      obtain rfl := Option.some.inj hvalue
      exact hw
  · rw [hkeys]
    exact (dedup_pairwise _).sublist (recent_suffix capacity _).sublist
  · exact OrderedDict.keys_nodup _
  · rw [← OrderedDict.length_keys, hkeys]
    exact length_recent_le capacity _

/-! ### Two capacities -/

/-- The smaller cache is a subsequence of the larger, and equal to it while the smaller has room. -/
structure Included (c₁ c₂ : LruCache) : Prop where
  capacity_le : c₁.capacity ≤ c₂.capacity
  length_le : c₂.cache.length ≤ c₂.capacity
  sublist : c₁.cache.entries.Sublist c₂.cache.entries
  eq_of_room : c₁.cache.length < c₁.capacity → c₁.cache.entries = c₂.cache.entries

theorem Included.get?_eq_some {c₁ c₂ : LruCache} (h : Included c₁ c₂) {k v : Str}
    (hget : c₁.get? k = some v) : c₂.get? k = some v :=
  OrderedDict.mem_entries_iff.mp (h.sublist.subset (OrderedDict.mem_entries_iff.mpr hget))

/-- A `get` may hit in the larger cache only, which then reorders alone. -/
theorem Included.get {c₁ c₂ : LruCache} (h : Included c₁ c₂) (key : Str) :
    (c₁.get key).1.cache.entries.Sublist (c₂.get key).1.cache.entries ∧
      (c₁.cache.length < c₁.capacity → (c₁.get key).1.cache.entries = (c₂.get key).1.cache.entries) := by
  cases hlarge : c₂.get? key with
  | none =>
    have hsmall : c₁.get? key = none := by
      by_contra hne
      obtain ⟨v, hv⟩ := Option.ne_none_iff_exists'.mp hne
      rw [h.get?_eq_some hv] at hlarge
      exact absurd hlarge (by simp)
    rw [get_of_miss hsmall, get_of_miss hlarge]
    exact ⟨h.sublist, h.eq_of_room⟩
  | some value =>
    rw [get_of_hit hlarge]
    cases hsmall : c₁.get? key with
    | none =>
      rw [get_of_miss hsmall]
      have hfresh : key ∉ c₁.cache.keys := OrderedDict.get?_eq_none_iff.mp hsmall
      refine ⟨?_, fun hroom => ?_⟩
      · -- What the smaller cache has, it has apart from the key.
        rw [← OrderedDict.filter_ne_of_not_mem hfresh]
        exact (h.sublist.filter _).trans (List.sublist_append_left _ _)
      · -- With room, the caches were equal, and both would have hit.
        have hmem := OrderedDict.mem_entries_iff.mpr hlarge
        rw [← h.eq_of_room hroom, OrderedDict.mem_entries_iff] at hmem
        exact absurd (hsmall.symm.trans hmem) (by simp)
    | some value' =>
      obtain rfl : value' = value := Option.some.inj ((h.get?_eq_some hsmall).symm.trans hlarge)
      rw [get_of_hit hsmall]
      refine ⟨OrderedDict.toEnd_sublist h.sublist key value', fun hroom => ?_⟩
      rw [h.eq_of_room hroom]

/-- An entry list moved to the end fits the larger cache if it fits the smaller. -/
theorem Included.fits {c₁ c₂ : LruCache} (h : Included c₁ c₂) {key value : Str}
    (hfits : (toEnd key value c₁.cache.entries).length ≤ c₁.capacity) :
    (toEnd key value c₂.cache.entries).length ≤ c₂.capacity := by
  by_cases hmem : key ∈ c₁.cache.keys
  · have hmem' : key ∈ c₂.cache.keys := (h.sublist.map Prod.fst).subset hmem
    rw [length_toEnd_of_mem hmem']
    exact h.length_le
  · -- There is room for a new key, so the caches are equal.
    have hlength := length_toEnd_of_not_mem hmem value
    rw [← h.eq_of_room (by omega)]
    exact hfits.trans h.capacity_le

/-- `set` drops an entry of the larger cache only if it drops one of the smaller. -/
theorem Included.set {c₁ c₂ : LruCache} (h : Included c₁ c₂) (key value : Str) :
    (c₁.set key value).cache.entries.Sublist (c₂.set key value).cache.entries ∧
      ((c₁.set key value).cache.length < c₁.capacity →
        (c₁.set key value).cache.entries = (c₂.set key value).cache.entries) := by
  have hsub : (toEnd key value c₁.cache.entries).Sublist (toEnd key value c₂.cache.entries) :=
    OrderedDict.toEnd_sublist h.sublist key value
  show _ ∧ ((c₁.set key value).cache.entries.length < c₁.capacity → _)
  rw [entries_set, entries_set]
  by_cases hfits : (toEnd key value c₁.cache.entries).length ≤ c₁.capacity
  · have hfits' := h.fits hfits
    rw [if_neg (by omega), if_neg (by omega)]
    refine ⟨hsub, fun hroom => ?_⟩
    have hgrow : c₁.cache.length ≤ (toEnd key value c₁.cache.entries).length := by
      by_cases hmem : key ∈ c₁.cache.keys
      · rw [length_toEnd_of_mem hmem]
      · rw [length_toEnd_of_not_mem hmem]
        omega
    rw [h.eq_of_room (by omega)]
  · rw [if_pos (by omega)]
    refine ⟨?_, fun hroom => ?_⟩
    · split
      · exact hsub.tail
      · exact (List.tail_sublist _).trans hsub
    · -- A cache that drops an entry is full.
      rw [List.length_tail] at hroom
      omega

/-- One call of both caches. -/
theorem Included.step {c₁ c₂ : LruCache} (h : Included c₁ c₂) (call : CacheCall) :
    Included (c₁.step call) (c₂.step call) := by
  have hcapacity : (c₁.step call).capacity ≤ (c₂.step call).capacity := by
    rw [capacity_step, capacity_step]
    exact h.capacity_le
  have hlength : (c₂.step call).cache.length ≤ (c₂.step call).capacity := by
    rw [capacity_step]
    exact length_step_le h.length_le call
  refine ⟨hcapacity, hlength, ?_, ?_⟩
  · cases call with
    | get key => exact (h.get key).1
    | set key value => exact (h.set key value).1
  · rw [capacity_step]
    cases call with
    | get key =>
      intro hroom
      apply (h.get key).2
      rw [← length_get c₁ key]
      exact hroom
    | set key value => exact (h.set key value).2

theorem included_run {c₁ c₂ : LruCache} (h : Included c₁ c₂) (calls : List CacheCall) :
    Included (run LruCache.step c₁ calls) (run LruCache.step c₂ calls) := by
  induction calls generalizing c₁ c₂ with
  | nil => exact h
  | cons call calls ih => exact ih (h.step call)

/-- **A larger cache never loses a hit**: it has the entries of the smaller one, in the same order, and so
answers every `get` that the smaller one answers, with the same value. -/
theorem included_of_capacity_le {capacity₁ capacity₂ : ℕ} (h : capacity₁ ≤ capacity₂)
    (calls : List CacheCall) :
    (run LruCache.step (empty capacity₁) calls).cache.entries.Sublist
        (run LruCache.step (empty capacity₂) calls).cache.entries ∧
      ∀ k v, ((run LruCache.step (empty capacity₁) calls).get k).2 = some v →
        ((run LruCache.step (empty capacity₂) calls).get k).2 = some v := by
  have hempty : Included (empty capacity₁) (empty capacity₂) :=
    ⟨h, Nat.zero_le _, List.Sublist.refl _, fun _ => rfl⟩
  have hrun := included_run hempty calls
  refine ⟨hrun.sublist, fun k v hget => ?_⟩
  rw [get_snd] at hget ⊢
  exact hrun.get?_eq_some hget

theorem included_one_two :
    (run LruCache.step (empty 1) [.set ['a'] ['x'], .set ['b'] ['y'], .get ['a']]).cache.entries.Sublist
        (run LruCache.step (empty 2) [.set ['a'] ['x'], .set ['b'] ['y'], .get ['a']]).cache.entries ∧
      ∀ k v, ((run LruCache.step (empty 1) [.set ['a'] ['x'], .set ['b'] ['y'], .get ['a']]).get k).2 = some v →
        ((run LruCache.step (empty 2) [.set ['a'] ['x'], .set ['b'] ['y'], .get ['a']]).get k).2 = some v :=
  included_of_capacity_le (by decide) _

end LruCache

end DsDns
