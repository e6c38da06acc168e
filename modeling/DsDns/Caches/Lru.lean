/-
  `class LRUCache`, which `l1_cache.py` and `l2_cache.py` share.

  The dictionary keeps its keys in the order of their last use, so evicting the least recently used
  entry is dropping the first one. `get?_of_get?_set` says what a reader of the cache can rely on: after
  a `set` the cache has no values but the new one and old ones.
-/
import DsDns.OrderedDict
import DsDns.Text.Basic

namespace DsDns

/-- `class LRUCache`. -/
structure LruCache where
  capacity : ℕ
  cache : OrderedDict Str Str

namespace LruCache

/-- An empty cache. -/
def empty (capacity : ℕ) : LruCache := ⟨capacity, .empty⟩

/-- `self.cache[key]`, without marking it as used. -/
def get? (c : LruCache) (key : Str) : Option Str := c.cache.get? key

/-- `LRUCache.get`. -/
def get (c : LruCache) (key : Str) : LruCache × Option Str :=
  if c.cache.contains key then
    let cache := c.cache.moveToEnd key
    ({ c with cache := cache }, cache.get? key)
  else (c, none)

/-- The part of `set` that moves a present key to the end. -/
def touch (c : LruCache) (key : Str) : OrderedDict Str Str :=
  if c.cache.contains key then c.cache.moveToEnd key else c.cache

/-- `LRUCache.set`. -/
def set (c : LruCache) (key value : Str) : LruCache :=
  let cache := (c.touch key).set key value
  -- The first key is the one used least recently.
  { c with cache := if c.capacity < cache.length then cache.popFirst else cache }

@[simp] theorem get?_empty (capacity : ℕ) (key : Str) : (empty capacity).get? key = none := rfl

/-- Reading changes no value. -/
@[simp] theorem get?_get (c : LruCache) (key k : Str) : (c.get key).1.get? k = c.get? k := by
  unfold get
  split
  · exact OrderedDict.get?_moveToEnd c.cache key k
  · rfl

/-- `get` returns the value of the key. -/
@[simp] theorem get_snd (c : LruCache) (key : Str) : (c.get key).2 = c.get? key := by
  unfold get
  by_cases h : c.cache.contains key = true
  · rw [if_pos h]
    exact OrderedDict.get?_moveToEnd c.cache key key
  · rw [if_neg h]
    exact (OrderedDict.get?_eq_none_iff.mpr (fun hmem => h (OrderedDict.contains_iff.mpr hmem))).symm

theorem get?_touch (c : LruCache) (key k : Str) : (c.touch key).get? k = c.get? k := by
  unfold touch
  split
  · exact OrderedDict.get?_moveToEnd c.cache key k
  · rfl

/-- **What `set` leaves behind**: the new value under its key, and under other keys nothing new. -/
theorem get?_of_get?_set {c : LruCache} {key value k v : Str} (h : (c.set key value).get? k = some v) :
    (k = key ∧ v = value) ∨ k ≠ key ∧ c.get? k = some v := by
  have hset : ((c.touch key).set key value).get? k = some v := by
    unfold set get? at h
    simp only at h
    split at h
    · exact OrderedDict.get?_of_get?_popFirst h
    · exact h
  rw [OrderedDict.get?_set] at hset
  by_cases hk : key = k
  · rw [if_pos hk] at hset
    exact Or.inl ⟨hk.symm, (Option.some.inj hset).symm⟩
  · rw [if_neg hk, get?_touch] at hset
    exact Or.inr ⟨Ne.symm hk, hset⟩

/-- A new value in an empty cache with room for it. -/
theorem get?_set_empty {capacity : ℕ} (h : 0 < capacity) (key value : Str) :
    ((empty capacity).set key value).get? key = some value := by
  have hroom : ¬ (empty capacity).capacity < (((empty capacity).touch key).set key value).length :=
    Nat.not_lt.mpr h
  unfold set get?
  simp only [if_neg hroom]
  exact OrderedDict.get?_set_self _ key value

end LruCache

end DsDns
