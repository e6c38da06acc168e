/-
  The calls of an `LRUCache`, and what they say about its keys.

  A call touches a key if it assigns to it or finds it. Whether a `get` finds its key depends on what was
  evicted before, so the touches of a sequence of calls (`touches`) are taken along the run.
-/
import DsDns.Caches.Lru
import DsDns.KeyedStore
import DsDns.Recency
import DsDns.Transition

namespace DsDns

/-- A call of `LRUCache.get` or `LRUCache.set`. -/
inductive CacheCall
  | get (key : Str)
  | set (key value : Str)
  deriving DecidableEq

/-- The assignment the call makes. -/
def CacheCall.write : CacheCall → Option (Str × Str)
  | get _ => none
  | set key value => some (key, value)

namespace LruCache

/-- The cache after a call. -/
def step (c : LruCache) : CacheCall → LruCache
  | .get key => (c.get key).1
  | .set key value => c.set key value

/-- The key a call touches: a `get` only if it hits. -/
def touched (c : LruCache) : CacheCall → Option Str
  | .get key => if (c.get key).2.isSome then some key else none
  | .set key _ => some key

/-- The keys a sequence of calls touches, in order. -/
def touches (c : LruCache) : List CacheCall → List Str
  | [] => []
  | call :: calls => (c.touched call).toList ++ (c.step call).touches calls

theorem touches_concat (c : LruCache) (calls : List CacheCall) (call : CacheCall) :
    c.touches (calls ++ [call]) = c.touches calls ++ ((run step c calls).touched call).toList := by
  induction calls generalizing c with
  | nil => simp [touches]
  | cons first calls ih =>
    rw [List.cons_append, touches, touches, ih, run_cons, List.append_assoc]

end LruCache

end DsDns
