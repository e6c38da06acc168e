/-
  The leases of `caches/l2_cache.py` over a run of commands.

  An event is a line and the time at which `process_command` runs on it. `L2.Granted` is the answer
  `LEASE;GRANTED` to a key that is not cached, which is the only answer that creates a lease, and
  `L2.LeasedSince` is what the history has to say for a key to be leased.
-/
import DsDns.Caches.Server
import DsDns.History

namespace DsDns

/-- An empty `CACHE` and an empty `lease_map`. -/
def L2Cache.start (capacity : ℕ) : L2Cache :=
  { cache := .empty capacity, leaseMap := fun _ => none }

/-- No key is in both `CACHE` and `lease_map`. -/
def L2Cache.Apart (s : L2Cache) : Prop :=
  ∀ k, ¬ (k ∈ s.cache.cache.keys ∧ (s.leaseMap k).isSome)

namespace L2

variable [Unicode]

/-- The state after `process_command` has run on a line. -/
def step (s : L2Cache) (e : Time × Str) : L2Cache := (processCommand e.1 s e.2).1

/-- What `process_command` returns for a line. -/
def answer (s : L2Cache) (e : Time × Str) : Str := (processCommand e.1 s e.2).2

/-- The line is a well-formed `SET` of the key. -/
def Sets (k : Str) (_ : L2Cache) (e : Time × Str) : Prop := ∃ v, parseCommand e.2 = .set k v

/-- At the time `t`, a `GET` of the key, which is not cached, is answered `LEASE;GRANTED`. -/
def Granted (k : Str) (s : L2Cache) (e : Time × Str) (t : Time) : Prop :=
  parseCommand e.2 = .get k ∧ s.cache.get? k = none ∧ answer s e = "LEASE;GRANTED".toList ∧ e.1 = t

/-- The lease of the key was granted last at the time `t`, and the key was not `SET` since. -/
def LeasedSince (k : Str) (s : L2Cache) (es : List (Time × Str)) (t : Time) : Prop :=
  Since (Granted k) (Sets k) step s es t

end L2

end DsDns
