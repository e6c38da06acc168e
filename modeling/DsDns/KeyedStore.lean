/-
  Stores of keyed values written by a sequence of bindings.

  A store is a function from keys to optional values. A write is an optional binding: `none` writes
  nothing. `foldl_put_apply` is the one fact everything else follows from: after any sequence of
  writes a key has the value of the last write that binds it, and the old value if none does.
-/
import Mathlib.Data.List.Basic
import Mathlib.Tactic.TypeStar

namespace DsDns

section KeyedStore

variable {κ ν : Type*} [DecidableEq κ]

/-- Perform one write. -/
def put (store : κ → Option ν) (w : Option (κ × ν)) : κ → Option ν :=
  match w with
  | none => store
  | some (k, v) => fun x => if x = k then some v else store x

/-- The value a write gives to the key `k`, if it binds it. -/
def boundValue (k : κ) (w : Option (κ × ν)) : Option ν :=
  match w with
  | none => none
  | some (k', v) => if k = k' then some v else none

/-- The value of the last write that binds `k`. -/
def lastWrite (k : κ) (ws : List (Option (κ × ν))) : Option ν :=
  (ws.filterMap (boundValue k)).getLast?

@[simp] theorem put_none (store : κ → Option ν) : put store none = store := rfl

theorem put_some_self (store : κ → Option ν) (k : κ) (v : ν) : put store (some (k, v)) k = some v :=
  if_pos rfl

theorem put_some_apply (store : κ → Option ν) (k k' : κ) (v : ν) :
    put store (some (k, v)) k' = if k' = k then some v else store k' := rfl

/-- Writes that bind different keys may change places. -/
theorem put_comm {b b' : Option (κ × ν)} (h : ∀ k ∈ b.map Prod.fst, ∀ k' ∈ b'.map Prod.fst, k ≠ k')
    (store : κ → Option ν) : put (put store b') b = put (put store b) b' := by
  rcases b with _ | ⟨k, v⟩
  · rfl
  rcases b' with _ | ⟨k', v'⟩
  · rfl
  ext1 x
  have hne : k ≠ k' := h k rfl k' rfl
  simp only [put_some_apply]
  by_cases hx : x = k
  · rw [if_pos hx, if_pos hx, if_neg (hx ▸ hne)]
  · rw [if_neg hx, if_neg hx]

theorem put_apply (store : κ → Option ν) (w : Option (κ × ν)) (k : κ) :
    put store w k = (boundValue k w).or (store k) := by
  rcases w with _ | ⟨k', v⟩
  · rfl
  · show (if k = k' then some v else store k) = _
    rw [boundValue]
    split <;> rfl

/-- A value after a write was there before, or is the one written. -/
theorem eq_or_of_put_eq_some {store : κ → Option ν} {w : Option (κ × ν)} {k : κ} {v : ν}
    (h : put store w k = some v) : store k = some v ∨ w = some (k, v) := by
  rcases w with _ | ⟨k', v'⟩
  · exact Or.inl h
  · rw [put_some_apply] at h
    split at h
    · rename_i hk
      rw [hk, Option.some.inj h]
      exact Or.inr rfl
    · exact Or.inl h

/-- Two writes with the same effect on every store are the same. -/
theorem eq_of_put_eq {w w' : Option (κ × ν)}
    (h : ∀ store : κ → Option ν, put store w = put store w') : w = w' := by
  have hempty := fun k => congrFun (h fun _ => none) k
  rcases w with _ | ⟨k, v⟩ <;> rcases w' with _ | ⟨k', v'⟩
  · rfl
  · have hk := hempty k'
    rw [put_some_self] at hk
    exact absurd hk (by simp)
  · have hk := hempty k
    rw [put_some_self] at hk
    exact absurd hk (by simp)
  · have hk := hempty k
    rw [put_some_self] at hk
    change some v = if k = k' then some v' else none at hk
    split at hk
    · rename_i he
      rw [he, Option.some.inj hk]
    · exact absurd hk (by simp)

@[simp] theorem lastWrite_nil (k : κ) : lastWrite k ([] : List (Option (κ × ν))) = none := rfl

theorem lastWrite_append (k : κ) (ws vs : List (Option (κ × ν))) :
    lastWrite k (ws ++ vs) = (lastWrite k vs).or (lastWrite k ws) := by
  rw [lastWrite, List.filterMap_append, List.getLast?_append]
  rfl

theorem lastWrite_singleton (k : κ) (w : Option (κ × ν)) : lastWrite k [w] = boundValue k w := by
  rw [lastWrite, List.filterMap_cons]
  cases boundValue k w <;> rfl

theorem lastWrite_cons (k : κ) (w : Option (κ × ν)) (ws : List (Option (κ × ν))) :
    lastWrite k (w :: ws) = (lastWrite k ws).or (boundValue k w) := by
  rw [← List.singleton_append, lastWrite_append, lastWrite_singleton]

/-- **Last write wins.** -/
theorem foldl_put_apply (ws : List (Option (κ × ν))) (store : κ → Option ν) (k : κ) :
    ws.foldl put store k = (lastWrite k ws).or (store k) := by
  induction ws generalizing store with
  | nil => rfl
  | cons w ws ih => rw [List.foldl_cons, ih, put_apply, lastWrite_cons, Option.or_assoc]

theorem boundValue_eq_none_iff {k : κ} {w : Option (κ × ν)} :
    boundValue k w = none ↔ ∀ v, w ≠ some (k, v) := by
  rcases w with _ | ⟨k', v⟩
  · simp [boundValue]
  · rw [boundValue]
    split
    · rename_i h
      subst h
      simp
    · rename_i h
      simpa using fun e => absurd e.symm h

theorem lastWrite_eq_none_iff {k : κ} {ws : List (Option (κ × ν))} :
    lastWrite k ws = none ↔ ∀ v, some (k, v) ∉ ws := by
  rw [lastWrite, List.getLast?_eq_none_iff, List.filterMap_eq_nil_iff]
  constructor
  · intro h v hv
    exact boundValue_eq_none_iff.mp (h _ hv) v rfl
  · intro h w hw
    exact boundValue_eq_none_iff.mpr fun v e => h v (e ▸ hw)

/-- Two sequences of writes that give `k` the same values have the same last one. -/
theorem lastWrite_congr {α : Type*} {k : κ} {f g : α → Option (κ × ν)} {xs : List α}
    (h : ∀ x ∈ xs, boundValue k (f x) = boundValue k (g x)) :
    lastWrite k (xs.map f) = lastWrite k (xs.map g) := by
  rw [lastWrite, lastWrite, List.filterMap_map, List.filterMap_map]
  exact congrArg List.getLast? (List.filterMap_congr h)

/-- Two writes of which one does not bind the key may trade places. -/
theorem lastWrite_swap {k : κ} {w w' : Option (κ × ν)} (h : boundValue k w = none ∨ boundValue k w' = none)
    (ws : List (Option (κ × ν))) : lastWrite k (ws ++ [w, w']) = lastWrite k (ws ++ [w', w]) := by
  have hpair : ∀ a b : Option (κ × ν), lastWrite k [a, b] = (boundValue k b).or (boundValue k a) := by
    intro a b
    rw [lastWrite_cons, lastWrite_singleton]
  rw [lastWrite_append, lastWrite_append, hpair, hpair]
  rcases h with h | h
  · rw [h, Option.or_none, Option.none_or]
  · rw [h, Option.or_none, Option.none_or]

/-- The last value comes from one of the writes. -/
theorem mem_of_lastWrite_eq_some {k : κ} {v : ν} {ws : List (Option (κ × ν))}
    (h : lastWrite k ws = some v) : some (k, v) ∈ ws := by
  induction ws with
  | nil => exact absurd h (by simp)
  | cons w ws ih =>
    rw [lastWrite_cons] at h
    cases hl : lastWrite k ws with
    | some v' =>
      rw [hl, Option.some_or] at h
      exact List.mem_cons_of_mem _ (ih (hl.trans h))
    | none =>
      rw [hl, Option.none_or] at h
      rcases w with _ | ⟨k', v'⟩
      · exact absurd h (by simp [boundValue])
      · rw [boundValue] at h
        split at h
        · rename_i hk
          rw [hk, Option.some.inj h]
          exact List.mem_cons_self
        · exact absurd h (by simp)

end KeyedStore

end DsDns
