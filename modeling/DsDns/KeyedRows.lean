/-
  Rows with a key, and writing one over the rows of its key.

  `upsert key x xs` replaces every row of `xs` with the key of `x` by `x`, or appends `x` if there is none.
  Writing the same row again changes nothing (`upsert_upsert`). Rows of different keys may be written in
  either order: the results are the same but for the order of two new rows at the end (`upsert_comm_cases`).
-/
import Mathlib.Data.List.Basic
import Mathlib.Tactic.TypeStar

namespace DsDns

section KeyedRows

variable {α κ : Type*} [DecidableEq κ] {key : α → κ}

/-- `x` in place of a row with its key. -/
def overwrite (key : α → κ) (x y : α) : α := if key y = key x then x else y

/-- Replace every row with the key of `x` by `x`, or append `x`. -/
def upsert (key : α → κ) (x : α) (xs : List α) : List α :=
  if key x ∈ xs.map key then xs.map (overwrite key x) else xs ++ [x]

theorem key_overwrite (x y : α) : key (overwrite key x y) = key y := by
  unfold overwrite
  split
  · rename_i h
    exact h.symm
  · rfl

theorem overwrite_overwrite (x y : α) : overwrite key x (overwrite key x y) = overwrite key x y := by
  unfold overwrite
  split <;> simp_all

theorem overwrite_comm {x y : α} (h : key x ≠ key y) (z : α) :
    overwrite key x (overwrite key y z) = overwrite key y (overwrite key x z) := by
  by_cases hx : key z = key x
  · have hy : key z ≠ key y := fun he => h (hx.symm.trans he)
    simp only [overwrite, if_pos hx, if_neg hy, if_neg h]
  · by_cases hy : key z = key y
    · simp only [overwrite, if_pos hy, if_neg hx, if_neg (Ne.symm h)]
    · simp only [overwrite, if_neg hx, if_neg hy]

theorem overwrite_of_ne {x y : α} (h : key y ≠ key x) : overwrite key x y = y := if_neg h

theorem map_key_overwrite (x : α) (xs : List α) : (xs.map (overwrite key x)).map key = xs.map key := by
  rw [List.map_map]
  exact List.map_congr_left fun y _ => key_overwrite x y

/-- Rows of other keys stay. -/
theorem map_overwrite_of_not_mem {x : α} {xs : List α} (h : key x ∉ xs.map key) :
    xs.map (overwrite key x) = xs := by
  have hid : ∀ y ∈ xs, overwrite key x y = y := by
    intro y hy
    apply overwrite_of_ne
    intro he
    exact h (he ▸ List.mem_map_of_mem hy)
  rw [List.map_congr_left hid, List.map_id']

theorem upsert_of_mem {x : α} {xs : List α} (h : key x ∈ xs.map key) :
    upsert key x xs = xs.map (overwrite key x) := if_pos h

theorem upsert_of_not_mem {x : α} {xs : List α} (h : key x ∉ xs.map key) : upsert key x xs = xs ++ [x] :=
  if_neg h

theorem mem_map_key_upsert {x : α} {xs : List α} {k : κ} :
    k ∈ (upsert key x xs).map key ↔ k = key x ∨ k ∈ xs.map key := by
  by_cases hx : key x ∈ xs.map key
  · rw [upsert_of_mem hx, map_key_overwrite]
    constructor
    · exact Or.inr
    · rintro (rfl | hk)
      · exact hx
      · exact hk
  · rw [upsert_of_not_mem hx, List.map_append, List.mem_append, List.map_singleton, List.mem_singleton, or_comm]

/-- A row of the result is the new row, or an old one of another key. -/
theorem eq_or_mem_of_mem_upsert {x z : α} {xs : List α} (h : z ∈ upsert key x xs) :
    z = x ∨ z ∈ xs ∧ key z ≠ key x := by
  by_cases hx : key x ∈ xs.map key
  · rw [upsert_of_mem hx] at h
    obtain ⟨y, hy, rfl⟩ := List.mem_map.mp h
    by_cases hk : key y = key x
    · exact Or.inl (if_pos hk)
    · rw [overwrite_of_ne hk]
      exact Or.inr ⟨hy, hk⟩
  · rw [upsert_of_not_mem hx, List.mem_append, List.mem_singleton] at h
    rcases h with hz | rfl
    · exact Or.inr ⟨hz, fun he => hx (he ▸ List.mem_map_of_mem hz)⟩
    · exact Or.inl rfl

/-- **Writing a row again changes nothing.** -/
theorem upsert_upsert (x : α) (xs : List α) : upsert key x (upsert key x xs) = upsert key x xs := by
  rw [upsert_of_mem (mem_map_key_upsert.mpr (Or.inl rfl))]
  by_cases hx : key x ∈ xs.map key
  · rw [upsert_of_mem hx, List.map_map]
    exact List.map_congr_left fun y _ => overwrite_overwrite x y
  · rw [upsert_of_not_mem hx, List.map_append, map_overwrite_of_not_mem hx]
    exact congrArg (xs ++ [·]) (if_pos rfl)

/-- Appending one row and then overwriting with another. -/
theorem upsert_append_singleton {x y : α} (h : key x ≠ key y) {xs : List α} (hx : key x ∈ xs.map key) :
    upsert key x (xs ++ [y]) = xs.map (overwrite key x) ++ [y] := by
  have hmem : key x ∈ (xs ++ [y]).map key := by
    rw [List.map_append]
    exact List.mem_append_left _ hx
  rw [upsert_of_mem hmem, List.map_append, List.map_singleton, overwrite_of_ne (Ne.symm h)]

/-- **Rows of different keys commute**, but for the order of two rows that are both new. -/
theorem upsert_comm_cases {x y : α} (h : key x ≠ key y) (xs : List α) :
    upsert key x (upsert key y xs) = upsert key y (upsert key x xs) ∨
      upsert key x (upsert key y xs) = xs ++ [y, x] ∧ upsert key y (upsert key x xs) = xs ++ [x, y] := by
  by_cases hx : key x ∈ xs.map key
  · left
    by_cases hy : key y ∈ xs.map key
    · have hx' : key x ∈ (xs.map (overwrite key y)).map key := by rwa [map_key_overwrite]
      have hy' : key y ∈ (xs.map (overwrite key x)).map key := by rwa [map_key_overwrite]
      rw [upsert_of_mem hx, upsert_of_mem hy, upsert_of_mem hx', upsert_of_mem hy', List.map_map, List.map_map]
      exact List.map_congr_left fun z _ => overwrite_comm h z
    · have hy' : key y ∉ (xs.map (overwrite key x)).map key := by rwa [map_key_overwrite]
      rw [upsert_of_not_mem hy, upsert_append_singleton h hx, upsert_of_mem hx, upsert_of_not_mem hy']
  · by_cases hy : key y ∈ xs.map key
    · left
      have hx' : key x ∉ (xs.map (overwrite key y)).map key := by rwa [map_key_overwrite]
      rw [upsert_of_not_mem hx, upsert_append_singleton (Ne.symm h) hy, upsert_of_mem hy, upsert_of_not_mem hx']
    · right
      have hx' : key x ∉ (xs ++ [y]).map key := by
        rw [List.map_append, List.mem_append, List.map_singleton, List.mem_singleton]
        exact not_or.mpr ⟨hx, h⟩
      have hy' : key y ∉ (xs ++ [x]).map key := by
        rw [List.map_append, List.mem_append, List.map_singleton, List.mem_singleton]
        exact not_or.mpr ⟨hy, Ne.symm h⟩
      rw [upsert_of_not_mem hy, upsert_of_not_mem hx', upsert_of_not_mem hx, upsert_of_not_mem hy']
      exact ⟨List.append_assoc xs [y] [x], List.append_assoc xs [x] [y]⟩

theorem upsert_comm_perm {x y : α} (h : key x ≠ key y) (xs : List α) :
    (upsert key x (upsert key y xs)).Perm (upsert key y (upsert key x xs)) := by
  rcases upsert_comm_cases h xs with heq | ⟨hyx, hxy⟩
  · rw [heq]
  · rw [hyx, hxy]
    exact List.Perm.append_left xs (List.Perm.swap x y [])

end KeyedRows

end DsDns
