/-
  Cutting `n` items into `k` consecutive parts whose sizes differ by at most one.

  The part `i` is the interval from `cut n k i` to `cut n k (i + 1)`. The cuts run from `0` to `n` and
  never go back (`cut_zero`, `cut_self`, `cut_mono`). For the items of a list, `part` is that interval as a
  list: the parts one after the other are the list (`flatMap_part`), so every item lies in exactly one of
  them (`isBalancedPartition_part`).
-/
import Mathlib.Data.List.Basic
import Mathlib.Data.Nat.Notation
import Mathlib.Order.Nat

namespace DsDns

/-- Where the part `i` begins. The first `n % k` parts have one item more. -/
def cut (n k i : ℕ) : ℕ := n / k * i + min i (n % k)

theorem cut_zero (n k : ℕ) : cut n k 0 = 0 := by
  unfold cut
  omega

theorem cut_self (n : ℕ) {k : ℕ} (hk : 0 < k) : cut n k k = n := by
  have hlt : n % k < k := Nat.mod_lt n hk
  have hdiv : n / k * k + n % k = n := Nat.div_add_mod' n k
  unfold cut
  omega

theorem cut_succ (n k i : ℕ) :
    cut n k (i + 1) = cut n k i + (n / k + if i < n % k then 1 else 0) := by
  unfold cut
  rw [Nat.mul_succ]
  split <;> omega

theorem cut_le_succ (n k i : ℕ) : cut n k i ≤ cut n k (i + 1) := by
  rw [cut_succ]
  exact Nat.le_add_right _ _

theorem cut_mono (n k : ℕ) {i j : ℕ} (h : i ≤ j) : cut n k i ≤ cut n k j := by
  induction j with
  | zero =>
    obtain rfl : i = 0 := by omega
    exact le_refl _
  | succ j ih =>
    rcases Nat.eq_or_lt_of_le h with rfl | hlt
    · exact le_refl _
    · exact (ih (by omega)).trans (cut_le_succ n k j)

/-! ### The parts of a list -/

section Parts

variable {α : Type*}

/-- The part `i` of a list that is cut into `k` parts. -/
def part (xs : List α) (k i : ℕ) : List α :=
  (xs.drop (cut xs.length k i)).take (cut xs.length k (i + 1) - cut xs.length k i)

/-- The lists `parts 0`, ..., `parts (k - 1)` cut `xs` into consecutive parts, the larger ones first. -/
structure IsBalancedPartition (parts : ℕ → List α) (k : ℕ) (xs : List α) : Prop where
  disjoint : ∀ i < k, ∀ j < k, i ≠ j → ∀ x ∈ parts i, x ∉ parts j
  covers : ∀ x, x ∈ xs ↔ ∃ i < k, x ∈ parts i
  /-- Every part begins where those before it end. -/
  consecutive : ∀ i < k, ∃ late, xs = (List.range i).flatMap parts ++ parts i ++ late
  sizes : ∀ i j, i ≤ j → j < k →
    (parts j).length ≤ (parts i).length ∧ (parts i).length ≤ (parts j).length + 1

theorem cut_succ_le {n k i : ℕ} (hi : i < k) : cut n k (i + 1) ≤ n := by
  calc cut n k (i + 1) ≤ cut n k k := cut_mono n k hi
    _ = n := cut_self n (by omega)

theorem length_part (xs : List α) {k i : ℕ} (hi : i < k) :
    (part xs k i).length = xs.length / k + if i < xs.length % k then 1 else 0 := by
  have hle := cut_succ_le (n := xs.length) hi
  have hsize : cut xs.length k (i + 1) - cut xs.length k i =
      xs.length / k + if i < xs.length % k then 1 else 0 := by
    rw [cut_succ, Nat.add_sub_cancel_left]
  unfold part
  rw [List.length_take, List.length_drop, Nat.min_eq_left (by omega), hsize]

/-- The parts up to one, and that one. -/
theorem take_cut_append_part (xs : List α) (k i : ℕ) :
    xs.take (cut xs.length k i) ++ part xs k i = xs.take (cut xs.length k (i + 1)) := by
  have hle := cut_le_succ xs.length k i
  have hsum : cut xs.length k (i + 1) =
      cut xs.length k i + (cut xs.length k (i + 1) - cut xs.length k i) := by omega
  conv_rhs => rw [hsum, List.take_add]
  rfl

/-- The first parts are the beginning of the list. -/
theorem flatMap_part (xs : List α) (k m : ℕ) :
    (List.range m).flatMap (part xs k) = xs.take (cut xs.length k m) := by
  induction m with
  | zero =>
    rw [cut_zero]
    rfl
  | succ m ih =>
    rw [List.range_succ, List.flatMap_append, ih, List.flatMap_singleton, take_cut_append_part]

theorem part_consecutive (xs : List α) {k i : ℕ} :
    xs = (List.range i).flatMap (part xs k) ++ part xs k i ++ xs.drop (cut xs.length k (i + 1)) := by
  rw [flatMap_part, take_cut_append_part, List.take_append_drop]

/-- **The parts are a balanced partition** of a list without duplicates. -/
theorem isBalancedPartition_part {xs : List α} (hnodup : xs.Nodup) {k : ℕ} (hk : 0 < k) :
    IsBalancedPartition (part xs k) k xs := by
  -- The earlier of two parts stands in front of the later one.
  have hlt : ∀ i j, i < j → ∀ x ∈ part xs k i, x ∉ part xs k j := by
    intro i j hij x hi hj
    have hfront : x ∈ (List.range j).flatMap (part xs k) :=
      List.mem_flatMap.mpr ⟨i, List.mem_range.mpr hij, hi⟩
    rw [part_consecutive xs (k := k) (i := j)] at hnodup
    exact (List.nodup_append.mp (List.nodup_append.mp hnodup).1).2.2 x hfront x hj rfl
  constructor
  · intro i _ j _ hne x hi hj
    rcases Nat.lt_or_gt_of_ne hne with hij | hji
    · exact hlt i j hij x hi hj
    · exact hlt j i hji x hj hi
  · intro x
    have hall : (List.range k).flatMap (part xs k) = xs := by
      rw [flatMap_part, cut_self xs.length hk, List.take_length]
    conv_lhs => rw [← hall]
    simp only [List.mem_flatMap, List.mem_range]
  · exact fun i _ => ⟨_, part_consecutive xs⟩
  · intro i j hij hj
    rw [length_part xs (show i < k by omega), length_part xs hj]
    split <;> split <;> omega

/-- Only the `k` parts matter. -/
theorem IsBalancedPartition.congr {parts parts' : ℕ → List α} {k : ℕ} {xs : List α}
    (h : IsBalancedPartition parts k xs) (heq : ∀ i < k, parts' i = parts i) :
    IsBalancedPartition parts' k xs := by
  constructor
  · intro i hi j hj hne x
    rw [heq i hi, heq j hj]
    exact h.disjoint i hi j hj hne x
  · intro x
    rw [h.covers]
    exact exists_congr fun i => and_congr_right fun hi => by rw [heq i hi]
  · intro i hi
    have hfront : (List.range i).flatMap parts' = (List.range i).flatMap parts :=
      List.flatMap_congr fun j hj => heq j ((List.mem_range.mp hj).trans hi)
    rw [hfront, heq i hi]
    exact h.consecutive i hi
  · intro i j hij hj
    rw [heq i (by omega), heq j hj]
    exact h.sizes i j hij hj

theorem part_map {β : Type*} (f : α → β) (xs : List α) (k i : ℕ) :
    part (xs.map f) k i = (part xs k i).map f := by
  unfold part
  rw [List.length_map, List.map_take, List.map_drop]

end Parts

end DsDns
