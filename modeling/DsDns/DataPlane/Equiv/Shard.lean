/-
  The shards of `k` ranks partition the alphabet.

  `updateRecordSet` cuts the alphabet by integer division and slicing, with Python's rules for
  negative numbers. For a rank between 1 and `lastRank` the result is a part in the sense of
  `DsDns.BalancedPartition` (`shardLetters_eq`), so `k` nodes with the ranks `1` to `k` own every letter
  exactly once.
-/
import DsDns.BalancedPartition
import DsDns.DataPlane.Shard
import Mathlib.Data.List.Nodup

namespace DsDns

theorem sliceIndex_of_le {len i : ℕ} (h : i ≤ len) : sliceIndex len i = i := by
  unfold sliceIndex
  rw [if_neg (by omega), Int.toNat_natCast]
  exact Nat.min_eq_left h

theorem slice_eq {s : Str} {i j : ℕ} (hj : j ≤ s.length) (hij : i ≤ j) :
    slice s i j = (s.drop i).take (j - i) := by
  unfold slice
  rw [sliceIndex_of_le hj, sliceIndex_of_le (hij.trans hj)]

/-- **The letters of a rank** are those of its part of the alphabet. -/
theorem shardLetters_eq {r k : ℕ} (hr : r < k) : shardLetters (r + 1) k = part (letters alphabet) k r := by
  -- On a positive `k` Python's floor division is the one of the natural numbers.
  have hdiv : totalLetters.fdiv k = ((26 / k : ℕ) : ℤ) := by
    show (26 : ℤ).fdiv k = _
    rw [Int.fdiv_eq_ediv_of_nonneg _ (Int.natCast_nonneg k)]
    rfl
  have hmod : totalLetters.fmod k = ((26 % k : ℕ) : ℤ) := by
    show (26 : ℤ).fmod k = _
    rw [Int.fmod_eq_emod_of_nonneg _ (Int.natCast_nonneg k)]
    rfl
  have hstart : totalLetters.fdiv k * ((r : ℤ) + 1 - 1) + min ((r : ℤ) + 1 - 1) (totalLetters.fmod k) =
      ((cut 26 k r : ℕ) : ℤ) := by
    have hmin : min (r : ℤ) ((26 % k : ℕ) : ℤ) = ((min r (26 % k) : ℕ) : ℤ) := by omega
    rw [hdiv, hmod, cut, Int.add_sub_cancel, hmin, Int.natCast_add, Int.natCast_mul]
  -- The first `26 % k` ranks have one letter more, and those are the ranks up to the remainder.
  have hstop : ((cut 26 k r : ℕ) : ℤ) +
      (totalLetters.fdiv k + if (r : ℤ) + 1 ≤ totalLetters.fmod k then 1 else 0) =
      ((cut 26 k (r + 1) : ℕ) : ℤ) := by
    rw [hdiv, hmod, cut_succ]
    by_cases h : r < 26 % k
    · rw [if_pos h, if_pos (by omega)]
      push_cast
      rfl
    · rw [if_neg h, if_neg (by omega)]
      push_cast
      rfl
  have hle : cut 26 k (r + 1) ≤ alphabet.length := cut_succ_le hr
  unfold shardLetters
  simp only [hstart, hstop]
  rw [slice_eq hle (cut_le_succ 26 k r)]
  exact (part_map _ alphabet k r).symm

theorem letters_alphabet_nodup : (letters alphabet).Nodup := by decide

/-- **The shards of the ranks** from 1 to `k` are a balanced partition of the letters. -/
theorem isBalancedPartition_shardLetters {k : ℕ} (hk : 0 < k) :
    IsBalancedPartition (fun r => shardLetters (r + 1) k) k (letters alphabet) := by
  exact (isBalancedPartition_part letters_alphabet_nodup hk).congr fun r hr => shardLetters_eq hr

/-- The shards of two ranks share no letter. -/
theorem shardLetters_disjoint {r s k : ℕ} (hr : r < k) (hs : s < k) (hne : r ≠ s) {l : Str}
    (h : l ∈ shardLetters (r + 1) k) : l ∉ shardLetters (s + 1) k :=
  (isBalancedPartition_shardLetters (by omega)).disjoint r hr s hs hne l h

/-- Every letter belongs to the shard of some rank. -/
theorem exists_shardLetters {k : ℕ} (hk : 0 < k) {l : Str} (h : l ∈ letters alphabet) :
    ∃ r < k, l ∈ shardLetters (r + 1) k :=
  ((isBalancedPartition_shardLetters hk).covers l).mp h

/-- A shard holds letters of the alphabet only. -/
theorem shardLetters_subset {r k : ℕ} (hr : r < k) {l : Str} (h : l ∈ shardLetters (r + 1) k) :
    l ∈ letters alphabet :=
  ((isBalancedPartition_shardLetters (by omega)).covers l).mpr ⟨r, hr, h⟩

/-- Whatever the counters are, a shard consists of letters. -/
theorem recordSet_subset {c : ℕ} {r k : ℤ} {l : Str} (h : l ∈ recordSet c r k) :
    l ∈ letters alphabet := by
  unfold recordSet at h
  split at h
  · exact h
  · split at h
    · exact absurd h (by simp)
    · obtain ⟨x, hx, rfl⟩ := List.mem_map.mp h
      exact List.mem_map.mpr ⟨x, List.mem_of_mem_drop (List.mem_of_mem_take hx), rfl⟩

end DsDns
