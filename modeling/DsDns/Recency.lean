/-
  The order of last use.

  A list of uses, oldest first, puts the values used into an order: a value comes before another if its
  last use does (`UsedBefore`). That order is `List.dedup`, which keeps the last occurrence of every
  value, and `recent n` are the `n` values at its end.

  `recent_concat_of_mem` and `recent_concat_of_not_mem` say what one more use does to them, which is what a
  bounded list with moving to the end and dropping from the front has to do. `mem_recent_iff` is the
  declarative side: a value is among the `n` most recent exactly if fewer than `n` others were used
  since its own last use.
-/
import Mathlib.Data.List.Dedup
import Mathlib.Data.List.DropRight
import Mathlib.Tactic.TypeStar

namespace DsDns

variable {κ : Type*}

/-- A value that was used was used last. -/
theorem exists_last_use {uses : List κ} {k : κ} (h : k ∈ uses) :
    ∃ early late, uses = early ++ k :: late ∧ k ∉ late := by
  obtain ⟨late, early, hsplit, hk⟩ := List.eq_append_cons_of_mem (List.mem_reverse.mpr h)
  refine ⟨early.reverse, late.reverse, ?_, fun hmem => hk (List.mem_reverse.mp hmem)⟩
  have hreverse := congrArg List.reverse hsplit
  rw [List.reverse_reverse, List.reverse_append, List.reverse_cons, List.append_assoc] at hreverse
  exact hreverse

/-- The last use of `a` is older than the last use of `b`. -/
def UsedBefore (uses : List κ) (a b : κ) : Prop :=
  ∃ early late, uses = early ++ a :: late ∧ a ∉ late ∧ b ∈ late

theorem UsedBefore.cons {uses : List κ} {a b : κ} (h : UsedBefore uses a b) (k : κ) :
    UsedBefore (k :: uses) a b := by
  obtain ⟨early, late, rfl, ha, hb⟩ := h
  exact ⟨k :: early, late, rfl, ha, hb⟩

/-! ### The end of a list -/

/-- Longer lists have the same end. -/
theorem rtake_append_of_le {n : ℕ} {xs ys : List κ} (h : n ≤ ys.length) :
    (xs ++ ys).rtake n = ys.rtake n := by
  unfold List.rtake
  have hlength : (xs ++ ys).length - n = xs.length + (ys.length - n) := by
    rw [List.length_append]
    omega
  rw [hlength, List.drop_length_add_append]

theorem rtake_of_length_le {n : ℕ} {xs : List κ} (h : xs.length ≤ n) : xs.rtake n = xs := by
  unfold List.rtake
  have hzero : xs.length - n = 0 := by omega
  rw [hzero, List.drop_zero]

theorem length_rtake (n : ℕ) (xs : List κ) : (xs.rtake n).length = min n xs.length := by
  unfold List.rtake
  rw [List.length_drop]
  omega

/-- Keeping `n` of `n + 1` values drops the first. -/
theorem rtake_of_length_succ {n : ℕ} {xs : List κ} (h : xs.length = n + 1) : xs.rtake n = xs.tail := by
  unfold List.rtake
  have hone : xs.length - n = 1 := by omega
  rw [hone, List.drop_one]

/-- A value of a list without repetitions is among the last `n` exactly if fewer than `n` follow it. -/
theorem mem_rtake_iff {n : ℕ} {xs ys : List κ} {k : κ} (h : (xs ++ k :: ys).Nodup) :
    k ∈ (xs ++ k :: ys).rtake n ↔ ys.length < n := by
  constructor
  · intro hk
    by_contra hle
    have hys : n ≤ ys.length := by omega
    rw [← List.singleton_append, ← List.append_assoc, rtake_append_of_le hys] at hk
    have hmem : k ∈ ys := List.mem_of_mem_drop hk
    exact (List.nodup_cons.mp (List.nodup_append.mp h).2.1).1 hmem
  · intro hlt
    have hcut : (xs ++ k :: ys).length - n ≤ xs.length := by
      rw [List.length_append, List.length_cons]
      omega
    show k ∈ (xs ++ k :: ys).drop ((xs ++ k :: ys).length - n)
    rw [List.drop_append_of_le_length hcut]
    exact List.mem_append_right _ List.mem_cons_self

variable [DecidableEq κ]

/-! ### One more use -/

/-- A use moves its value to the end. -/
theorem dedup_concat (uses : List κ) (k : κ) :
    (uses ++ [k]).dedup = (uses.dedup.filter fun x => x ≠ k) ++ [k] := by
  induction uses with
  | nil => rfl
  | cons x uses ih =>
    rw [List.cons_append]
    by_cases hx : x ∈ uses
    · rw [List.dedup_cons_of_mem (List.mem_append_left _ hx), List.dedup_cons_of_mem hx, ih]
    · rw [List.dedup_cons_of_notMem hx]
      by_cases hk : x = k
      · subst hk
        rw [List.dedup_cons_of_mem (by simp), ih, List.filter_cons_of_neg (by simp)]
      · rw [List.dedup_cons_of_notMem (by simp [hx, hk]), ih, List.filter_cons_of_pos (by simpa using hk)]
        rfl

/-- What follows the last use of a value follows it in the order. -/
theorem dedup_append_cons {k : κ} {late : List κ} (h : k ∉ late) (early : List κ) :
    ∃ xs, (early ++ k :: late).dedup = xs ++ k :: late.dedup := by
  induction early with
  | nil => exact ⟨[], List.dedup_cons_of_notMem h⟩
  | cons x early ih =>
    obtain ⟨xs, hxs⟩ := ih
    rw [List.cons_append, List.dedup_cons]
    split
    · exact ⟨xs, hxs⟩
    · exact ⟨x :: xs, by rw [hxs]; rfl⟩

/-- **The order of last use.** -/
theorem dedup_pairwise (uses : List κ) : uses.dedup.Pairwise (UsedBefore uses) := by
  induction uses with
  | nil => exact List.Pairwise.nil
  | cons k uses ih =>
    have hold : uses.dedup.Pairwise (UsedBefore (k :: uses)) := ih.imp fun h => h.cons k
    by_cases hk : k ∈ uses
    · rw [List.dedup_cons_of_mem hk]
      exact hold
    · rw [List.dedup_cons_of_notMem hk]
      refine List.Pairwise.cons (fun x hx => ?_) hold
      exact ⟨[], uses, rfl, hk, List.mem_dedup.mp hx⟩

/-! ### The values used most recently -/

/-- The `n` values used most recently, in the order of their last uses. -/
def recent (n : ℕ) (uses : List κ) : List κ := uses.dedup.rtake n

theorem recent_nil (n : ℕ) : recent n ([] : List κ) = [] := List.rtake_nil n

theorem recent_suffix (n : ℕ) (uses : List κ) : recent n uses <:+ uses.dedup := List.drop_suffix _ _

theorem recent_nodup (n : ℕ) (uses : List κ) : (recent n uses).Nodup :=
  (List.nodup_dedup uses).sublist (recent_suffix n uses).sublist

theorem length_recent_le (n : ℕ) (uses : List κ) : (recent n uses).length ≤ n := by
  unfold recent
  rw [length_rtake]
  omega

/-- The order is some older values and then the recent ones; there are older ones only if the recent
ones are `n`. -/
theorem dedup_eq_append_recent (n : ℕ) (uses : List κ) :
    ∃ older, uses.dedup = older ++ recent n uses ∧ (older = [] ∨ (recent n uses).length = n) := by
  obtain ⟨older, holder⟩ := recent_suffix n uses
  refine ⟨older, holder.symm, ?_⟩
  have hlength : (recent n uses).length = min n uses.dedup.length := length_rtake n _
  have hsum : older.length + (recent n uses).length = uses.dedup.length := by
    rw [← List.length_append, holder]
  by_cases hn : n ≤ uses.dedup.length
  · right
    omega
  · left
    apply List.length_eq_zero_iff.mp
    omega

/-- Another use of a recent value moves it to the end. -/
theorem recent_concat_of_mem {n : ℕ} {uses : List κ} {k : κ} (h : k ∈ recent n uses) :
    recent n (uses ++ [k]) = ((recent n uses).filter fun x => x ≠ k) ++ [k] := by
  obtain ⟨older, hsplit, hfull⟩ := dedup_eq_append_recent n uses
  have hnodup : (older ++ recent n uses).Nodup := hsplit ▸ List.nodup_dedup uses
  have hk : k ∉ older := fun hold => (List.nodup_append.mp hnodup).2.2 k hold k h rfl
  have holder : (older.filter fun x => x ≠ k) = older := by
    apply List.filter_eq_self.mpr
    intro x hx
    simpa using fun he : x = k => hk (he ▸ hx)
  -- One value is taken out and put back, so the length does not change.
  have hlength : (((recent n uses).filter fun x => x ≠ k) ++ [k]).length = (recent n uses).length := by
    have herase : ((recent n uses).filter fun x => x ≠ k) = (recent n uses).erase k := by
      rw [(recent_nodup n uses).erase_eq_filter]
      apply List.filter_congr
      intro x _
      rw [bne, decide_not]
      rfl
    have hpos := List.length_pos_of_mem h
    rw [List.length_append, herase, List.length_erase_of_mem h, List.length_singleton]
    omega
  show ((uses ++ [k]).dedup).rtake n = _
  rw [dedup_concat, hsplit, List.filter_append, holder, List.append_assoc]
  rcases hfull with rfl | hfull
  · rw [List.nil_append]
    apply rtake_of_length_le
    rw [hlength]
    exact length_recent_le n uses
  · rw [rtake_append_of_le (by omega)]
    apply rtake_of_length_le
    omega

/-- The use of another value puts it at the end, and drops the first if there is no room. -/
theorem recent_concat_of_not_mem {n : ℕ} {uses : List κ} {k : κ} (h : k ∉ recent n uses) :
    recent n (uses ++ [k]) = (recent n uses ++ [k]).rtake n := by
  obtain ⟨older, hsplit, hfull⟩ := dedup_eq_append_recent n uses
  have hrecent : ((recent n uses).filter fun x => x ≠ k) = recent n uses := by
    apply List.filter_eq_self.mpr
    intro x hx
    simpa using fun he : x = k => h (he ▸ hx)
  show ((uses ++ [k]).dedup).rtake n = _
  rw [dedup_concat, hsplit, List.filter_append, hrecent, List.append_assoc]
  rcases hfull with rfl | hfull
  · rfl
  · apply rtake_append_of_le
    rw [List.length_append]
    omega

/-- **Which values are recent.** -/
theorem mem_recent_iff {n : ℕ} {uses : List κ} {k : κ} : k ∈ recent n uses ↔
    ∃ early late, uses = early ++ k :: late ∧ k ∉ late ∧ late.dedup.length < n := by
  have hlast : ∀ early late, uses = early ++ k :: late → k ∉ late →
      (k ∈ recent n uses ↔ late.dedup.length < n) := by
    rintro early late rfl hk
    obtain ⟨xs, hxs⟩ := dedup_append_cons hk early
    have hnodup : (xs ++ k :: late.dedup).Nodup := hxs ▸ List.nodup_dedup _
    unfold recent
    rw [hxs]
    exact mem_rtake_iff hnodup
  constructor
  · intro h
    have huse : k ∈ uses := List.mem_dedup.mp ((recent_suffix n uses).subset h)
    obtain ⟨early, late, huses, hk⟩ := exists_last_use huse
    exact ⟨early, late, huses, hk, (hlast early late huses hk).mp h⟩
  · rintro ⟨early, late, huses, hk, hlt⟩
    exact (hlast early late huses hk).mpr hlt

end DsDns
