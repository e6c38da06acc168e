/-
  Counting times in a window.

  `between a b ts` are the times of `ts` in the closed interval from `a` to `b`, and `AtMost m w ts` says
  that no closed interval of length `w` has more than `m` of them. A counter that keeps a queue can learn
  the number from the queue if the times come in order: dropping what is too old from the front is then
  a filter (`dropWhile_eq_filter`).

  The times need not come in order. A queue that has lost its front may still be asked whether one more time
  fits, as long as what was lost near that time is counted in (`AtMost.concat_kept`).
-/
import Mathlib.Algebra.Order.Group.Defs
import Mathlib.Algebra.Order.Group.Int
import Mathlib.Tactic.TypeStar

namespace DsDns

variable {τ : Type*} [LinearOrder τ]

/-- The times in the closed interval from `a` to `b`. -/
def between (a b : τ) (ts : List τ) : List τ := ts.filter fun t => a ≤ t ∧ t ≤ b

theorem between_append (a b : τ) (ts us : List τ) :
    between a b (ts ++ us) = between a b ts ++ between a b us := List.filter_append ..

theorem between_singleton_of_mem {a b t : τ} (h : a ≤ t ∧ t ≤ b) : between a b [t] = [t] :=
  List.filter_cons_of_pos (decide_eq_true h)

theorem between_singleton_of_not_mem {a b t : τ} (h : ¬ (a ≤ t ∧ t ≤ b)) : between a b [t] = [] :=
  List.filter_cons_of_neg (by simpa using h)

theorem length_between_le (a b : τ) (ts : List τ) : (between a b ts).length ≤ ts.length :=
  List.length_filter_le _ ts

/-- A shorter interval has no more of the times. -/
theorem length_between_mono {a b c d : τ} {ts : List τ}
    (h : ∀ t ∈ ts, a ≤ t → t ≤ b → c ≤ t ∧ t ≤ d) :
    (between a b ts).length ≤ (between c d ts).length := by
  have hsame : between a b (between c d ts) = between a b ts := by
    unfold between
    rw [List.filter_filter]
    apply List.filter_congr
    intro t ht
    simp only [Bool.and_eq_decide, decide_eq_true_eq, decide_eq_decide, and_iff_left_iff_imp]
    intro hab
    exact h t ht hab.1 hab.2
  rw [← hsame]
  exact length_between_le a b _

/-- Where no time is later than `b`, the interval is bounded from below only. -/
theorem filter_eq_between {a b : τ} {ts : List τ} (h : ∀ t ∈ ts, t ≤ b) :
    (ts.filter fun t => a ≤ t) = between a b ts := by
  apply List.filter_congr
  intro t ht
  simp [h t ht]

/-! ### The front of a queue -/

/-- What is dropped from the front of a queue is missed by no later window. -/
theorem filter_dropWhile {c d : τ} (h : c ≤ d) (ts : List τ) :
    ((ts.dropWhile fun t => t < c).filter fun t => d ≤ t) = ts.filter fun t => d ≤ t := by
  induction ts with
  | nil => rfl
  | cons t ts ih =>
    by_cases ht : t < c
    · have hd : ¬ d ≤ t := not_le.mpr (ht.trans_le h)
      rw [List.dropWhile_cons_of_pos (by simpa using ht), ih,
        List.filter_cons_of_neg (by simpa using hd)]
    · rw [List.dropWhile_cons_of_neg (by simpa using ht)]

/-- From a sorted queue, exactly the times before `c` are dropped. -/
theorem dropWhile_eq_filter {c : τ} {ts : List τ} (h : ts.Pairwise (· ≤ ·)) :
    (ts.dropWhile fun t => t < c) = ts.filter fun t => c ≤ t := by
  rw [← filter_dropWhile le_rfl ts]
  symm
  apply List.filter_eq_self.mpr
  intro t ht
  apply decide_eq_true
  induction ts with
  | nil => exact absurd ht (by simp)
  | cons x ts ih =>
    obtain ⟨hx, h⟩ := List.pairwise_cons.mp h
    by_cases hxc : x < c
    · rw [List.dropWhile_cons_of_pos (by simpa using hxc)] at ht
      exact ih h ht
    · rw [List.dropWhile_cons_of_neg (by simpa using hxc)] at ht
      rcases List.mem_cons.mp ht with rfl | ht
      · exact not_lt.mp hxc
      · exact (not_lt.mp hxc).trans (hx t ht)

/-! ### The bound -/

variable [AddCommGroup τ] [IsOrderedAddMonoid τ]

/-- No closed interval of length `w` has more than `m` of the times. -/
def AtMost (m : ℤ) (w : τ) (ts : List τ) : Prop := ∀ a, ((between a (a + w) ts).length : ℤ) ≤ m

omit [IsOrderedAddMonoid τ] in
theorem atMost_nil {m : ℤ} (h : 0 ≤ m) (w : τ) : AtMost m w [] := fun _ => h

omit [IsOrderedAddMonoid τ] in
/-- One more time is fine if every interval that it falls in has room for it. -/
theorem AtMost.concat {m : ℤ} {w t : τ} {ts : List τ} (h : AtMost m w ts)
    (hroom : ∀ a, a ≤ t → t ≤ a + w → ((between a (a + w) ts).length : ℤ) < m) :
    AtMost m w (ts ++ [t]) := by
  intro a
  rw [between_append]
  by_cases ht : a ≤ t ∧ t ≤ a + w
  · have hlt := hroom a ht.1 ht.2
    rw [between_singleton_of_mem ht, List.length_append, List.length_singleton]
    omega
  · rw [between_singleton_of_not_mem ht, List.append_nil]
    exact h a

/-- One more time after a queue that has lost its front: there is room for it if the queue has room for
what was lost within `w` of it as well. -/
theorem AtMost.concat_kept {m : ℤ} {w t : τ} {ts lost kept : List τ} (h : AtMost m w ts)
    (hsplit : ts = lost ++ kept)
    (hroom : (kept.length + (between (t - w) (t + w) lost).length : ℤ) < m) :
    AtMost m w (ts ++ [t]) := by
  refine h.concat fun a hat hta => ?_
  have hlost : (between a (a + w) lost).length ≤ (between (t - w) (t + w) lost).length := by
    apply length_between_mono
    intro x _ hax hxa
    exact ⟨(sub_le_iff_le_add.mpr hta).trans hax, hxa.trans (add_le_add_left hat w)⟩
  have hkept := length_between_le a (a + w) kept
  rw [hsplit, between_append, List.length_append]
  omega

end DsDns
