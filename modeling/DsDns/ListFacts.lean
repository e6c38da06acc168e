/-
  Facts about lists that several of the libraries and models use.
-/
import Mathlib.Data.List.Basic
import Mathlib.Order.Lattice

namespace DsDns

variable {α β : Type*}

/-! ### Places in a list -/

theorem exists_early_of_mem {l : List α} {x : α} (h : x ∈ l) : ∃ early, early ++ [x] <+: l := by
  obtain ⟨early, late, rfl⟩ := List.append_of_mem h
  exact ⟨early, late, by rw [List.append_assoc, List.singleton_append]⟩

theorem exists_split {l : List α} {i : ℕ} {x : α} (h : l[i]? = some x) :
    ∃ as bs, l = as ++ x :: bs ∧ ∀ y, l.set i y = as ++ y :: bs := by
  obtain ⟨hlt, rfl⟩ := List.getElem?_eq_some_iff.mp h
  refine ⟨l.take i, l.drop (i + 1), ?_, fun y => List.set_eq_take_append_cons_drop.trans (if_pos hlt)⟩
  rw [← List.drop_eq_getElem_cons hlt, List.take_append_drop]

/-- Whatever is in a list is there still when another element is taken out. -/
theorem eq_or_mem_eraseIdx {l : List α} {k : ℕ} {x y : α} (hk : l[k]? = some x) (hy : y ∈ l) :
    y = x ∨ y ∈ l.eraseIdx k := by
  obtain ⟨i, hi⟩ := List.mem_iff_getElem?.mp hy
  by_cases hik : i = k
  · left
    rw [hik, hk] at hi
    exact (Option.some.inj hi).symm
  · exact Or.inr (List.mem_eraseIdx_iff_getElem?.mpr ⟨i, hik, hi⟩)

/-- A list sorted by `time` is cut at `t`. -/
theorem exists_split_of_pairwise [LinearOrder β] {time : α → β} {l : List α} (h : (l.map time).Pairwise (· ≤ ·))
    (t : β) : ∃ early late, l = early ++ late ∧ (∀ x ∈ early, time x < t) ∧ ∀ x ∈ late, t ≤ time x := by
  induction l with
  | nil => exact ⟨[], [], rfl, fun _ hx => absurd hx List.not_mem_nil, fun _ hx => absurd hx List.not_mem_nil⟩
  | cons x l ih =>
    rw [List.map_cons, List.pairwise_cons] at h
    by_cases hlt : time x < t
    · obtain ⟨early, late, rfl, hearly, hlate⟩ := ih h.2
      exact ⟨x :: early, late, rfl, List.forall_mem_cons.mpr ⟨hlt, hearly⟩, hlate⟩
    · have hge := not_lt.mp hlt
      refine ⟨[], x :: l, rfl, fun _ hx => absurd hx List.not_mem_nil, List.forall_mem_cons.mpr ⟨hge, ?_⟩⟩
      exact fun y hy => le_trans hge (h.1 _ (List.mem_map_of_mem hy))

/-! ### Folds -/

/-- What does not matter to any of the steps of a fold may be done before them. -/
theorem foldl_comm {f : α → α} {g : α → β → α} {l : List β} (h : ∀ x ∈ l, ∀ s, g (f s) x = f (g s x)) (s : α) :
    l.foldl g (f s) = f (l.foldl g s) := by
  induction l generalizing s with
  | nil => rfl
  | cons x l ih =>
    rw [List.foldl_cons, List.foldl_cons, h x List.mem_cons_self]
    exact ih (fun y hy => h y (List.mem_cons_of_mem x hy)) _

/-! ### Two selections from one list -/

section FilterMap

variable {f g : α → Option β}

/-- The second selection takes what the first takes, and perhaps more. -/
theorem sublist_filterMap (h : ∀ x y, f x = some y → g x = some y) (l : List α) :
    (l.filterMap f).Sublist (l.filterMap g) := by
  induction l with
  | nil => exact List.Sublist.slnil
  | cons x l ih =>
    cases hf : f x with
    | none =>
      rw [List.filterMap_cons_none hf]
      exact ih.trans ((List.sublist_cons_self x l).filterMap g)
    | some y =>
      rw [List.filterMap_cons_some hf, List.filterMap_cons_some (h x y hf)]
      exact ih.cons_cons y

theorem length_filterMap_le {l : List α} (h : ∀ x ∈ l, (f x).isSome → (g x).isSome) :
    (l.filterMap f).length ≤ (l.filterMap g).length := by
  induction l with
  | nil => exact Nat.le_refl _
  | cons x l ih =>
    have htail := ih fun y hy => h y (List.mem_cons_of_mem x hy)
    have hx := h x List.mem_cons_self
    rw [List.filterMap_cons, List.filterMap_cons]
    cases hf : f x with
    | none => cases g x <;> simp <;> omega
    | some u =>
      obtain ⟨v, hv⟩ := Option.isSome_iff_exists.mp (hx (by rw [hf]; rfl))
      rw [hv]
      simpa using htail

/-- If the second selection takes whatever the first takes and the results are equal, then the two agree on
every element. -/
theorem eq_of_filterMap_eq {l : List α} (h : ∀ x ∈ l, (f x).isSome → (g x).isSome)
    (heq : l.filterMap f = l.filterMap g) : ∀ x ∈ l, f x = g x := by
  induction l with
  | nil => simp
  | cons x l ih =>
    have htail : ∀ y ∈ l, (f y).isSome → (g y).isSome := fun y hy => h y (List.mem_cons_of_mem x hy)
    have hx := h x List.mem_cons_self
    have hlen := length_filterMap_le htail
    rw [List.filterMap_cons, List.filterMap_cons] at heq
    have hhead : f x = g x ∧ l.filterMap f = l.filterMap g := by
      cases hf : f x with
      | none =>
        cases hg : g x with
        | none => exact ⟨rfl, by simpa [hf, hg] using heq⟩
        | some v =>
          rw [hf, hg] at heq
          have := congrArg List.length heq
          simp at this
          omega
      | some u =>
        obtain ⟨v, hv⟩ := Option.isSome_iff_exists.mp (hx (by rw [hf]; rfl))
        rw [hf, hv] at heq
        obtain ⟨huv, hrest⟩ := List.cons.inj heq
        exact ⟨by rw [hv, huv], hrest⟩
    intro y hy
    rcases List.mem_cons.mp hy with rfl | hy
    · exact hhead.1
    · exact ih htail hhead.2 y hy

end FilterMap

end DsDns
