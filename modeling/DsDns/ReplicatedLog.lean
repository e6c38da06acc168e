/-
  Logs kept by several parties.

  A table gives every party `i` its entry under the number `k`, if it has one. Parties write single
  entries (`Table.write`), and a write fits if no party holds another entry under its number. Fitting
  writes keep the parties in agreement (`Agree.write`) and only add to what is there (`le_write`), so
  who holds an entry goes on holding it (`length_holders_le`).
-/
import Mathlib.Data.List.Basic
import Mathlib.Tactic.TypeStar

namespace DsDns

/-- The entries of every party. -/
abbrev Table (ι κ ν : Type*) := ι → κ → Option ν

namespace Table

variable {ι κ ν : Type*}

/-- No two parties hold different entries under one number. -/
def Agree (t : Table ι κ ν) : Prop := ∀ ⦃i j k u v⦄, t i k = some u → t j k = some v → u = v

/-- Whatever stands in `s` stands in `t`. -/
def Extends (s t : Table ι κ ν) : Prop := ∀ ⦃i k u⦄, s i k = some u → t i k = some u

/-- No party holds another entry than `u` under the number `k`. -/
def Fits (t : Table ι κ ν) (k : κ) (u : ν) : Prop := ∀ ⦃j v⦄, t j k = some v → v = u

theorem Extends.refl (t : Table ι κ ν) : Extends t t := fun _ _ _ h => h

theorem Extends.trans {s t r : Table ι κ ν} (h : Extends s t) (h' : Extends t r) : Extends s r :=
  fun _ _ _ hs => h' (h hs)

variable [DecidableEq ι] [DecidableEq κ]

/-- The party `i` writes `u` under the number `k`. -/
def write (t : Table ι κ ν) (i : ι) (k : κ) (u : ν) : Table ι κ ν :=
  fun j x => if j = i ∧ x = k then some u else t j x

variable {t : Table ι κ ν} {i : ι} {k : κ} {u : ν}

theorem write_self : t.write i k u i k = some u := if_pos ⟨rfl, rfl⟩

/-- An entry of the written table is the new one or an old one. -/
theorem eq_or_of_write {j : ι} {x : κ} {v : ν} (h : t.write i k u j x = some v) :
    (x = k ∧ v = u) ∨ t j x = some v := by
  unfold write at h
  split at h
  · rename_i hboth
    exact Or.inl ⟨hboth.2, (Option.some.inj h).symm⟩
  · exact Or.inr h

theorem Agree.write (h : Agree t) (hfit : t.Fits k u) : Agree (t.write i k u) := by
  intro a b x v w hv hw
  rcases eq_or_of_write hv with ⟨hx, hvu⟩ | hold
  · rcases eq_or_of_write hw with ⟨-, hwu⟩ | hold'
    · rw [hvu, hwu]
    · subst hx
      exact hvu.trans (hfit hold').symm
  · rcases eq_or_of_write hw with ⟨hx, hwu⟩ | hold'
    · subst hx
      exact (hfit hold).trans hwu.symm
    · exact h hold hold'

theorem extends_write (hfit : t.Fits k u) : Extends t (t.write i k u) := by
  intro j x v hv
  unfold Table.write
  split
  · rename_i hboth
    obtain ⟨-, rfl⟩ := hboth
    rw [hfit hv]
  · exact hv

/-! ### Who holds an entry -/

section Holders

variable [DecidableEq ν]

/-- The parties among `ids` that hold `u` under the number `k`. -/
def holders (t : Table ι κ ν) (ids : List ι) (k : κ) (u : ν) : List ι :=
  ids.filter fun i => t i k = some u

omit [DecidableEq ι] [DecidableEq κ] in
theorem mem_holders {ids : List ι} : i ∈ t.holders ids k u ↔ i ∈ ids ∧ t i k = some u := by
  simp [holders]

omit [DecidableEq ι] [DecidableEq κ] in
/-- An extension loses no holder. -/
theorem length_holders_le {s : Table ι κ ν} (h : Extends s t) (ids : List ι) (k : κ) (u : ν) :
    (s.holders ids k u).length ≤ (t.holders ids k u).length := by
  refine List.Sublist.length_le (List.monotone_filter_right ids fun i hi => ?_)
  simp only [decide_eq_true_eq] at hi ⊢
  exact h hi

end Holders

end Table

end DsDns
