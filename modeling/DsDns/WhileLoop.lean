/-
  Loops that are left from inside, and may fail.

  A turn of the loop goes on with a new state, leaves the loop with a result, or fails. `whileLoop` takes
  turns up to a fuel. If every turn from a state with the invariant goes on with the invariant and less left
  to do, or leaves with the postcondition, then the loop never fails and any fuel beyond what is left gives
  a result (`whileLoop_rule`).
-/
import Mathlib.Data.Nat.Notation
import Mathlib.Tactic.TypeStar

namespace DsDns

/-- How a turn of a loop ends. -/
inductive Turn (σ ρ : Type*) where
  | next (s : σ)
  | exit (r : ρ)

section WhileLoop

variable {σ ρ ε : Type*}

/-- Take turns from the state `s`; `none` means that the fuel runs out. -/
def whileLoop (turn : σ → Except ε (Turn σ ρ)) : ℕ → σ → Option (Except ε ρ)
  | 0, _ => none
  | fuel + 1, s =>
    match turn s with
    | .error e => some (.error e)
    | .ok (.exit r) => some (.ok r)
    | .ok (.next s) => whileLoop turn fuel s

variable {turn : σ → Except ε (Turn σ ρ)} {fuel : ℕ} {s s' : σ}

theorem whileLoop_exit {r : ρ} (h : turn s = .ok (.exit r)) : whileLoop turn (fuel + 1) s = some (.ok r) := by
  rw [whileLoop, h]

theorem whileLoop_next (h : turn s = .ok (.next s')) :
    whileLoop turn (fuel + 1) s = whileLoop turn fuel s' := by
  rw [whileLoop, h]

/-- **The rule for a loop with an invariant and a measure.** -/
theorem whileLoop_rule (inv : σ → Prop) (left : σ → ℕ) (post : ρ → Prop)
    (hturn : ∀ s, inv s → (∃ s', turn s = .ok (.next s') ∧ inv s' ∧ left s' < left s) ∨
      ∃ r, turn s = .ok (.exit r) ∧ post r)
    (hs : inv s) (hfuel : left s < fuel) : ∃ r, whileLoop turn fuel s = some (.ok r) ∧ post r := by
  induction fuel generalizing s with
  | zero => omega
  | succ fuel ih =>
    rcases hturn s hs with ⟨s', hnext, hs', hless⟩ | ⟨r, hexit, hpost⟩
    · rw [whileLoop_next hnext]
      exact ih hs' (by omega)
    · exact ⟨r, whileLoop_exit hexit, hpost⟩

/-- The same rule, where the invariant determines the result. -/
theorem whileLoop_eq (inv : σ → Prop) (left : σ → ℕ) (a : ρ)
    (hturn : ∀ s, inv s → (∃ s', turn s = .ok (.next s') ∧ inv s' ∧ left s' < left s) ∨ turn s = .ok (.exit a))
    (hs : inv s) (hfuel : left s < fuel) : whileLoop turn fuel s = some (.ok a) := by
  obtain ⟨_, hloop, rfl⟩ := whileLoop_rule inv left (· = a)
    (fun s hinv => (hturn s hinv).imp_right fun hexit => ⟨a, hexit, rfl⟩) hs hfuel
  exact hloop

end WhileLoop

end DsDns
