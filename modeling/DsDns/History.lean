/-
  The last event of a kind, when nothing has undone it since.

  On a run, an event may `mark` a value, and it may `clear` what was marked before. `Since mark clear
  step s es a` says that the last mark on the run `es` from `s` is `a` and that nothing cleared it
  afterwards. A program that wants to know keeps a register: it writes the value at a mark, empties the
  register at a clearing event and leaves it alone otherwise (`Registers`). `Registers.since_iff` says
  that the register then holds exactly what the history demands, and `Registers.holds` that a value with
  some property stays in it for as long as nothing clears it.
-/
import DsDns.Transition
import Mathlib.Data.List.Induction

namespace DsDns

variable {σ ε α : Type*}

/-- The event neither marks nor clears. -/
def Leaves (mark : σ → ε → α → Prop) (clear : σ → ε → Prop) (s : σ) (e : ε) : Prop :=
  ¬ clear s e ∧ ∀ a, ¬ mark s e a

/-- The last mark of the run is `a`, and no event after it clears it. -/
def Since (mark : σ → ε → α → Prop) (clear : σ → ε → Prop) (step : σ → ε → σ) (s : σ) (es : List ε)
    (a : α) : Prop :=
  ∃ early e late, es = early ++ e :: late ∧ mark (run step s early) e a ∧
    Along (Leaves mark clear) step (run step s (early ++ [e])) late

/-- In states with the property `P`, the register `read` is written at marks and emptied by the events
that clear. -/
structure Registers (P : σ → Prop) (read : σ → Option α) (mark : σ → ε → α → Prop)
    (clear : σ → ε → Prop) (step : σ → ε → σ) : Prop where
  marks : ∀ s e a, P s → mark s e a → read (step s e) = some a
  clears : ∀ s e, P s → clear s e → (∀ a, ¬ mark s e a) → read (step s e) = none
  leaves : ∀ s e, P s → Leaves mark clear s e → read (step s e) = read s

variable {mark : σ → ε → α → Prop} {clear : σ → ε → Prop} {step : σ → ε → σ} {P : σ → Prop}
  {read : σ → Option α} {s : σ} {es : List ε} {a : α}

theorem not_since_nil : ¬ Since mark clear step s [] a := by
  rintro ⟨early, e, late, hsplit, -⟩
  exact absurd hsplit (by simp)

/-- The history read from its end: the last event marks `a`, or it leaves a mark from before. -/
theorem since_concat (e : ε) : Since mark clear step s (es ++ [e]) a ↔
    mark (run step s es) e a ∨
      Leaves mark clear (run step s es) e ∧ Since mark clear step s es a := by
  constructor
  · rintro ⟨early, e', late, hsplit, hmark, hlate⟩
    rcases List.eq_nil_or_concat late with rfl | ⟨late', x, rfl⟩
    · left
      obtain ⟨rfl, hlast⟩ := List.append_inj' hsplit rfl
      obtain rfl := List.singleton_inj.mp hlast
      exact hmark
    · right
      -- The mark is older than the last event, which has left it alone.
      have hsplit' : es ++ [e] = (early ++ e' :: late') ++ [x] := by
        rw [hsplit]
        simp
      obtain ⟨rfl, hlast⟩ := List.append_inj' hsplit' rfl
      obtain rfl := List.singleton_inj.mp hlast
      rw [List.concat_eq_append, along_concat, ← run_append, List.append_assoc,
        List.singleton_append] at hlate
      exact ⟨hlate.2, early, e', late', rfl, hmark, hlate.1⟩
  · rintro (hmark | ⟨hleave, early, e', late, rfl, hmark, hlate⟩)
    · exact ⟨es, e, [], rfl, hmark, trivial⟩
    · refine ⟨early, e', late ++ [e], by simp, hmark, ?_⟩
      rw [along_concat, ← run_append, List.append_assoc, List.singleton_append]
      exact ⟨hlate, hleave⟩

/-- An event that clears and does not mark leaves no mark behind. -/
theorem not_since_of_clear {e : ε} (hclear : clear (run step s es) e)
    (hmark : ∀ a, ¬ mark (run step s es) e a) : ¬ Since mark clear step s (es ++ [e]) a := by
  rw [since_concat]
  rintro (hnew | ⟨hleave, -⟩)
  · exact hmark a hnew
  · exact hleave.1 hclear

/-- **The register rule**: the register holds the last mark that nothing has cleared since. -/
theorem Registers.since_iff (h : Registers P read mark clear step) (hP : Always P step s es)
    (hread : read s = none) : read (run step s es) = some a ↔ Since mark clear step s es a := by
  induction es using List.reverseRecOn generalizing a with
  | nil =>
    rw [run_nil, hread]
    exact iff_of_false (by simp) not_since_nil
  | append_singleton es e ih =>
    have hearly : Always P step s es := fun early hp => hP early (hp.trans (List.prefix_append es [e]))
    have hstate : P (run step s es) := hP es (List.prefix_append es [e])
    rw [run_concat]
    by_cases hmark : ∃ b, mark (run step s es) e b
    · -- A mark overwrites the register, whatever it held.
      obtain ⟨b, hb⟩ := hmark
      have hnew := h.marks _ e b hstate hb
      rw [hnew, since_concat]
      constructor
      · intro hab
        obtain rfl := Option.some.inj hab
        exact Or.inl hb
      · rintro (ha | ⟨hleave, -⟩)
        · rw [← hnew]
          exact h.marks _ e a hstate ha
        · exact absurd hb (hleave.2 b)
    · have hnone : ∀ b, ¬ mark (run step s es) e b := fun b hb => hmark ⟨b, hb⟩
      by_cases hclear : clear (run step s es) e
      · rw [h.clears _ e hstate hclear hnone]
        exact iff_of_false (by simp) (not_since_of_clear hclear hnone)
      · -- Neither: register and history both stay as they were.
        rw [h.leaves _ e hstate ⟨hclear, hnone⟩, ih hearly, since_concat]
        constructor
        · exact fun hold => Or.inr ⟨⟨hclear, hnone⟩, hold⟩
        · rintro (ha | ⟨-, hold⟩)
          · exact absurd ha (hnone a)
          · exact hold

/-- A value with a property stays in the register while nothing clears it and every new mark has the
property as well. -/
theorem Registers.holds (h : Registers P read mark clear step) {r : α → Prop}
    (hP : Always P step s es) (hread : ∃ a, read s = some a ∧ r a)
    (hrun : Along (fun s e => ¬ clear s e ∧ ∀ a, mark s e a → r a) step s es) :
    ∃ a, read (run step s es) = some a ∧ r a := by
  induction es using List.reverseRecOn with
  | nil => exact hread
  | append_singleton es e ih =>
    have hearly : Always P step s es := fun early hp => hP early (hp.trans (List.prefix_append es [e]))
    have hstate : P (run step s es) := hP es (List.prefix_append es [e])
    rw [along_concat] at hrun
    obtain ⟨hrun, hclear, hnew⟩ := hrun
    rw [run_concat]
    by_cases hmark : ∃ b, mark (run step s es) e b
    · obtain ⟨b, hb⟩ := hmark
      exact ⟨b, h.marks _ e b hstate hb, hnew b hb⟩
    · rw [h.leaves _ e hstate ⟨hclear, fun b hb => hmark ⟨b, hb⟩⟩]
      exact ih hearly hrun

end DsDns
