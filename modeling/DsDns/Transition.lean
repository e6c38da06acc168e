/-
  Runs of a deterministic transition function, and the invariant rules for them.

  A system is a function `step : σ → ε → σ`; a run is the list of its events, in order. `run` is the
  state a run ends in. `Along ok step s es` says that every step of the run meets the condition `ok`
  in the state in which it is taken, and `Always P step s es` that every state on the way, the first
  and the last included, has the property `P`.

  Main results: `Along.invariant` (what every admitted step preserves holds at the end),
  `Along.always` (and in every state on the way), `run_invariant` and `always_of_step` (the same for
  what every step preserves), `always_iff_along` (exactly the admitted runs keep
  what exactly the admitted steps preserve) and `Along.grows` (a reflexive and transitive
  relation kept by every admitted step relates an earlier state to a later one).
-/
import Mathlib.Data.List.Basic
import Mathlib.Tactic.TypeStar

namespace DsDns

variable {σ ε : Type*}

/-- The state in which the run `es` from `s` ends. -/
def run (step : σ → ε → σ) (s : σ) (es : List ε) : σ := es.foldl step s

/-- Every step of the run `es` from `s` meets `ok`. -/
def Along (ok : σ → ε → Prop) (step : σ → ε → σ) : σ → List ε → Prop
  | _, [] => True
  | s, e :: es => ok s e ∧ Along ok step (step s e) es

/-- Every state on the run `es` from `s` has the property `P`. -/
def Always (P : σ → Prop) (step : σ → ε → σ) (s : σ) (es : List ε) : Prop :=
  ∀ early, early <+: es → P (run step s early)

instance Along.decidable {ok : σ → ε → Prop} [∀ s e, Decidable (ok s e)] {step : σ → ε → σ} :
    ∀ (s : σ) (es : List ε), Decidable (Along ok step s es)
  | _, [] => .isTrue trivial
  | s, e :: es =>
    @instDecidableAnd _ _ _ (Along.decidable (step s e) es)

variable {ok ok' : σ → ε → Prop} {step : σ → ε → σ} {P : σ → Prop} {s : σ} {es : List ε}

@[simp] theorem run_nil : run step s [] = s := rfl

@[simp] theorem run_cons (e : ε) : run step s (e :: es) = run step (step s e) es := rfl

theorem run_append (early late : List ε) :
    run step s (early ++ late) = run step (run step s early) late := List.foldl_append

theorem run_concat (e : ε) : run step s (es ++ [e]) = step (run step s es) e := by
  rw [run_append]
  rfl

/-- A run meets the condition exactly when both of its parts do. -/
theorem along_append {early late : List ε} : Along ok step s (early ++ late) ↔
    Along ok step s early ∧ Along ok step (run step s early) late := by
  induction early generalizing s with
  | nil => exact (and_iff_right trivial).symm
  | cons e early ih =>
    rw [List.cons_append, Along, Along, run_cons, ih, and_assoc]

theorem along_concat (e : ε) : Along ok step s (es ++ [e]) ↔
    Along ok step s es ∧ ok (run step s es) e := by
  rw [along_append]
  exact and_congr_right fun _ => and_iff_left trivial

theorem Along.of_prefix {early : List ε} (h : Along ok step s es) (hp : early <+: es) :
    Along ok step s early := by
  obtain ⟨late, rfl⟩ := hp
  exact (along_append.mp h).1

/-- A condition that every step meets. -/
theorem along_of_forall (h : ∀ s e, ok s e) (s : σ) (es : List ε) : Along ok step s es := by
  induction es generalizing s with
  | nil => trivial
  | cons e es ih => exact ⟨h s e, ih (step s e)⟩

/-- A condition that every event of the run meets in every state. -/
theorem along_of_mem (h : ∀ s, ∀ e ∈ es, ok s e) : Along ok step s es := by
  induction es generalizing s with
  | nil => trivial
  | cons e es ih =>
    constructor
    · exact h s e List.mem_cons_self
    · exact ih fun s x hx => h s x (List.mem_cons_of_mem e hx)

/-- A condition that is met after every part of the run. -/
theorem along_of_prefix (h : ∀ early e, early ++ [e] <+: es → ok (run step s early) e) : Along ok step s es := by
  induction es generalizing s with
  | nil => trivial
  | cons e es ih =>
    constructor
    · exact h [] e ((List.prefix_cons_inj e).mpr List.nil_prefix)
    · exact ih fun early x hp => h (e :: early) x ((List.prefix_cons_inj e).mpr hp)

theorem Always.mono {Q : σ → Prop} (h : Always P step s es) (hPQ : ∀ s, P s → Q s) :
    Always Q step s es :=
  fun early hp => hPQ _ (h early hp)

/-- **The invariant rule**: what every admitted step preserves holds at the end of the run. -/
theorem Along.invariant (h : Along ok step s es) (init : P s)
    (next : ∀ s e, P s → ok s e → P (step s e)) : P (run step s es) := by
  induction es generalizing s with
  | nil => exact init
  | cons e es ih =>
    obtain ⟨hok, h⟩ := h
    exact ih h (next s e init hok)

/-- What every admitted step preserves holds in every state of the run. -/
theorem Along.always (h : Along ok step s es) (init : P s)
    (next : ∀ s e, P s → ok s e → P (step s e)) : Always P step s es :=
  fun _ hp => (h.of_prefix hp).invariant init next

/-- What every step preserves holds at the end of every run. -/
theorem run_invariant (init : P s) (next : ∀ s e, P s → P (step s e)) : P (run step s es) := by
  have hall : Along (fun _ _ => True) step s es := along_of_forall (fun _ _ => trivial) s es
  exact hall.invariant init fun s e hs _ => next s e hs

/-- What every step preserves holds in every state of every run. -/
theorem always_of_step (init : P s) (next : ∀ s e, P s → P (step s e)) : Always P step s es :=
  fun _ _ => run_invariant init next

/-- Where the invariant holds and one condition implies another, the runs of the one are runs of the
other. -/
theorem Along.imp (h : Along ok step s es) (init : P s)
    (next : ∀ s e, P s → ok s e → P (step s e)) (imp : ∀ s e, P s → ok s e → ok' s e) :
    Along ok' step s es := by
  induction es generalizing s with
  | nil => trivial
  | cons e es ih =>
    obtain ⟨hok, h⟩ := h
    exact ⟨imp s e init hok, ih h (next s e init hok)⟩

/-- **The exact rule**: where a step keeps the property exactly if it meets the condition, the runs that
keep the property throughout are those whose steps all meet the condition. -/
theorem always_iff_along (init : P s) (next : ∀ s e, P s → (P (step s e) ↔ ok s e)) :
    Always P step s es ↔ Along ok step s es := by
  constructor
  · intro h
    induction es generalizing s with
    | nil => trivial
    | cons e es ih =>
      have hstep : P (step s e) := h [e] (List.prefix_cons_inj e |>.mpr List.nil_prefix)
      refine ⟨(next s e init).mp hstep, ih hstep fun early hp => ?_⟩
      exact h (e :: early) ((List.prefix_cons_inj e).mpr hp)
  · intro h
    exact h.always init fun s e hs hok => (next s e hs).mpr hok

/-- Two conditions that agree wherever the invariant holds admit the same runs. -/
theorem along_iff_along (init : P s) (next : ∀ s e, P s → ok s e → P (step s e))
    (agree : ∀ s e, P s → (ok s e ↔ ok' s e)) : Along ok step s es ↔ Along ok' step s es := by
  induction es generalizing s with
  | nil => exact Iff.rfl
  | cons e es ih =>
    rw [Along, Along, ← agree s e init]
    exact and_congr_right fun hok => ih (next s e init hok)

/-- **The monotonicity rule**: along an admitted run that keeps the invariant `P`, a reflexive and
transitive relation that every step respects relates the first state to the last. -/
theorem Along.grows {R : σ → σ → Prop} (h : Along ok step s es) (init : P s)
    (next : ∀ s e, P s → ok s e → P (step s e)) (hrefl : ∀ s, R s s)
    (htrans : ∀ {a b c}, R a b → R b c → R a c)
    (hstep : ∀ s e, P s → ok s e → R s (step s e)) : R s (run step s es) := by
  induction es generalizing s with
  | nil => exact hrefl s
  | cons e es ih =>
    obtain ⟨hok, h⟩ := h
    exact htrans (hstep s e init hok) (ih h (next s e init hok))

end DsDns
