/-
  A watchdog: a sender that gives a sign of life now and then, and a receiver whose timer each sign restarts.

  Both are runs of their own. A turn of the sender's loop sends if the time from which on the next sign is `due` has
  come (`Pulse`); `last` is the time that the timer of the receiver runs from (`Watch`).

  Main results: `Pulse.sign_after` and `Pulse.watched`. If the sender turns at least every `δ`, sends at intervals of
  `interval`, and a sign takes at most `Δ`, then a sign is handled in every stretch of `interval + δ + Δ`, and the
  timer of the receiver does not show `limit` or more if `spread + interval + δ + Δ < limit`, where `spread` is how
  much earlier than the sender the receiver may start.
-/
import Mathlib.Data.List.Induction
import Mathlib.Order.Lattice
import Mathlib.Tactic.Linarith
import DsDns.Transition
import DsDns.ListFacts

namespace DsDns

variable {σ ε τ φ : Type*}

/-- The run of a sender: `turn e` is the time of `e` if it is a turn of the loop. -/
structure Pulse (interval : ℤ) (step : σ → ε → σ) (turn : ε → Option ℤ) (due : σ → ℤ) (s : σ) (es : List ε) :
    Prop where
  idle : ∀ early e, early ++ [e] <+: es → turn e = none → due (run step s (early ++ [e])) = due (run step s early)
  next : ∀ early e now, early ++ [e] <+: es → turn e = some now → due (run step s (early ++ [e])) =
    if due (run step s early) ≤ now then now + interval else due (run step s early)
  sorted : (es.filterMap turn).Pairwise (· ≤ ·)

/-- The run of a receiver: a sign restarts the timer, and nothing else moves it but to the present. -/
structure Watch (step : τ → φ → τ) (time : φ → Option ℤ) (sign : φ → Prop) (last : τ → ℤ) (s : τ) (fs : List φ) :
    Prop where
  next : ∀ early f, early ++ [f] <+: fs → last (run step s (early ++ [f])) = last (run step s early) ∨
    time f = some (last (run step s (early ++ [f])))
  sign : ∀ early f, early ++ [f] <+: fs → sign f → time f = some (last (run step s (early ++ [f])))
  sorted : (fs.filterMap time).Pairwise (· ≤ ·)

/-- What comes before an event is not later. -/
theorem le_of_sorted {time : ε → Option ℤ} {es early : List ε} {e x : ε} {s u : ℤ}
    (h : (es.filterMap time).Pairwise (· ≤ ·)) (hp : early ++ [e] <+: es) (hx : x ∈ early) (hs : time x = some s)
    (hu : time e = some u) : s ≤ u := by
  have hsorted := h.sublist (hp.sublist.filterMap time)
  rw [List.filterMap_append, List.filterMap_cons_some hu, List.pairwise_append] at hsorted
  exact hsorted.2.2 s (List.mem_filterMap.mpr ⟨x, hx, hs⟩) u List.mem_cons_self

variable {interval limit δ Δ spread t₀ T : ℤ} {step : σ → ε → σ} {turn : ε → Option ℤ} {due : σ → ℤ} {s : σ}
  {es : List ε} {step' : τ → φ → τ} {time : φ → Option ℤ} {sign : φ → Prop} {last : τ → ℤ} {s' : τ} {fs : List φ}

/-- A sender that turns late enough has sent since `t`. -/
theorem Pulse.exists_sent (h : Pulse interval step turn due s es) (hpos : 0 < interval) {t u : ℤ} {early : List ε}
    {e : ε} (hp : early ++ [e] <+: es) (hfirst : due s ≤ t + interval) (he : turn e = some u)
    (hu : t + interval ≤ u) :
    ∃ before b sent, before ++ [b] <+: es ∧ turn b = some sent ∧ due (run step s before) ≤ sent ∧ t < sent ∧
      sent ≤ u := by
  by_contra hnone
  have hearly : ∀ before b sent, before ++ [b] <+: early ++ [e] → turn b = some sent →
      due (run step s before) ≤ sent → sent ≤ t := by
    intro before b sent hb hturn hdue
    by_contra hlate
    refine hnone ⟨before, b, sent, hb.trans hp, hturn, hdue, not_le.mp hlate, ?_⟩
    rcases List.prefix_concat_iff.mp hb with heq | hbefore
    · obtain ⟨-, hlast⟩ := List.append_inj' heq rfl
      rw [List.singleton_inj.mp hlast, he] at hturn
      exact (Option.some.inj hturn).ge
    · exact le_of_sorted h.sorted hp (hbefore.subset (List.mem_append_right _ List.mem_cons_self)) hturn he
  -- Every sign so far was given by `t`, so the next one is due.
  have hdue : ∀ before, before <+: early → due (run step s before) ≤ t + interval := by
    intro before
    induction before using List.reverseRecOn with
    | nil => exact fun _ => hfirst
    | append_singleton before b ih =>
      intro hb
      have hbefore := ih ((List.prefix_append before [b]).trans hb)
      have hb' : before ++ [b] <+: early ++ [e] := hb.trans (List.prefix_append early [e])
      cases hturn : turn b with
      | none =>
        rw [h.idle before b (hb'.trans hp) hturn]
        exact hbefore
      | some now =>
        rw [h.next before b now (hb'.trans hp) hturn]
        split
        · rename_i hsent
          linarith [hearly before b now hb' hturn hsent]
        · exact hbefore
  have hlate := hearly early e u (List.prefix_refl _) he ((hdue early (List.prefix_refl _)).trans hu)
  linarith

/-- The timer is not behind a sign, nor behind the start. -/
theorem Watch.le_last (h : Watch step' time sign last s' fs) {t : ℤ} (hstart : t ≤ last s')
    (hfrom : ∀ f ∈ fs, ∀ r, time f = some r → t ≤ r) {early : List φ} (hp : early <+: fs) :
    t ≤ last (run step' s' early) ∧
      ∀ f ∈ early, sign f → ∀ r, time f = some r → r ≤ last (run step' s' early) := by
  induction early using List.reverseRecOn with
  | nil => exact ⟨hstart, fun f hf => absurd hf List.not_mem_nil⟩
  | append_singleton early f ih =>
    obtain ⟨hlast, hsigns⟩ := ih ((List.prefix_append early [f]).trans hp)
    have hstep := h.next early f hp
    constructor
    · rcases hstep with hsame | hnow
      · rw [hsame]
        exact hlast
      · exact hfrom f (hp.subset (List.mem_append_right _ List.mem_cons_self)) _ hnow
    · intro x hx hsign r hr
      rcases List.mem_append.mp hx with hx | hx
      · rcases hstep with hsame | hnow
        · rw [hsame]
          exact hsigns x hx hsign r hr
        · exact le_of_sorted h.sorted hp hx hr hnow
      · rw [List.mem_singleton.mp hx] at hsign hr
        rw [h.sign early f hp hsign] at hr
        exact (Option.some.inj hr).ge

/-- What is handled before the time of an event comes before it. -/
theorem Watch.mem_early (h : Watch step' time sign last s' fs) {early : List φ} {f x : φ} {r now : ℤ}
    (hp : early ++ [f] <+: fs) (hx : x ∈ fs) (hr : time x = some r) (hnow : time f = some now) (hlt : r < now) :
    x ∈ early := by
  obtain ⟨late, rfl⟩ := hp
  have hsorted := h.sorted
  rw [List.append_assoc, List.filterMap_append, List.pairwise_append, List.singleton_append,
    List.filterMap_cons_some hnow, List.pairwise_cons] at hsorted
  rw [List.append_assoc] at hx
  rcases List.mem_append.mp hx with hx | hx
  · exact hx
  · rcases List.mem_cons.mp hx with rfl | hx
    · rw [hnow] at hr
      exact absurd hlt (Option.some.inj hr).le.not_gt
    · exact absurd hlt (hsorted.2.1.1 r (List.mem_filterMap.mpr ⟨x, hx, hr⟩)).not_gt

/-- **A sign is handled in every stretch of time** that is long enough: after `t`, and before the event `f`. -/
theorem Pulse.sign_after (h : Pulse interval step turn due s es) (hw : Watch step' time sign last s' fs)
    (hpos : 0 < interval)
    (hturns : ∀ t, t₀ ≤ t → t ≤ T → t + δ + Δ < T → ∃ e ∈ es, ∃ u, turn e = some u ∧ t ≤ u ∧ u ≤ t + δ)
    (hfirst : due s ≤ t₀ + interval)
    (harrive : ∀ before b sent, before ++ [b] <+: es → turn b = some sent → due (run step s before) ≤ sent →
      sent + Δ < T → ∃ f ∈ fs, sign f ∧ ∃ r, time f = some r ∧ sent ≤ r ∧ r ≤ sent + Δ)
    {early : List φ} {f : φ} {now t : ℤ} (hp : early ++ [f] <+: fs) (hnow : time f = some now) (hT : now ≤ T)
    (ht : t₀ ≤ t) (htT : t + interval ≤ T) (hlong : t + interval + δ + Δ < now) :
    ∃ x ∈ early, sign x ∧ ∃ r, time x = some r ∧ t < r := by
  obtain ⟨e, he, u, hu, hlow, hhigh⟩ := hturns (t + interval) (by linarith) htT (by linarith)
  obtain ⟨before, hbefore⟩ := exists_early_of_mem he
  obtain ⟨first, b, sent, hb, hturn, hdue, hafter, hsent⟩ := h.exists_sent hpos hbefore (by linarith) hu hlow
  obtain ⟨x, hx, hsign, r, hr, hsr, hrs⟩ := harrive first b sent hb hturn hdue (by linarith)
  exact ⟨x, hw.mem_early hp hx hr hnow (by linarith), hsign, r, hr, by linarith⟩

/-- **The timer does not run out.** -/
theorem Pulse.watched (h : Pulse interval step turn due s es) (hw : Watch step' time sign last s' fs)
    (hpos : 0 < interval) (hbound : spread + interval + δ + Δ < limit) (hgap : spread + interval ≤ limit)
    (hspread : 0 ≤ spread)
    (hturns : ∀ t, t₀ ≤ t → t ≤ T → t + δ + Δ < T → ∃ e ∈ es, ∃ u, turn e = some u ∧ t ≤ u ∧ u ≤ t + δ)
    (hfirst : due s ≤ t₀ + interval)
    (harrive : ∀ before b sent, before ++ [b] <+: es → turn b = some sent → due (run step s before) ≤ sent →
      sent + Δ < T → ∃ f ∈ fs, sign f ∧ ∃ r, time f = some r ∧ sent ≤ r ∧ r ≤ sent + Δ)
    (hstart : t₀ - spread ≤ last s') (hfrom : ∀ f ∈ fs, ∀ r, time f = some r → t₀ - spread ≤ r)
    {early : List φ} {f : φ} {now : ℤ} (hp : early ++ [f] <+: fs) (hnow : time f = some now) (hT : now ≤ T) :
    now - last (run step' s' early) < limit := by
  by_contra hexpired
  obtain ⟨hlast, hsigns⟩ := hw.le_last hstart hfrom ((List.prefix_append early [f]).trans hp)
  have hle : max (last (run step' s' early)) t₀ ≤ last (run step' s' early) + spread :=
    max_le (by linarith) (by linarith)
  -- A sign that was given after the timer was restarted has restarted it.
  obtain ⟨x, hx, hsign, r, hr, hafter⟩ := h.sign_after hw hpos hturns hfirst harrive hp hnow hT
    (le_max_right (last (run step' s' early)) t₀) (by linarith) (by linarith)
  linarith [hsigns x hx hsign r hr, le_max_left (last (run step' s' early)) t₀]

end DsDns
