/-
  The run of a cluster as the runs of its nodes.

  A step changes the node it is at and no other, so what a run makes of a node is what the node's own
  events make of it, in their order (`run_step_apply`). A condition on the steps of the cluster that
  speaks about the node concerned is the condition on that node's run (`along_eventsAt`). Invariants of
  one node's life thereby hold of every node of every cluster.
-/
import DsDns.Cluster.Life
import DsDns.DataPlane.Equiv.Beat
import DsDns.DataPlane.Equiv.Step

namespace DsDns

/-- The events of one node, in the order of the run. -/
def eventsAt (ip : Str) (es : List (Str × NodeEvent)) : List NodeEvent :=
  es.filterMap fun e => if e.1 = ip then some e.2 else none

theorem mem_eventsAt {ip : Str} {es : List (Str × NodeEvent)} {e : NodeEvent} :
    e ∈ eventsAt ip es ↔ (ip, e) ∈ es := by
  unfold eventsAt
  rw [List.mem_filterMap]
  constructor
  · rintro ⟨⟨x, e'⟩, hmem, h⟩
    split at h
    · rename_i hx
      cases h
      cases hx
      exact hmem
    · exact absurd h (by simp)
  · exact fun h => ⟨(ip, e), h, if_pos rfl⟩

theorem eventsAt_cons_self {ip : Str} (e : NodeEvent) (es : List (Str × NodeEvent)) :
    eventsAt ip ((ip, e) :: es) = e :: eventsAt ip es :=
  List.filterMap_cons_some (if_pos rfl)

theorem eventsAt_cons_ne {ip x : Str} (h : x ≠ ip) (e : NodeEvent) (es : List (Str × NodeEvent)) :
    eventsAt ip ((x, e) :: es) = eventsAt ip es :=
  List.filterMap_cons_none (if_neg h)

variable [Unicode]

namespace Cluster

theorem step_self {cl : Cluster} {ip : Str} {n : Node} (h : cl ip = some n) (e : NodeEvent) :
    cl.step (ip, e) ip = some (n.step e) := by
  unfold step
  rw [h]
  exact if_pos rfl

theorem step_of_ne {cl : Cluster} {ip x : Str} (h : x ≠ ip) (e : NodeEvent) :
    cl.step (x, e) ip = cl ip := by
  unfold step
  cases cl x with
  | none => rfl
  | some n => exact if_neg (Ne.symm h)

/-- **The run of a cluster is the runs of its nodes.** -/
theorem run_step_apply (cl : Cluster) (es : List (Str × NodeEvent)) (ip : Str) :
    run step cl es ip = (cl ip).map fun n => run Node.step n (eventsAt ip es) := by
  induction es generalizing cl with
  | nil => simp [eventsAt]
  | cons e es ih =>
    obtain ⟨x, e⟩ := e
    rw [run_cons, ih]
    by_cases hx : x = ip
    · subst hx
      rw [eventsAt_cons_self]
      cases hn : cl x with
      | none =>
        have hdown : cl.step (x, e) x = none := by
          unfold step
          rw [hn]
          exact hn
        rw [hdown]
        rfl
      | some n =>
        rw [step_self hn]
        rfl
    · rw [eventsAt_cons_ne hx, step_of_ne hx]

/-- The nodes of a cluster stay. -/
theorem isSome_run (cl : Cluster) (es : List (Str × NodeEvent)) (ip : Str) :
    (run step cl es ip).isSome = (cl ip).isSome := by
  rw [run_step_apply, Option.isSome_map]

/-- The node at the end of a run, from the node at its start. -/
theorem exists_of_run {cl : Cluster} {es : List (Str × NodeEvent)} {ip : Str} {m : Node}
    (h : run step cl es ip = some m) : ∃ n, cl ip = some n ∧ m = run Node.step n (eventsAt ip es) := by
  rw [run_step_apply] at h
  obtain ⟨n, hn, rfl⟩ := Option.map_eq_some_iff.mp h
  exact ⟨n, hn, rfl⟩

/-- The node after a step, from the node before it. -/
theorem exists_of_step {cl : Cluster} {x ip : Str} {e : NodeEvent} {m : Node}
    (h : cl.step (x, e) ip = some m) : ∃ n, cl ip = some n ∧ (m = n.step e ∨ m = n) := by
  obtain ⟨n, hn, rfl⟩ := @exists_of_run _ cl [(x, e)] ip m h
  refine ⟨n, hn, ?_⟩
  by_cases hx : x = ip
  · subst hx
    left
    rw [eventsAt_cons_self]
    rfl
  · right
    rw [eventsAt_cons_ne hx]
    rfl

/-- A condition on the node of each step, along the run of one node. -/
theorem along_eventsAt (ok : Node → NodeEvent → Prop) {cl : Cluster} {es : List (Str × NodeEvent)}
    (h : Along (fun cl e => ∀ n, cl e.1 = some n → ok n e.2) step cl es) {ip : Str} {n : Node}
    (hn : cl ip = some n) : Along ok Node.step n (eventsAt ip es) := by
  induction es generalizing cl n with
  | nil => trivial
  | cons e es ih =>
    obtain ⟨x, e⟩ := e
    obtain ⟨hok, hrest⟩ := h
    by_cases hx : x = ip
    · subst hx
      rw [eventsAt_cons_self]
      exact ⟨hok n hn, ih hrest (step_self hn e)⟩
    · rw [eventsAt_cons_ne hx]
      exact ih hrest ((step_of_ne hx e).trans hn)

/-! ### Starting -/

omit [Unicode] in
/-- Nodes that have just started, each at an IPv4 address. -/
theorem fresh_of_main {cl : Cluster} (h : ∀ ip n, cl ip = some n → (ipv4 ip).isSome ∧
    ∃ files disk heads now, n = Node.main ip files disk heads now) : cl.Fresh where
  valid ip n hn := (h ip n hn).1
  selfIp ip n hn := by
    obtain ⟨-, files, disk, heads, now, rfl⟩ := h ip n hn
    obtain ⟨p, hp⟩ := States.init_eq ip files
    exact congrArg States.selfIp hp
  leaderIp ip n hn := by
    obtain ⟨-, files, disk, heads, now, rfl⟩ := h ip n hn
    obtain ⟨p, hp⟩ := States.init_eq ip files
    exact congrArg States.leaderIp hp
  leader ip n hn := by
    obtain ⟨-, files, disk, heads, now, rfl⟩ := h ip n hn
    rfl
  outbox ip n hn := by
    obtain ⟨-, files, disk, heads, now, rfl⟩ := h ip n hn
    rfl

end Cluster

end DsDns
