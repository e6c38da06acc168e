/-
  A map whose cells are made at first use, shared by threads.

  A thread looks up the cell of its key, which makes a new one if the key has none, and later acts on the cell it
  has found, one thread at a time. Keys may be removed in between: then a thread acts on a cell that the map no
  longer has, while later threads get a new one. The rounds of a key are numbered by its removals.

  Main result: `linked_run`. In every run a cell is what the actions of its key and round have made of it, in the
  order in which they were done, and each action has returned what it returns after these alone.
-/
import DsDns.Transition
import Mathlib.Logic.Function.Basic

namespace DsDns

/-- A thread that has found its cell: what it will do there, and the round of the key at that time. -/
structure Visit (κ α : Type*) where
  key : κ
  act : α
  cell : ℕ
  round : ℕ

/-- An action that is over, and what it returned. -/
structure Outcome (κ α β : Type*) where
  key : κ
  round : ℕ
  act : α
  result : β

/-- The map, the cells that were ever made, the threads on their way, and what is over. -/
structure CellMap (κ σ α β : Type*) where
  map : κ → Option ℕ
  cells : ℕ → σ
  made : ℕ
  visits : List (Visit κ α)
  rounds : κ → ℕ
  log : List (Outcome κ α β)

/-- What can happen. -/
inductive CellEvent (κ α : Type*) where
  /-- A thread looks up its cell. -/
  | find (key : κ) (act : α)
  /-- The thread number `k` of those on their way acts. -/
  | enter (k : ℕ)
  /-- A key is removed. -/
  | remove (key : κ)

namespace CellMap

variable {κ σ α β : Type*} [DecidableEq κ]

/-- No keys. -/
def start (init : σ) : CellMap κ σ α β := ⟨fun _ => none, fun _ => init, 0, [], fun _ => 0, []⟩

/-- The cell of the key, a new one if it has none. -/
def find (init : σ) (s : CellMap κ σ α β) (key : κ) (a : α) : CellMap κ σ α β :=
  match s.map key with
  | some cell => { s with visits := s.visits ++ [⟨key, a, cell, s.rounds key⟩] }
  | none =>
    { s with
      map := Function.update s.map key (some s.made)
      cells := Function.update s.cells s.made init
      made := s.made + 1
      visits := s.visits ++ [⟨key, a, s.made, s.rounds key⟩] }

/-- The thread acts on the cell that it has found. -/
def enter (act : σ → α → σ × β) (s : CellMap κ σ α β) (k : ℕ) : CellMap κ σ α β :=
  match s.visits[k]? with
  | none => s
  | some v =>
    let (cell, result) := act (s.cells v.cell) v.act
    { s with
      cells := Function.update s.cells v.cell cell
      visits := s.visits.eraseIdx k
      log := s.log ++ [⟨v.key, v.round, v.act, result⟩] }

/-- The key is removed from the map. -/
def remove (s : CellMap κ σ α β) (key : κ) : CellMap κ σ α β :=
  { s with
    map := Function.update s.map key none
    rounds := Function.update s.rounds key (s.rounds key + 1) }

/-- The map after one event. -/
def step (init : σ) (act : σ → α → σ × β) (s : CellMap κ σ α β) : CellEvent κ α → CellMap κ σ α β
  | .find key a => s.find init key a
  | .enter k => s.enter act k
  | .remove key => s.remove key

/-- What was done in a round of a key. -/
def actsOf (log : List (Outcome κ α β)) (key : κ) (round : ℕ) : List α :=
  (log.filter fun o => o.key = key ∧ o.round = round).map Outcome.act

/-- A cell after the actions, without any threads. -/
def alone (init : σ) (act : σ → α → σ × β) (acts : List α) : σ :=
  DsDns.run (fun cell a => (act cell a).1) init acts

variable {init : σ} {act : σ → α → σ × β} {s : CellMap κ σ α β}

theorem actsOf_concat (log : List (Outcome κ α β)) (o : Outcome κ α β) (key : κ) (round : ℕ) :
    actsOf (log ++ [o]) key round =
      if o.key = key ∧ o.round = round then actsOf log key round ++ [o.act] else actsOf log key round := by
  unfold actsOf
  rw [List.filter_append, List.map_append]
  by_cases h : o.key = key ∧ o.round = round
  · rw [if_pos h, List.filter_cons_of_pos (by simpa using h)]
    rfl
  · rw [if_neg h, List.filter_cons_of_neg (by simpa using h)]
    exact List.append_nil _

theorem alone_concat (acts : List α) (a : α) : alone init act (acts ++ [a]) = (act (alone init act acts) a).1 :=
  run_concat a

/-! ### Which cell belongs to which round -/

/-- `owned key round` is the cell that the round has, if it has one yet: no two rounds share a cell, and a cell is
what the actions of its round have made of it. -/
structure Owned (init : σ) (act : σ → α → σ × β) (owned : κ → ℕ → Option ℕ) (s : CellMap κ σ α β) : Prop where
  map_eq : ∀ key, s.map key = owned key (s.rounds key)
  visit : ∀ v ∈ s.visits, owned v.key v.round = some v.cell
  apart : ∀ key round key' round' cell, owned key round = some cell → owned key' round' = some cell →
    key = key' ∧ round = round'
  lt_made : ∀ key round cell, owned key round = some cell → cell < s.made
  cell_eq : ∀ key round cell, owned key round = some cell → s.cells cell = alone init act (actsOf s.log key round)
  untouched : ∀ key round, owned key round = none → actsOf s.log key round = []
  later : ∀ key round, s.rounds key < round → owned key round = none

/-- Every action has returned what it returns after the earlier ones of its round. -/
def Decided (init : σ) (act : σ → α → σ × β) (log : List (Outcome κ α β)) : Prop :=
  ∀ early o late, log = early ++ o :: late →
    o.result = (act (alone init act (actsOf early o.key o.round)) o.act).2

theorem decided_concat {log : List (Outcome κ α β)} (h : Decided init act log) {o : Outcome κ α β}
    (ho : o.result = (act (alone init act (actsOf log o.key o.round)) o.act).2) :
    Decided init act (log ++ [o]) := by
  intro early p late heq
  rcases List.eq_nil_or_concat late with rfl | ⟨late, q, rfl⟩
  · obtain ⟨rfl, hlast⟩ := List.append_inj' heq rfl
    obtain rfl := List.head_eq_of_cons_eq hlast
    exact ho
  · rw [List.concat_eq_append, ← List.cons_append, ← List.append_assoc] at heq
    exact h early p late (List.append_inj' heq rfl).1

/-- A run up to some point: the rounds have their cells, and what is over is decided. -/
structure Linked (init : σ) (act : σ → α → σ × β) (s : CellMap κ σ α β) : Prop where
  owned : ∃ owned, Owned init act owned s
  decided : Decided init act s.log

theorem linked_start : Linked init act (start init : CellMap κ σ α β) where
  owned := by
    refine ⟨fun _ _ => none, fun _ => rfl, ?_, ?_, ?_, ?_, fun _ _ _ => rfl, fun _ _ _ => rfl⟩
    · intro v hv
      exact absurd hv List.not_mem_nil
    · intro key round key' round' cell h
      exact absurd h (Option.some_ne_none cell).symm
    · intro key round cell h
      exact absurd h (Option.some_ne_none cell).symm
    · intro key round cell h
      exact absurd h (Option.some_ne_none cell).symm
  decided := by
    intro early o late h
    exact absurd h.symm (List.append_ne_nil_of_right_ne_nil early (List.cons_ne_nil o late))

variable {owned : κ → ℕ → Option ℕ}

/-- A thread finds the cell of the round. -/
theorem Owned.find_some (h : Owned init act owned s) {key : κ} {a : α} {cell : ℕ}
    (hmap : s.map key = some cell) :
    Owned init act owned { s with visits := s.visits ++ [⟨key, a, cell, s.rounds key⟩] } where
  map_eq := h.map_eq
  visit := by
    intro v hv
    rcases List.mem_append.mp hv with hv | hv
    · exact h.visit v hv
    · rw [List.mem_singleton.mp hv]
      exact (h.map_eq key).symm.trans hmap
  apart := h.apart
  lt_made := h.lt_made
  cell_eq := h.cell_eq
  untouched := h.untouched
  later := h.later

/-- The round of the key gets the cell. -/
def own (owned : κ → ℕ → Option ℕ) (key : κ) (round cell : ℕ) : κ → ℕ → Option ℕ :=
  fun k r => if k = key ∧ r = round then some cell else owned k r

theorem own_eq_some {key k : κ} {round r cell c : ℕ} (h : own owned key round cell k r = some c) :
    (k = key ∧ r = round ∧ c = cell) ∨ owned k r = some c := by
  unfold own at h
  split at h
  · rename_i hk
    exact Or.inl ⟨hk.1, hk.2, (Option.some.inj h).symm⟩
  · exact Or.inr h

/-- A thread makes the cell of the round. -/
theorem Owned.find_none (h : Owned init act owned s) {key : κ} {a : α} (hmap : s.map key = none) :
    Owned init act (own owned key (s.rounds key) s.made)
      { s with
        map := Function.update s.map key (some s.made)
        cells := Function.update s.cells s.made init
        made := s.made + 1
        visits := s.visits ++ [⟨key, a, s.made, s.rounds key⟩] } := by
  have hnone : owned key (s.rounds key) = none := (h.map_eq key).symm.trans hmap
  have hfree : ∀ k r, owned k r ≠ some s.made := fun k r hk => absurd (h.lt_made k r _ hk) (Nat.lt_irrefl _)
  constructor
  case map_eq =>
    intro k
    unfold own
    show Function.update s.map key (some s.made) k = _
    by_cases hk : k = key
    · subst hk
      rw [Function.update_self, if_pos ⟨rfl, rfl⟩]
    · rw [Function.update_of_ne hk, if_neg fun hand => hk hand.1]
      exact h.map_eq k
  case visit =>
    intro v hv
    unfold own
    rcases List.mem_append.mp hv with hv | hv
    · rw [if_neg]
      · exact h.visit v hv
      · rintro ⟨hk, hr⟩
        have hfound := h.visit v hv
        rw [hk, hr, hnone] at hfound
        exact absurd hfound (Option.some_ne_none _).symm
    · rw [List.mem_singleton.mp hv]
      exact if_pos ⟨rfl, rfl⟩
  case apart =>
    intro k r k' r' c hc hc'
    rcases own_eq_some hc with ⟨hk, hr, rfl⟩ | hold
    · rcases own_eq_some hc' with ⟨hk', hr', -⟩ | hold'
      · exact ⟨hk.trans hk'.symm, hr.trans hr'.symm⟩
      · exact absurd hold' (hfree k' r')
    · rcases own_eq_some hc' with ⟨-, -, rfl⟩ | hold'
      · exact absurd hold (hfree k r)
      · exact h.apart k r k' r' c hold hold'
  case lt_made =>
    intro k r c hc
    rcases own_eq_some hc with ⟨-, -, rfl⟩ | hold
    · exact Nat.lt_succ_self _
    · exact Nat.lt_succ_of_lt (h.lt_made k r c hold)
  case cell_eq =>
    intro k r c hc
    show Function.update s.cells s.made init c = _
    rcases own_eq_some hc with ⟨rfl, rfl, rfl⟩ | hold
    · rw [Function.update_self, h.untouched k _ hnone]
      rfl
    · rw [Function.update_of_ne (Nat.ne_of_lt (h.lt_made k r c hold))]
      exact h.cell_eq k r c hold
  case untouched =>
    intro k r hk
    unfold own at hk
    split at hk
    · exact absurd hk (Option.some_ne_none _)
    · exact h.untouched k r hk
  case later =>
    intro k r hr
    unfold own
    rw [if_neg]
    · exact h.later k r hr
    · rintro ⟨rfl, rfl⟩
      exact Nat.lt_irrefl _ hr

/-- A key that is removed is in a round without a cell. -/
theorem Owned.remove (h : Owned init act owned s) (key : κ) : Owned init act owned (s.remove key) where
  map_eq := by
    intro k
    show Function.update s.map key none k = owned k (Function.update s.rounds key (s.rounds key + 1) k)
    by_cases hk : k = key
    · subst hk
      rw [Function.update_self, Function.update_self, h.later k _ (Nat.lt_succ_self _)]
    · rw [Function.update_of_ne hk, Function.update_of_ne hk]
      exact h.map_eq k
  visit := h.visit
  apart := h.apart
  lt_made := h.lt_made
  cell_eq := h.cell_eq
  untouched := h.untouched
  later := by
    intro k r hr
    apply h.later k r
    change Function.update s.rounds key (s.rounds key + 1) k < r at hr
    by_cases hk : k = key
    · subst hk
      rw [Function.update_self] at hr
      exact Nat.lt_trans (Nat.lt_succ_self _) hr
    · rwa [Function.update_of_ne hk] at hr

/-- A thread acts on the cell of its round. -/
theorem Owned.enter (h : Owned init act owned s) {k : ℕ} {v : Visit κ α} (hv : s.visits[k]? = some v) :
    Owned init act owned
      { s with
        cells := Function.update s.cells v.cell (act (s.cells v.cell) v.act).1
        visits := s.visits.eraseIdx k
        log := s.log ++ [⟨v.key, v.round, v.act, (act (s.cells v.cell) v.act).2⟩] } := by
  have hcell := h.visit v (List.mem_of_getElem? hv)
  constructor
  case map_eq => exact h.map_eq
  case visit => exact fun w hw => h.visit w (List.mem_of_mem_eraseIdx hw)
  case apart => exact h.apart
  case lt_made => exact h.lt_made
  case cell_eq =>
    intro key round c hc
    show Function.update s.cells v.cell _ c = alone init act (actsOf (s.log ++ [_]) key round)
    rw [actsOf_concat]
    by_cases hsame : v.key = key ∧ v.round = round
    · -- The round of the thread: its cell has one action more.
      obtain ⟨rfl, rfl⟩ := hsame
      obtain rfl : v.cell = c := Option.some.inj (hcell.symm.trans hc)
      rw [Function.update_self, if_pos ⟨rfl, rfl⟩, alone_concat, ← h.cell_eq _ _ _ hc]
    · have hne : c ≠ v.cell := by
        rintro rfl
        exact hsame (h.apart _ _ _ _ _ hcell hc)
      rw [Function.update_of_ne hne, if_neg hsame]
      exact h.cell_eq key round c hc
  case untouched =>
    intro key round hnone
    show actsOf (s.log ++ [_]) key round = []
    rw [actsOf_concat, if_neg]
    · exact h.untouched key round hnone
    · rintro ⟨rfl, rfl⟩
      rw [hcell] at hnone
      exact absurd hnone (Option.some_ne_none _)
  case later => exact h.later

theorem linked_step (h : Linked init act s) (e : CellEvent κ α) : Linked init act (s.step init act e) := by
  obtain ⟨owned, howned⟩ := h.owned
  cases e with
  | find key a =>
    show Linked init act (s.find init key a)
    unfold find
    split
    · rename_i cell hmap
      exact ⟨⟨owned, howned.find_some hmap⟩, h.decided⟩
    · rename_i hmap
      exact ⟨⟨_, howned.find_none hmap⟩, h.decided⟩
  | enter k =>
    show Linked init act (s.enter act k)
    unfold enter
    split
    · exact h
    · rename_i v hv
      refine ⟨⟨owned, howned.enter hv⟩, decided_concat h.decided ?_⟩
      have hcell := howned.visit v (List.mem_of_getElem? hv)
      rw [← howned.cell_eq _ _ _ hcell]
  | remove key => exact ⟨⟨owned, howned.remove key⟩, h.decided⟩

/-- **In every run** an action returns what it returns after the actions that its key and round had before, and
the cell of a key is what they have made of it. -/
theorem linked_run (init : σ) (act : σ → α → σ × β) (es : List (CellEvent κ α)) :
    Linked init act (DsDns.run (step init act) (start init : CellMap κ σ α β) es) :=
  run_invariant linked_start fun _ e hs => linked_step hs e

theorem Linked.cell_eq (h : Linked init act s) {key : κ} {cell : ℕ} (hmap : s.map key = some cell) :
    s.cells cell = alone init act (actsOf s.log key (s.rounds key)) := by
  obtain ⟨owned, howned⟩ := h.owned
  rw [howned.map_eq] at hmap
  exact howned.cell_eq key _ cell hmap

end CellMap

end DsDns
