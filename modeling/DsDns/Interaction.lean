/-
  Programs that interact with a world, as trees of questions.

  `Interaction Q R α` is a program that asks questions `q : Q`, goes on with the reply `R q`, and
  ends with a result in `α`. The tree is inductive, so a program asks finitely many questions on every
  path and always ends. The world is not part of it: what it replies is up to whoever runs the program.

  `Asks t q` says that some replies make `t` ask `q`, and `Ends t a` that some make it end with `a`.
  `Runs replies t asked a` says that a world with these replies can take `t` through the questions `asked` to
  the result `a`. `Meets c g t` says that, against a world which keeps its side of the contract `c`, the
  program asks only what `c` admits and ends as `c` demands, where `g` accumulates what the replies so
  far are worth. `ends_bind`, `runs_bind` and `meets_bind` are the rules of composition; `Meets.of_asks` and
  `Meets.of_runs` connect the statements.
-/
import Mathlib.Algebra.Ring.Nat

namespace DsDns

/-- A program with questions `Q` and replies `R`. -/
inductive Interaction (Q : Type) (R : Q → Type) (α : Type) : Type
  | done (a : α)
  | ask (q : Q) (next : R q → Interaction Q R α)

namespace Interaction

variable {Q : Type} {R : Q → Type} {α β γ : Type}

/-- Run `f` on the result. -/
def bind : Interaction Q R α → (α → Interaction Q R β) → Interaction Q R β
  | done a, f => f a
  | ask q next, f => ask q fun r => (next r).bind f

instance : Monad (Interaction Q R) where
  pure := done
  bind := bind

/-- The program that asks one question. -/
def question (q : Q) : Interaction Q R (R q) := ask q done

/-- Some replies make the program ask `q`. -/
inductive Asks : Interaction Q R α → Q → Prop
  | here (q : Q) (next : R q → Interaction Q R α) : Asks (ask q next) q
  | later {q p : Q} {next : R q → Interaction Q R α} (r : R q) : Asks (next r) p → Asks (ask q next) p

/-- Some replies make the program end with `a`. -/
inductive Ends : Interaction Q R α → α → Prop
  | done (a : α) : Ends (done a) a
  | later {q : Q} {next : R q → Interaction Q R α} {a : α} (r : R q) : Ends (next r) a → Ends (ask q next) a

@[simp] theorem ends_pure {a b : α} : Ends (pure a : Interaction Q R α) b ↔ b = a := by
  constructor
  · intro h
    cases h
    rfl
  · rintro rfl
    exact Ends.done b

/-- A program in two parts ends as the second may, from where the first may end. -/
theorem ends_bind {t : Interaction Q R α} {f : α → Interaction Q R β} {b : β} :
    Ends (t >>= f) b ↔ ∃ a, Ends t a ∧ Ends (f a) b := by
  constructor
  · intro h
    induction t with
    | done a => exact ⟨a, Ends.done a, h⟩
    | ask q next ih =>
      cases h with
      | later r h =>
        obtain ⟨a, ha, hb⟩ := ih r h
        exact ⟨a, Ends.later r ha, hb⟩
  · rintro ⟨a, ha, hb⟩
    induction ha with
    | done a => exact hb
    | later r _ ih => exact Ends.later r (ih hb)

/-- A contract between a program and its world. -/
structure Contract (Q : Type) (R : Q → Type) (α γ : Type) where
  /-- What the program may ask. -/
  asks : Q → Prop
  /-- What the world may reply. -/
  replies : (q : Q) → R q → Prop
  /-- What a reply adds to what is known. -/
  note : γ → (q : Q) → R q → γ
  /-- How the program may end. -/
  ends : γ → α → Prop

/-- The contract with another demand on the result. -/
def Contract.ending (c : Contract Q R α γ) (ends : γ → β → Prop) : Contract Q R β γ where
  asks := c.asks
  replies := c.replies
  note := c.note
  ends := ends

/-- The program keeps its side of the contract. -/
def Meets (c : Contract Q R α γ) : γ → Interaction Q R α → Prop
  | g, done a => c.ends g a
  | g, ask q next => c.asks q ∧ ∀ r, c.replies q r → Meets c (c.note g q r) (next r)

/-- **Composition**: the first program has to end where the second one can start. -/
theorem meets_bind {c : Contract Q R β γ} {g : γ} {t : Interaction Q R α}
    {f : α → Interaction Q R β} (h : Meets (c.ending fun g a => Meets c g (f a)) g t) :
    Meets c g (t >>= f) := by
  induction t generalizing g with
  | done a => exact h
  | ask q next ih => exact ⟨h.1, fun r hr => ih r (h.2 r hr)⟩

/-- A program may end in more ways than it has to. -/
theorem Meets.mono {c : Contract Q R α γ} {ends : γ → α → Prop} {g : γ} {t : Interaction Q R α}
    (h : Meets c g t) (hends : ∀ g a, c.ends g a → ends g a) : Meets (c.ending ends) g t := by
  induction t generalizing g with
  | done a => exact hends g a h
  | ask q next ih => exact ⟨h.1, fun r hr => ih r (h.2 r hr)⟩

/-- Against a world that may reply anything, a program asks only what its contract admits. -/
theorem Meets.of_asks {c : Contract Q R α γ} {g : γ} {t : Interaction Q R α} {q : Q}
    (h : Meets c g t) (hany : ∀ q r, c.replies q r) (hq : Asks t q) : c.asks q := by
  induction hq generalizing g with
  | here q next => exact h.1
  | later r _ ih => exact ih (h.2 r (hany _ r))

/-- An automaton for programs with the questions `Q` and the replies `R`. -/
structure Automaton (Q : Type) (R : Q → Type) (α S : Type) where
  /-- What may be asked in a state. -/
  asks : S → Q → Prop
  /-- The state after a reply. -/
  next : S → (q : Q) → R q → S
  /-- How a program may have ended in a state. -/
  ends : S → α → Prop

/-- The automaton follows the program from the state on. -/
def Follows {S : Type} (m : Automaton Q R α S) : S → Interaction Q R α → Prop
  | s, done a => m.ends s a
  | s, ask q next => m.asks s q ∧ ∀ r, Follows m (m.next s q r) (next r)

/-- What an automaton does not admit is not asked. -/
theorem Follows.of_asks {S : Type} {m : Automaton Q R α S} {s : S} {t : Interaction Q R α} {q : Q}
    (h : Follows m s t) (hq : Asks t q) : ∃ s', m.asks s' q := by
  induction hq generalizing s with
  | here q next => exact ⟨s, h.1⟩
  | later r _ ih => exact ih (h.2 r)

/-! ### Runs -/

/-- With the admitted replies, the program can ask the questions in this order and end with `a`. -/
inductive Runs (replies : (q : Q) → R q → Prop) : Interaction Q R α → List Q → α → Prop
  | done (a : α) : Runs replies (done a) [] a
  | ask {q : Q} {next : R q → Interaction Q R α} {asked : List Q} {a : α} (r : R q) :
    replies q r → Runs replies (next r) asked a → Runs replies (ask q next) (q :: asked) a

variable {replies : (q : Q) → R q → Prop} {asked : List Q}

@[simp] theorem runs_pure {a b : α} :
    Runs replies (pure a : Interaction Q R α) asked b ↔ asked = [] ∧ b = a := by
  constructor
  · intro h
    cases h
    exact ⟨rfl, rfl⟩
  · rintro ⟨rfl, rfl⟩
    exact Runs.done b

theorem runs_ask {q : Q} {next : R q → Interaction Q R α} {a : α} : Runs replies (ask q next) asked a ↔
    ∃ r later, asked = q :: later ∧ replies q r ∧ Runs replies (next r) later a := by
  constructor
  · intro h
    cases h with
    | ask r hr hnext => exact ⟨r, _, rfl, hr, hnext⟩
  · rintro ⟨r, later, rfl, hr, hnext⟩
    exact Runs.ask r hr hnext

/-- A run of a program in two parts is a run of the first and one of the second. -/
theorem runs_bind {t : Interaction Q R α} {f : α → Interaction Q R β} {b : β} :
    Runs replies (t >>= f) asked b ↔
      ∃ first a later, asked = first ++ later ∧ Runs replies t first a ∧ Runs replies (f a) later b := by
  constructor
  · intro h
    induction t generalizing asked with
    | done a => exact ⟨[], a, asked, rfl, Runs.done a, h⟩
    | ask q next ih =>
      obtain ⟨r, rest, rfl, hr, hnext⟩ := runs_ask.mp h
      obtain ⟨first, a, later, rfl, hfirst, hlater⟩ := ih r hnext
      exact ⟨q :: first, a, later, rfl, Runs.ask r hr hfirst, hlater⟩
  · rintro ⟨first, a, later, rfl, hfirst, hlater⟩
    induction hfirst with
    | done a => exact hlater
    | ask r hr _ ih => exact Runs.ask r hr (ih hlater)

theorem Runs.asks {t : Interaction Q R α} {a : α} (h : Runs replies t asked a) {q : Q} (hq : q ∈ asked) :
    Asks t q := by
  induction h with
  | done a => exact absurd hq (by simp)
  | ask r _ _ ih =>
    rcases List.mem_cons.mp hq with rfl | hq
    · exact Asks.here _ _
    · exact Asks.later r (ih hq)

/-- What holds of every question of the program may be added to what is known of the replies. -/
theorem Runs.of_asks {ok : Q → Prop} {t : Interaction Q R α} {a : α} (h : Runs replies t asked a)
    (hok : ∀ q, Asks t q → ok q) : Runs (fun q r => ok q ∧ replies q r) t asked a := by
  induction h with
  | done a => exact Runs.done a
  | @ask q next _ _ r hr _ ih =>
    exact Runs.ask r ⟨hok q (Asks.here q next), hr⟩ (ih fun p hp => hok p (Asks.later r hp))

/-- With the admitted replies, the program has asked these questions when `left` is what is left of it. -/
inductive Reaches (replies : (q : Q) → R q → Prop) : Interaction Q R α → List Q → Interaction Q R α → Prop
  | here (t : Interaction Q R α) : Reaches replies t [] t
  | ask {q : Q} {next : R q → Interaction Q R α} {asked : List Q} {left : Interaction Q R α} (r : R q) :
    replies q r → Reaches replies (next r) asked left → Reaches replies (ask q next) (q :: asked) left

/-- One question more. -/
theorem Reaches.concat {t : Interaction Q R α} {q : Q} {next : R q → Interaction Q R α}
    (h : Reaches replies t asked (Interaction.ask q next)) {r : R q} (hr : replies q r) :
    Reaches replies t (asked ++ [q]) (next r) := by
  generalize hleft : Interaction.ask q next = left at h
  induction h with
  | here t =>
    subst hleft
    exact Reaches.ask r hr (Reaches.here _)
  | ask r' hr' _ ih => exact Reaches.ask r' hr' (ih hleft)

/-- When nothing is left, the program has been run. -/
theorem Reaches.runs {t : Interaction Q R α} {a : α} (h : Reaches replies t asked (Interaction.done a)) :
    Runs replies t asked a := by
  generalize hleft : Interaction.done a = left at h
  induction h with
  | here t =>
    subst hleft
    exact Runs.done a
  | ask r hr _ ih => exact Runs.ask r hr (ih hleft)

/-- What a program costs is paid from what the automaton that follows it has left. -/
theorem Follows.cost_le {S : Type} {m : Automaton Q R α S} {cost : Q → ℕ} {left : S → ℕ}
    (hcost : ∀ s q r, m.asks s q → cost q + left (m.next s q r) ≤ left s) {s : S} {t t' : Interaction Q R α}
    (h : Follows m s t) (ht : Reaches replies t asked t') : (asked.map cost).sum ≤ left s := by
  induction ht generalizing s with
  | here t => exact Nat.zero_le _
  | ask r hr _ ih =>
    obtain ⟨hasks, hnext⟩ := h
    have hrest := ih (hnext r)
    have hfirst := hcost s _ r hasks
    rw [List.map_cons, List.sum_cons]
    omega

/-- If every question can be answered, the program can be run. -/
theorem exists_runs (h : ∀ q, ∃ r, replies q r) (t : Interaction Q R α) : ∃ asked a, Runs replies t asked a := by
  induction t with
  | done a => exact ⟨[], a, Runs.done a⟩
  | ask q next ih =>
    obtain ⟨r, hr⟩ := h q
    obtain ⟨asked, a, hnext⟩ := ih r
    exact ⟨q :: asked, a, Runs.ask r hr hnext⟩

/-- A run against a world that keeps its side of the contract ends as the contract demands. -/
theorem Meets.of_runs {c : Contract Q R α γ} {g : γ} {t : Interaction Q R α} {a : α} (h : Meets c g t)
    (hrun : Runs c.replies t asked a) : ∃ g', c.ends g' a := by
  induction hrun generalizing g with
  | done a => exact ⟨g, h⟩
  | ask r hr _ ih => exact ih (h.2 r hr)

end Interaction

end DsDns
