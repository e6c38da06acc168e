/-
  Sections of concurrent programs, and when they keep out of each other's way.

  A section does a job in several steps on a shared state: `first` begins it, `next` goes on with it, and either of
  them may be its last. Every job has a place, and steps at different places do not notice each other
  (`Sections.Lawful`). Any number of sections are under way at the same time, and each may take its next step at
  any time. `Exclusive` is what a lock for each place would give: no section begins while another one is inside
  at its place.

  Main result: in a run with exclusive sections the state is what the jobs make of it one after the other, in the
  order in which they have begun (`serial_of_exclusive`). The invariant is that finishing the sections under way
  gives this state (`settled_step`).
-/
import DsDns.Transition
import DsDns.ListFacts

namespace DsDns

variable {σ ν π κ ρ : Type*}

/-- How far a section is. -/
inductive Progress (π : Type*) where
  | waiting
  | inside (stage : π)
  | ended
  deriving DecidableEq

/-- The progress after a step that leads to a stage, or to the end. -/
def Progress.of : Option π → Progress π
  | none => .ended
  | some stage => .inside stage

/-- A job and how far it is. -/
structure Section (ν π : Type*) where
  job : ν
  progress : Progress π
  deriving DecidableEq

/-- What the sections of a program do. -/
structure Sections (ρ σ ν π κ : Type*) where
  /-- The job that a request asks for, if any. -/
  accept : ρ → σ → Option ν
  place : ν → κ
  first : ν → σ → σ × Option π
  next : ν → π → σ → σ × Option π
  /-- All the steps that are left in a stage. -/
  rest : ν → π → σ → σ

/-- The shared state and the sections that have been called, in this order. -/
structure SectionWorld (σ ν π : Type*) where
  state : σ
  sections : List (Section ν π)

/-- A request arrives, or a section takes its next step. -/
inductive SectionEvent (ρ : Type*) where
  | call (request : ρ)
  | advance (i : ℕ)
  deriving DecidableEq

/-- The section is between its first and its last step. -/
def Section.Running (x : Section ν π) : Prop := ∃ stage, x.progress = .inside stage

instance (x : Section ν π) : Decidable x.Running :=
  match h : x.progress with
  | .inside stage => .isTrue ⟨stage, h⟩
  | .waiting => .isFalse fun ⟨_, h'⟩ => nomatch h.symm.trans h'
  | .ended => .isFalse fun ⟨_, h'⟩ => nomatch h.symm.trans h'

/-- The job, if its section takes its first step next. -/
def Section.starts (x : Section ν π) : Option ν :=
  match x.progress with
  | .waiting => some x.job
  | _ => none

/-- Nothing is between its first and its last step. -/
def SectionWorld.Quiet (w : SectionWorld σ ν π) : Prop := ∀ x ∈ w.sections, ¬ x.Running

instance (w : SectionWorld σ ν π) : Decidable w.Quiet := inferInstanceAs (Decidable (∀ x ∈ w.sections, ¬ x.Running))

/-- The job that begins with an event. -/
def SectionWorld.begins (w : SectionWorld σ ν π) : SectionEvent ρ → Option ν
  | .call _ => none
  | .advance i => w.sections[i]?.bind Section.starts

namespace Sections

variable (S : Sections ρ σ ν π κ)

/-- Take the steps that are left after one of them. -/
def finish (v : ν) (taken : σ × Option π) : σ :=
  match taken.2 with
  | none => taken.1
  | some stage => S.rest v stage taken.1

/-- What a job does when nothing comes between its steps. -/
def effect (v : ν) (s : σ) : σ := S.finish v (S.first v s)

/-- `rest` is what is left, and steps at different places do not notice each other. -/
structure Lawful : Prop where
  rest_next : ∀ v stage s, S.finish v (S.next v stage s) = S.rest v stage s
  first_rest : ∀ v w stage s, S.place v ≠ S.place w →
    S.first v (S.rest w stage s) = (S.rest w stage (S.first v s).1, (S.first v s).2)
  rest_rest : ∀ v w stage stage' s, S.place v ≠ S.place w →
    S.rest v stage (S.rest w stage' s) = S.rest w stage' (S.rest v stage s)

/-- The next step of a section. -/
def stepSection (x : Section ν π) (s : σ) : σ × Section ν π :=
  match x.progress with
  | .waiting => ((S.first x.job s).1, ⟨x.job, .of (S.first x.job s).2⟩)
  | .inside stage => ((S.next x.job stage s).1, ⟨x.job, .of (S.next x.job stage s).2⟩)
  | .ended => (s, x)

/-- The world after one event. -/
def step (w : SectionWorld σ ν π) : SectionEvent ρ → SectionWorld σ ν π
  | .call request =>
    match S.accept request w.state with
    | none => w
    | some v => { w with sections := w.sections ++ [⟨v, .waiting⟩] }
  | .advance i =>
    match w.sections[i]? with
    | none => w
    | some x => ⟨(S.stepSection x w.state).1, w.sections.set i (S.stepSection x w.state).2⟩

/-- The jobs that begin in a run, in this order. -/
def begun (w : SectionWorld σ ν π) : List (SectionEvent ρ) → List ν
  | [] => []
  | e :: es => (w.begins e).toList ++ begun (S.step w e) es

/-- No section begins while another one is inside at its place. -/
def Exclusive (w : SectionWorld σ ν π) (e : SectionEvent ρ) : Prop :=
  ∀ v ∈ w.begins e, ∀ x ∈ w.sections, x.Running → S.place v ≠ S.place x.job

instance [DecidableEq κ] (w : SectionWorld σ ν π) (e : SectionEvent ρ) : Decidable (S.Exclusive w e) :=
  inferInstanceAs (Decidable (∀ v ∈ w.begins e, ∀ x ∈ w.sections, x.Running → S.place v ≠ S.place x.job))

variable {S}

/-! ### Finishing what is under way -/

/-- Take all steps that are left of a section that has begun. -/
def settle (S : Sections ρ σ ν π κ) (s : σ) (x : Section ν π) : σ :=
  match x.progress with
  | .inside stage => S.rest x.job stage s
  | _ => s

/-- The state after all sections that have begun have been finished. -/
def settled (S : Sections ρ σ ν π κ) (w : SectionWorld σ ν π) : σ := w.sections.foldl S.settle w.state

/-- Sections that have begun are at different places. -/
def Apart (S : Sections ρ σ ν π κ) (xs : List (Section ν π)) : Prop :=
  xs.Pairwise fun x y => x.Running → y.Running → S.place x.job ≠ S.place y.job

theorem settle_of_not_running {x : Section ν π} (h : ¬ x.Running) (s : σ) : S.settle s x = s := by
  unfold settle
  cases hp : x.progress with
  | waiting => rfl
  | inside stage => exact absurd ⟨stage, hp⟩ h
  | ended => rfl

theorem settled_of_quiet {w : SectionWorld σ ν π} (h : w.Quiet) : S.settled w = w.state := by
  unfold settled
  have hall : ∀ xs : List (Section ν π), (∀ x ∈ xs, ¬ x.Running) → xs.foldl S.settle w.state = w.state := by
    intro xs
    induction xs with
    | nil => exact fun _ => rfl
    | cons x xs ih =>
      intro hxs
      rw [List.foldl_cons, settle_of_not_running (hxs x List.mem_cons_self)]
      exact ih fun y hy => hxs y (List.mem_cons_of_mem x hy)
  exact hall w.sections h

theorem settle_of (v : ν) (taken : σ × Option π) : S.settle taken.1 ⟨v, .of taken.2⟩ = S.finish v taken := by
  obtain ⟨s, _ | stage⟩ := taken <;> rfl

theorem settle_comm (hS : S.Lawful) {x y : Section ν π}
    (h : x.Running → y.Running → S.place x.job ≠ S.place y.job) (s : σ) :
    S.settle (S.settle s y) x = S.settle (S.settle s x) y := by
  by_cases hx : x.Running
  · by_cases hy : y.Running
    · obtain ⟨⟨stage, hx'⟩, stage', hy'⟩ := And.intro hx hy
      unfold settle
      rw [hx', hy']
      exact hS.rest_rest _ _ _ _ s (h hx hy)
    · rw [settle_of_not_running hy, settle_of_not_running hy]
  · rw [settle_of_not_running hx, settle_of_not_running hx]

/-- A job notices nothing of what is left of another one at another place. -/
theorem effect_settle (hS : S.Lawful) {v : ν} {x : Section ν π} (h : x.Running → S.place v ≠ S.place x.job)
    (s : σ) : S.effect v (S.settle s x) = S.settle (S.effect v s) x := by
  by_cases hx : x.Running
  · obtain ⟨stage, hstage⟩ := id hx
    unfold settle
    rw [hstage]
    unfold effect finish
    simp only
    rw [hS.first_rest v x.job stage s (h hx)]
    cases (S.first v s).2 with
    | none => rfl
    | some stage' => exact hS.rest_rest _ _ _ _ _ (h hx)
  · rw [settle_of_not_running hx, settle_of_not_running hx]

/-- A section may be finished before those that it is apart from. -/
theorem settle_middle (hS : S.Lawful) {xs ys : List (Section ν π)} {x : Section ν π}
    (h : ∀ y ∈ xs, x.Running → y.Running → S.place x.job ≠ S.place y.job) (s : σ) :
    (xs ++ x :: ys).foldl S.settle s = (xs ++ ys).foldl S.settle (S.settle s x) := by
  rw [List.foldl_append, List.foldl_cons, List.foldl_append]
  rw [foldl_comm (f := fun s => S.settle s x) fun y hy s => settle_comm hS (fun hy' hx' => (h y hy hx' hy').symm) s]

/-! ### Steps and runs -/

theorem apart_set {as bs : List (Section ν π)} {x y : Section ν π} (h : S.Apart (as ++ x :: bs))
    (hjob : y.job = x.job)
    (hnew : y.Running → ∀ z ∈ as ++ bs, z.Running → S.place x.job ≠ S.place z.job) :
    S.Apart (as ++ y :: bs) := by
  unfold Apart at h ⊢
  rw [List.pairwise_append, List.pairwise_cons] at h ⊢
  obtain ⟨has, ⟨-, hbs⟩, hcross⟩ := h
  refine ⟨has, ⟨?_, hbs⟩, ?_⟩
  · intro z hz hy hz'
    rw [hjob]
    exact hnew hy z (List.mem_append_right as hz) hz'
  · intro z hz z' hz' hrun hrun'
    rcases List.mem_cons.mp hz' with rfl | hz'
    · rw [hjob]
      exact (hnew hrun' z (List.mem_append_left bs hz) hrun).symm
    · exact hcross z hz z' (List.mem_cons_of_mem x hz') hrun hrun'

/-- Of a section that has begun it is known that it is apart from the others. -/
theorem Apart.middle {as bs : List (Section ν π)} {x : Section ν π} (h : S.Apart (as ++ x :: bs)) (hx : x.Running) :
    ∀ z ∈ as ++ bs, z.Running → S.place x.job ≠ S.place z.job := by
  unfold Apart at h
  rw [List.pairwise_append, List.pairwise_cons] at h
  intro z hz hz'
  rcases List.mem_append.mp hz with hz | hz
  · exact (h.2.2 z hz x List.mem_cons_self hz' hx).symm
  · exact h.2.1.1 z hz hx hz'

theorem not_running_waiting (v : ν) : ¬ (⟨v, .waiting⟩ : Section ν π).Running := by
  rintro ⟨stage, hstage⟩
  cases hstage

/-- The next step of the section `x` among others: they stay apart, and finishing everything has the effect of the
job of `x` besides if this is its first step. -/
theorem settled_stepSection (hS : S.Lawful) {as bs : List (Section ν π)} {x : Section ν π} {s : σ}
    (hw : S.Apart (as ++ x :: bs))
    (hexcl : ∀ v ∈ x.starts, ∀ z ∈ as ++ bs, z.Running → S.place v ≠ S.place z.job) :
    S.Apart (as ++ (S.stepSection x s).2 :: bs) ∧
      (as ++ (S.stepSection x s).2 :: bs).foldl S.settle (S.stepSection x s).1 =
        x.starts.toList.foldl (fun s v => S.effect v s) ((as ++ x :: bs).foldl S.settle s) := by
  have hmiddle : ∀ y : Section ν π, (y.Running → ∀ z ∈ as ++ bs, z.Running → S.place y.job ≠ S.place z.job) →
      ∀ s, (as ++ y :: bs).foldl S.settle s = (as ++ bs).foldl S.settle (S.settle s y) :=
    fun y hy s => settle_middle hS (fun z hz hrun => hy hrun z (List.mem_append_left bs hz)) s
  obtain ⟨v, _ | stage | _⟩ := x
  · -- It begins.
    have hapart : ∀ z ∈ as ++ bs, z.Running → S.place v ≠ S.place z.job := hexcl v rfl
    refine ⟨apart_set hw rfl fun _ => hapart, ?_⟩
    rw [hmiddle _ fun _ => hapart, hmiddle _ fun hrun => absurd hrun (not_running_waiting v)]
    show (as ++ bs).foldl S.settle (S.settle (S.first v s).1 ⟨v, .of (S.first v s).2⟩) =
      S.effect v ((as ++ bs).foldl S.settle s)
    rw [settle_of]
    exact foldl_comm (f := S.effect v) (fun z hz s => (effect_settle hS (hapart z hz) s).symm) s
  · have hapart : ∀ z ∈ as ++ bs, z.Running → S.place v ≠ S.place z.job := hw.middle ⟨stage, rfl⟩
    refine ⟨apart_set hw rfl fun _ => hapart, ?_⟩
    rw [hmiddle _ fun _ => hapart, hmiddle _ fun _ => hapart]
    show (as ++ bs).foldl S.settle (S.settle (S.next v stage s).1 ⟨v, .of (S.next v stage s).2⟩) =
      (as ++ bs).foldl S.settle (S.rest v stage s)
    rw [settle_of, hS.rest_next]
  · exact ⟨hw, rfl⟩

theorem stepSection_job (x : Section ν π) (s : σ) : (S.stepSection x s).2.job = x.job := by
  obtain ⟨v, _ | stage | _⟩ := x <;> rfl

/-- What an event can do: nothing, call a section, or take the next step of one. -/
theorem step_cases (w : SectionWorld σ ν π) (e : SectionEvent ρ) :
    (S.step w e = w ∧ w.begins e = none) ∨
    (∃ request v, S.accept request w.state = some v ∧
      S.step w e = { w with sections := w.sections ++ [⟨v, .waiting⟩] } ∧ w.begins e = none) ∨
    ∃ as x bs, w.sections = as ++ x :: bs ∧
      S.step w e = ⟨(S.stepSection x w.state).1, as ++ (S.stepSection x w.state).2 :: bs⟩ ∧
      w.begins e = x.starts := by
  cases e with
  | call request =>
    cases haccept : S.accept request w.state with
    | none =>
      left
      refine ⟨?_, rfl⟩
      simp only [step, haccept]
    | some v =>
      right; left
      refine ⟨request, v, haccept, ?_, rfl⟩
      simp only [step, haccept]
  | advance i =>
    cases hx : w.sections[i]? with
    | none =>
      left
      constructor
      · simp only [step, hx]
      · simp only [SectionWorld.begins, hx, Option.bind_none]
    | some x =>
      obtain ⟨as, bs, hsplit, hset⟩ := exists_split hx
      right; right
      refine ⟨as, x, bs, hsplit, ?_, ?_⟩
      · simp only [step, hx, hset]
      · simp only [SectionWorld.begins, hx, Option.bind_some]

/-- **One step.** What finishing everything under way leads to changes when a job begins, and then by the effect
of this job. -/
theorem settled_step (hS : S.Lawful) {w : SectionWorld σ ν π} (hw : S.Apart w.sections) {e : SectionEvent ρ}
    (he : S.Exclusive w e) : S.Apart (S.step w e).sections ∧
      S.settled (S.step w e) = (w.begins e).toList.foldl (fun s v => S.effect v s) (S.settled w) := by
  rcases S.step_cases w e with ⟨hstep, hnone⟩ | ⟨request, v, -, hstep, hnone⟩ |
    ⟨as, x, bs, hsplit, hstep, hstarts⟩
  · rw [hstep, hnone]
    exact ⟨hw, rfl⟩
  · rw [hstep, hnone]
    constructor
    · apply List.pairwise_append.mpr
      refine ⟨hw, List.pairwise_singleton _ _, fun x _ y hy _ hrun => ?_⟩
      rw [List.mem_singleton.mp hy] at hrun
      exact absurd hrun (not_running_waiting v)
    · show (w.sections ++ [_]).foldl S.settle w.state = _
      rw [List.foldl_append]
      rfl
  · unfold Exclusive at he
    unfold settled
    rw [hstarts, hsplit] at he
    rw [hsplit] at hw
    rw [hstep, hstarts, hsplit]
    refine settled_stepSection hS hw fun v hv z hz => he v hv z ?_
    rcases List.mem_append.mp hz with hz | hz
    · exact List.mem_append_left _ hz
    · exact List.mem_append_right as (List.mem_cons_of_mem x hz)

theorem settled_run (hS : S.Lawful) {w : SectionWorld σ ν π} (hw : S.Apart w.sections)
    {es : List (SectionEvent ρ)} (h : Along S.Exclusive S.step w es) :
    S.settled (run S.step w es) = (S.begun w es).foldl (fun s v => S.effect v s) (S.settled w) := by
  induction es generalizing w with
  | nil => rfl
  | cons e es ih =>
    obtain ⟨he, hes⟩ := h
    obtain ⟨hapart, hstep⟩ := settled_step hS hw he
    rw [run_cons, ih hapart hes, hstep]
    show _ = ((w.begins e).toList ++ S.begun (S.step w e) es).foldl _ _
    rw [List.foldl_append]

/-- The jobs of the sections that have begun. -/
def started (w : SectionWorld σ ν π) : List ν :=
  (w.sections.filter fun x => x.starts.isNone).map Section.job

theorem started_append (s : σ) (xs ys : List (Section ν π)) :
    started ⟨s, xs ++ ys⟩ = started ⟨s, xs⟩ ++ started ⟨s, ys⟩ := by
  unfold started
  rw [List.filter_append, List.map_append]

theorem started_step (w : SectionWorld σ ν π) (e : SectionEvent ρ) :
    (started (S.step w e)).Perm (started w ++ (w.begins e).toList) := by
  rcases S.step_cases w e with ⟨hstep, hnone⟩ | ⟨request, v, -, hstep, hnone⟩ |
    ⟨as, x, bs, hsplit, hstep, hstarts⟩
  · rw [hstep, hnone]
    exact (List.append_nil _).symm ▸ List.Perm.refl _
  · rw [hstep, hnone, started_append]
    rfl
  · obtain ⟨s, xs⟩ := w
    obtain rfl : xs = as ++ x :: bs := hsplit
    rw [hstep, hstarts, started_append, started_append, List.append_assoc]
    apply List.Perm.append_left
    -- After its step the section has begun.
    have hbegun : ∀ (s' : σ) (v : ν) (o : Option π), started ⟨s', ⟨v, .of o⟩ :: bs⟩ = v :: started ⟨s', bs⟩ := by
      intro s' v o
      cases o <;> rfl
    obtain ⟨v, _ | stage | _⟩ := x
    · show (started ⟨_, ⟨v, .of (S.first v s).2⟩ :: bs⟩).Perm (started ⟨s, bs⟩ ++ [v])
      rw [hbegun]
      exact (List.perm_append_singleton v _).symm
    · show (started ⟨_, ⟨v, .of (S.next v stage s).2⟩ :: bs⟩).Perm (v :: started ⟨s, bs⟩ ++ [])
      rw [hbegun, List.append_nil]
      rfl
    · rw [Section.starts, Option.toList_none, List.append_nil]
      rfl

/-- Every job that has begun has begun once. -/
theorem begun_perm {w : SectionWorld σ ν π} (es : List (SectionEvent ρ)) :
    (started (run S.step w es)).Perm (started w ++ S.begun w es) := by
  induction es generalizing w with
  | nil => exact (List.append_nil _).symm ▸ List.Perm.refl _
  | cons e es ih =>
    show (started (run S.step (S.step w e) es)).Perm (started w ++ ((w.begins e).toList ++ S.begun (S.step w e) es))
    rw [← List.append_assoc]
    exact ih.trans ((started_step w e).append_right _)

/-- **Exclusive sections are serial.** In a run that begins and ends with nothing under way, and in which no
section begins while another one is inside at its place, the state becomes what the jobs make of it one after the
other, in the order in which they have begun. -/
theorem serial_of_exclusive (hS : S.Lawful) {w : SectionWorld σ ν π} (hw : w.Quiet) {es : List (SectionEvent ρ)}
    (h : Along S.Exclusive S.step w es) (hend : (run S.step w es).Quiet) :
    (run S.step w es).state = (S.begun w es).foldl (fun s v => S.effect v s) w.state := by
  have hapart : S.Apart w.sections := List.pairwise_of_forall_mem_list fun x hx _ _ hrun => absurd hrun (hw x hx)
  rw [← settled_of_quiet (S := S) hend, settled_run hS hapart h, settled_of_quiet hw]

end Sections

end DsDns
