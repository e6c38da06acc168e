/-
  The recursion of the import ends.

  `parseStart` calls itself with the number of a line beyond its own `start`, because `errStart` is set by
  the first of the failures that are counted (`Locals.Sound`). So the lines that are left get fewer with
  each nested call, and no depth beyond their number is ever used (`import_terminates`), whatever the
  resolver answers.
-/
import DsDns.Records.Parse
import Mathlib.Data.List.Count
import Mathlib.Tactic.Cases

namespace DsDns.Parse

variable [Unicode] {gethostbyname : ℕ → Str → Option Str} {csv : Str}

/-! ### The lines that are left -/

/-- The line numbers of the file. -/
def lineNumbers (csv : Str) : List ℤ := (readLines csv).filterMap fun line => (csvLine line).map Prod.fst

/-- How many lines `parseStart start` looks at. -/
def remaining (csv : Str) (start : ℤ) : ℕ := (lineNumbers csv).countP fun num => start < num

theorem mem_lineNumbers {line domain : Str} {num : ℤ} (hline : line ∈ readLines csv)
    (h : csvLine line = some (num, domain)) : num ∈ lineNumbers csv :=
  List.mem_filterMap.mpr ⟨line, hline, by rw [h]; rfl⟩

/-- A later start leaves fewer lines. -/
theorem remaining_lt {start num : ℤ} (hnum : num ∈ lineNumbers csv) (h : start < num) :
    remaining csv num < remaining csv start := by
  unfold remaining
  generalize lineNumbers csv = nums at hnum ⊢
  induction nums with
  | nil => exact absurd hnum List.not_mem_nil
  | cons x xs ih =>
    rw [List.countP_cons, List.countP_cons]
    have hle : ∀ y : ℤ, num < y → start < y := fun y hy => Int.lt_trans h hy
    rcases List.mem_cons.mp hnum with rfl | hmem
    · have hmono : xs.countP (fun y => num < y) ≤ xs.countP fun y => start < y :=
        List.countP_mono_left fun y _ hy => decide_eq_true (hle y (of_decide_eq_true hy))
      simp only [h, decide_true, if_true, Int.lt_irrefl, decide_false, Bool.false_eq_true, if_false]
      omega
    · have hlt := ih hmem
      by_cases hx : num < x
      · simp only [hx, hle x hx, decide_true, if_true]
        omega
      · simp only [hx, decide_false, Bool.false_eq_true, if_false]
        omega

/-! ### The local variables -/

/-- A counted failure has set `errStart` to the number of a line beyond `start`. -/
def Locals.Sound (csv : Str) (start : ℤ) (l : Locals) : Prop :=
  l.contErr ≠ 0 → l.errStart ∈ lineNumbers csv ∧ start < l.errStart

theorem Locals.Sound.fail {start num : ℤ} {l : Locals} (h : l.Sound csv start) (hnum : num ∈ lineNumbers csv)
    (hlt : start < num) : (l.fail num).Sound csv start := by
  unfold Locals.fail
  split
  · exact fun _ => ⟨hnum, hlt⟩
  · rename_i hne
    exact fun _ => h hne

/-- The calls that were logged from `w` to `w'`: each has a line number for its argument, beyond the caller's
`start`. -/
def CallsFrom (csv : Str) (start : ℤ) (w w' : World) : Prop :=
  ∃ calls, w'.calls = w.calls ++ calls ∧
    ∀ call ∈ calls, start ≤ call.1 ∧ call.1 < call.2 ∧ call.2 ∈ lineNumbers csv

namespace CallsFrom

theorem of_calls_eq {start : ℤ} {w w' : World} (h : w'.calls = w.calls) : CallsFrom csv start w w' :=
  ⟨[], by rw [h, List.append_nil], fun _ hc => absurd hc List.not_mem_nil⟩

theorem trans {start : ℤ} {w w' w'' : World} (h : CallsFrom csv start w w') (h' : CallsFrom csv start w' w'') :
    CallsFrom csv start w w'' := by
  obtain ⟨calls, heq, hcalls⟩ := h
  obtain ⟨calls', heq', hcalls'⟩ := h'
  refine ⟨calls ++ calls', by rw [heq', heq, List.append_assoc], fun call hc => ?_⟩
  rcases List.mem_append.mp hc with hc | hc
  · exact hcalls call hc
  · exact hcalls' call hc

theorem mono {start start' : ℤ} (hle : start ≤ start') {w w' : World} (h : CallsFrom csv start' w w') :
    CallsFrom csv start w w' := by
  obtain ⟨calls, heq, hcalls⟩ := h
  exact ⟨calls, heq, fun call hc => ⟨Int.le_trans hle (hcalls call hc).1, (hcalls call hc).2⟩⟩

end CallsFrom

/-! ### One turn of the loop -/

section Turn

variable {again again' : ℤ → World → World × Exit} {start num : ℤ} {domain : Str} {l : Locals}

omit [Unicode] in
/-- **What the `try` statement does**: the look-up fails, or its line is kept; after more than 200 failures
in a row `parseStart` is called again from the first of them. -/
theorem lookup_cases (gethostbyname : ℕ → Str → Option Str) (again : ℤ → World → World × Exit) (start num : ℤ)
    (domain : Str) (l : Locals) (w : World) :
    (lookup gethostbyname again start num domain l w = (l.fail num, { w with asked := w.asked + 1 }) ∧
      ∀ ip, gethostbyname w.asked domain = some ip → domain = []) ∨
    ∃ ip head tail, gethostbyname w.asked domain = some ip ∧ domain = head :: tail ∧
      (¬ 200 < l.contErr ∧
          lookup gethostbyname again start num domain l w =
            ({ l.push head (recordText domain ip) with contErr := 0 }, { w with asked := w.asked + 1 }) ∨
        200 < l.contErr ∧
          let out := again l.errStart
            { w with asked := w.asked + 1, calls := w.calls ++ [(start, l.errStart)] }
          lookup gethostbyname again start num domain l w =
            (if out.2 = .ok then { l.push head (recordText domain ip) with contErr := 0 }
              else (l.push head (recordText domain ip)).fail num, out.1)) := by
  unfold lookup
  cases hip : gethostbyname w.asked domain with
  | none => exact Or.inl ⟨rfl, fun ip hip => absurd hip (by simp)⟩
  | some ip =>
    cases domain with
    | nil => exact Or.inl ⟨rfl, fun _ _ => rfl⟩
    | cons head tail =>
      refine Or.inr ⟨ip, head, tail, rfl, rfl, ?_⟩
      by_cases hc : 200 < l.contErr
      · refine Or.inr ⟨hc, ?_⟩
        simp only [Locals.push, hc, if_true]
        generalize
          again l.errStart { w with asked := w.asked + 1, calls := w.calls ++ [(start, l.errStart)] } = out
        obtain ⟨w', _ | _⟩ := out <;> simp
      · refine Or.inl ⟨hc, ?_⟩
        simp only [Locals.push, hc, if_false]

theorem lookup_sound (hl : l.Sound csv start) (hnum : num ∈ lineNumbers csv) (hlt : start < num) (w : World) :
    (lookup gethostbyname again start num domain l w).1.Sound csv start := by
  rcases lookup_cases gethostbyname again start num domain l w with
    ⟨heq, -⟩ | ⟨ip, head, tail, -, -, ⟨-, heq⟩ | ⟨-, heq⟩⟩
  · rw [heq]
    exact hl.fail hnum hlt
  · rw [heq]
    exact fun h => absurd rfl h
  · have hpush : (l.push head (recordText domain ip)).Sound csv start := hl
    rw [heq]
    dsimp only
    split
    · exact fun h => absurd rfl h
    · exact hpush.fail hnum hlt

theorem lookup_calls (hl : l.Sound csv start)
    (hagain : ∀ e ∈ lineNumbers csv, start < e → ∀ w, CallsFrom csv e w (again e w).1) (w : World) :
    CallsFrom csv start w (lookup gethostbyname again start num domain l w).2 := by
  rcases lookup_cases gethostbyname again start num domain l w with
    ⟨heq, -⟩ | ⟨ip, head, tail, -, -, ⟨-, heq⟩ | ⟨hc, heq⟩⟩
  · rw [heq]
    exact .of_calls_eq rfl
  · rw [heq]
    exact .of_calls_eq rfl
  · obtain ⟨hmem, hlt⟩ := hl (by omega)
    rw [heq]
    refine .trans ⟨[(start, l.errStart)], rfl, ?_⟩ ((hagain l.errStart hmem hlt _).mono (Int.le_of_lt hlt))
    intro call hcall
    obtain rfl := List.mem_singleton.mp hcall
    exact ⟨Int.le_refl start, hlt, hmem⟩

/-- Only calls from the first of the counted failures matter. -/
theorem lookup_congr (hl : l.Sound csv start)
    (h : ∀ e ∈ lineNumbers csv, start < e → ∀ w, again e w = again' e w) (w : World) :
    lookup gethostbyname again start num domain l w = lookup gethostbyname again' start num domain l w := by
  unfold lookup
  by_cases hc : 200 < l.contErr
  · obtain ⟨hmem, hlt⟩ := hl (by omega)
    simp only [Locals.push, h l.errStart hmem hlt]
    rfl
  · simp only [Locals.push, hc, if_false]

omit [Unicode] in
/-- A commit changes neither the counters nor the log of calls. -/
theorem parseLine_frame (gethostbyname : ℕ → Str → Option Str) (again : ℤ → World → World × Exit) (start num : ℤ)
    (domain : Str) (l : Locals) (w : World) :
    let out := lookup gethostbyname again start num domain l w
    let out' := parseLine gethostbyname again start num domain l w
    out'.1.contErr = out.1.contErr ∧ out'.1.errStart = out.1.errStart ∧ out'.2.1.calls = out.2.calls := by
  unfold parseLine
  generalize lookup gethostbyname again start num domain l w = out
  obtain ⟨l', w'⟩ := out
  dsimp only
  split
  · generalize commit w'.disk l'.records num = out
    obtain ⟨disk, _ | _⟩ := out <;> exact ⟨rfl, rfl, rfl⟩
  · exact ⟨rfl, rfl, rfl⟩

theorem parseLine_sound (hl : l.Sound csv start) (hnum : num ∈ lineNumbers csv) (hlt : start < num) (w : World) :
    (parseLine gethostbyname again start num domain l w).1.Sound csv start := by
  obtain ⟨hcont, herr, -⟩ := parseLine_frame gethostbyname again start num domain l w
  unfold Locals.Sound
  rw [hcont, herr]
  exact lookup_sound hl hnum hlt w

theorem parseLine_calls (hl : l.Sound csv start)
    (hagain : ∀ e ∈ lineNumbers csv, start < e → ∀ w, CallsFrom csv e w (again e w).1) (w : World) :
    CallsFrom csv start w (parseLine gethostbyname again start num domain l w).2.1 := by
  obtain ⟨-, -, hcalls⟩ := parseLine_frame gethostbyname again start num domain l w
  exact (lookup_calls hl hagain w).trans (.of_calls_eq hcalls)

/-! ### The loop -/

theorem parseLines_calls (hagain : ∀ e ∈ lineNumbers csv, start < e → ∀ w, CallsFrom csv e w (again e w).1)
    {lines : List Str} (hlines : lines ⊆ readLines csv) (hl : l.Sound csv start) (w : World) :
    CallsFrom csv start w (parseLines gethostbyname again start lines l w).1 := by
  induction lines generalizing l w with
  | nil => exact .of_calls_eq rfl
  | cons line lines ih =>
    obtain ⟨hline, hlines⟩ := List.cons_subset.mp hlines
    rw [parseLines]
    cases hcsv : csvLine line with
    | none => exact .of_calls_eq rfl
    | some p =>
      obtain ⟨num, domain⟩ := p
      have hnum := mem_lineNumbers hline hcsv
      by_cases hle : num ≤ start
      · simp only [hle, if_true]
        exact ih hlines hl w
      · have hturn : CallsFrom csv start w (parseLine gethostbyname again start num domain l w).2.1 :=
          parseLine_calls hl hagain w
        have hsound : (parseLine gethostbyname again start num domain l w).1.Sound csv start :=
          parseLine_sound hl hnum (Int.not_le.mp hle) w
        simp only [hle, if_false]
        generalize parseLine gethostbyname again start num domain l w = out at hturn hsound
        obtain ⟨l', w', _ | _⟩ := out
        · exact hturn.trans (ih hlines hsound w')
        · exact hturn

theorem parseLines_congr (h : ∀ e ∈ lineNumbers csv, start < e → ∀ w, again e w = again' e w) {lines : List Str}
    (hlines : lines ⊆ readLines csv) (hl : l.Sound csv start) (w : World) :
    parseLines gethostbyname again start lines l w = parseLines gethostbyname again' start lines l w := by
  induction lines generalizing l w with
  | nil => rfl
  | cons line lines ih =>
    obtain ⟨hline, hlines⟩ := List.cons_subset.mp hlines
    rw [parseLines, parseLines]
    cases hcsv : csvLine line with
    | none => rfl
    | some p =>
      obtain ⟨num, domain⟩ := p
      by_cases hle : num ≤ start
      · simp only [hle, if_true]
        exact ih hlines hl w
      · have hsound : (parseLine gethostbyname again' start num domain l w).1.Sound csv start :=
          parseLine_sound hl (mem_lineNumbers hline hcsv) (Int.not_le.mp hle) w
        have hturn : parseLine gethostbyname again start num domain l w =
            parseLine gethostbyname again' start num domain l w := by
          rw [parseLine, lookup_congr hl h]
          rfl
        simp only [hle, if_false, hturn]
        generalize parseLine gethostbyname again' start num domain l w = out at hsound
        obtain ⟨l', w', _ | _⟩ := out
        · exact ih hlines hsound w'
        · rfl

end Turn

/-! ### The recursion -/

theorem sound_init (start : ℤ) : Locals.init.Sound csv start := fun h => absurd rfl h

theorem parseStart_calls (depth : ℕ) (start : ℤ) (w : World) :
    CallsFrom csv start w (parseStart gethostbyname csv depth start w).1 := by
  induction depth generalizing start w with
  | zero => exact .of_calls_eq rfl
  | succ depth ih =>
    exact parseLines_calls (fun e _ _ w => ih e w) (List.Subset.refl _) (sound_init start) w

/-- A depth beyond the number of lines that are left is as good as any other. -/
theorem parseStart_stable {depth depth' : ℕ} {start : ℤ} (h : remaining csv start < depth)
    (h' : remaining csv start < depth') (w : World) :
    parseStart gethostbyname csv depth start w = parseStart gethostbyname csv depth' start w := by
  induction depth generalizing depth' start w with
  | zero => omega
  | succ depth ih =>
    cases depth' with
    | zero => omega
    | succ depth' =>
      refine parseLines_congr (fun e he hlt w => ?_) (List.Subset.refl _) (sound_init start) w
      have hless := remaining_lt he hlt
      exact ih (by omega) (by omega) w

/-- **The import recursion ends.** Every recursive call has the number of a line for its argument, beyond
the caller's `start`; and with more stack than there are lines left, the limit of the stack has no effect.
The resolver may answer each look-up differently. -/
theorem import_terminates (gethostbyname : ℕ → Str → Option Str) (csv : Str) (start : ℤ) (w : World) (depth : ℕ) :
    (∃ calls, (parseStart gethostbyname csv depth start w).1.calls = w.calls ++ calls ∧
      ∀ call ∈ calls, start ≤ call.1 ∧ call.1 < call.2 ∧ call.2 ∈ lineNumbers csv) ∧
    parseStart gethostbyname csv (remaining csv start + 1 + depth) start w =
      parseStart gethostbyname csv (remaining csv start + 1) start w :=
  ⟨parseStart_calls depth start w, parseStart_stable (by omega) (by omega) w⟩

end DsDns.Parse
