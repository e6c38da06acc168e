/-
  Facts about the Python text functions of `DsDns.Text.Basic`.

  Three groups: stripping (`strip` forgets what surrounds a text and nothing else), splitting
  (`split_append_sep` peels the first field off), and integers (`parseInt_intStr`: what `str` writes,
  `int` reads).
-/
import DsDns.Text.Basic
import Mathlib.Tactic.Ring
import Mathlib.Tactic.Push

namespace DsDns

/-! ### Stripping -/

@[simp] theorem lstrip_nil : lstrip [] = [] := rfl

@[simp] theorem rstrip_nil : rstrip [] = [] := rfl

@[simp] theorem strip_nil : strip [] = [] := rfl

theorem lstrip_cons_of_space {c : Char} (hc : isSpace c = true) (s : Str) :
    lstrip (c :: s) = lstrip s := by
  rw [lstrip, List.dropWhile_cons_of_pos hc, lstrip]

theorem lstrip_cons_of_not_space {c : Char} (hc : isSpace c = false) (s : Str) :
    lstrip (c :: s) = c :: s := by
  rw [lstrip, List.dropWhile_cons_of_neg (by simp [hc])]

/-- `rstrip` works behind the last character that is no whitespace. -/
theorem rstrip_append_cons {c : Char} (hc : isSpace c = false) (a s : Str) :
    rstrip (a ++ c :: s) = a ++ c :: rstrip s := by
  have hne : (s.reverse ++ [c]).dropWhile isSpace = s.reverse.dropWhile isSpace ++ [c] := by
    rw [List.dropWhile_append]
    split
    · rename_i h
      rw [List.isEmpty_iff.mp h, List.dropWhile_cons_of_neg (by simp [hc])]
      rfl
    · rfl
  have hrev : (a ++ c :: s).reverse = (s.reverse ++ [c]) ++ a.reverse := by simp
  rw [rstrip, List.rdropWhile, hrev, List.dropWhile_append, hne]
  simp [rstrip, List.rdropWhile]

theorem rstrip_cons_of_not_space {c : Char} (hc : isSpace c = false) (s : Str) :
    rstrip (c :: s) = c :: rstrip s :=
  rstrip_append_cons hc [] s

theorem strip_cons_of_not_space {c : Char} (hc : isSpace c = false) (s : Str) :
    strip (c :: s) = c :: rstrip s := by
  rw [strip, lstrip_cons_of_not_space hc, rstrip_cons_of_not_space hc]

theorem rstrip_append_space {c : Char} (hc : isSpace c = true) (s : Str) :
    rstrip (s ++ [c]) = rstrip s :=
  List.rdropWhile_concat_pos isSpace s c hc

/-- A text is whitespace, or splits at its first other character. -/
theorem eq_spaces_or_split (s : Str) : (∀ c ∈ s, isSpace c = true) ∨
    ∃ a c t, s = a ++ c :: t ∧ (∀ x ∈ a, isSpace x = true) ∧ isSpace c = false := by
  induction s with
  | nil => exact Or.inl (by simp)
  | cons c s ih =>
    cases hc : isSpace c with
    | false => exact Or.inr ⟨[], c, s, rfl, by simp, hc⟩
    | true =>
      rcases ih with h | ⟨a, x, t, rfl, ha, hx⟩
      · exact Or.inl (by simpa [hc] using h)
      · exact Or.inr ⟨c :: a, x, t, rfl, by simpa [hc] using ha, hx⟩

theorem lstrip_of_spaces {s : Str} (h : ∀ c ∈ s, isSpace c = true) : lstrip s = [] :=
  List.dropWhile_eq_nil_iff.mpr h

theorem rstrip_of_spaces {s : Str} (h : ∀ c ∈ s, isSpace c = true) : rstrip s = [] :=
  List.rdropWhile_eq_nil_iff.mpr h

theorem lstrip_append_of_spaces {a : Str} (ha : ∀ c ∈ a, isSpace c = true) (s : Str) :
    lstrip (a ++ s) = lstrip s := by
  induction a with
  | nil => rfl
  | cons c a ih =>
    rw [List.cons_append, lstrip_cons_of_space (ha c (by simp)), ih fun x hx => ha x (by simp [hx])]

theorem strip_of_spaces {s : Str} (h : ∀ c ∈ s, isSpace c = true) : strip s = [] := by
  rw [strip, lstrip_of_spaces h, rstrip_nil]

theorem strip_append_of_spaces {a : Str} (ha : ∀ c ∈ a, isSpace c = true) (s : Str) :
    strip (a ++ s) = strip s := by
  rw [strip, lstrip_append_of_spaces ha, strip]

theorem strip_eq_nil_iff {s : Str} : strip s = [] ↔ ∀ c ∈ s, isSpace c = true := by
  constructor
  · intro h
    rcases eq_spaces_or_split s with hs | ⟨a, c, t, rfl, ha, hc⟩
    · exact hs
    · rw [strip_append_of_spaces ha, strip_cons_of_not_space hc] at h
      exact absurd h (by simp)
  · exact strip_of_spaces

theorem strip_append_space {c : Char} (hc : isSpace c = true) (s : Str) :
    strip (s ++ [c]) = strip s := by
  rcases eq_spaces_or_split s with hs | ⟨a, x, t, rfl, ha, hx⟩
  · rw [strip_of_spaces hs, strip_append_of_spaces hs, strip_of_spaces (by simpa using hc)]
  · rw [List.append_assoc, strip_append_of_spaces ha, strip_append_of_spaces ha, List.cons_append,
      strip_cons_of_not_space hx, strip_cons_of_not_space hx, rstrip_append_space hc]

/-- A text that is not blank shields what stands before it from `rstrip`. -/
theorem rstrip_append_of_ne_nil {s : Str} (h : rstrip s ≠ []) (a : Str) :
    rstrip (a ++ s) = a ++ rstrip s := by
  rcases eq_spaces_or_split s with hs | ⟨b, c, t, rfl, -, hc⟩
  · exact absurd (rstrip_of_spaces hs) h
  · rw [rstrip_append_cons hc, ← List.append_assoc, rstrip_append_cons hc, List.append_assoc]

@[simp] theorem strip_append_newline (s : Str) : strip (s ++ ['\n']) = strip s :=
  strip_append_space (by decide) s

@[simp] theorem rstrip_append_newline (s : Str) : rstrip (s ++ ['\n']) = rstrip s :=
  rstrip_append_space (by decide) s

@[simp] theorem strip_rstrip (s : Str) : strip (rstrip s) = strip s := by
  induction s using List.reverseRecOn with
  | nil => rfl
  | append_singleton s c ih =>
    cases hc : isSpace c with
    | true => rw [rstrip_append_space hc, ih, strip_append_space hc]
    | false => rw [rstrip_append_cons hc, rstrip_nil]

theorem rstrip_idem (s : Str) : rstrip (rstrip s) = rstrip s :=
  List.rdropWhile_idempotent isSpace s

@[simp] theorem rstrip_strip (s : Str) : rstrip (strip s) = strip s := rstrip_idem _

@[simp] theorem strip_strip (s : Str) : strip (strip s) = strip s := by
  rcases eq_spaces_or_split s with hs | ⟨a, c, t, rfl, ha, hc⟩
  · rw [strip_of_spaces hs, strip_nil]
  · rw [strip_append_of_spaces ha, strip_cons_of_not_space hc, strip_cons_of_not_space hc,
      rstrip_idem]

theorem mem_of_mem_lstrip {c : Char} {s : Str} (h : c ∈ lstrip s) : c ∈ s :=
  (List.dropWhile_suffix isSpace).subset h

theorem mem_of_mem_rstrip {c : Char} {s : Str} (h : c ∈ rstrip s) : c ∈ s :=
  (List.rdropWhile_prefix isSpace s).subset h

theorem mem_of_mem_strip {c : Char} {s : Str} (h : c ∈ strip s) : c ∈ s :=
  mem_of_mem_lstrip (mem_of_mem_rstrip h)

/-- Only whitespace is stripped. -/
theorem mem_strip_iff {c : Char} (hc : isSpace c = false) {s : Str} : c ∈ strip s ↔ c ∈ s := by
  refine ⟨mem_of_mem_strip, fun h => ?_⟩
  obtain ⟨a, b, rfl⟩ := List.append_of_mem h
  rcases eq_spaces_or_split a with ha | ⟨a', x, t, rfl, ha, hx⟩
  · rw [strip_append_of_spaces ha, strip_cons_of_not_space hc]
    exact List.mem_cons_self
  · rw [List.append_assoc, strip_append_of_spaces ha, List.cons_append, strip_cons_of_not_space hx,
      rstrip_append_cons hc]
    simp

/-- A text is its stripped form between whitespace. -/
theorem exists_strip (s : Str) : ∃ a b, s = a ++ strip s ++ b ∧ ∀ c ∈ a ++ b, isSpace c = true := by
  refine ⟨s.takeWhile isSpace, (lstrip s).rtakeWhile isSpace, ?_, fun c hc => ?_⟩
  · rw [List.append_assoc, strip, rstrip, List.rdropWhile_append_rtakeWhile, lstrip,
      List.takeWhile_append_dropWhile]
  · rcases List.mem_append.mp hc with hc | hc
    · exact List.mem_takeWhile_imp hc
    · exact List.mem_rtakeWhile_imp hc

theorem count_strip {c : Char} (hc : isSpace c = false) (s : Str) :
    (strip s).count c = s.count c := by
  obtain ⟨a, b, hs, hab⟩ := exists_strip s
  have hnone : (a ++ b).count c = 0 := by
    refine List.count_eq_zero_of_not_mem fun hmem => ?_
    rw [hab c hmem] at hc
    exact absurd hc (by decide)
  rw [List.count_append] at hnone
  have hcount := congrArg (List.count c) hs
  rw [List.count_append, List.count_append] at hcount
  omega

/-- The first character of a stripped text is no whitespace. -/
theorem not_space_of_strip_eq_cons {s t : Str} {c : Char} (h : strip s = c :: t) :
    isSpace c = false := by
  rcases eq_spaces_or_split s with hs | ⟨a, x, u, rfl, ha, hx⟩
  · rw [strip_of_spaces hs] at h
    exact absurd h (by simp)
  · rw [strip_append_of_spaces ha, strip_cons_of_not_space hx] at h
    obtain ⟨rfl, -⟩ := List.cons.inj h
    exact hx

/-! ### Splitting -/

theorem split_of_not_mem {sep : Char} {s : Str} (h : sep ∉ s) : split sep s = [s] :=
  List.splitOn_eq_singleton h

theorem split_append_sep {sep : Char} {a : Str} (ha : sep ∉ a) (s : Str) :
    split sep (a ++ sep :: s) = a :: split sep s :=
  List.splitOn_append_cons_self_of_not_mem ha s

theorem split_ne_nil (sep : Char) (s : Str) : split sep s ≠ [] := List.splitOn_ne_nil sep s

/-- The fields, put together again with the separator, are the text. -/
theorem intercalate_split (sep : Char) (s : Str) : [sep].intercalate (split sep s) = s :=
  List.intercalate_splitOn sep

/-- There is one field more than there are separators. -/
theorem length_split (sep : Char) (s : Str) : (split sep s).length = s.count sep + 1 := by
  induction hn : s.length using Nat.strong_induction_on generalizing s with
  | _ n ih =>
  by_cases hs : sep ∈ s
  · obtain ⟨a, b, rfl, ha⟩ := List.eq_append_cons_of_mem hs
    have hb := ih b.length (by rw [← hn]; simp; omega) b rfl
    rw [split_append_sep ha, List.length_cons, hb, List.count_append, List.count_cons_self,
      List.count_eq_zero_of_not_mem ha]
    omega
  · rw [split_of_not_mem hs, List.count_eq_zero_of_not_mem hs]
    rfl

/-- A field holds characters of the text only. -/
theorem mem_of_mem_split {sep c : Char} {s f : Str} (h : f ∈ split sep s) (hc : c ∈ f) : c ∈ s := by
  rw [← intercalate_split sep s]
  generalize split sep s = fields at h ⊢
  induction fields with
  | nil => simp at h
  | cons g gs ih =>
    cases gs with
    | nil =>
      obtain rfl := List.mem_singleton.mp h
      simpa using hc
    | cons g' gs =>
      rw [List.intercalate_cons_cons]
      rcases List.mem_cons.mp h with rfl | h
      · simp [hc]
      · exact List.mem_append_right _ (ih h)

/-- A field has no separator. -/
theorem sep_not_mem_of_mem_split {sep : Char} {s f : Str} (h : f ∈ split sep s) : sep ∉ f := by
  induction hn : s.length using Nat.strong_induction_on generalizing s with
  | _ n ih =>
  by_cases hs : sep ∈ s
  · obtain ⟨a, b, rfl, ha⟩ := List.eq_append_cons_of_mem hs
    rw [split_append_sep ha] at h
    rcases List.mem_cons.mp h with rfl | h
    · exact ha
    · refine ih b.length ?_ h rfl
      rw [← hn, List.length_append, List.length_cons]
      omega
  · rw [split_of_not_mem hs] at h
    rw [List.mem_singleton.mp h]
    exact hs

theorem intercalate_append (sep : Char) {ps qs : List Str} (hps : ps ≠ []) (hqs : qs ≠ []) :
    [sep].intercalate (ps ++ qs) = [sep].intercalate ps ++ sep :: [sep].intercalate qs := by
  induction ps with
  | nil => exact absurd rfl hps
  | cons p ps ih =>
    cases ps with
    | nil =>
      rw [List.singleton_append, List.intercalate_cons_of_ne_nil hqs, List.intercalate_singleton,
        List.append_assoc, List.singleton_append]
    | cons p' ps =>
      rw [List.cons_append, List.intercalate_cons_of_ne_nil (by simp), ih (by simp),
        List.intercalate_cons_cons, List.append_assoc, List.append_assoc, List.append_assoc]

/-- Joining the pieces of all fields is joining the fields. -/
theorem intercalate_flatMap_split (sep : Char) (fields : List Str) :
    [sep].intercalate (fields.flatMap (split sep)) = [sep].intercalate fields := by
  induction fields with
  | nil => rfl
  | cons f fields ih =>
    cases fields with
    | nil =>
      rw [List.flatMap_cons, List.flatMap_nil, List.append_nil, intercalate_split,
        List.intercalate_singleton]
    | cons f' fields =>
      have hrest : (f' :: fields).flatMap (split sep) ≠ [] := by
        rw [List.flatMap_cons]
        exact List.append_ne_nil_of_left_ne_nil (split_ne_nil sep f') _
      rw [List.flatMap_cons, intercalate_append sep (split_ne_nil sep f) hrest, ih, intercalate_split,
        List.intercalate_cons_cons, List.append_assoc, List.singleton_append]

/-- Splitting joined fields cuts them into their pieces. -/
theorem split_intercalate (sep : Char) {fields : List Str} (h : fields ≠ []) :
    split sep ([sep].intercalate fields) = fields.flatMap (split sep) := by
  have hpieces : ∀ p ∈ fields.flatMap (split sep), sep ∉ p := by
    intro p hp
    obtain ⟨f, -, hpf⟩ := List.mem_flatMap.mp hp
    exact sep_not_mem_of_mem_split hpf
  have hne : fields.flatMap (split sep) ≠ [] := by
    obtain ⟨f, fields, rfl⟩ := List.exists_cons_of_ne_nil h
    rw [List.flatMap_cons]
    exact List.append_ne_nil_of_left_ne_nil (split_ne_nil sep f) _
  rw [← intercalate_flatMap_split]
  exact List.splitOn_intercalate sep hpieces hne

/-- Fields that are joined to the same text have the same pieces. -/
theorem intercalate_eq_iff {sep : Char} {fields fields' : List Str} (h : fields ≠ []) (h' : fields' ≠ []) :
    [sep].intercalate fields = [sep].intercalate fields' ↔
      fields.flatMap (split sep) = fields'.flatMap (split sep) := by
  constructor
  · intro hsame
    rw [← split_intercalate sep h, ← split_intercalate sep h', hsame]
  · intro hsame
    rw [← intercalate_flatMap_split, hsame, intercalate_flatMap_split]

/-- The lengths of the fields say where a joined text is to be cut. -/
theorem eq_of_intercalate_eq {sep : Char} {fields fields' : List Str}
    (h : [sep].intercalate fields = [sep].intercalate fields')
    (hlengths : fields.map List.length = fields'.map List.length) : fields = fields' := by
  induction fields generalizing fields' with
  | nil => exact (List.map_eq_nil_iff.mp hlengths.symm).symm
  | cons f fields ih =>
    cases fields' with
    | nil => exact absurd hlengths (by simp)
    | cons f' fields' =>
      obtain ⟨hlength, hrest⟩ := List.cons.inj hlengths
      by_cases hnil : fields = []
      · subst hnil
        obtain rfl : fields' = [] := List.map_eq_nil_iff.mp hrest.symm
        rw [List.intercalate_singleton, List.intercalate_singleton] at h
        rw [h]
      · have hnil' : fields' ≠ [] := by
          rintro rfl
          exact hnil (List.map_eq_nil_iff.mp hrest)
        rw [List.intercalate_cons_of_ne_nil hnil, List.intercalate_cons_of_ne_nil hnil', List.append_assoc,
          List.append_assoc] at h
        obtain ⟨rfl, htail⟩ := List.append_inj h hlength
        rw [ih (List.append_cancel_left htail) hrest]

/-- `split` with a bound cuts at the first separator as long as it may cut. -/
theorem splitMax_append_sep {sep : Char} {a : Str} (ha : sep ∉ a) (n : ℕ) (s : Str) :
    splitMax sep (n + 1) (a ++ sep :: s) = a :: splitMax sep n s := by
  have hne : ∀ c ∈ a, decide (c ≠ sep) = true := by
    intro c hc
    apply decide_eq_true
    rintro rfl
    exact ha hc
  have hdrop : (a ++ sep :: s).dropWhile (· ≠ sep) = sep :: s := by
    rw [List.dropWhile_append_of_pos hne, List.dropWhile_cons_of_neg (by simp)]
  have htake : (a ++ sep :: s).takeWhile (· ≠ sep) = a := by
    rw [List.takeWhile_append_of_pos hne, List.takeWhile_cons_of_neg (by simp), List.append_nil]
  rw [splitMax, hdrop, htake]

/-! ### Lines -/

theorem splitLines_cons (c : Char) (s : Str) :
    splitLines (c :: s) = if c = '\n' then ['\n'] :: splitLines s else consLine c (splitLines s) :=
  rfl

/-- The lines, concatenated, are the text: what `writelines` writes back. -/
theorem flatten_splitLines (s : Str) : (splitLines s).flatten = s := by
  induction s with
  | nil => rfl
  | cons c s ih =>
    rw [splitLines_cons]
    split
    · rename_i hc
      rw [List.flatten_cons, ih, hc]
      rfl
    · cases h : splitLines s with
      | nil => rw [h] at ih; simp [consLine, ← ih]
      | cons l ls => rw [h] at ih; simp [consLine, ← ih]

/-- A line break ends a line whatever follows. -/
theorem splitLines_append_newline (a s : Str) :
    splitLines (a ++ '\n' :: s) = splitLines (a ++ ['\n']) ++ splitLines s := by
  induction a with
  | nil => simp [splitLines_cons, splitLines]
  | cons c a ih =>
    rw [List.cons_append, List.cons_append, splitLines_cons, splitLines_cons, ih]
    split
    · rfl
    · have hne : splitLines (a ++ ['\n']) ≠ [] := by
        intro h
        have := flatten_splitLines (a ++ ['\n'])
        rw [h] at this
        simp at this
      cases h : splitLines (a ++ ['\n']) with
      | nil => exact absurd h hne
      | cons l ls => rfl

/-- A text without a line break is one line. -/
theorem splitLines_line {s : Str} (h : '\n' ∉ s) : splitLines (s ++ ['\n']) = [s ++ ['\n']] := by
  induction s with
  | nil => rfl
  | cons c s ih =>
    simp only [List.mem_cons, not_or] at h
    rw [List.cons_append, splitLines_cons, if_neg (Ne.symm h.1), ih h.2]
    rfl

theorem splitLines_of_not_mem {s : Str} (h : '\n' ∉ s) (hs : s ≠ []) : splitLines s = [s] := by
  induction s with
  | nil => exact absurd rfl hs
  | cons c s ih =>
    simp only [List.mem_cons, not_or] at h
    rw [splitLines_cons, if_neg (Ne.symm h.1)]
    cases s with
    | nil => rfl
    | cons x s => rw [ih h.2 (by simp)]; rfl

/-- Without a carriage return the newline translation does nothing. -/
theorem universalNewlines_of_not_mem {s : Str} (h : '\r' ∉ s) : universalNewlines s = s := by
  induction s with
  | nil => rfl
  | cons c s ih =>
    simp only [List.mem_cons, not_or] at h
    rw [universalNewlines, ih h.2, if_neg (Ne.symm h.1)]
    rintro _ rfl _
    exact h.1 rfl

theorem readLines_line {s : Str} (hn : '\n' ∉ s) (hr : '\r' ∉ s) :
    readLines (s ++ ['\n']) = [s ++ ['\n']] := by
  rw [readLines, universalNewlines_of_not_mem (by simp [hr]), splitLines_line hn]

/-- A text read in text mode has no `\r`. -/
theorem return_not_mem_universalNewlines (s : Str) : '\r' ∉ universalNewlines s := by
  fun_induction universalNewlines s with
  | case1 => simp
  | case2 s ih => simpa using ih
  | case3 c s _ ih =>
    rw [List.mem_cons, not_or]
    refine ⟨?_, ih⟩
    split
    · decide
    · rename_i h
      exact fun e => h e.symm

/-- A line that ends with its newline. -/
def Terminated (l : Str) : Prop := ∃ body, l = body ++ ['\n'] ∧ '\n' ∉ body

/-- The unterminated rest of a text as a line, if there is one. -/
def tailLine (tail : Str) : List Str := if tail = [] then [] else [tail]

theorem flatten_tailLine (tail : Str) : (tailLine tail).flatten = tail := by
  unfold tailLine
  split
  · rename_i h
    rw [h]
    rfl
  · simp

theorem splitLines_of_rest {tail : Str} (h : '\n' ∉ tail) : splitLines tail = tailLine tail := by
  unfold tailLine
  split
  · rename_i he
    rw [he]
    rfl
  · rename_i he
    exact splitLines_of_not_mem h he

/-- Terminated lines in front of a text are its first lines. -/
theorem splitLines_flatten {ls : List Str} (h : ∀ l ∈ ls, Terminated l) (s : Str) :
    splitLines (ls.flatten ++ s) = ls ++ splitLines s := by
  induction ls with
  | nil => rfl
  | cons l ls ih =>
    obtain ⟨body, rfl, hbody⟩ := h l List.mem_cons_self
    have ih := ih fun l hl => h l (List.mem_cons_of_mem _ hl)
    calc splitLines (((body ++ ['\n']) :: ls).flatten ++ s)
        = splitLines (body ++ '\n' :: (ls.flatten ++ s)) := by simp
      _ = (body ++ ['\n']) :: ls ++ splitLines s := by
        rw [splitLines_append_newline, splitLines_line hbody, ih]
        rfl

/-- **The shape of a text**: terminated lines, then a rest without a newline. -/
theorem exists_lines (s : Str) : ∃ (ls : List Str) (tail : Str), s = ls.flatten ++ tail ∧ (∀ l ∈ ls, Terminated l) ∧
    '\n' ∉ tail := by
  induction s with
  | nil => exact ⟨[], [], rfl, by simp, by simp⟩
  | cons c s ih =>
    obtain ⟨ls, tail, rfl, hls, htail⟩ := ih
    by_cases hc : c = '\n'
    · refine ⟨['\n'] :: ls, tail, by rw [hc]; rfl, fun l hl => ?_, htail⟩
      rcases List.mem_cons.mp hl with rfl | hl
      · exact ⟨[], rfl, by simp⟩
      · exact hls l hl
    · -- The character joins the first line, which may be the rest.
      cases ls with
      | nil => exact ⟨[], c :: tail, rfl, by simp, by simp [Ne.symm hc, htail]⟩
      | cons l ls =>
        refine ⟨(c :: l) :: ls, tail, rfl, fun x hx => ?_, htail⟩
        rcases List.mem_cons.mp hx with rfl | hx
        · obtain ⟨body, rfl, hbody⟩ := hls l List.mem_cons_self
          exact ⟨c :: body, rfl, by simp [Ne.symm hc, hbody]⟩
        · exact hls x (List.mem_cons_of_mem _ hx)

/-- The lines of a file in text mode: terminated lines and an unterminated rest, without `\r`. -/
theorem exists_readLines (s : Str) : ∃ (ls : List Str) (tail : Str), readLines s = ls ++ tailLine tail ∧
    (∀ l ∈ ls, Terminated l) ∧ '\n' ∉ tail ∧ '\r' ∉ ls.flatten ++ tail := by
  obtain ⟨ls, tail, hs, hls, htail⟩ := exists_lines (universalNewlines s)
  refine ⟨ls, tail, ?_, hls, htail, ?_⟩
  · rw [readLines, hs, splitLines_flatten hls, splitLines_of_rest htail]
  · rw [← hs]
    exact return_not_mem_universalNewlines s

/-- The text is empty or ends with a newline. -/
def Ended (text : Str) : Prop := ∀ c, text.getLast? = some c → c = '\n'

theorem universalNewlines_append_newline (a : Str) :
    ∃ b, ∀ s, universalNewlines (a ++ '\n' :: s) = b ++ '\n' :: universalNewlines s := by
  fun_induction universalNewlines a with
  | case1 =>
    exact ⟨[], fun s => by simp [universalNewlines]⟩
  | case2 a ih =>
    obtain ⟨b, hb⟩ := ih
    refine ⟨'\n' :: b, fun s => ?_⟩
    rw [List.cons_append, List.cons_append, universalNewlines, hb]
    rfl
  | case3 c a hc ih =>
    by_cases hreturn : c = '\r' ∧ a = []
    · obtain ⟨rfl, rfl⟩ := hreturn
      exact ⟨[], fun s => by simp [universalNewlines]⟩
    · obtain ⟨b, hb⟩ := ih
      refine ⟨(if c = '\r' then '\n' else c) :: b, fun s => ?_⟩
      rw [List.cons_append, universalNewlines, hb]
      · rfl
      · -- The newline that follows a carriage return was there before.
        intro s' hc' ha
        cases a with
        | nil => exact hreturn ⟨hc', rfl⟩
        | cons x a =>
          rw [List.cons_append] at ha
          exact hc a hc' (by rw [(List.cons.inj ha).1])

/-- What is written after a newline starts a line. -/
theorem readLines_append {text : Str} (h : Ended text) (s : Str) :
    readLines (text ++ s) = readLines text ++ readLines s := by
  cases text using List.reverseRecOn with
  | nil => rfl
  | append_singleton a c =>
    obtain rfl : c = '\n' := h c List.getLast?_concat
    obtain ⟨b, hb⟩ := universalNewlines_append_newline a
    unfold readLines
    rw [List.append_assoc, List.singleton_append, hb, hb, splitLines_append_newline]
    rfl

theorem Ended.append_flatten {text : Str} (h : Ended text) {lines : List Str} (hlines : ∀ l ∈ lines, Terminated l) :
    Ended (text ++ lines.flatten) := by
  cases lines using List.reverseRecOn with
  | nil =>
    rw [List.flatten_nil, List.append_nil]
    exact h
  | append_singleton lines l =>
    obtain ⟨body, rfl, -⟩ := hlines _ List.mem_concat_self
    intro c hc
    rw [List.flatten_append, List.flatten_singleton, ← List.append_assoc, ← List.append_assoc,
      List.getLast?_concat] at hc
    exact (Option.some.inj hc).symm

/-! ### Integers -/

/-- The characters of `str(n)` are digits and, in front, a minus sign. -/
theorem isDigit_or_eq_minus_of_mem_intStr {n : ℤ} {c : Char} (h : c ∈ intStr n) :
    c.isDigit = true ∨ c = '-' := by
  cases n with
  | ofNat n => exact Or.inl (Nat.isDigit_of_mem_toDigits (by decide) (by decide) h)
  | negSucc n =>
    rcases List.mem_cons.mp h with rfl | h
    · exact Or.inr rfl
    · exact Or.inl (Nat.isDigit_of_mem_toDigits (by decide) (by decide) h)

theorem not_mem_intStr {c : Char} (hd : c.isDigit = false) (hm : c ≠ '-') (n : ℤ) :
    c ∉ intStr n := by
  intro h
  rcases isDigit_or_eq_minus_of_mem_intStr h with h' | h'
  · rw [hd] at h'; exact absurd h' (by decide)
  · exact hm h'

theorem isSpace_of_isDigit {c : Char} (h : c.isDigit = true) : isSpace c = false := by
  have h48 : 48 ≤ c.toNat ∧ c.toNat ≤ 57 := by
    simpa [Char.isDigit, UInt32.le_iff_toNat_le] using h
  simp only [isSpace, Bool.or_eq_false_iff, Bool.and_eq_false_iff, beq_eq_false_iff_ne,
    decide_eq_false_iff_not]
  omega

theorem isSpace_of_mem_intStr {n : ℤ} {c : Char} (h : c ∈ intStr n) : isSpace c = false := by
  rcases isDigit_or_eq_minus_of_mem_intStr h with h | rfl
  · exact isSpace_of_isDigit h
  · decide

theorem trim_of_forall {p : Char → Bool} {s : Str} (h : ∀ c ∈ s, p c = false) :
    (s.dropWhile p).rdropWhile p = s := by
  have hl : s.dropWhile p = s := List.dropWhile_eq_self_iff.mpr fun hne => by simp [h _ (List.getElem_mem hne)]
  rw [hl]
  exact List.rdropWhile_eq_self_iff.mpr fun hne => by simp [h _ (List.getLast_mem hne)]

/-- A text without whitespace is left alone. -/
theorem strip_of_no_space {s : Str} (h : ∀ c ∈ s, isSpace c = false) : strip s = s := trim_of_forall h

@[simp] theorem strip_intStr (n : ℤ) : strip (intStr n) = intStr n :=
  strip_of_no_space fun _ h => isSpace_of_mem_intStr h

@[simp] theorem rstrip_intStr (n : ℤ) : rstrip (intStr n) = intStr n := by
  rw [← strip_intStr, rstrip_strip]

section

variable [Unicode]

theorem intDigits_cons {c : Char} (hc : c ≠ '_') (acc : ℕ) (s : Str) :
    intDigits acc (c :: s) = (digit c).bind fun d => intDigits (10 * acc + d) s := by
  rw [intDigits]
  rintro x t rfl
  exact absurd rfl hc

theorem digit_of_isDigit {c : Char} (h : c.isDigit = true) :
    digit c = some (c.toNat - '0'.toNat) := by
  have h57 : c.toNat ≤ 57 := by
    have : 48 ≤ c.toNat ∧ c.toNat ≤ 57 := by
      simpa [Char.isDigit, UInt32.le_iff_toNat_le] using h
    exact this.2
  rw [Unicode.digit_ascii c (by omega), if_pos h]

/-- Reading digits is Horner's rule. -/
theorem intDigits_of_isDigit (s : Str) : ∀ acc : ℕ, (∀ c ∈ s, c.isDigit = true) →
    intDigits acc s = some (Nat.ofDigitChars 10 s acc) := by
  induction s with
  | nil => intro acc _; rfl
  | cons c s ih =>
    intro acc h
    have hc := h c (by simp)
    have hu : c ≠ '_' := by rintro rfl; exact absurd hc (by decide)
    rw [intDigits_cons hu, digit_of_isDigit hc, Option.bind_some, ih _ fun x hx => h x (by simp [hx]),
      Nat.ofDigitChars_cons]

theorem natLiteral_toDigits (n : ℕ) : natLiteral (Nat.toDigits 10 n) = some n := by
  have hd : ∀ c ∈ Nat.toDigits 10 n, c.isDigit = true :=
    fun c hc => Nat.isDigit_of_mem_toDigits (by decide) (by decide) hc
  have hval : Nat.ofDigitChars 10 (Nat.toDigits 10 n) 0 = n := Nat.ofDigitChars_ten_toDigits
  cases hs : Nat.toDigits 10 n with
  | nil => exact absurd hs Nat.toDigits_ne_nil
  | cons c s =>
    rw [hs] at hd hval
    rw [natLiteral, digit_of_isDigit (hd c (by simp)), Option.bind_some,
      intDigits_of_isDigit s _ fun x hx => hd x (by simp [hx]), ← hval, Nat.ofDigitChars_cons]
    simp

/-- **Round trip**: `int(str(n)) == n`. -/
@[simp] theorem parseInt_intStr (n : ℤ) : parseInt (intStr n) = some n := by
  have htrim : ((intStr n).dropWhile intSpace).rdropWhile intSpace = intStr n :=
    trim_of_forall fun c hc => by rw [intSpace, isSpace_of_mem_intStr hc, Bool.false_and]
  rw [parseInt, htrim]
  cases n with
  | negSucc n =>
    simp only [intStr, natLiteral_toDigits]
    rfl
  | ofNat n =>
    have hd : ∀ c ∈ Nat.toDigits 10 n, c.isDigit = true :=
      fun c hc => Nat.isDigit_of_mem_toDigits (by decide) (by decide) hc
    simp only [intStr]
    split
    · rename_i t ht
      exact absurd (hd '-' (by rw [ht]; simp)) (by decide)
    · rename_i t ht
      exact absurd (hd '+' (by rw [ht]; simp)) (by decide)
    · rw [natLiteral_toDigits]; rfl

end

theorem intStr_injective : Function.Injective intStr := by
  intro m n h
  have := @parseInt_intStr Unicode.ascii m
  rw [h, @parseInt_intStr Unicode.ascii n] at this
  exact (Option.some.inj this).symm

end DsDns
