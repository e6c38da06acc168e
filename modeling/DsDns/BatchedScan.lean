/-
  A list of rows that is copied to a journal in batches, and scanned again after a run of failures.

  The rows have the numbers 1, 2, … and each of them holds an entry or fails. `scan` keeps the entries it
  comes to and commits them whenever the number is a multiple of `size`, so what is behind the last multiple
  is never committed. An entry that comes after more than `limit` failures in a row first makes it scan the
  rows behind the first of these failures once more. Everything that a scan commits, its nested scans
  included, is appended to one list.

  Main results: a scan that ends commits the entries of the rows from `start` to the last multiple
  (`sublist_scan`), no others (`due_of_mem_scan`), each of them once if no nested scan comes upon an entry
  (`scan_of_calm`), and one of them twice if one does (`two_le_count_scan`).
-/
import Mathlib.Data.List.Basic
import Mathlib.Data.List.Count
import Mathlib.Data.Nat.Notation
import Mathlib.Tactic.TypeStar

namespace DsDns

/-- The variables of a scan: the entries that wait for the next commit, the number of the first of the
failures that are counted, their count, and what has been appended so far. -/
structure Scan (α : Type*) where
  kept : List α
  errStart : ℕ
  contErr : ℕ
  out : List α

section BatchedScan

variable {α : Type*}

namespace Scan

/-- The variables at the start. -/
def init : Scan α := ⟨[], 0, 0, []⟩

/-- One more failure. -/
def fail (s : Scan α) (num : ℕ) : Scan α :=
  if s.contErr = 0 then { s with errStart := num, contErr := 1 } else { s with contErr := s.contErr + 1 }

/-- Look at a row. A nested scan that does not get to its end is a failure too. -/
def look (limit : ℕ) (again : ℕ → List α × Bool) (num : ℕ) (row : Option α) (s : Scan α) : Scan α :=
  match row with
  | none => s.fail num
  | some x =>
    let s := { s with kept := s.kept ++ [x] }
    if limit < s.contErr then
      let nested := again s.errStart
      let s := { s with out := s.out ++ nested.1 }
      if nested.2 then { s with contErr := 0 } else s.fail num
    else { s with contErr := 0 }

end Scan

/-- Scan the rows from the number `num` on. A commit that does not go through ends the scan. -/
def scanRows (size limit : ℕ) (commit : List α → List α × Bool) (again : ℕ → List α × Bool) :
    ℕ → List (Option α) → Scan α → List α × Bool
  | _, [], s => (s.out, true)
  | num, row :: rows, s =>
    let s := s.look limit again num row
    if num % size = 0 then
      let written := commit s.kept
      if written.2 then
        scanRows size limit commit again (num + 1) rows { s with kept := [], out := s.out ++ written.1 }
      else (s.out ++ written.1, false)
    else scanRows size limit commit again (num + 1) rows s

/-- Scan the rows behind `start`, with nested scans up to the depth. -/
def scan (size limit : ℕ) (commit : List α → List α × Bool) (rows : List (Option α)) : ℕ → ℕ → List α × Bool
  | 0, _ => ([], false)
  | depth + 1, start =>
    scanRows size limit commit (scan size limit commit rows depth) (start + 1) (rows.drop start) .init

variable {size limit : ℕ} {commit : List α → List α × Bool} {again : ℕ → List α × Bool}

/-! ### Looking at a row -/

namespace Scan

theorem kept_fail (s : Scan α) (num : ℕ) : (s.fail num).kept = s.kept ∧ (s.fail num).out = s.out := by
  unfold fail
  split <;> exact ⟨rfl, rfl⟩

theorem kept_look (limit : ℕ) (again : ℕ → List α × Bool) (num : ℕ) (row : Option α) (s : Scan α) :
    (s.look limit again num row).kept = s.kept ++ row.toList := by
  cases row with
  | none => exact (s.kept_fail num).1.trans (List.append_nil s.kept).symm
  | some x =>
    unfold look
    dsimp only
    split
    · split
      · rfl
      · exact (kept_fail _ num).1
    · rfl

/-- A row appends nothing, or what the nested scan appends. -/
theorem out_look (num : ℕ) (row : Option α) (s : Scan α) :
    (s.look limit again num row).out =
      s.out ++ if row.isSome ∧ limit < s.contErr then (again s.errStart).1 else [] := by
  cases row with
  | none => simp [look, (s.kept_fail num).2]
  | some x =>
    unfold look
    by_cases hc : limit < s.contErr
    · simp only [hc, if_true, Option.isSome_some, and_self]
      split
      · rfl
      · exact (kept_fail _ num).2
    · simp [hc]

/-- The count of failures after a row. -/
theorem contErr_look_none (num : ℕ) (s : Scan α) :
    (s.look limit again num none).contErr = s.contErr + 1 ∧
      (s.look limit again num none).errStart = if s.contErr = 0 then num else s.errStart := by
  rw [look, fail]
  by_cases h : s.contErr = 0 <;> simp [h]

theorem contErr_look_some (num : ℕ) {x : α} {s : Scan α} (h : s.contErr ≤ limit) :
    (s.look limit again num (some x)).contErr = 0 := by
  unfold look
  simp [Nat.not_lt.mpr h]

/-- What a nested scan starts from is only set by the first of the failures. -/
theorem errStart_look (num : ℕ) (row : Option α) (s : Scan α) (h : (s.look limit again num row).contErr ≠ 0) :
    (s.look limit again num row).errStart = if s.contErr = 0 then num else s.errStart := by
  cases row with
  | none => exact (contErr_look_none num s).2
  | some x =>
    unfold look at h ⊢
    dsimp only at h ⊢
    by_cases hc : limit < s.contErr
    · have hne : s.contErr ≠ 0 := by omega
      rw [if_pos hc] at h ⊢
      split at h
      · exact absurd rfl h
      · rename_i hnested
        simp [hnested, fail, hne]
    · rw [if_neg hc] at h
      exact absurd rfl h

end Scan

/-! ### What is committed -/

/-- A commit writes what it is given, or some of it when it does not go through. It goes through for a part
of what it goes through for. -/
structure IsCommit (commit : List α → List α × Bool) : Prop where
  subset : ∀ xs, (commit xs).1 ⊆ xs
  eq_of_ok : ∀ {xs}, (commit xs).2 = true → (commit xs).1 = xs
  mono : ∀ {xs ys}, ys ⊆ xs → (commit xs).2 = true → (commit ys).2 = true

/-- The entries that the rows from `num` on commit, nested scans apart. -/
def flush (size : ℕ) : ℕ → List (Option α) → List α → List α
  | _, [], _ => []
  | num, row :: rows, kept =>
    if num % size = 0 then kept ++ row.toList ++ flush size (num + 1) rows []
    else flush size (num + 1) rows (kept ++ row.toList)

/-- Every commit of these rows goes through. -/
def GoesThrough (size : ℕ) (commit : List α → List α × Bool) : ℕ → List (Option α) → List α → Prop
  | _, [], _ => True
  | num, row :: rows, kept =>
    if num % size = 0 then (commit (kept ++ row.toList)).2 = true ∧ GoesThrough size commit (num + 1) rows []
    else GoesThrough size commit (num + 1) rows (kept ++ row.toList)

/-- A scan gets to its end exactly if its own commits go through. -/
theorem scanRows_ok_iff (num : ℕ) (rows : List (Option α)) (s : Scan α) :
    (scanRows size limit commit again num rows s).2 = true ↔ GoesThrough size commit num rows s.kept := by
  induction rows generalizing num s with
  | nil => exact iff_of_true rfl trivial
  | cons row rows ih =>
    rw [scanRows, GoesThrough]
    dsimp only
    rw [Scan.kept_look]
    by_cases hnum : num % size = 0
    · rw [if_pos hnum, if_pos hnum]
      split
      · rename_i hok
        exact (ih (num + 1) _).trans (and_iff_right hok).symm
      · rename_i hok
        exact iff_of_false Bool.false_ne_true fun h => hok h.1
    · rw [if_neg hnum, if_neg hnum, ih, Scan.kept_look]

theorem GoesThrough.mono (hcommit : IsCommit commit) {num : ℕ} {rows : List (Option α)} {kept kept' : List α}
    (hsub : kept' ⊆ kept) (h : GoesThrough size commit num rows kept) : GoesThrough size commit num rows kept' := by
  induction rows generalizing num kept kept' with
  | nil => trivial
  | cons row rows ih =>
    have hsub' : kept' ++ row.toList ⊆ kept ++ row.toList := by
      intro x hx
      exact List.mem_append.mpr ((List.mem_append.mp hx).imp_left fun hx => hsub hx)
    rw [GoesThrough] at h ⊢
    split at h
    · rename_i hnum
      rw [if_pos hnum]
      exact ⟨hcommit.mono hsub' h.1, h.2⟩
    · rename_i hnum
      rw [if_neg hnum]
      exact ih hsub' h

/-- So do the commits of a scan that starts later. -/
theorem GoesThrough.drop (hcommit : IsCommit commit) {num : ℕ} {rows : List (Option α)} {kept : List α}
    (h : GoesThrough size commit num rows kept) (k : ℕ) :
    GoesThrough size commit (num + k) (rows.drop k) [] := by
  induction k generalizing num rows kept with
  | zero => exact h.mono hcommit (List.nil_subset kept)
  | succ k ih =>
    cases rows with
    | nil => trivial
    | cons row rows =>
      rw [List.drop_succ_cons, ← Nat.add_assoc, Nat.add_right_comm]
      rw [GoesThrough] at h
      split at h
      · exact ih h.2
      · exact ih h

/-- What is appended meets every condition that the commits of the scan and of its nested scans meet. -/
theorem forall_mem_scanRows (hcommit : IsCommit commit) {P : α → Prop} {start : ℕ}
    (hagain : ∀ e, start < e → ∀ x ∈ (again e).1, P x) {num : ℕ} {rows : List (Option α)} {s : Scan α}
    (hnum : start < num) (hs : s.contErr ≠ 0 → start < s.errStart) (hout : ∀ x ∈ s.out, P x)
    (hflush : ∀ x ∈ flush size num rows s.kept, P x) :
    ∀ x ∈ (scanRows size limit commit again num rows s).1, P x := by
  induction rows generalizing num s with
  | nil => exact hout
  | cons row rows ih =>
    have hlook : ∀ x ∈ (s.look limit again num row).out, P x := by
      intro x hx
      rw [Scan.out_look, List.mem_append] at hx
      rcases hx with hx | hx
      · exact hout x hx
      · split at hx
        · rename_i hc
          exact hagain s.errStart (hs (by omega)) x hx
        · exact absurd hx List.not_mem_nil
    have hnext : (s.look limit again num row).contErr ≠ 0 → start < (s.look limit again num row).errStart := by
      intro hne
      rw [Scan.errStart_look num row s hne]
      split
      · exact hnum
      · rename_i hc
        exact hs hc
    rw [flush] at hflush
    rw [scanRows]
    dsimp only
    by_cases hsize : num % size = 0
    · rw [if_pos hsize] at hflush ⊢
      have hwritten :
          ∀ x ∈ (s.look limit again num row).out ++ (commit (s.look limit again num row).kept).1, P x := by
        intro x hx
        rcases List.mem_append.mp hx with hx | hx
        · exact hlook x hx
        · have hkept := hcommit.subset _ hx
          rw [Scan.kept_look] at hkept
          exact hflush x (List.mem_append_left _ hkept)
      split
      · exact ih (by omega) hnext hwritten fun x hx => hflush x (List.mem_append_right _ hx)
      · exact hwritten
    · rw [if_neg hsize] at hflush ⊢
      refine ih (by omega) hnext hlook ?_
      rw [Scan.kept_look]
      exact hflush

/-- A row in a scan that gets to its end: if there is a commit, it goes through, and either way what is
appended and what is still to be committed stay the same together. -/
theorem scanRows_cons_of_ok (hcommit : IsCommit commit) {num : ℕ} {row : Option α} {rows : List (Option α)}
    {s : Scan α} (hok : (scanRows size limit commit again num (row :: rows) s).2 = true) :
    ∃ s' : Scan α,
      scanRows size limit commit again num (row :: rows) s = scanRows size limit commit again (num + 1) rows s' ∧
      s'.errStart = (s.look limit again num row).errStart ∧
      s'.contErr = (s.look limit again num row).contErr ∧
      s'.out ++ flush size (num + 1) rows s'.kept =
        (s.look limit again num row).out ++ flush size num (row :: rows) s.kept := by
  rw [scanRows] at hok ⊢
  rw [flush, ← Scan.kept_look limit again num row s]
  dsimp only at hok ⊢
  by_cases hnum : num % size = 0
  · rw [if_pos hnum] at hok ⊢
    rw [if_pos hnum]
    split at hok
    · rename_i hwritten
      rw [if_pos hwritten]
      refine ⟨_, rfl, rfl, rfl, ?_⟩
      rw [hcommit.eq_of_ok hwritten, List.append_assoc]
    · exact absurd hok Bool.false_ne_true
  · rw [if_neg hnum, if_neg hnum]
    exact ⟨_, rfl, rfl, rfl, rfl⟩

/-- After a row has been looked at, its own entries and those of the rows behind it are still to be
committed. -/
theorem sublist_scanRows_cons (hcommit : IsCommit commit) {num : ℕ} {row : Option α} {rows : List (Option α)}
    (ih : ∀ s : Scan α, (scanRows size limit commit again (num + 1) rows s).2 = true →
      (s.out ++ flush size (num + 1) rows s.kept).Sublist (scanRows size limit commit again (num + 1) rows s).1)
    {s : Scan α} (hok : (scanRows size limit commit again num (row :: rows) s).2 = true) :
    ((s.look limit again num row).out ++ flush size num (row :: rows) s.kept).Sublist
      (scanRows size limit commit again num (row :: rows) s).1 := by
  obtain ⟨s', heq, -, -, hrest⟩ := scanRows_cons_of_ok hcommit hok
  rw [heq] at hok ⊢
  rw [← hrest]
  exact ih s' hok

/-- A scan that gets to its end commits its own entries, in order, after what was there. -/
theorem sublist_scanRows (hcommit : IsCommit commit) {num : ℕ} {rows : List (Option α)} {s : Scan α}
    (hok : (scanRows size limit commit again num rows s).2 = true) :
    (s.out ++ flush size num rows s.kept).Sublist (scanRows size limit commit again num rows s).1 := by
  induction rows generalizing num s with
  | nil =>
    rw [flush, List.append_nil]
    exact List.Sublist.refl _
  | cons row rows ih =>
    have hout : s.out.Sublist (s.look limit again num row).out := by
      rw [Scan.out_look]
      exact List.sublist_append_left _ _
    exact (hout.append_right _).trans (sublist_scanRows_cons hcommit (fun _ => ih) hok)

/-! ### Numbers -/

/-- The entry of the row with a number. -/
def entryAt (rows : List (Option α)) : ℕ → Option α
  | 0 => none
  | i + 1 => rows[i]?.join

/-- The entries of the rows with the numbers from `a + 1` to `b`. -/
def entriesIn (rows : List (Option α)) (a b : ℕ) : List α := ((rows.take b).drop a).filterMap id

/-- The last number with a commit. -/
def lastCommit (size : ℕ) (rows : List (Option α)) : ℕ := rows.length / size * size

theorem mem_entriesIn {rows : List (Option α)} {a b : ℕ} {x : α} :
    x ∈ entriesIn rows a b ↔ ∃ i, a < i ∧ i ≤ b ∧ entryAt rows i = some x := by
  rw [entriesIn, List.mem_filterMap]
  constructor
  · rintro ⟨row, hrow, hx⟩
    obtain ⟨k, hk⟩ := List.mem_iff_getElem?.mp hrow
    rw [List.getElem?_drop, List.getElem?_take] at hk
    split at hk
    · refine ⟨a + k + 1, by omega, by omega, ?_⟩
      rw [entryAt, hk]
      exact hx
    · exact absurd hk (by simp)
  · rintro ⟨i, ha, hb, hx⟩
    cases i with
    | zero => omega
    | succ i =>
      refine ⟨some x, List.mem_iff_getElem?.mpr ⟨i - a, ?_⟩, rfl⟩
      rw [List.getElem?_drop, List.getElem?_take, if_pos (by omega), Nat.add_sub_cancel' (by omega)]
      rw [entryAt, Option.join_eq_some_iff] at hx
      exact hx

theorem le_lastCommit {rows : List (Option α)} {num : ℕ} (hnum : num % size = 0) (hle : num ≤ rows.length) :
    num ≤ lastCommit size rows := by
  rw [lastCommit, ← Nat.div_add_mod num size, hnum, Nat.add_zero, Nat.mul_comm]
  exact Nat.mul_le_mul_right size (Nat.div_le_div_right hle)

/-- Rows commit everything up to the last multiple. -/
theorem flush_eq (last : ℕ) {num : ℕ} {rows : List (Option α)} (kept : List α) (hlast : last % size = 0)
    (hle : last < num + rows.length) (hmax : ∀ n, n % size = 0 → n < num + rows.length → n ≤ last) :
    flush size num rows kept =
      if num ≤ last then kept ++ (rows.take (last + 1 - num)).filterMap id else [] := by
  induction rows generalizing num kept with
  | nil =>
    rw [if_neg (by simpa using hle)]
    rfl
  | cons row rows ih =>
    rw [List.length_cons] at hle hmax
    have ih := fun kept => @ih (num + 1) kept (by omega) fun n hn hlt => hmax n hn (by omega)
    have htake : ∀ k, ((row :: rows).take (k + 1)).filterMap id = row.toList ++ (rows.take k).filterMap id := by
      intro k
      cases row <;> simp
    rw [flush]
    by_cases hnum : num % size = 0
    · have hn := hmax num hnum (by omega)
      rw [if_pos hnum, if_pos hn, ih]
      by_cases heq : num = last
      · rw [if_neg (by omega), heq, Nat.add_sub_cancel_left, htake 0]
        simp
      · rw [if_pos (by omega), show last + 1 - num = (last + 1 - (num + 1)) + 1 by omega, htake]
        simp
    · have hne : num ≠ last := fun he => hnum (he ▸ hlast)
      rw [if_neg hnum, ih]
      by_cases hn : num ≤ last
      · rw [if_pos hn, if_pos (by omega), show last + 1 - num = (last + 1 - (num + 1)) + 1 by omega, htake]
        simp
      · rw [if_neg hn, if_neg (by omega)]

/-- A scan behind `start` commits the entries from there to the last multiple. -/
theorem flush_drop (rows : List (Option α)) (start : ℕ) :
    flush size (start + 1) (rows.drop start) [] = entriesIn rows start (lastCommit size rows) := by
  have hmod : lastCommit size rows % size = 0 := Nat.mul_mod_left _ _
  have hle : lastCommit size rows ≤ rows.length := Nat.div_mul_le_self _ _
  by_cases hstart : start ≤ rows.length
  · have hlen : start + 1 + (rows.drop start).length = rows.length + 1 := by
      rw [List.length_drop]
      omega
    rw [flush_eq (lastCommit size rows) [] hmod (by omega)
      fun n hn hlt => le_lastCommit hn (by omega), List.nil_append]
    by_cases hlast : start + 1 ≤ lastCommit size rows
    · rw [if_pos hlast, entriesIn, List.drop_take, Nat.add_sub_add_right]
    · rw [if_neg hlast, entriesIn, List.drop_eq_nil_of_le (by rw [List.length_take]; omega)]
      rfl
  · have hnil : rows.drop start = [] := List.drop_eq_nil_of_le (by omega)
    rw [hnil, entriesIn, List.drop_eq_nil_of_le (by rw [List.length_take]; omega)]
    rfl

/-- The entry of a row up to the last multiple is committed. -/
theorem mem_flush_of_le {all rows : List (Option α)} {p : ℕ} {x : α} (hrows : all.drop p = some x :: rows)
    (hlast : p + 1 ≤ lastCommit size all) (kept : List α) : x ∈ flush size (p + 1) (some x :: rows) kept := by
  have hlen := congrArg List.length hrows
  rw [List.length_drop] at hlen
  have hbound : lastCommit size all ≤ all.length := Nat.div_mul_le_self _ _
  have htake : lastCommit size all + 1 - (p + 1) = (lastCommit size all - p - 1) + 1 := by omega
  rw [flush_eq (lastCommit size all) kept (Nat.mul_mod_left _ _) (by omega)
    fun n hn hlt => le_lastCommit hn (by omega), if_pos hlast, htake]
  exact List.mem_append_right _ (List.mem_filterMap.mpr ⟨some x, List.mem_cons_self, rfl⟩)

theorem entriesIn_mono {rows : List (Option α)} {a a' b : ℕ} (h : a ≤ a') {x : α}
    (hx : x ∈ entriesIn rows a' b) : x ∈ entriesIn rows a b := by
  obtain ⟨i, ha, hb, hi⟩ := mem_entriesIn.mp hx
  exact mem_entriesIn.mpr ⟨i, by omega, hb, hi⟩

theorem entryAt_of_drop {all rows : List (Option α)} {p : ℕ} {row : Option α} (h : all.drop p = row :: rows) :
    entryAt all (p + 1) = row ∧ all.drop (p + 1) = rows := by
  constructor
  · have hget : (all.drop p)[0]? = some row := by rw [h]; rfl
    rw [List.getElem?_drop, Nat.add_zero] at hget
    rw [entryAt, hget]
    rfl
  · rw [← List.tail_drop, h, List.tail_cons]

/-- The entries of all rows, where they are distinct, have one number each. -/
theorem eq_of_entryAt_eq {rows : List (Option α)} (hnodup : (entriesIn rows 0 rows.length).Nodup)
    {i j : ℕ} {x : α} (hi : entryAt rows i = some x) (hj : entryAt rows j = some x) : i = j := by
  rw [entriesIn, List.take_length, List.drop_zero, List.Nodup, List.pairwise_filterMap,
    List.pairwise_iff_getElem] at hnodup
  have hlt : ∀ {i j : ℕ}, rows[i]?.join = some x → rows[j]?.join = some x → ¬ i < j := by
    intro i j hi hj hij
    obtain ⟨hilt, hi⟩ := List.getElem?_eq_some_iff.mp (Option.join_eq_some_iff.mp hi)
    obtain ⟨hjlt, hj⟩ := List.getElem?_eq_some_iff.mp (Option.join_eq_some_iff.mp hj)
    exact hnodup i j hilt hjlt hij x hi x hj rfl
  cases i with
  | zero => exact absurd hi (by simp [entryAt])
  | succ i =>
    cases j with
    | zero => exact absurd hj (by simp [entryAt])
    | succ j =>
      have hij := hlt hi hj
      have hji := hlt hj hi
      omega

theorem entriesIn_sublist (rows : List (Option α)) (a b : ℕ) :
    (entriesIn rows a b).Sublist (entriesIn rows 0 rows.length) := by
  rw [entriesIn, entriesIn, List.take_length, List.drop_zero]
  exact ((List.drop_sublist a _).trans (List.take_sublist b rows)).filterMap id

/-- **Once each**: the entries up to `k` and those from `start` to `last` are all of them exactly if no
entry is in both ranges or in neither. -/
theorem perm_entriesIn_iff {rows : List (Option α)} (hnodup : (entriesIn rows 0 rows.length).Nodup)
    {k start last : ℕ} :
    (entriesIn rows 0 k ++ entriesIn rows start last).Perm (entriesIn rows 0 rows.length) ↔
      ∀ i, (entryAt rows i).isSome → (k < i ↔ start < i ∧ i ≤ last) := by
  have hrange : ∀ {i : ℕ} {x : α}, entryAt rows i = some x → 0 < i ∧ i ≤ rows.length := by
    intro i x hx
    cases i with
    | zero => exact absurd hx (by simp [entryAt])
    | succ i =>
      obtain ⟨hlt, -⟩ := List.getElem?_eq_some_iff.mp (Option.join_eq_some_iff.mp hx)
      exact ⟨Nat.succ_pos i, hlt⟩
  constructor
  · intro hperm i hsome
    obtain ⟨x, hx⟩ := Option.isSome_iff_exists.mp hsome
    obtain ⟨hpos, hlen⟩ := hrange hx
    obtain ⟨-, -, hdisjoint⟩ := List.nodup_append.mp (hperm.nodup_iff.mpr hnodup)
    constructor
    · intro hk
      have hmem := hperm.mem_iff.mpr (mem_entriesIn.mpr ⟨i, hpos, hlen, hx⟩)
      rcases List.mem_append.mp hmem with hold | hnew
      · obtain ⟨j, -, hj, hx'⟩ := mem_entriesIn.mp hold
        have heq := eq_of_entryAt_eq hnodup hx hx'
        omega
      · obtain ⟨j, hstart, hlast, hx'⟩ := mem_entriesIn.mp hnew
        rw [eq_of_entryAt_eq hnodup hx hx']
        exact ⟨hstart, hlast⟩
    · rintro ⟨hstart, hlast⟩
      by_contra hk
      have hold : x ∈ entriesIn rows 0 k := mem_entriesIn.mpr ⟨i, hpos, by omega, hx⟩
      exact hdisjoint x hold x (mem_entriesIn.mpr ⟨i, hstart, hlast, hx⟩) rfl
  · intro h
    have hnodup' : (entriesIn rows 0 k ++ entriesIn rows start last).Nodup := by
      refine List.nodup_append.mpr ⟨hnodup.sublist (entriesIn_sublist rows 0 k),
        hnodup.sublist (entriesIn_sublist rows start last), ?_⟩
      rintro x hold _ hnew rfl
      obtain ⟨i, -, hk, hx⟩ := mem_entriesIn.mp hold
      obtain ⟨j, hstart, hlast, hx'⟩ := mem_entriesIn.mp hnew
      obtain rfl := eq_of_entryAt_eq hnodup hx hx'
      have hlt := (h i (by rw [hx]; rfl)).mpr ⟨hstart, hlast⟩
      omega
    rw [List.perm_ext_iff_of_nodup hnodup' hnodup]
    intro x
    constructor
    · intro hmem
      rcases List.mem_append.mp hmem with hmem | hmem <;> exact (entriesIn_sublist rows _ _).subset hmem
    · intro hmem
      obtain ⟨i, hpos, hlen, hx⟩ := mem_entriesIn.mp hmem
      rw [List.mem_append]
      by_cases hk : i ≤ k
      · exact Or.inl (mem_entriesIn.mpr ⟨i, hpos, hk, hx⟩)
      · obtain ⟨hstart, hlast⟩ := (h i (by rw [hx]; rfl)).mp (by omega)
        exact Or.inr (mem_entriesIn.mpr ⟨i, hstart, hlast, hx⟩)

/-! ### Whole scans -/

/-- A scan appends entries from behind its start, up to the last commit. -/
theorem due_of_mem_scan (hcommit : IsCommit commit) {rows : List (Option α)} {depth start : ℕ} :
    ∀ x ∈ (scan size limit commit rows depth start).1, x ∈ entriesIn rows start (lastCommit size rows) := by
  induction depth generalizing start with
  | zero => exact fun x hx => absurd hx List.not_mem_nil
  | succ depth ih =>
    refine forall_mem_scanRows hcommit (fun e he x hx => entriesIn_mono (Nat.le_of_lt he) (ih x hx))
      (Nat.lt_succ_self start) (fun h => absurd rfl h) (fun x hx => absurd hx List.not_mem_nil) ?_
    rw [← flush_drop]
    exact fun x hx => hx

/-- If a scan gets to its end, so do those that start later. -/
theorem scan_ok_of_le (hcommit : IsCommit commit) {rows : List (Option α)} {depth depth' start e : ℕ}
    (h : start ≤ e) (hok : (scan size limit commit rows (depth + 1) start).2 = true) :
    (scan size limit commit rows (depth' + 1) e).2 = true := by
  obtain ⟨k, rfl⟩ := Nat.exists_eq_add_of_le h
  rw [scan, scanRows_ok_iff] at hok ⊢
  have hdrop := hok.drop hcommit k
  rw [List.drop_drop, Nat.add_right_comm] at hdrop
  exact hdrop

/-- **A scan that gets to its end misses no entry** from behind its start up to the last commit. -/
theorem sublist_scan (hcommit : IsCommit commit) {rows : List (Option α)} {depth start : ℕ}
    (hok : (scan size limit commit rows (depth + 1) start).2 = true) :
    (entriesIn rows start (lastCommit size rows)).Sublist (scan size limit commit rows (depth + 1) start).1 := by
  have hsub := sublist_scanRows hcommit hok
  rw [Scan.init, List.nil_append, flush_drop] at hsub
  exact hsub

/-! ### Restarts -/

/-- No entry up to the number `last` comes after more than `limit` failures in a row; `c` of them are
counted. -/
def Calm (limit last : ℕ) : ℕ → List (Option α) → ℕ → Prop
  | _, [], _ => True
  | num, none :: rows, c => Calm limit last (num + 1) rows (c + 1)
  | num, some _ :: rows, c => (num ≤ last → c ≤ limit) ∧ Calm limit last (num + 1) rows 0

theorem calm_of_last_lt {last num : ℕ} (h : last < num) (rows : List (Option α)) (c : ℕ) :
    Calm limit last num rows c := by
  induction rows generalizing num c with
  | nil => trivial
  | cons row rows ih =>
    cases row with
    | none => exact ih (by omega) (c + 1)
    | some x => exact ⟨by omega, ih (by omega) 0⟩

/-- A row at which no scan starts again leaves the condition to the rows behind it. -/
theorem calm_look {last num : ℕ} {row : Option α} {rows : List (Option α)} {s : Scan α}
    (hgap : row.isSome → num ≤ last → s.contErr ≤ limit) :
    Calm limit last num (row :: rows) s.contErr ↔
      Calm limit last (num + 1) rows (s.look limit again num row).contErr := by
  cases row with
  | none =>
    rw [Calm, (Scan.contErr_look_none num s).1]
  | some x =>
    rw [Calm, and_iff_right (hgap rfl)]
    by_cases hlast : num ≤ last
    · rw [Scan.contErr_look_some num (hgap rfl hlast)]
    · exact iff_of_true (calm_of_last_lt (by omega) rows 0) (calm_of_last_lt (by omega) rows _)

/-- **The condition on the gaps**: every entry behind `p` and up to `last` comes within `limit + 1` rows after
another one behind `p`, or after the row `base`. -/
def Spaced (limit : ℕ) (all : List (Option α)) (last p base : ℕ) : Prop :=
  ∀ i, p < i → i ≤ last → (entryAt all i).isSome →
    ∃ j, (j = base ∨ p < j ∧ (entryAt all j).isSome) ∧ j < i ∧ i ≤ j + limit + 1

theorem spaced_of_none {all : List (Option α)} {last p base : ℕ} (h : entryAt all (p + 1) = none) :
    Spaced limit all last p base ↔ Spaced limit all last (p + 1) base := by
  have hne : ∀ {i}, (entryAt all i).isSome → i ≠ p + 1 := by
    rintro _ hsome rfl
    rw [h] at hsome
    exact absurd hsome (by simp)
  constructor
  · intro hspaced i hi hlast hsome
    obtain ⟨j, hj, hlt, hle⟩ := hspaced i (by omega) hlast hsome
    refine ⟨j, hj.imp_right fun ⟨hpj, hjsome⟩ => ⟨?_, hjsome⟩, hlt, hle⟩
    have hjne := hne hjsome
    omega
  · intro hspaced i hi hlast hsome
    have hine := hne hsome
    obtain ⟨j, hj, hlt, hle⟩ := hspaced i (by omega) hlast hsome
    exact ⟨j, hj.imp_right fun ⟨hpj, hjsome⟩ => ⟨by omega, hjsome⟩, hlt, hle⟩

theorem spaced_of_some {all : List (Option α)} {last p base : ℕ} (h : (entryAt all (p + 1)).isSome)
    (hbase : base ≤ p) :
    Spaced limit all last p base ↔
      (p + 1 ≤ last → p ≤ base + limit) ∧ Spaced limit all last (p + 1) (p + 1) := by
  constructor
  · intro hspaced
    constructor
    · intro hlast
      obtain ⟨j, hj, hlt, hle⟩ := hspaced (p + 1) (by omega) hlast h
      omega
    · intro i hi hlast hsome
      obtain ⟨j, hj, hlt, hle⟩ := hspaced i (by omega) hlast hsome
      by_cases hjp : j ≤ p + 1
      · exact ⟨p + 1, Or.inl rfl, by omega, by omega⟩
      · rcases hj with rfl | ⟨-, hjsome⟩
        · omega
        · exact ⟨j, Or.inr ⟨by omega, hjsome⟩, hlt, hle⟩
  · rintro ⟨hgap, hspaced⟩ i hi hlast hsome
    by_cases heq : i = p + 1
    · have hgap := hgap (by omega)
      exact ⟨base, Or.inl rfl, by omega, by omega⟩
    · obtain ⟨j, hj, hlt, hle⟩ := hspaced i (by omega) hlast hsome
      refine ⟨j, Or.inr ⟨by omega, ?_⟩, hlt, hle⟩
      rcases hj with rfl | ⟨-, hjsome⟩
      · exact h
      · exact hjsome

/-- With `c` failures counted, the gap in front of the next entry has begun behind the row `p - c`. -/
theorem calm_iff {all rows : List (Option α)} {last p c : ℕ} (hrows : all.drop p = rows) (hc : c ≤ p) :
    Calm limit last (p + 1) rows c ↔ Spaced limit all last p (p - c) := by
  induction rows generalizing p c with
  | nil =>
    refine iff_of_true trivial fun i hi _ hsome => ?_
    obtain ⟨k, rfl⟩ : ∃ k, i = k + 1 := ⟨i - 1, by omega⟩
    rw [entryAt, List.getElem?_eq_none (by rw [List.drop_eq_nil_iff] at hrows; omega)] at hsome
    exact absurd hsome (by simp)
  | cons row rows ih =>
    obtain ⟨hentry, hdrop⟩ := entryAt_of_drop hrows
    cases row with
    | none =>
      rw [Calm, ih hdrop (by omega), spaced_of_none hentry, Nat.add_sub_add_right]
    | some x =>
      have hgap : p ≤ p - c + limit ↔ c ≤ limit := by omega
      rw [Calm, ih hdrop (Nat.zero_le _), spaced_of_some (by rw [hentry]; rfl) (Nat.sub_le p c), hgap,
        Nat.sub_zero]

/-- **A calm scan commits its entries once**: nested scans come upon none. -/
theorem scanRows_of_calm (hcommit : IsCommit commit) {all rows : List (Option α)} {last p : ℕ} {s : Scan α}
    (hrows : all.drop p = rows) (hagain : ∀ e, ∀ x ∈ (again e).1, x ∈ entriesIn all e last)
    (hclear : s.contErr ≠ 0 → ∀ i, s.errStart < i → i ≤ p → i ≤ last → entryAt all i = none)
    (hcalm : Calm limit last (p + 1) rows s.contErr)
    (hok : (scanRows size limit commit again (p + 1) rows s).2 = true) :
    (scanRows size limit commit again (p + 1) rows s).1 = s.out ++ flush size (p + 1) rows s.kept := by
  induction rows generalizing p s with
  | nil => exact (List.append_nil s.out).symm
  | cons row rows ih =>
    obtain ⟨hentry, hdrop⟩ := entryAt_of_drop hrows
    have hgap : row.isSome → p + 1 ≤ last → s.contErr ≤ limit := by
      intro hsome hlast
      obtain ⟨x, rfl⟩ := Option.isSome_iff_exists.mp hsome
      exact hcalm.1 hlast
    have hout : (s.look limit again (p + 1) row).out = s.out := by
      rw [Scan.out_look]
      split
      · rename_i hnested
        -- The nested scan starts behind a failure, and there are only failures up to `last`.
        have hnil : (again s.errStart).1 = [] := by
          rw [List.eq_nil_iff_forall_not_mem]
          intro x hx
          obtain ⟨i, hi, hlast, hx⟩ := mem_entriesIn.mp (hagain _ x hx)
          have hlt : last < p + 1 := by
            by_contra hge
            exact absurd (hgap hnested.1 (by omega)) (by omega)
          rw [hclear (by omega) i hi (by omega) hlast] at hx
          exact absurd hx (by simp)
        rw [hnil, List.append_nil]
      · exact List.append_nil s.out
    have hclear' : (s.look limit again (p + 1) row).contErr ≠ 0 →
        ∀ i, (s.look limit again (p + 1) row).errStart < i → i ≤ p + 1 → i ≤ last → entryAt all i = none := by
      intro hne i hi hip hlast
      rw [Scan.errStart_look _ row s hne] at hi
      split at hi
      · omega
      · rename_i hc
        by_cases heq : i = p + 1
        · subst heq
          rw [hentry]
          by_contra hrow
          obtain ⟨x, rfl⟩ := Option.ne_none_iff_exists'.mp hrow
          exact hne (Scan.contErr_look_some _ (hgap rfl hlast))
        · exact hclear hc i hi (by omega) hlast
    obtain ⟨s', heq, herr, hcont, hrest⟩ := scanRows_cons_of_ok hcommit hok
    rw [← herr, ← hcont] at hclear'
    rw [heq] at hok ⊢
    rw [ih hdrop hclear' (by rw [hcont]; exact (calm_look hgap).mp hcalm) hok, hrest, hout]

theorem scan_of_calm (hcommit : IsCommit commit) {rows : List (Option α)} {depth start : ℕ}
    (hcalm : Calm limit (lastCommit size rows) (start + 1) (rows.drop start) 0)
    (hok : (scan size limit commit rows (depth + 1) start).2 = true) :
    (scan size limit commit rows (depth + 1) start).1 = entriesIn rows start (lastCommit size rows) := by
  rw [← flush_drop]
  exact scanRows_of_calm hcommit rfl (fun _ => due_of_mem_scan hcommit) (fun h => absurd rfl h) hcalm hok

variable [BEq α] [LawfulBEq α]

/-- **A restart commits an entry twice**: the nested scan comes upon the entry that has started it. -/
theorem two_le_count_scanRows (hcommit : IsCommit commit) {all rows : List (Option α)} {start p : ℕ} {s : Scan α}
    (hrows : all.drop p = rows) (hp : start ≤ p)
    (hagain : ∀ e, start < e → (entriesIn all e (lastCommit size all)).Sublist (again e).1)
    (hs : s.contErr ≠ 0 → start < s.errStart ∧ s.errStart ≤ p)
    (hcalm : ¬ Calm limit (lastCommit size all) (p + 1) rows s.contErr)
    (hok : (scanRows size limit commit again (p + 1) rows s).2 = true) :
    ∃ x, 2 ≤ (scanRows size limit commit again (p + 1) rows s).1.count x := by
  induction rows generalizing p s with
  | nil => exact absurd trivial hcalm
  | cons row rows ih =>
    obtain ⟨hentry, hdrop⟩ := entryAt_of_drop hrows
    by_cases hnow : row.isSome ∧ p + 1 ≤ lastCommit size all ∧ limit < s.contErr
    · obtain ⟨hsome, hlast, hc⟩ := hnow
      obtain ⟨x, rfl⟩ := Option.isSome_iff_exists.mp hsome
      obtain ⟨hstart, hle⟩ := hs (by omega)
      have hnested : 1 ≤ (again s.errStart).1.count x := by
        rw [List.one_le_count_iff]
        exact (hagain s.errStart hstart).subset (mem_entriesIn.mpr ⟨p + 1, by omega, hlast, hentry⟩)
      have hown : 1 ≤ (flush size (p + 1) (some x :: rows) s.kept).count x :=
        List.one_le_count_iff.mpr (mem_flush_of_le hrows hlast s.kept)
      have hsub := (sublist_scanRows_cons hcommit (fun _ => sublist_scanRows hcommit) hok).count_le x
      rw [Scan.out_look, if_pos ⟨rfl, hc⟩, List.count_append, List.count_append] at hsub
      exact ⟨x, by omega⟩
    · have hs' : (s.look limit again (p + 1) row).contErr ≠ 0 →
          start < (s.look limit again (p + 1) row).errStart ∧
            (s.look limit again (p + 1) row).errStart ≤ p + 1 := by
        intro hne
        rw [Scan.errStart_look _ row s hne]
        split
        · omega
        · rename_i hc
          exact ⟨(hs hc).1, Nat.le_succ_of_le (hs hc).2⟩
      have hgap : row.isSome → p + 1 ≤ lastCommit size all → s.contErr ≤ limit := by
        intro hsome hlast
        by_contra hc
        exact hnow ⟨hsome, hlast, by omega⟩
      rw [calm_look hgap] at hcalm
      obtain ⟨s', heq, herr, hcont, -⟩ := scanRows_cons_of_ok hcommit hok
      rw [← herr, ← hcont] at hs'
      rw [← hcont] at hcalm
      rw [heq] at hok ⊢
      exact ih hdrop (by omega) hs' hcalm hok

theorem two_le_count_scan (hcommit : IsCommit commit) {rows : List (Option α)} {depth start : ℕ}
    (hcalm : ¬ Calm limit (lastCommit size rows) (start + 1) (rows.drop start) 0)
    (hok : (scan size limit commit rows (depth + 2) start).2 = true) :
    ∃ x, 2 ≤ (scan size limit commit rows (depth + 2) start).1.count x :=
  two_le_count_scanRows hcommit rfl (Nat.le_refl start)
    (fun _ he => sublist_scan hcommit (scan_ok_of_le hcommit (Nat.le_of_lt he) hok)) (fun h => absurd rfl h)
    hcalm hok

end BatchedScan

end DsDns
