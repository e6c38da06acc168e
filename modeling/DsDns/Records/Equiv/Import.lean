/-
  When the import has every resolvable domain once.

  With a resolver that does not change, `parseStart` refines `scan` (`parseStart_refines`): it appends the
  lines of the resolvable domains in batches of 100, and scans again after more than 200 failures in a row.
  The search for the resume point finds the last domain that was imported (`resume_eq`), and the scan starts
  behind the one after it. What this leaves is right exactly under the conditions of `import_exact_iff`.
-/
import DsDns.DataPlane.Equiv.Batch
import DsDns.Records.Equiv.Journal
import DsDns.Records.Equiv.Parse

namespace DsDns.Parse

variable {R : Str → Option Str} {doms : List Str}

/-- The record of a domain, if it resolves. -/
def entry (R : Str → Option Str) (domain : Str) : Option Entry :=
  match R domain, domain with
  | some ip, head :: _ => some (head, recordText domain ip)
  | _, _ => none

/-- Every domain's record, or its failure. -/
def rowsOf (R : Str → Option Str) (doms : List Str) : List (Option Entry) := doms.map (entry R)

/-- The numbers `k`, `k + 1`, … with the domains. -/
def numberFrom (k : ℕ) : List Str → List (ℤ × Str)
  | [] => []
  | d :: ds => ((k : ℤ), d) :: numberFrom (k + 1) ds

theorem numberFrom_drop (k j : ℕ) (doms : List Str) :
    (numberFrom k doms).drop j = numberFrom (k + j) (doms.drop j) := by
  induction j generalizing k doms with
  | zero => rfl
  | succ j ih =>
    cases doms with
    | nil => rfl
    | cons d ds =>
      rw [numberFrom, List.drop_succ_cons, List.drop_succ_cons, ih, Nat.add_right_comm, Nat.add_assoc]

/-! ### Refinement -/

section Refinement

variable {disk : Disk} {again : ℤ → World → World × Exit} {nested : ℕ → List Entry × Bool}

/-- The variables of the loop stand for those of the scan; `disk` is the directory at its start. -/
structure Refines (disk : Disk) (l : Locals) (w : World) (s : Scan Entry) : Prop where
  records : l.records = grouped s.kept
  errStart : l.errStart = s.errStart
  contErr : l.contErr = s.contErr
  appends : Appends disk w.disk s.out

/-- A call appends what the nested scan appends. -/
def CallRefines (can : Str → Bool) (again : ℤ → World → World × Exit) (nested : ℕ → List Entry × Bool) : Prop :=
  ∀ (e : ℕ) (w : World), w.disk.canOpen = can →
    Appends w.disk (again e w).1.disk (nested e).1 ∧ ((again e w).2 = .ok ↔ (nested e).2 = true)

theorem Refines.fail {l : Locals} {w : World} {s : Scan Entry} (h : Refines disk l w s) (num : ℕ) :
    Refines disk (l.fail num) w (s.fail num) := by
  unfold Locals.fail Scan.fail
  rw [h.contErr]
  split
  · exact ⟨h.records, rfl, rfl, h.appends⟩
  · exact ⟨h.records, h.errStart, rfl, h.appends⟩

/-- The `try` statement looks at a row. -/
theorem Refines.lookup (hagain : CallRefines disk.canOpen again nested) (start : ℤ) (num : ℕ) (d : Str)
    {l : Locals} {w : World} {s : Scan Entry} (h : Refines disk l w s) :
    Refines disk (lookup (fun _ => R) again start num d l w).1 (lookup (fun _ => R) again start num d l w).2
      (s.look 200 nested num (entry R d)) := by
  rcases lookup_cases (fun _ => R) again start num d l w with
    ⟨heq, hfail⟩ | ⟨ip, head, tail, hip, rfl, hcases⟩
  · have hentry : entry R d = none := by
      unfold entry
      cases hip : R d with
      | none => rfl
      | some ip => rw [hfail ip hip]
    have hasked : Refines disk l { w with asked := w.asked + 1 } s :=
      ⟨h.records, h.errStart, h.contErr, h.appends⟩
    rw [heq, hentry]
    exact hasked.fail num
  · have hentry : entry R (head :: tail) = some (head, recordText (head :: tail) ip) := by
      unfold entry
      rw [show R (head :: tail) = some ip from hip]
    have hpush : (l.push head (recordText (head :: tail) ip)).records =
        grouped (s.kept ++ [(head, recordText (head :: tail) ip)]) := by
      rw [grouped_concat, ← h.records]
      rfl
    rw [hentry]
    unfold Scan.look
    dsimp only
    rw [h.contErr] at hcases
    rcases hcases with ⟨hc, heq⟩ | ⟨hc, heq⟩
    · rw [heq, if_neg hc]
      exact ⟨hpush, h.errStart, rfl, h.appends⟩
    · have hcan : w.disk.canOpen = disk.canOpen := funext h.appends.canOpen
      obtain ⟨happends, hok⟩ := hagain s.errStart
        { w with asked := w.asked + 1, calls := w.calls ++ [(start, (s.errStart : ℤ))] } hcan
      rw [heq, if_pos hc, h.errStart]
      dsimp only
      by_cases hnested : (nested s.errStart).2 = true
      · rw [if_pos hnested, if_pos (hok.mpr hnested)]
        exact ⟨hpush, h.errStart, rfl, h.appends.trans happends⟩
      · have hkept : Refines disk (l.push head (recordText (head :: tail) ip))
            (again s.errStart { w with
              asked := w.asked + 1, calls := w.calls ++ [(start, (s.errStart : ℤ))] }).1
            { s with
              kept := s.kept ++ [(head, recordText (head :: tail) ip)], out := s.out ++ (nested s.errStart).1 } :=
          ⟨hpush, h.errStart, h.contErr, h.appends.trans happends⟩
        rw [if_neg hnested, if_neg (mt hok.mp hnested)]
        exact hkept.fail num

variable [Unicode]

/-- The loop is the scan of the rows. -/
theorem parseLines_refines (hagain : CallRefines disk.canOpen again nested) {start k : ℕ} {lines : List Str}
    (hlines : lines.map csvLine = (numberFrom k doms).map some) (hk : start < k) {l : Locals} {w : World}
    {s : Scan Entry} (h : Refines disk l w s) :
    Appends disk (parseLines (fun _ => R) again start lines l w).1.disk
        (scanRows 100 200 (journal disk.canOpen) nested k (rowsOf R doms) s).1 ∧
      ((parseLines (fun _ => R) again start lines l w).2 = .ok ↔
        (scanRows 100 200 (journal disk.canOpen) nested k (rowsOf R doms) s).2 = true) := by
  induction doms generalizing lines k l w s with
  | nil =>
    obtain rfl := List.map_eq_nil_iff.mp hlines
    exact ⟨h.appends, iff_of_true rfl rfl⟩
  | cons d ds ih =>
    rw [numberFrom, List.map_cons] at hlines
    obtain ⟨line, lines, rfl, hline, hlines⟩ := List.map_eq_cons_iff.mp hlines
    have hturn := h.lookup (R := R) hagain start k d
    have hle : ¬ (k : ℤ) ≤ start := by omega
    rw [parseLines, hline, rowsOf, List.map_cons, scanRows]
    simp only [hle, if_false]
    unfold parseLine
    generalize lookup (fun _ => R) again start k d l w = out at hturn
    obtain ⟨l', w'⟩ := out
    generalize s.look 200 nested k (entry R d) = s' at hturn
    dsimp only at hturn ⊢
    by_cases hnum : k % 100 = 0
    · have hnum' : (k : ℤ) % 100 = 0 := by omega
      have hcan : w'.disk.canOpen = disk.canOpen := funext hturn.appends.canOpen
      obtain ⟨happends, hok⟩ := commit_appends w'.disk s'.kept k
      rw [hcan] at happends hok
      rw [if_pos hnum, if_pos hnum', hturn.records]
      generalize commit w'.disk (grouped s'.kept) k = committed at happends hok
      obtain ⟨disk', _ | _⟩ := committed
      · rw [if_pos (hok.mp rfl)]
        exact ih hlines (by omega) ⟨rfl, hturn.errStart, hturn.contErr, hturn.appends.trans happends⟩
      · have hraised : ¬ (journal disk.canOpen s'.kept).2 = true := fun hj => absurd (hok.mpr hj) (by simp)
        rw [if_neg hraised]
        exact ⟨hturn.appends.trans happends, iff_of_false (by simp) Bool.false_ne_true⟩
    · have hnum' : ¬ (k : ℤ) % 100 = 0 := by omega
      rw [if_neg hnum, if_neg hnum']
      exact ih hlines (by omega) hturn

/-- The lines up to `start` are skipped. -/
theorem parseLines_skip {gethostbyname : ℕ → Str → Option Str} {start k : ℕ} {lines : List Str}
    (hlines : lines.map csvLine = (numberFrom k doms).map some) (hk : k ≤ start + 1) (l : Locals) (w : World) :
    parseLines gethostbyname again start lines l w =
      parseLines gethostbyname again start (lines.drop (start + 1 - k)) l w := by
  induction doms generalizing lines k with
  | nil =>
    obtain rfl := List.map_eq_nil_iff.mp hlines
    rw [List.drop_nil]
  | cons d ds ih =>
    by_cases hskip : k ≤ start
    · rw [numberFrom, List.map_cons] at hlines
      obtain ⟨line, lines, rfl, hline, hlines⟩ := List.map_eq_cons_iff.mp hlines
      have hle : (k : ℤ) ≤ start := by omega
      rw [parseLines, hline, show start + 1 - k = start + 1 - (k + 1) + 1 by omega, List.drop_succ_cons]
      simp only [hle, if_true]
      exact ih hlines (by omega)
    · rw [show start + 1 - k = 0 by omega, List.drop_zero]

/-- **`parseStart` refines the scan**: it appends the same lines, and ends like it. -/
theorem parseStart_refines {csv : Str} (hcsv : (readLines csv).map csvLine = (numberFrom 1 doms).map some)
    (can : Str → Bool) (depth : ℕ) :
    CallRefines can (parseStart (fun _ => R) csv depth) (scan 100 200 (journal can) (rowsOf R doms) depth) := by
  induction depth with
  | zero => exact fun start w _ => ⟨Appends.refl w.disk, by simp [parseStart, scan]⟩
  | succ depth ih =>
    rintro start w rfl
    have hdrop : ((readLines csv).drop start).map csvLine =
        (numberFrom (start + 1) (doms.drop start)).map some := by
      rw [List.map_drop, hcsv, ← List.map_drop, numberFrom_drop, Nat.add_comm]
    have hinit : Refines w.disk Locals.init w Scan.init := ⟨rfl, rfl, rfl, Appends.refl w.disk⟩
    rw [parseStart, scan, parseLines_skip hcsv (by omega), Nat.add_sub_cancel, rowsOf, ← List.map_drop]
    exact parseLines_refines ih hdrop (Nat.lt_succ_self start) hinit

end Refinement

/-! ### Records -/

/-- The text of a domain in the list: one field, on one line. -/
structure IsDomain (d : Str) : Prop where
  no_comma : ',' ∉ d
  no_newline : '\n' ∉ d
  no_return : '\r' ∉ d

theorem exists_numberFrom {d : Str} (hd : d ∈ doms) (k : ℕ) : ∃ num, (num, d) ∈ numberFrom k doms := by
  induction doms generalizing k with
  | nil => exact absurd hd List.not_mem_nil
  | cons d' ds ih =>
    rcases List.mem_cons.mp hd with rfl | hd
    · exact ⟨k, List.mem_cons_self⟩
    · obtain ⟨num, hnum⟩ := ih hd (k + 1)
      exact ⟨num, List.mem_cons_of_mem _ hnum⟩

/-- A domain of the list is one field of one line, without blanks at its end. -/
theorem isDomain_of_csvLine [Unicode] {csv line d : Str} {num : ℤ} (hline : line ∈ readLines csv)
    (hcsvline : csvLine line = some (num, d)) : IsDomain d ∧ rstrip d = d := by
  obtain ⟨hn, hr⟩ := not_mem_strip_line hline
  unfold csvLine at hcsvline
  split at hcsvline
  · rename_i num' d' hsplit
    obtain ⟨_, -, heq⟩ := Option.map_eq_some_iff.mp hcsvline
    cases heq
    have hmem : d ∈ split ',' (strip line) := by
      rw [hsplit]
      exact List.mem_cons_of_mem _ List.mem_cons_self
    refine ⟨⟨sep_not_mem_of_mem_split hmem, fun h => hn (mem_of_mem_split hmem h),
      fun h => hr (mem_of_mem_split hmem h)⟩, ?_⟩
    have hshape : num' ++ ',' :: d = strip line := by
      rw [← intercalate_split ',' (strip line), hsplit]
      simp [List.intercalate]
    have htrim := rstrip_strip line
    rw [← hshape, rstrip_append_cons (by decide)] at htrim
    exact (List.cons.inj (List.append_cancel_left htrim)).2
  · exact absurd hcsvline (by simp)

theorem isDomain_of_csv [Unicode] {csv : Str}
    (hcsv : (readLines csv).map csvLine = (numberFrom 1 doms).map some) {d : Str} (hd : d ∈ doms) :
    IsDomain d := by
  obtain ⟨num, hnum⟩ := exists_numberFrom hd 1
  obtain ⟨line, hline, hcsvline⟩ := List.mem_map.mp (hcsv ▸ List.mem_map_of_mem (f := some) hnum)
  exact (isDomain_of_csvLine hline hcsvline).1

theorem entry_eq_some {d : Str} {e : Entry} (h : entry R d = some e) :
    ∃ ip tail, R d = some ip ∧ d = e.1 :: tail ∧ e.2 = row d ['A'] ip ++ ['\n'] := by
  unfold entry at h
  split at h
  · rename_i ip head tail hip
    cases h
    exact ⟨ip, tail, hip, rfl, by simp [recordText, row]⟩
  · exact absurd h (by simp)

theorem entriesIn_rowsOf (k : ℕ) : entriesIn (rowsOf R doms) 0 k = (doms.take k).filterMap (entry R) := by
  rw [entriesIn, rowsOf, List.drop_zero, ← List.map_take, List.filterMap_map]
  rfl

theorem entryAt_rowsOf {i : ℕ} {e : Entry} (h : entryAt (rowsOf R doms) i = some e) :
    ∃ k d, i = k + 1 ∧ doms[k]? = some d ∧ entry R d = some e := by
  cases i with
  | zero => exact absurd h (by simp [entryAt])
  | succ k =>
    rw [entryAt, Option.join_eq_some_iff, rowsOf, List.getElem?_map, Option.map_eq_some_iff] at h
    obtain ⟨d, hd, hentry⟩ := h
    exact ⟨k, d, rfl, hd, hentry⟩

/-- The record of a domain is one line, and the domain is its first field. -/
theorem entry_line (hR : ∀ d v, R d = some v → (ipv4 v).isSome) {d : Str} (hd : IsDomain d) {e : Entry}
    (h : entry R d = some e) :
    Terminated e.2 ∧ '\r' ∉ e.2 ∧ ∃ rest, split ',' e.2 = d :: rest ∧ rest.length = 2 := by
  obtain ⟨ip, tail, hip, -, htext⟩ := entry_eq_some h
  have hvalue := isField_of_ipv4 (hR d ip hip)
  have hrow : row d ['A'] ip ++ ['\n'] = row d ['A'] (ip ++ ['\n']) := by simp [row]
  have hcomma : ',' ∉ ip ++ ['\n'] := by simp [hvalue.no_comma]
  have hreturn := not_mem_row (by decide) hd.no_return (by decide : '\r' ∉ ['A']) hvalue.no_return
  rw [htext]
  refine ⟨⟨_, rfl, not_mem_row (by decide) hd.no_newline (by decide) hvalue.no_newline⟩, ?_,
    [['A'], ip ++ ['\n']], ?_, rfl⟩
  · simp [hreturn]
  · rw [hrow, split_row_of hd.no_comma (by decide) hcomma]

/-- Lines that end once are read back as they are. -/
theorem readLines_flatten {lines : List Str} (h : ∀ l ∈ lines, Terminated l ∧ '\r' ∉ l) :
    readLines lines.flatten = lines := by
  have hreturn : '\r' ∉ lines.flatten := by
    rw [List.mem_flatten]
    rintro ⟨l, hl, hmem⟩
    exact (h l hl).2 hmem
  have hsplit := splitLines_flatten (fun l hl => (h l hl).1) []
  rw [List.append_nil] at hsplit
  rw [readLines, universalNewlines_of_not_mem hreturn, hsplit]
  exact List.append_nil lines

/-- The records of different domains are different. -/
theorem nodup_entries (hR : ∀ d v, R d = some v → (ipv4 v).isSome) (hdoms : ∀ d ∈ doms, IsDomain d)
    (hnodup : doms.Nodup) : (entriesIn (rowsOf R doms) 0 (rowsOf R doms).length).Nodup := by
  rw [entriesIn_rowsOf, rowsOf, List.length_map, List.take_length, List.Nodup, List.pairwise_filterMap]
  refine hnodup.imp_of_mem fun {d d'} hd hd' hne e he e' he' heq => hne ?_
  subst heq
  obtain ⟨-, -, rest, hsplit, -⟩ := entry_line hR (hdoms d hd) he
  obtain ⟨-, -, rest', hsplit', -⟩ := entry_line hR (hdoms d' hd') he'
  rw [hsplit] at hsplit'
  exact (List.cons.inj hsplit').1

/-! ### The resume point -/

/-- The number that the search reads in a line of a record file. -/
def lineNumber (r : Str → Option ℤ) (line : Str) : Option ℤ :=
  match split ',' line with
  | [domain, _, _] => r domain
  | _ => none

theorem resumeLine_eq (r : Str → Option ℤ) (start : ℤ) (line : Str) :
    resumeLine r start line = (lineNumber r line).map fun num => max num start := by
  unfold resumeLine lineNumber
  generalize split ',' line = fields
  rcases fields with _ | ⟨domain, _ | ⟨rtype, _ | ⟨value, _ | _⟩⟩⟩ <;> rfl

/-- Without an exception the inner loop finds the maximum of the numbers. -/
theorem resumeLines_le_iff {r : Str → Option ℤ} {start b : ℤ} {lines : List Str}
    (h : ∀ l ∈ lines, (lineNumber r l).isSome) :
    resumeLines r start lines ≤ b ↔ start ≤ b ∧ ∀ l ∈ lines, ∀ num, lineNumber r l = some num → num ≤ b := by
  induction lines generalizing start with
  | nil => simp [resumeLines]
  | cons line lines ih =>
    obtain ⟨num, hnum⟩ := Option.isSome_iff_exists.mp (h line List.mem_cons_self)
    rw [resumeLines, resumeLine_eq, hnum, Option.map_some]
    dsimp only
    rw [ih fun l hl => h l (List.mem_cons_of_mem line hl), Int.max_le, List.forall_mem_cons, hnum]
    constructor
    · rintro ⟨⟨hle, hstart⟩, hrest⟩
      refine ⟨hstart, fun _ heq => ?_, hrest⟩
      cases heq
      exact hle
    · rintro ⟨hstart, hle, hrest⟩
      exact ⟨⟨hle num rfl, hstart⟩, hrest⟩

/-- The record files hold the records of the first `k` domains, each of them once. -/
def Imported (R : Str → Option Str) (doms : List Str) (k : ℕ) (disk : Disk) : Prop :=
  ∀ c, ∃ lines : List Str, lines.Perm (texts c ((doms.take k).filterMap (entry R))) ∧
    (disk.file [c]).getD [] = lines.flatten

/-- The last imported number that the search can find, or 0. -/
def resumePoint (R : Str → Option Str) (doms : List Str) (k : ℕ) : ℕ :=
  Nat.findGreatest (fun i => (entryAt (rowsOf R doms) i).any (fun e => heads.contains e.1) = true) k

theorem mem_texts {c : Char} {t : Str} {es : List Entry} : t ∈ texts c es ↔ (c, t) ∈ es := by
  simp [texts]

theorem mem_imported {c : Char} {t : Str} {k : ℕ} :
    t ∈ texts c ((doms.take k).filterMap (entry R)) ↔
      ∃ i, 0 < i ∧ i ≤ k ∧ entryAt (rowsOf R doms) i = some (c, t) := by
  rw [mem_texts, ← entriesIn_rowsOf, mem_entriesIn]

theorem line_of_entryAt (hR : ∀ d v, R d = some v → (ipv4 v).isSome) (hdoms : ∀ d ∈ doms, IsDomain d) {i : ℕ}
    {e : Entry} (h : entryAt (rowsOf R doms) i = some e) : Terminated e.2 ∧ '\r' ∉ e.2 := by
  obtain ⟨j, d, -, hd, hentry⟩ := entryAt_rowsOf h
  obtain ⟨hterminated, hreturn, -⟩ := entry_line hR (hdoms d (List.mem_of_getElem? hd)) hentry
  exact ⟨hterminated, hreturn⟩

/-- Each line of a record file is the record of one of the first `k` domains. -/
theorem line_of_imported (hR : ∀ d v, R d = some v → (ipv4 v).isSome) (hdoms : ∀ d ∈ doms, IsDomain d) {k : ℕ}
    {c : Char} {lines : List Str} (h : lines.Perm (texts c ((doms.take k).filterMap (entry R)))) :
    ∀ l ∈ lines, Terminated l ∧ '\r' ∉ l := by
  intro l hl
  obtain ⟨i, -, -, hi⟩ := mem_imported.mp (h.mem_iff.mp hl)
  exact line_of_entryAt hR hdoms hi

section Resume

variable {k : ℕ} {disk : Disk} {r : Str → Option ℤ}

/-- The number of a record is the one of its domain. -/
theorem lineNumber_of_entryAt (hR : ∀ d v, R d = some v → (ipv4 v).isSome) (hdoms : ∀ d ∈ doms, IsDomain d)
    (hr : ∀ j d, doms[j]? = some d → r d = some ((j + 1 : ℕ) : ℤ)) {i : ℕ} {e : Entry}
    (h : entryAt (rowsOf R doms) i = some e) : lineNumber r e.2 = some (i : ℤ) := by
  obtain ⟨j, d, rfl, hd, hentry⟩ := entryAt_rowsOf h
  obtain ⟨-, -, rest, hsplit, hlen⟩ := entry_line hR (hdoms d (List.mem_of_getElem? hd)) hentry
  obtain ⟨a, b, rfl⟩ := List.length_eq_two.mp hlen
  rw [lineNumber, hsplit]
  exact hr j d hd

theorem resumeHead_eq {lines : List Str} {c : Char} (h : ∀ l ∈ lines, Terminated l ∧ '\r' ∉ l)
    (hfile : (disk.file [c]).getD [] = lines.flatten) (start : ℤ) :
    resumeHead r disk start c = resumeLines r start lines := by
  rw [← readLines_flatten h, ← hfile, resumeHead]
  cases disk.file [c] <;> rfl

/-- One turn of the outer loop. -/
theorem resumeHead_le_iff (hR : ∀ d v, R d = some v → (ipv4 v).isSome) (hdoms : ∀ d ∈ doms, IsDomain d)
    (hold : Imported R doms k disk) (hr : ∀ j d, doms[j]? = some d → r d = some ((j + 1 : ℕ) : ℤ)) (start b : ℤ)
    (c : Char) :
    resumeHead r disk start c ≤ b ↔ start ≤ b ∧
      ∀ i ≤ k, ∀ t, entryAt (rowsOf R doms) i = some (c, t) → (i : ℤ) ≤ b := by
  obtain ⟨lines, hperm, hfile⟩ := hold c
  have hnumber : ∀ {i : ℕ} {t : Str}, entryAt (rowsOf R doms) i = some (c, t) → lineNumber r t = some (i : ℤ) :=
    fun ht => lineNumber_of_entryAt hR hdoms hr ht
  have hlines : ∀ t ∈ lines, ∃ i, 0 < i ∧ i ≤ k ∧ entryAt (rowsOf R doms) i = some (c, t) :=
    fun t ht => mem_imported.mp (hperm.mem_iff.mp ht)
  rw [resumeHead_eq (line_of_imported hR hdoms hperm) hfile, resumeLines_le_iff]
  · refine and_congr_right fun _ => ⟨fun h i hi t ht => ?_, fun h t ht num hnum => ?_⟩
    · have hpos : 0 < i := by
        obtain ⟨j, d, rfl, -⟩ := entryAt_rowsOf ht
        exact Nat.succ_pos j
      exact h t (hperm.mem_iff.mpr (mem_imported.mpr ⟨i, hpos, hi, ht⟩)) i (hnumber ht)
    · obtain ⟨i, -, hi, hentry⟩ := hlines t ht
      rw [hnumber hentry] at hnum
      cases hnum
      exact h i hi t hentry
  · intro t ht
    obtain ⟨i, -, -, hi⟩ := hlines t ht
    rw [hnumber hi]
    rfl

/-- **The search finds the resume point.** -/
theorem resume_eq (hR : ∀ d v, R d = some v → (ipv4 v).isSome) (hdoms : ∀ d ∈ doms, IsDomain d)
    (hold : Imported R doms k disk) (hr : ∀ j d, doms[j]? = some d → r d = some ((j + 1 : ℕ) : ℤ)) :
    resume r disk = resumePoint R doms k := by
  have hfold : ∀ (cs : Str) (start b : ℤ), cs.foldl (resumeHead r disk) start ≤ b ↔ start ≤ b ∧
      ∀ c ∈ cs, ∀ i ≤ k, ∀ t, entryAt (rowsOf R doms) i = some (c, t) → (i : ℤ) ≤ b := by
    intro cs
    induction cs with
    | nil => simp
    | cons c cs ih =>
      intro start b
      rw [List.foldl_cons, ih, resumeHead_le_iff hR hdoms hold hr, List.forall_mem_cons, and_assoc]
  refine eq_of_forall_ge_iff fun b => ?_
  rw [resume, hfold]
  constructor
  · rintro ⟨hzero, h⟩
    by_cases hpoint : resumePoint R doms k = 0
    · rw [hpoint]
      exact hzero
    · obtain ⟨e, he, hhead⟩ := (Option.any_eq_true _ _).mp (Nat.findGreatest_of_ne_zero rfl hpoint)
      exact h e.1 (List.contains_iff_mem.mp hhead) _ (Nat.findGreatest_le k) e.2 he
  · intro h
    refine ⟨(Int.natCast_nonneg _).trans h, fun c hc i hi t ht => ?_⟩
    have hle : i ≤ resumePoint R doms k := by
      refine Nat.le_findGreatest hi ?_
      rw [ht]
      exact List.contains_iff_mem.mpr hc
    omega

end Resume

/-! ### What the import leaves -/

/-- Entries that are appended to the first `k` records make up all records. -/
theorem imported_iff_perm (hR : ∀ d v, R d = some v → (ipv4 v).isSome) (hdoms : ∀ d ∈ doms, IsDomain d)
    {k start last : ℕ} {disk disk' : Disk} {es : List Entry} (hold : Imported R doms k disk)
    (happends : Appends disk disk' es) (hes : ∀ e ∈ es, e ∈ entriesIn (rowsOf R doms) start last) :
    Imported R doms doms.length disk' ↔
      (entriesIn (rowsOf R doms) 0 k ++ es).Perm (entriesIn (rowsOf R doms) 0 (rowsOf R doms).length) := by
  have hlength : (rowsOf R doms).length = doms.length := List.length_map _
  rw [perm_iff_texts, hlength]
  refine forall_congr' fun c => ?_
  obtain ⟨lines, hperm, hfile⟩ := hold c
  have hnew : ∀ l ∈ lines ++ texts c es, Terminated l ∧ '\r' ∉ l := by
    intro l hl
    rcases List.mem_append.mp hl with hl | hl
    · exact line_of_imported hR hdoms hperm l hl
    · obtain ⟨i, -, -, hi⟩ := mem_entriesIn.mp (hes _ (mem_texts.mp hl))
      exact line_of_entryAt hR hdoms hi
  have hfile' : (disk'.file [c]).getD [] = (lines ++ texts c es).flatten := by
    rw [happends.file, hfile, List.flatten_append]
  rw [texts_append, entriesIn_rowsOf, entriesIn_rowsOf]
  constructor
  · rintro ⟨lines', hperm', hall⟩
    have heq : lines ++ texts c es = lines' := by
      rw [← readLines_flatten hnew, ← hfile', hall, readLines_flatten (line_of_imported hR hdoms hperm')]
    exact (hperm.append_right _).symm.trans (heq ▸ hperm')
  · exact fun h => ⟨lines ++ texts c es, (hperm.append_right _).trans h, hfile'⟩

variable [Unicode]

/-- Numbering a list sets the numbers of its domains and no others. -/
theorem foldlM_numberLine {lines : List Str} {k : ℕ} (hlines : lines.map csvLine = (numberFrom k doms).map some)
    (hnodup : doms.Nodup) (r : Str → Option ℤ) :
    ∃ r', lines.foldlM numberLine r = some r' ∧ (∀ d ∉ doms, r' d = r d) ∧
      ∀ j d, doms[j]? = some d → r' d = some ((j + k : ℕ) : ℤ) := by
  induction doms generalizing lines k r with
  | nil =>
    obtain rfl := List.map_eq_nil_iff.mp hlines
    exact ⟨r, rfl, fun _ _ => rfl, by simp⟩
  | cons d ds ih =>
    rw [numberFrom, List.map_cons] at hlines
    obtain ⟨line, lines, rfl, hline, hlines⟩ := List.map_eq_cons_iff.mp hlines
    obtain ⟨hnew, hnodup⟩ := List.nodup_cons.mp hnodup
    obtain ⟨r', hr', hother, hnum⟩ := ih hlines hnodup (put r (some (d, (k : ℤ))))
    refine ⟨r', ?_, fun d' hd' => ?_, fun j d' hd' => ?_⟩
    · rw [List.foldlM_cons, numberLine, hline]
      exact hr'
    · obtain ⟨hne, hd'⟩ := not_or.mp (mt List.mem_cons.mpr hd')
      rw [hother d' hd', put_some_apply, if_neg hne]
    · cases j with
      | zero =>
        cases hd'
        rw [hother d hnew, put_some_self, Nat.zero_add]
      | succ j => rw [hnum j d' hd', Nat.add_right_comm, Nat.add_assoc]

/-- The dictionary `r` has the number of every domain. -/
theorem numbers_eq {csv : Str} (hcsv : (readLines csv).map csvLine = (numberFrom 1 doms).map some)
    (hnodup : doms.Nodup) :
    ∃ r, numbers csv = some r ∧ ∀ j d, doms[j]? = some d → r d = some ((j + 1 : ℕ) : ℤ) := by
  obtain ⟨r, hr, -, hnum⟩ := foldlM_numberLine hcsv hnodup fun _ => none
  exact ⟨r, hr, hnum⟩

/-- A domain resolves to a record. -/
def Resolves (R : Str → Option Str) (doms : List Str) (i : ℕ) : Prop := (entryAt (rowsOf R doms) i).isSome

/-- **When the import is exactly-once.** The first `k` domains have been imported; a run that gets to its
end starts behind the domain after the resume point and makes its last commit at the last multiple of 100.
It leaves every resolvable domain once exactly if these are the domains that were left, and none of them
comes after more than 200 failures in a row. -/
theorem import_exact_iff (hR : ∀ d v, R d = some v → (ipv4 v).isSome) {csv : Str}
    (hcsv : (readLines csv).map csvLine = (numberFrom 1 doms).map some) (hnodup : doms.Nodup) {k : ℕ} {disk : Disk}
    (hold : Imported R doms k disk) {depth : ℕ} {final : World}
    (hrun : main (fun _ => R) csv (depth + 2) disk = (final, .ok)) :
    let start := resumePoint R doms k + 1
    let last := doms.length / 100 * 100
    Imported R doms doms.length final.disk ↔
      (∀ i, Resolves R doms i → (k < i ↔ start < i ∧ i ≤ last)) ∧
        ∀ i, start < i → i ≤ last → Resolves R doms i →
          ∃ j, (j = start ∨ start < j ∧ Resolves R doms j) ∧ j < i ∧ i ≤ j + 201 := by
  intro start last
  have hdoms : ∀ d ∈ doms, IsDomain d := fun d => isDomain_of_csv hcsv
  have hentries := nodup_entries hR hdoms hnodup
  have hcommit := isCommit_journal disk.canOpen
  have hlast : lastCommit 100 (rowsOf R doms) = last := by rw [lastCommit, rowsOf, List.length_map]
  obtain ⟨r, hr, hnum⟩ := numbers_eq hcsv hnodup
  have hstart : resume r disk + 1 = (start : ℤ) := by
    rw [resume_eq hR hdoms hold hnum]
    rfl
  unfold main at hrun
  rw [hr] at hrun
  dsimp only at hrun
  rw [hstart] at hrun
  obtain ⟨happends, hok⟩ :=
    parseStart_refines (R := R) hcsv disk.canOpen (depth + 2) start ⟨disk, 0, []⟩ rfl
  rw [hrun] at happends hok
  have hok := hok.mp rfl
  rw [imported_iff_perm hR hdoms hold happends fun e he => due_of_mem_scan hcommit e he]
  have hcalm : Calm 200 last (start + 1) ((rowsOf R doms).drop start) 0 ↔ _ := calm_iff rfl (Nat.zero_le start)
  by_cases h : Calm 200 last (start + 1) ((rowsOf R doms).drop start) 0
  · rw [scan_of_calm hcommit (hlast ▸ h) hok, hlast, perm_entriesIn_iff hentries]
    exact (and_iff_left (hcalm.mp h)).symm
  · refine iff_of_false (fun hperm => ?_) fun hgaps => h (hcalm.mpr hgaps.2)
    obtain ⟨e, he⟩ := two_le_count_scan hcommit (hlast ▸ h) hok
    have hone := List.nodup_iff_count_le_one.mp hentries e
    rw [← hperm.count_eq, List.count_append] at hone
    omega

omit [Unicode] in
/-- A directory with the given file `a.txt`, in which every file can be opened. -/
def directory (file : Option Str) : Disk := ⟨fun name => if name = ['a'] then file else none, fun _ => false⟩

omit [Unicode] in
/-- A hundred domains. -/
def hundred : List Str := (List.range 100).map fun i => 'a' :: intStr (i + 1 : ℕ)

omit [Unicode] in
/-- The list that numbers them. -/
def hundredCsv : Str := (numberFrom 1 hundred).flatMap fun row => intStr row.1 ++ ',' :: (row.2 ++ ['\n'])

omit [Unicode] in
/-- A resolver that knows the first and the last of them. -/
def firstAndLast (domain : Str) : Option Str :=
  if domain = "a1".toList ∨ domain = "a100".toList then some "1.1.1.1".toList else none

omit [Unicode] in
/-- The first domain is imported; a further run fails 97 times in a row, and then imports the last one. -/
theorem import_exact_iff_hundred :
    let disk := directory (some "a1,A,1.1.1.1\n".toList)
    ¬ Imported firstAndLast hundred 100 disk ∧
    Imported firstAndLast hundred 100 (@main (fun _ => firstAndLast) Unicode.ascii hundredCsv 1000 disk).1.disk := by
  intro disk
  have hold : Imported firstAndLast hundred 1 disk := by
    intro c
    by_cases hc : c = 'a'
    · subst hc
      exact ⟨["a1,A,1.1.1.1\n".toList], List.Perm.refl _, rfl⟩
    · have hname : ([c] : Str) ≠ ['a'] := fun h => hc (List.cons.inj h).1
      have hfile : disk.file [c] = none := if_neg hname
      refine ⟨[], ?_, by rw [hfile]; rfl⟩
      have hone : (hundred.take 1).filterMap (entry firstAndLast) = [('a', "a1,A,1.1.1.1\n".toList)] := by
        decide +kernel
      rw [hone, texts_singleton, if_neg (Ne.symm hc)]
  have hall : hundred.filterMap (entry firstAndLast) =
      [('a', "a1,A,1.1.1.1\n".toList), ('a', "a100,A,1.1.1.1\n".toList)] := by decide +kernel
  have hR : ∀ d v, firstAndLast d = some v → (ipv4 v).isSome := by
    intro d v h
    unfold firstAndLast at h
    split at h
    · cases h
      decide
    · cases h
  have hresolves : ∀ i, Resolves firstAndLast hundred i → i = 1 ∨ i = 100 := by
    intro i hi
    have hlt : i < 101 := by
      obtain ⟨e, he⟩ := Option.isSome_iff_exists.mp hi
      obtain ⟨j, d, rfl, hd, -⟩ := entryAt_rowsOf he
      obtain ⟨hlt, -⟩ := List.getElem?_eq_some_iff.mp hd
      have hlen : hundred.length = 100 := rfl
      omega
    have hfin : ∀ i < 101, (entryAt (rowsOf firstAndLast hundred) i).isSome = true → i = 1 ∨ i = 100 := by
      decide +kernel
    exact hfin i hlt hi
  have hexit : (@main (fun _ => firstAndLast) Unicode.ascii hundredCsv 1000 disk).2 = .ok := by decide +kernel
  have hrun : @main (fun _ => firstAndLast) Unicode.ascii hundredCsv 1000 disk =
      ((@main (fun _ => firstAndLast) Unicode.ascii hundredCsv 1000 disk).1, .ok) := by
    rw [← hexit]
  have hcsv : (readLines hundredCsv).map (@csvLine Unicode.ascii) = (numberFrom 1 hundred).map some := by
    decide +kernel
  have hresume : resumePoint firstAndLast hundred 1 = 1 := by decide +kernel
  constructor
  · intro himported
    obtain ⟨lines, hperm, hfile⟩ := himported 'a'
    have hlength := hperm.flatten.length_eq
    rw [← hfile, List.take_of_length_le (by decide +kernel), hall] at hlength
    exact absurd hlength (by decide)
  · refine (@import_exact_iff firstAndLast hundred Unicode.ascii hR hundredCsv hcsv (by decide +kernel) 1 disk hold
      998 _ hrun).mpr ?_
    rw [hresume]
    constructor
    · intro i hi
      rcases hresolves i hi with rfl | rfl <;> decide
    · intro i _ _ hi
      rcases hresolves i hi with rfl | rfl
      · omega
      · exact ⟨2, Or.inl rfl, by decide, by decide⟩

omit [Unicode] in
/-- A first import of fewer than 100 domains leaves nothing. -/
theorem not_import_exact :
    let R : Str → Option Str := fun _ => some "1.1.1.1".toList
    let doms := ["a.com".toList, "b.com".toList]
    let csv := "1,a.com\n2,b.com\n".toList
    ((readLines csv).map (@csvLine Unicode.ascii) = (numberFrom 1 doms).map some ∧ Imported R doms 0 (directory none)) ∧
    (@main (fun _ => R) Unicode.ascii csv 1000 (directory none)).2 = .ok ∧
    ¬ Imported R doms 2 (@main (fun _ => R) Unicode.ascii csv 1000 (directory none)).1.disk := by
  intro R doms csv
  refine ⟨⟨by decide, fun c => ⟨[], List.Perm.refl _, ?_⟩⟩, by decide, fun h => ?_⟩
  · unfold directory
    dsimp only
    split <;> rfl
  · obtain ⟨lines, hperm, hfile⟩ := h 'a'
    have hlines : lines = ["a.com,A,1.1.1.1\n".toList] := List.perm_singleton.mp hperm
    rw [hlines] at hfile
    exact absurd hfile (by decide)

end DsDns.Parse
