/-
  Where the lines of an import come from.

  The resolver may answer every look-up differently, the list may be malformed and files may be closed to the import.
  Whatever happens, and however the import ends, what it appends to the record files are answers that the resolver
  gave for domains of the list, and no look-up is written twice (`parseStart_logged`).
-/
import DsDns.Records.Equiv.Journal
import DsDns.Records.Equiv.Parse

namespace DsDns.Parse

/-- The answer to a look-up: its number, the domain, cut after its first character, and the address. -/
structure Answer where
  asked : ℕ
  head : Char
  tail : Str
  ip : Str

namespace Answer

/-- The domain that was looked up. -/
def domain (a : Answer) : Str := a.head :: a.tail

/-- The line of the answer. -/
def entry (a : Answer) : Entry := (a.head, recordText a.domain a.ip)

end Answer

variable [Unicode]

/-- The domain is on a line of the list. -/
def Listed (csv domain : Str) : Prop := ∃ line ∈ readLines csv, ∃ num, csvLine line = some (num, domain)

/-- Answers to different look-ups of listed domains, with numbers from `first` on and below `last`. -/
structure Answers (gethostbyname : ℕ → Str → Option Str) (csv : Str) (first last : ℕ) (as : List Answer) : Prop where
  le : first ≤ last
  once : (as.map Answer.asked).Nodup
  range : ∀ a ∈ as, first ≤ a.asked ∧ a.asked < last
  given : ∀ a ∈ as, gethostbyname a.asked a.domain = some a.ip
  listed : ∀ a ∈ as, Listed csv a.domain

namespace Answers

variable {gethostbyname : ℕ → Str → Option Str} {csv : Str} {first mid last : ℕ} {as bs : List Answer}

theorem nil (h : first ≤ last) : Answers gethostbyname csv first last [] :=
  ⟨h, List.nodup_nil, fun _ ha => absurd ha List.not_mem_nil, fun _ ha => absurd ha List.not_mem_nil,
    fun _ ha => absurd ha List.not_mem_nil⟩

theorem mono (h : Answers gethostbyname csv first mid as) (hle : mid ≤ last) : Answers gethostbyname csv first last as :=
  ⟨h.le.trans hle, h.once, fun a ha => ⟨(h.range a ha).1, (h.range a ha).2.trans_le hle⟩, h.given, h.listed⟩

theorem single {a : Answer} (hgiven : gethostbyname a.asked a.domain = some a.ip) (hlisted : Listed csv a.domain) :
    Answers gethostbyname csv a.asked (a.asked + 1) [a] := by
  refine ⟨Nat.le_succ _, List.nodup_singleton _, ?_, ?_, ?_⟩
  all_goals
    intro b hb
    rw [List.mem_singleton.mp hb]
  · exact ⟨le_refl _, Nat.lt_succ_self _⟩
  · exact hgiven
  · exact hlisted

/-- Later look-ups have other numbers. -/
theorem append (h : Answers gethostbyname csv first mid as) (h' : Answers gethostbyname csv mid last bs) :
    Answers gethostbyname csv first last (as ++ bs) where
  le := h.le.trans h'.le
  once := by
    rw [List.map_append]
    refine List.Nodup.append h.once h'.once fun k hk hk' => ?_
    obtain ⟨a, ha, rfl⟩ := List.mem_map.mp hk
    obtain ⟨b, hb, heq⟩ := List.mem_map.mp hk'
    have hlt := (h.range a ha).2
    have hge := (h'.range b hb).1
    omega
  range a ha := by
    rcases List.mem_append.mp ha with ha | ha
    · exact ⟨(h.range a ha).1, (h.range a ha).2.trans_le h'.le⟩
    · exact ⟨h.le.trans (h'.range a ha).1, (h'.range a ha).2⟩
  given a ha := (List.mem_append.mp ha).elim (h.given a) (h'.given a)
  listed a ha := (List.mem_append.mp ha).elim (h.listed a) (h'.listed a)

/-- Some of the answers, in any order. -/
theorem of_subperm (h : Answers gethostbyname csv first last as) (hsub : bs.Subperm as) :
    Answers gethostbyname csv first last bs where
  le := h.le
  once := by
    obtain ⟨cs, hperm, hsublist⟩ := hsub
    exact (hperm.map Answer.asked).nodup_iff.mp (h.once.sublist (hsublist.map Answer.asked))
  range a ha := h.range a (hsub.subset ha)
  given a ha := h.given a (hsub.subset ha)
  listed a ha := h.listed a (hsub.subset ha)

end Answers

/-! ### The loop -/

section Loop

variable {gethostbyname : ℕ → Str → Option Str} {csv : Str} {again : ℤ → World → World × Exit} {disk : Disk}
  {first : ℕ} {l : Locals} {w : World} {out kept : List Answer}

/-- A call appends answers to its own look-ups. -/
def CallLogs (gethostbyname : ℕ → Str → Option Str) (csv : Str) (again : ℤ → World → World × Exit) : Prop :=
  ∀ (e : ℤ) (w : World), ∃ out, Appends w.disk (again e w).1.disk (out.map Answer.entry) ∧
    Answers gethostbyname csv w.asked (again e w).1.asked out

/-- The loop, started on the directory `disk`, has appended `out` and holds the batch `kept`. -/
structure Logged (gethostbyname : ℕ → Str → Option Str) (csv : Str) (disk : Disk) (first : ℕ) (l : Locals) (w : World)
    (out kept : List Answer) : Prop where
  records : l.records = grouped (kept.map Answer.entry)
  appends : Appends disk w.disk (out.map Answer.entry)
  answers : Answers gethostbyname csv first w.asked (out ++ kept)

theorem Logged.fail (h : Logged gethostbyname csv disk first l w out kept) (num : ℤ) :
    Logged gethostbyname csv disk first (l.fail num) w out kept := by
  have hrecords : (l.fail num).records = l.records := by
    unfold Locals.fail
    split <;> rfl
  exact ⟨hrecords.trans h.records, h.appends, h.answers⟩

/-- The `try` statement keeps at most one answer more. -/
theorem Logged.lookup (h : Logged gethostbyname csv disk first l w out kept)
    (hagain : CallLogs gethostbyname csv again) (start num : ℤ) {domain : Str} (hlisted : Listed csv domain) :
    ∃ out' kept', Logged gethostbyname csv disk first (lookup gethostbyname again start num domain l w).1
      (lookup gethostbyname again start num domain l w).2 out' kept' := by
  rcases lookup_cases gethostbyname again start num domain l w with ⟨heq, -⟩ | ⟨ip, head, tail, hip, rfl, hcases⟩
  · rw [heq]
    have hasked : Logged gethostbyname csv disk first l { w with asked := w.asked + 1 } out kept :=
      ⟨h.records, h.appends, h.answers.mono (Nat.le_succ _)⟩
    exact ⟨out, kept, hasked.fail num⟩
  · obtain ⟨answer, hanswer⟩ : ∃ a : Answer, a = ⟨w.asked, head, tail, ip⟩ := ⟨_, rfl⟩
    have hsingle : Answers gethostbyname csv w.asked (w.asked + 1) [answer] := by
      rw [hanswer]
      exact Answers.single (a := ⟨w.asked, head, tail, ip⟩) hip hlisted
    have hanswers := h.answers.append hsingle
    have hpush : (l.push head (recordText (head :: tail) ip)).records =
        grouped ((kept ++ [answer]).map Answer.entry) := by
      rw [List.map_append, List.map_singleton, grouped_concat, ← h.records, hanswer]
      rfl
    rcases hcases with ⟨-, heq⟩ | ⟨-, heq⟩
    · rw [heq]
      refine ⟨out, kept ++ [answer], ⟨hpush, h.appends, ?_⟩⟩
      rw [← List.append_assoc]
      exact hanswers
    · obtain ⟨nested, happends, hnested⟩ := hagain l.errStart
        { w with asked := w.asked + 1, calls := w.calls ++ [(start, l.errStart)] }
      -- The nested call has written its answers before this one is.
      have hall : Answers gethostbyname csv first (again l.errStart
          { w with asked := w.asked + 1, calls := w.calls ++ [(start, l.errStart)] }).1.asked
          ((out ++ nested) ++ (kept ++ [answer])) := by
        apply (hanswers.append hnested).of_subperm
        apply List.Perm.subperm
        rw [List.append_assoc, List.append_assoc, List.append_assoc, ← List.append_assoc kept]
        exact (List.perm_append_comm).append_left out
      have hlogged : Logged gethostbyname csv disk first (l.push head (recordText (head :: tail) ip))
          (again l.errStart { w with asked := w.asked + 1, calls := w.calls ++ [(start, l.errStart)] }).1
          (out ++ nested) (kept ++ [answer]) := by
        refine ⟨hpush, ?_, hall⟩
        rw [List.map_append]
        exact h.appends.trans happends
      rw [heq]
      refine ⟨out ++ nested, kept ++ [answer], ?_⟩
      dsimp only
      split
      · exact ⟨hlogged.records, hlogged.appends, hlogged.answers⟩
      · exact hlogged.fail num

/-- A commit that goes through leaves an empty batch. One that raises ends the loop. -/
theorem Logged.parseLine (h : Logged gethostbyname csv disk first l w out kept)
    (hagain : CallLogs gethostbyname csv again) (start num : ℤ) {domain : Str} (hlisted : Listed csv domain) :
    ∃ out' kept', Logged gethostbyname csv disk first (parseLine gethostbyname again start num domain l w).1
        (parseLine gethostbyname again start num domain l w).2.1 out' kept' ∨
      (parseLine gethostbyname again start num domain l w).2.2 = .raised ∧
        Appends disk (parseLine gethostbyname again start num domain l w).2.1.disk (out'.map Answer.entry) ∧
        Answers gethostbyname csv first (parseLine gethostbyname again start num domain l w).2.1.asked out' := by
  obtain ⟨out₁, kept₁, hlogged⟩ := h.lookup hagain start num hlisted
  unfold Parse.parseLine
  generalize Parse.lookup gethostbyname again start num domain l w = turn at hlogged
  obtain ⟨l₁, w₁⟩ := turn
  dsimp only at hlogged ⊢
  split
  · obtain ⟨happends, -⟩ := commit_appends w₁.disk (kept₁.map Answer.entry) num
    obtain ⟨written, hsub, heq⟩ := List.sublist_map_iff.mp (journal_sublist w₁.disk.canOpen (kept₁.map Answer.entry))
    rw [← hlogged.records, heq] at happends
    have hout : Appends disk (commit w₁.disk l₁.records num).1 ((out₁ ++ written).map Answer.entry) := by
      rw [List.map_append]
      exact hlogged.appends.trans happends
    have hanswers : Answers gethostbyname csv first w₁.asked (out₁ ++ written) :=
      hlogged.answers.of_subperm (hsub.append_left out₁).subperm
    generalize commit w₁.disk l₁.records num = committed at hout
    obtain ⟨disk₁, _ | _⟩ := committed
    · refine ⟨out₁ ++ written, [], Or.inl ⟨rfl, hout, ?_⟩⟩
      rw [List.append_nil]
      exact hanswers
    · exact ⟨out₁ ++ written, [], Or.inr ⟨rfl, hout, hanswers⟩⟩
  · exact ⟨out₁, kept₁, Or.inl hlogged⟩

theorem parseLines_logged (hagain : CallLogs gethostbyname csv again) (start : ℤ) {lines : List Str}
    (hlines : lines ⊆ readLines csv) (h : Logged gethostbyname csv disk first l w out kept) :
    ∃ out', Appends disk (parseLines gethostbyname again start lines l w).1.disk (out'.map Answer.entry) ∧
      Answers gethostbyname csv first (parseLines gethostbyname again start lines l w).1.asked out' := by
  have hout : ∀ {l : Locals} {w : World} {out kept : List Answer}, Logged gethostbyname csv disk first l w out kept →
      ∃ out', Appends disk w.disk (out'.map Answer.entry) ∧ Answers gethostbyname csv first w.asked out' :=
    fun h => ⟨_, h.appends, h.answers.of_subperm (List.sublist_append_left _ _).subperm⟩
  induction lines generalizing l w out kept with
  | nil => exact hout h
  | cons line lines ih =>
    obtain ⟨hline, hlines⟩ := List.cons_subset.mp hlines
    rw [parseLines]
    cases hcsv : csvLine line with
    | none => exact hout h
    | some p =>
      obtain ⟨num, domain⟩ := p
      by_cases hle : num ≤ start
      · simp only [hle, if_true]
        exact ih hlines h
      · obtain ⟨out', kept', hturn⟩ := h.parseLine hagain start num ⟨line, hline, num, hcsv⟩
        simp only [hle, if_false]
        generalize Parse.parseLine gethostbyname again start num domain l w = turn at hturn
        obtain ⟨l', w', exit⟩ := turn
        rcases hturn with hlogged | ⟨hexit, hraised⟩
        · cases exit with
          | ok => exact ih hlines hlogged
          | raised => exact hout hlogged
        · cases hexit
          exact ⟨out', hraised⟩

end Loop

/-! ### The import -/

/-- **What an import writes is what it was told.** -/
theorem parseStart_logged (gethostbyname : ℕ → Str → Option Str) (csv : Str) (depth : ℕ) :
    CallLogs gethostbyname csv (parseStart gethostbyname csv depth) := by
  induction depth with
  | zero => exact fun _ w => ⟨[], Appends.refl w.disk, Answers.nil (le_refl _)⟩
  | succ depth ih =>
    intro start w
    have hinit : Logged gethostbyname csv w.disk w.asked Locals.init w [] [] :=
      ⟨rfl, Appends.refl w.disk, Answers.nil (le_refl w.asked)⟩
    exact parseLines_logged ih start (List.Subset.refl _) hinit

theorem main_logged (gethostbyname : ℕ → Str → Option Str) (csv : Str) (depth : ℕ) (disk : Disk) :
    ∃ out, Appends disk (main gethostbyname csv depth disk).1.disk (out.map Answer.entry) ∧
      Answers gethostbyname csv 0 (main gethostbyname csv depth disk).1.asked out := by
  unfold main
  cases numbers csv with
  | none => exact ⟨[], Appends.refl disk, Answers.nil (le_refl 0)⟩
  | some r => exact parseStart_logged gethostbyname csv depth (resume r disk + 1) ⟨disk, 0, []⟩

end DsDns.Parse
