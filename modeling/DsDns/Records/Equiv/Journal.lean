/-
  What a commit of the import does to the record files.

  The dictionary `records` holds the lines of a batch by their heads (`grouped`), and `commit` appends them
  to the files of these heads. Seen file by file, it appends the batch itself (`commit_appends`), or a part
  of it if a file cannot be opened (`journal`).
-/
import DsDns.BatchedScan
import DsDns.Records.Parse
import DsDns.Text.Equiv.Basic
import Mathlib.Data.List.TakeWhile

namespace DsDns.Parse

/-- A line of a record file, with the head of its domain. -/
abbrev Entry := Char × Str

/-! ### The files -/

/-- The lines with the head `c`. -/
def texts (c : Char) (es : List Entry) : List Str := (es.filter fun e => e.1 = c).map Prod.snd

theorem texts_append (c : Char) (es es' : List Entry) : texts c (es ++ es') = texts c es ++ texts c es' := by
  rw [texts, List.filter_append, List.map_append]
  rfl

theorem texts_singleton (c : Char) (e : Entry) : texts c [e] = if e.1 = c then [e.2] else [] := by
  by_cases h : e.1 = c <;> simp [texts, h]

theorem texts_filter (c : Char) (p : Char → Bool) (es : List Entry) :
    texts c (es.filter fun e => p e.1) = if p c = true then texts c es else [] := by
  rw [texts, List.filter_filter]
  split
  · rename_i hp
    refine congrArg (List.map Prod.snd) (List.filter_congr fun e _ => ?_)
    by_cases hc : e.1 = c
    · rw [hc, hp, Bool.and_true]
    · rw [decide_eq_false hc, Bool.false_and]
  · rename_i hp
    rw [List.filter_eq_nil_iff.mpr, List.map_nil]
    intro e _ he
    obtain ⟨hc, he⟩ := (Bool.and_eq_true _ _).mp he
    exact hp (of_decide_eq_true hc ▸ he)

/-- The lines of a head are counted like the entries. -/
theorem count_texts (c : Char) (t : Str) (es : List Entry) : (texts c es).count t = es.count (c, t) := by
  induction es with
  | nil => rfl
  | cons e es ih =>
    obtain ⟨c', t'⟩ := e
    rw [← List.singleton_append, texts_append, List.count_append, List.count_append, ih, texts_singleton]
    by_cases hc : c' = c
    · subst hc
      simp [List.count_singleton]
    · simp [hc]

/-- Two lists of entries are the same up to their order if they are so for every head. -/
theorem perm_iff_texts {es es' : List Entry} : es.Perm es' ↔ ∀ c, (texts c es).Perm (texts c es') := by
  constructor
  · exact fun h c => (h.filter _).map _
  · intro h
    rw [List.perm_iff_count]
    rintro ⟨c, t⟩
    rw [← count_texts, ← count_texts]
    exact (h c).count_eq t

/-- The entries are appended to the files of their heads. -/
structure Appends (disk disk' : Disk) (es : List Entry) : Prop where
  denied : disk'.denied = disk.denied
  file : ∀ c, (disk'.file [c]).getD [] = (disk.file [c]).getD [] ++ (texts c es).flatten

namespace Appends

variable {disk disk' disk'' : Disk} {es es' : List Entry}

theorem refl (disk : Disk) : Appends disk disk [] := ⟨rfl, fun _ => (List.append_nil _).symm⟩

theorem trans (h : Appends disk disk' es) (h' : Appends disk' disk'' es') : Appends disk disk'' (es ++ es') where
  denied := h'.denied.trans h.denied
  file c := by rw [h'.file, h.file, texts_append, List.flatten_append, List.append_assoc]

theorem canOpen (h : Appends disk disk' es) (name : Str) : disk'.canOpen name = disk.canOpen name := by
  unfold Disk.canOpen
  rw [h.denied]

end Appends

/-! ### Batches -/

/-- The dictionary of a batch. -/
def grouped (es : List Entry) : OrderedDict Char (List Str) :=
  es.foldl (fun records e => records.set e.1 ((records.get? e.1).getD [] ++ [e.2])) .empty

theorem grouped_concat (es : List Entry) (e : Entry) :
    grouped (es ++ [e]) = (grouped es).set e.1 (((grouped es).get? e.1).getD [] ++ [e.2]) := by
  rw [grouped, List.foldl_append]
  rfl

theorem get?_grouped (es : List Entry) (c : Char) : ((grouped es).get? c).getD [] = texts c es := by
  induction es using List.reverseRecOn with
  | nil => rfl
  | append_singleton es e ih =>
    rw [grouped_concat, OrderedDict.get?_set, texts_append, texts_singleton]
    by_cases hc : e.1 = c
    · rw [if_pos hc, if_pos hc, hc, ih]
      rfl
    · rw [if_neg hc, if_neg hc, ih, List.append_nil]

theorem mem_keys_grouped {es : List Entry} {c : Char} : c ∈ (grouped es).keys ↔ c ∈ es.map Prod.fst := by
  induction es using List.reverseRecOn with
  | nil => exact Iff.rfl
  | append_singleton es e ih =>
    rw [grouped_concat, OrderedDict.mem_keys_set, ih, List.map_append, List.mem_append, List.map_singleton,
      List.mem_singleton, or_comm]

/-- The commit of a batch, seen file by file: what it appends, and whether it goes through. -/
def journal (can : Str → Bool) (es : List Entry) : List Entry × Bool :=
  if can "last".toList then
    -- The heads up to the first one whose file cannot be opened.
    let opened := (grouped es).keys.takeWhile fun c => can [c]
    (es.filter fun e => opened.contains e.1, es.all fun e => can [e.1])
  else ([], false)

theorem journal_sublist (can : Str → Bool) (es : List Entry) : (journal can es).1.Sublist es := by
  unfold journal
  split
  · exact List.filter_sublist
  · exact List.nil_sublist es

theorem isCommit_journal (can : Str → Bool) : IsCommit (journal can) where
  subset es := (journal_sublist can es).subset
  eq_of_ok {es} hok := by
    unfold journal at hok ⊢
    split at hok
    · rename_i hlast
      rw [if_pos hlast]
      have hopen : ∀ c ∈ (grouped es).keys, can [c] = true := by
        intro c hc
        obtain ⟨e, he, rfl⟩ := List.mem_map.mp (mem_keys_grouped.mp hc)
        exact List.all_eq_true.mp hok e he
      dsimp only
      rw [List.takeWhile_eq_self_iff.mpr hopen]
      refine List.filter_eq_self.mpr fun e he => ?_
      rw [List.contains_iff_mem]
      exact mem_keys_grouped.mpr (List.mem_map_of_mem he)
    · exact absurd hok Bool.false_ne_true
  mono {es es'} hsub hok := by
    unfold journal at hok ⊢
    split at hok
    · rename_i hlast
      rw [if_pos hlast]
      exact List.all_eq_true.mpr fun e he => List.all_eq_true.mp hok e (hsub he)
    · exact absurd hok Bool.false_ne_true

/-- The loop of `commit` on one file. -/
theorem commitHeads_spec (disk : Disk) (heads : List (Char × List Str)) (hnodup : (heads.map Prod.fst).Nodup) :
    (commitHeads disk heads).1.denied = disk.denied ∧
    (∀ c, ((commitHeads disk heads).1.file [c]).getD [] = (disk.file [c]).getD [] ++
      if c ∈ (heads.map Prod.fst).takeWhile (fun c => disk.canOpen [c]) then
        ((OrderedDict.lookup c heads).getD []).flatten
      else []) ∧
    ((commitHeads disk heads).2 = .ok ↔ ∀ c ∈ heads.map Prod.fst, disk.canOpen [c] = true) := by
  induction heads generalizing disk with
  | nil => exact ⟨rfl, fun c => (List.append_nil _).symm, by simp [commitHeads]⟩
  | cons head heads ih =>
    obtain ⟨c₀, record⟩ := head
    rw [List.map_cons, List.nodup_cons] at hnodup
    obtain ⟨hnew, hnodup⟩ := hnodup
    obtain ⟨hdenied, hfile, hok⟩ := ih (append disk [c₀] record) hnodup
    have hcan : (append disk [c₀] record).canOpen = disk.canOpen := rfl
    rw [hcan] at hfile hok
    rw [commitHeads]
    by_cases hopen : disk.canOpen [c₀] = true
    · rw [if_pos hopen]
      refine ⟨hdenied, fun c => ?_, ?_⟩
      · rw [hfile, List.map_cons, List.takeWhile_cons_of_pos (by exact hopen), OrderedDict.lookup]
        by_cases hc : c₀ = c
        · subst hc
          have hnot : c₀ ∉ (heads.map Prod.fst).takeWhile fun c => disk.canOpen [c] :=
            fun h => hnew ((List.takeWhile_sublist _).subset h)
          rw [if_neg hnot, if_pos List.mem_cons_self, if_pos rfl, List.append_nil]
          simp [append, Disk.write]
        · have hmem : c ∈ c₀ :: (heads.map Prod.fst).takeWhile (fun c => disk.canOpen [c]) ↔
              c ∈ (heads.map Prod.fst).takeWhile fun c => disk.canOpen [c] := by
            rw [List.mem_cons, or_iff_right (Ne.symm hc)]
          simp [append, Disk.write, hmem, hc, Ne.symm hc]
      · rw [hok, List.map_cons, List.forall_mem_cons, and_iff_right hopen]
    · rw [if_neg hopen]
      refine ⟨rfl, fun c => ?_, ?_⟩
      · rw [List.map_cons, List.takeWhile_cons_of_neg (by exact hopen), if_neg List.not_mem_nil, List.append_nil]
      · refine iff_of_false (by simp) fun h => hopen (h c₀ List.mem_cons_self)

/-- **A commit appends its batch.** -/
theorem commit_appends (disk : Disk) (es : List Entry) (num : ℤ) :
    Appends disk (commit disk (grouped es) num).1 (journal disk.canOpen es).1 ∧
      ((commit disk (grouped es) num).2 = .ok ↔ (journal disk.canOpen es).2 = true) := by
  unfold commit journal
  by_cases hlast : disk.canOpen "last".toList = true
  · rw [if_pos hlast, if_pos hlast]
    obtain ⟨hdenied, hfile, hok⟩ :=
      commitHeads_spec (disk.write "last".toList (intStr num)) (grouped es).entries (grouped es).nodupKeys
    have hcan : (disk.write "last".toList (intStr num)).canOpen = disk.canOpen := rfl
    rw [hcan] at hfile hok
    refine ⟨⟨hdenied, fun c => ?_⟩, ?_⟩
    · have hold : (disk.write "last".toList (intStr num)).file [c] = disk.file [c] := if_neg (by simp)
      rw [hfile, hold]
      congr 1
      have hlookup : (OrderedDict.lookup c (grouped es).entries).getD [] = texts c es := get?_grouped es c
      dsimp only
      rw [hlookup, texts_filter c fun c => ((grouped es).keys.takeWhile fun c => disk.canOpen [c]).contains c]
      simp only [List.contains_iff_mem]
      exact (apply_ite List.flatten _ _ []).symm
    · rw [hok, List.all_eq_true]
      constructor
      · exact fun h e he => h e.1 (mem_keys_grouped.mpr (List.mem_map_of_mem he))
      · intro h c hc
        obtain ⟨e, he, rfl⟩ := List.mem_map.mp (mem_keys_grouped.mp hc)
        exact h e he
  · rw [if_neg hlast, if_neg hlast]
    exact ⟨Appends.refl disk, by simp⟩

end DsDns.Parse
