/-
  Which rank owns which record.

  `States.placed n r` is a node that counts `n` nodes and has the rank `r` among them. The shards of the
  ranks are a balanced partition of the letters (`shards_balanced`), and no rank owns anything else. Record
  files are named after digits, too, so a record is served by one rank exactly if its file is named after a
  letter (`served_once_iff`).
-/
import DsDns.DataPlane.Equiv.Reader
import DsDns.DataPlane.Equiv.Shard
import DsDns.DataPlane.Equiv.State

namespace DsDns

namespace States

/-- The node in a cluster of `n`, with the rank `r`. -/
def placed (s : States) (n r : ℕ) : States := { s with nodeCount := n, rank := r, lastRank := n }

/-! ### Letters -/

/-- One node owns the letters that the general formula gives it. -/
theorem recordSet_one : recordSet 1 1 1 = shardLetters 1 1 := by decide

theorem selfRecords_placed (s : States) {n r : ℕ} (hr : r < n) :
    (s.placed n (r + 1)).updateRecordSet.selfRecords = shardLetters (r + 1) n := by
  obtain ⟨p, hp⟩ := (s.placed n (r + 1)).updateRecordSet_eq
  rw [hp]
  show recordSet n ((r + 1 : ℕ) : ℤ) n = _
  push_cast
  by_cases hone : n = 1
  · subst hone
    obtain rfl : r = 0 := by omega
    exact recordSet_one
  · unfold recordSet
    rw [if_neg hone, if_neg (by omega)]

/-- **The shard arithmetic is a balanced partition**, and the branch for one node agrees with it. -/
theorem shards_balanced (s : States) {n : ℕ} (hn : 1 ≤ n) :
    IsBalancedPartition (fun r => (s.placed n (r + 1)).updateRecordSet.selfRecords) n (letters alphabet) ∧
      (s.placed 1 1).updateRecordSet.selfRecords = shardLetters 1 1 := by
  constructor
  · exact (isBalancedPartition_shardLetters hn).congr fun r hr => s.selfRecords_placed hr
  · exact s.selfRecords_placed Nat.zero_lt_one

/-- Thirty nodes, so that four of them own nothing. -/
theorem shards_balanced_thirty :
    IsBalancedPartition (fun r => ((init "10.0.0.1".toList []).placed 30 (r + 1)).updateRecordSet.selfRecords)
        30 (letters alphabet) ∧
      ((init "10.0.0.1".toList []).placed 1 1).updateRecordSet.selfRecords = shardLetters 1 1 :=
  shards_balanced (init "10.0.0.1".toList []) (by decide)

end States

/-! ### Records -/

variable [Unicode]

/-- The names of the record files. -/
def recordHeads : List Str := letters "abcdefghijklmnopqrstuvwxyz0123456789".toList

/-- Exactly one rank has the first character of the domain in its shard, and in whatever order its reader
walks the shard, it gets from the file of the domain what the file says about the key. -/
structure ServedOnce (s : States) (n : ℕ) (disk : Disk) (head : Str) (key : Key) : Prop where
  owner : ∃! r, (1 ≤ r ∧ r ≤ n) ∧ (s.placed n r).updateRecordSet.owns key.1 = true
  loaded : ∀ r, 1 ≤ r → r ≤ n → (s.placed n r).updateRecordSet.owns key.1 = true → ∀ heads,
    (∀ h, h ∈ heads ↔ h ∈ (s.placed n r).updateRecordSet.selfRecords) →
      (loadShards disk heads key).isSome ∧ loadShards disk heads key = loadText (disk.file head) key

theorem owns_iff {s : States} {domain head : Str} (h : shardOf domain = some head) :
    s.owns domain = true ↔ head ∈ s.selfRecords := by
  cases domain with
  | nil => exact absurd h (by simp [shardOf])
  | cons c cs =>
    obtain rfl : lower [c] = head := Option.some.inj h
    unfold States.owns
    exact List.contains_iff_mem

/-- Only letters are owned. -/
theorem mem_alphabet_of_owns {s : States} {n r : ℕ} {domain head : Str} (h : shardOf domain = some head)
    (howns : (s.placed n r).updateRecordSet.owns domain = true) : head ∈ letters alphabet := by
  obtain ⟨p, hp⟩ := (s.placed n r).updateRecordSet_eq
  rw [owns_iff h, hp] at howns
  exact recordSet_subset howns

/-- A letter is owned by exactly one rank. -/
theorem existsUnique_owner (s : States) {n : ℕ} (hn : 1 ≤ n) {domain head : Str}
    (h : shardOf domain = some head) (hletter : head ∈ letters alphabet) :
    ∃! r, (1 ≤ r ∧ r ≤ n) ∧ (s.placed n r).updateRecordSet.owns domain = true := by
  obtain ⟨r, hr, hmem⟩ := exists_shardLetters hn hletter
  refine ⟨r + 1, ⟨by omega, ?_⟩, ?_⟩
  · rw [owns_iff h, s.selfRecords_placed hr]
    exact hmem
  · rintro r' ⟨⟨hpos, hle⟩, howns⟩
    obtain ⟨i, rfl⟩ : ∃ i, r' = i + 1 := ⟨r' - 1, by omega⟩
    rw [owns_iff h, s.selfRecords_placed (show i < n by omega)] at howns
    by_contra hne
    exact shardLetters_disjoint hr (show i < n by omega) (by omega) hmem howns

/-- **A record is served by exactly one rank** if and only if its file is named after a letter. -/
theorem served_once_iff (s : States) {n : ℕ} (hn : 1 ≤ n) {disk : Disk}
    (hdisk : WellSharded disk recordHeads) {head : Str} (hhead : head ∈ recordHeads) {line : Str}
    (hline : line ∈ fileLines (disk.file head)) {key : Key} {value : Str}
    (hrecord : lineRecord line = some (key, value)) :
    ServedOnce s n disk head key ↔ head ∈ letters alphabet := by
  have hbound : (loadText (disk.file head) key).isSome := isSome_loadText hline hrecord
  have hshard : shardOf key.1 = some head :=
    wellSharded_iff.mp hdisk head hhead line hline key value hrecord
  constructor
  · intro h
    obtain ⟨r, ⟨-, howns⟩, -⟩ := h.owner
    exact mem_alphabet_of_owns hshard howns
  · intro hletter
    refine ⟨existsUnique_owner s hn hshard hletter, fun r hpos hle howns heads hheads => ?_⟩
    obtain ⟨i, rfl⟩ : ∃ i, r = i + 1 := ⟨r - 1, by omega⟩
    rw [owns_iff hshard] at howns
    rw [s.selfRecords_placed (show i < n by omega)] at hheads howns
    -- The letters of a shard are among the names of the files.
    have hsub : WellSharded disk heads := by
      intro h hh
      have halphabet : h ∈ letters alphabet := shardLetters_subset (show i < n by omega) ((hheads h).mp hh)
      have hall : letters alphabet ⊆ recordHeads := by decide
      exact hdisk h (hall halphabet)
    have hload := loadShards_apply hsub hshard ((hheads head).mpr howns)
    rw [hload]
    exact ⟨hbound, rfl⟩

omit [Unicode] in
/-- Two record files, one named after a letter and one after a digit. -/
def twoFilesDisk : Disk where
  file s :=
    if s = ['a'] then some "a.com,A,1.1.1.1\n".toList
    else if s = ['1'] then some "1and1.com,A,2.2.2.2\n".toList
    else none
  denied _ := false

omit [Unicode] in
theorem wellSharded_twoFilesDisk : @WellSharded Unicode.ascii twoFilesDisk recordHeads := by
  apply (@wellSharded_iff Unicode.ascii _ _).mpr
  intro head _ line hline k v hrecord
  by_cases ha : head = ['a']
  · subst ha
    rw [key_of_single (show fileLines (twoFilesDisk.file ['a']) = ["a.com,A,1.1.1.1\n".toList] by decide)
      (show lineRecord _ = some (("a.com".toList, ['A']), "1.1.1.1".toList) by decide) hline hrecord]
    decide
  by_cases hone : head = ['1']
  · subst hone
    rw [key_of_single (show fileLines (twoFilesDisk.file ['1']) = ["1and1.com,A,2.2.2.2\n".toList] by decide)
      (show lineRecord _ = some (("1and1.com".toList, ['A']), "2.2.2.2".toList) by decide) hline hrecord]
    decide
  · have hnone : twoFilesDisk.file head = none := (if_neg ha).trans (if_neg hone)
    rw [hnone] at hline
    exact absurd hline (by simp [fileLines])

omit [Unicode] in
/-- The record of `a.com` in a cluster of three. -/
theorem served_once_iff_letter :
    @ServedOnce Unicode.ascii (States.init "10.0.0.1".toList []) 3 twoFilesDisk ['a']
        ("a.com".toList, ['A']) ↔ ['a'] ∈ letters alphabet :=
  @served_once_iff Unicode.ascii _ 3 (by decide) _ wellSharded_twoFilesDisk ['a'] (by decide)
    "a.com,A,1.1.1.1\n".toList (by decide) _ "1.1.1.1".toList (by decide)

omit [Unicode] in
/-- No rank of three owns the record in `1.txt`. -/
theorem not_served_once_digit :
    "1and1.com,A,2.2.2.2\n".toList ∈ fileLines (twoFilesDisk.file ['1']) ∧
      lineRecord "1and1.com,A,2.2.2.2\n".toList =
        some (("1and1.com".toList, ['A']), "2.2.2.2".toList) ∧
      @WellSharded Unicode.ascii twoFilesDisk recordHeads ∧ ['1'] ∈ recordHeads ∧
      ¬ @ServedOnce Unicode.ascii (States.init "10.0.0.1".toList []) 3 twoFilesDisk ['1']
        ("1and1.com".toList, ['A']) := by
  refine ⟨by decide, by decide, wellSharded_twoFilesDisk, by decide, fun h => ?_⟩
  obtain ⟨r, ⟨-, howns⟩, -⟩ := @ServedOnce.owner Unicode.ascii _ _ _ _ _ h
  have hshard : @shardOf Unicode.ascii "1and1.com".toList = some ['1'] := by decide
  have hmem := @mem_alphabet_of_owns Unicode.ascii _ _ _ _ _ hshard howns
  exact absurd hmem (by decide)

end DsDns
