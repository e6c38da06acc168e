/-
  What `Reader.__init__` loads: a record file is a sequence of writes to a keyed store.

  Every line of a file binds a key or nothing (`lineRecord`), so the map of one file is `lastWrite`
  over its lines (`loadText_apply`). Across the files of the owned shards the result does not depend
  on the order in which the set of letters is walked, as long as every record stands in the file of
  its first letter (`WellSharded`, `loadShards_apply`).
-/
import DsDns.DataPlane.Reader
import DsDns.KeyedStore
import DsDns.Text.Equiv.Basic

namespace DsDns

/-- The lines of a record file; a missing file has none. -/
def fileLines (file : Option Str) : List Str :=
  match file with
  | none => []
  | some text => readLines text

/-- A missing file is read like an empty one. -/
theorem fileLines_eq (file : Option Str) : fileLines file = readLines (file.getD []) := by
  cases file with
  | none => rfl
  | some text => rfl

/-- The map `Reader.__init__` builds from one record file. -/
def loadText (file : Option Str) : Records :=
  match file with
  | none => fun _ => none
  | some text => loadFile (fun _ => none) text

theorem loadLine_eq (records : Records) (line : Str) :
    loadLine records line = put records (lineRecord line) := by
  unfold loadLine
  cases lineRecord line with
  | none => rfl
  | some w => rfl

theorem loadFile_apply (records : Records) (text : Str) (k : Key) :
    loadFile records text k = (loadText (some text) k).or (records k) := by
  have hfold : ∀ r : Records, loadFile r text = ((readLines text).map lineRecord).foldl put r := by
    intro r
    rw [loadFile, List.foldl_map]
    exact congrArg (fun f => List.foldl f r (readLines text))
      (funext fun r => funext fun l => loadLine_eq r l)
  rw [loadText, hfold, hfold, foldl_put_apply, foldl_put_apply, Option.or_none]

/-- **The map of a file**: the last line that binds a key decides. -/
theorem loadText_apply (file : Option Str) (k : Key) :
    loadText file k = lastWrite k ((fileLines file).map lineRecord) := by
  cases file with
  | none => rfl
  | some text =>
    have hfold : loadFile (fun _ => none) text =
        ((readLines text).map lineRecord).foldl put (fun _ => none) := by
      rw [loadFile, List.foldl_map]
      exact congrArg (fun f => List.foldl f _ (readLines text))
        (funext fun r => funext fun l => loadLine_eq r l)
    rw [loadText, hfold, foldl_put_apply, Option.or_none]
    rfl

/-- A key some line of the file binds has a value. -/
theorem isSome_loadText {file : Option Str} {line : Str} (hline : line ∈ fileLines file) {k : Key}
    {v : Str} (hrec : lineRecord line = some (k, v)) : (loadText file k).isSome := by
  rw [loadText_apply]
  cases hl : lastWrite k ((fileLines file).map lineRecord) with
  | some _ => rfl
  | none => exact absurd (hrec ▸ List.mem_map_of_mem hline) (lastWrite_eq_none_iff.mp hl v)

/-! ### The owned shards together -/

theorem loadShard_apply (disk : Disk) (records : Records) (head : Str) (k : Key) :
    loadShard disk records head k = (loadText (disk.file head) k).or (records k) := by
  unfold loadShard
  cases disk.file head with
  | none => rfl
  | some text => exact loadFile_apply records text k

/-- A key some line of some loaded file binds has a value. -/
theorem isSome_loadShards {disk : Disk} {heads : List Str} {head : Str} (hmem : head ∈ heads)
    {line : Str} (hline : line ∈ fileLines (disk.file head)) {k : Key} {v : Str}
    (hrec : lineRecord line = some (k, v)) : (loadShards disk heads k).isSome := by
  -- Once bound, the key stays bound.
  have hloop : ∀ (hs : List Str) (r : Records), (r k).isSome ∨ head ∈ hs →
      (hs.foldl (loadShard disk) r k).isSome := by
    intro hs
    induction hs with
    | nil =>
      rintro r (h | h)
      · exact h
      · exact absurd h (by simp)
    | cons h hs ih =>
      intro r hor
      refine ih _ ?_
      rw [loadShard_apply]
      by_cases hh : head = h
      · subst hh
        left
        rw [Option.isSome_or, isSome_loadText hline hrec, Bool.true_or]
      · rcases hor with hr | hr
        · left
          rw [Option.isSome_or, hr, Bool.or_true]
        · exact Or.inr ((List.mem_cons.mp hr).resolve_left hh)
  exact hloop heads _ (Or.inr hmem)

variable [Unicode]

/-- The name of the file a domain belongs to. -/
def shardOf (domain : Str) : Option Str :=
  match domain with
  | [] => none
  | c :: _ => some (lower [c])

/-- The files of the shards `heads` hold records of their own domains only. -/
def WellSharded (disk : Disk) (heads : List Str) : Prop :=
  ∀ head ∈ heads, ∀ k v, loadText (disk.file head) k = some v → shardOf k.1 = some head

omit [Unicode] in
/-- A key that a file binds stands in one of its lines. -/
theorem exists_line_of_loadText {file : Option Str} {k : Key} {v : Str} (h : loadText file k = some v) :
    ∃ line ∈ fileLines file, lineRecord line = some (k, v) := by
  rw [loadText_apply] at h
  exact List.mem_map.mp (mem_of_lastWrite_eq_some h)

omit [Unicode] in
/-- A file of one line binds one key. -/
theorem key_of_single {file : Option Str} {only line : Str} {k₀ k : Key} {v₀ v : Str}
    (hfile : fileLines file = [only]) (honly : lineRecord only = some (k₀, v₀))
    (hline : line ∈ fileLines file) (hrecord : lineRecord line = some (k, v)) : k = k₀ := by
  rw [hfile, List.mem_singleton] at hline
  rw [hline, honly] at hrecord
  cases hrecord
  rfl

/-- Files are well sharded if every record stands in the file of its domain. -/
theorem wellSharded_iff {disk : Disk} {heads : List Str} : WellSharded disk heads ↔
    ∀ head ∈ heads, ∀ line ∈ fileLines (disk.file head), ∀ k v,
      lineRecord line = some (k, v) → shardOf k.1 = some head := by
  constructor
  · intro h head hmem line hline k v hrecord
    obtain ⟨w, hw⟩ := Option.isSome_iff_exists.mp (isSome_loadText hline hrecord)
    exact h head hmem k w hw
  · intro h head hmem k v hv
    obtain ⟨line, hline, hrecord⟩ := exists_line_of_loadText hv
    exact h head hmem line hline k v hrecord

/-- A well-sharded file binds no key of another shard. -/
theorem loadText_eq_none {disk : Disk} {heads : List Str} (h : WellSharded disk heads) {head : Str}
    (hmem : head ∈ heads) {k : Key} (hk : shardOf k.1 ≠ some head) :
    loadText (disk.file head) k = none := by
  cases hl : loadText (disk.file head) k with
  | none => rfl
  | some v => exact absurd (h head hmem k v hl) hk

/-- **Loading does not depend on the order of the letters**: a key has the value its own file gives
it. -/
theorem loadShards_apply {disk : Disk} {heads : List Str} (hws : WellSharded disk heads) {k : Key}
    {head : Str} (hk : shardOf k.1 = some head) (hmem : head ∈ heads) :
    loadShards disk heads k = loadText (disk.file head) k := by
  -- The loop over the letters, from any map: the own file counts once it has been seen.
  have hloop : ∀ (hs : List Str) (r : Records), hs ⊆ heads → hs.foldl (loadShard disk) r k =
      if head ∈ hs then (loadText (disk.file head) k).or (r k) else r k := by
    intro hs
    induction hs with
    | nil => intro r _; rfl
    | cons h hs ih =>
      intro r hsub
      rw [List.foldl_cons, ih _ fun x hx => hsub (List.mem_cons_of_mem _ hx), loadShard_apply]
      by_cases hh : head = h
      · subst hh
        rw [if_pos List.mem_cons_self]
        split
        · rw [← Option.or_assoc, Option.or_self]
        · rfl
      · have hnone : loadText (disk.file h) k = none :=
          loadText_eq_none hws (hsub List.mem_cons_self) fun e =>
            hh (Option.some.inj (hk.symm.trans e))
        rw [hnone, Option.none_or]
        simp only [List.mem_cons, hh, false_or]
  rw [loadShards, hloop heads _ fun _ h => h, if_pos hmem, Option.or_none]

/-- The lines of the files of the owned letters, in the order in which they are read. -/
def loadedLines (disk : Disk) (heads : List Str) : List Str :=
  (heads.map fun head => fileLines (disk.file head)).flatten

omit [Unicode] in
/-- **The whole load is one sequence of writes.** -/
theorem loadShards_eq (disk : Disk) (heads : List Str) (k : Key) :
    loadShards disk heads k = lastWrite k ((loadedLines disk heads).map lineRecord) := by
  have hloop : ∀ (hs : List Str) (r : Records), hs.foldl (loadShard disk) r k =
      (lastWrite k ((loadedLines disk hs).map lineRecord)).or (r k) := by
    intro hs
    induction hs with
    | nil => exact fun r => rfl
    | cons h hs ih =>
      intro r
      have hlines : loadedLines disk (h :: hs) = fileLines (disk.file h) ++ loadedLines disk hs := rfl
      rw [List.foldl_cons, ih, loadShard_apply, loadText_apply, hlines, List.map_append,
        lastWrite_append, Option.or_assoc]
  rw [loadShards, hloop, Option.or_none]

/-- A key of another shard is not loaded. -/
theorem loadShards_eq_none {disk : Disk} {heads : List Str} (h : WellSharded disk heads) {k : Key}
    (hk : ∀ head ∈ heads, shardOf k.1 ≠ some head) : loadShards disk heads k = none := by
  rw [loadShards_eq, lastWrite_eq_none_iff]
  intro v hv
  obtain ⟨line, hline, hrecord⟩ := List.mem_map.mp hv
  obtain ⟨lines, hlines, hline⟩ := List.mem_flatten.mp hline
  obtain ⟨head, hhead, rfl⟩ := List.mem_map.mp hlines
  exact hk head hhead (wellSharded_iff.mp h head hhead line hline k v hrecord)

end DsDns
