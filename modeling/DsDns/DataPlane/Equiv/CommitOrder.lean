/-
  Commits that are repeated, and commits in another order.

  The rewriting loop of `commitHandler` is `upsert` on the lines of the file, with the domain of a line for
  its key (`fileLines_commitFile`). So committing an update again changes nothing, and two updates of
  different domains give the same lines in either order, which load to the same map (`commits_commute`).
-/
import DsDns.DataPlane.Equiv.Commit
import DsDns.KeyedRows

namespace DsDns

/-! ### The rewriting loop -/

theorem matched_iff {lines : List Str} {d : Str} : Matched lines d ↔ d ∈ lines.map lineDomain := List.mem_map.symm

/-- The text `commitHandler` writes, for an update whose line is found by the same domain. -/
theorem commitFile_eq_upsert (file : Option Str) {d u : Str} (hd : lineDomain (u ++ ['\n']) = d) :
    commitFile file d u = (upsert lineDomain (u ++ ['\n']) (fileLines file)).flatten := by
  subst hd
  rw [commitFile_eq]
  by_cases hm : Matched (fileLines file) (lineDomain (u ++ ['\n']))
  · rw [if_pos hm, upsert_of_mem (matched_iff.mp hm)]
    rfl
  · rw [if_neg hm, upsert_of_not_mem (mt matched_iff.mpr hm), List.flatten_append, List.flatten_singleton]

/-- **The rewriting loop is `upsert`**, unless the update runs into an unterminated line. -/
theorem fileLines_commitFile {file : Option Str} {d u : Str} (hd : lineDomain (u ++ ['\n']) = d) (hun : '\n' ∉ u)
    (hur : '\r' ∉ u) (h : Matched (fileLines file) d ∨ ∀ l ∈ fileLines file, Terminated l) :
    fileLines (some (commitFile file d u)) = upsert lineDomain (u ++ ['\n']) (fileLines file) := by
  obtain ⟨ls, tail, hfile, hls, htail, hr⟩ := exists_fileLines file
  have hlines := commitFile_lines d hfile hls htail hr hun hur
  subst hd
  show readLines _ = _
  rw [hlines]
  by_cases hm : Matched (fileLines file) (lineDomain (u ++ ['\n']))
  · rw [if_pos hm, upsert_of_mem (matched_iff.mp hm)]
    rfl
  · rw [if_neg hm, upsert_of_not_mem (mt matched_iff.mpr hm), hfile]
    -- Every line is terminated, so nothing is left behind the last one.
    have hnil : tail = [] := by
      by_contra hne
      have hmem : tail ∈ fileLines file := by
        rw [hfile, tailLine, if_neg hne]
        exact List.mem_append_right _ List.mem_cons_self
      obtain ⟨body, rfl, -⟩ := h.resolve_left hm tail hmem
      exact htail (by simp)
    subst hnil
    simp [tailLine]

/-- The lines stay terminated. -/
theorem terminated_upsert {u : Str} (hun : '\n' ∉ u) {lines : List Str} (h : ∀ l ∈ lines, Terminated l) :
    ∀ l ∈ upsert lineDomain (u ++ ['\n']) lines, Terminated l := by
  intro l hl
  rcases eq_or_mem_of_mem_upsert hl with rfl | ⟨hmem, -⟩
  · exact ⟨u, rfl, hun⟩
  · exact h l hmem

/-! ### Updates -/

theorem not_mem_row {c : Char} {d t v : Str} (hc : c ≠ ',') (hd : c ∉ d) (ht : c ∉ t) (hv : c ∉ v) :
    c ∉ row d t v := by
  simp [row, hc, hd, ht, hv]

/-- An update `d,t,v` of three trimmed fields. -/
structure IsTriple (d t v : Str) : Prop where
  domain : IsField d
  rtype : IsField t
  value : IsField v

namespace IsTriple

variable {d t v : Str}

theorem strip_eq (h : IsTriple d t v) : strip (row d t v) = row d t v :=
  strip_row_of h.domain.trimmed h.domain.ne_nil h.value.rstrip_eq h.value.ne_nil t

theorem updateRecord_eq (h : IsTriple d t v) : updateRecord (row d t v) = some ((d, t), v) :=
  updateRecord_of_strip h.domain h.rtype h.value h.strip_eq

theorem lineDomain_eq (h : IsTriple d t v) : lineDomain (row d t v ++ ['\n']) = d := by
  rw [lineDomain, strip_append_newline, h.strip_eq,
    split_row_of h.domain.no_comma h.rtype.no_comma h.value.no_comma]
  exact h.domain.trimmed

theorem no_newline (h : IsTriple d t v) : '\n' ∉ row d t v :=
  not_mem_row (by decide) h.domain.no_newline h.rtype.no_newline h.value.no_newline

theorem no_return (h : IsTriple d t v) : '\r' ∉ row d t v :=
  not_mem_row (by decide) h.domain.no_return h.rtype.no_return h.value.no_return

end IsTriple

/-- Committing the update again writes the same text. -/
theorem commitFile_commitFile {file : Option Str} {d t v : Str} (h : IsTriple d t v)
    (hfile : ∀ l ∈ fileLines file, Terminated l) :
    commitFile (some (commitFile file d (row d t v))) d (row d t v) = commitFile file d (row d t v) := by
  rw [commitFile_eq_upsert _ h.lineDomain_eq,
    fileLines_commitFile h.lineDomain_eq h.no_newline h.no_return (Or.inr hfile), upsert_upsert,
    ← commitFile_eq_upsert _ h.lineDomain_eq]

/-- The lines after two commits. -/
theorem fileLines_commitFile_commitFile {file : Option Str} {d₁ t₁ v₁ d₂ t₂ v₂ : Str} (h₁ : IsTriple d₁ t₁ v₁)
    (h₂ : IsTriple d₂ t₂ v₂) (hfile : ∀ l ∈ fileLines file, Terminated l) :
    fileLines (some (commitFile (some (commitFile file d₁ (row d₁ t₁ v₁))) d₂ (row d₂ t₂ v₂))) =
      upsert lineDomain (row d₂ t₂ v₂ ++ ['\n']) (upsert lineDomain (row d₁ t₁ v₁ ++ ['\n']) (fileLines file)) := by
  have hfirst := fileLines_commitFile h₁.lineDomain_eq h₁.no_newline h₁.no_return (Or.inr hfile)
  rw [fileLines_commitFile h₂.lineDomain_eq h₂.no_newline h₂.no_return, hfirst]
  right
  rw [hfirst]
  exact terminated_upsert h₁.no_newline hfile

/-- Lines of different domains bind different keys. -/
theorem boundValue_lineRecord_or {l l' : Str} (h : lineDomain l ≠ lineDomain l') (k : Key) :
    boundValue k (lineRecord l) = none ∨ boundValue k (lineRecord l') = none := by
  have hdomain : ∀ {l : Str}, boundValue k (lineRecord l) ≠ none → lineDomain l = k.1 := by
    intro l hne
    rw [Ne, boundValue_eq_none_iff, not_forall] at hne
    obtain ⟨v, hv⟩ := hne
    exact lineDomain_of_lineRecord (not_not.mp hv)
  by_contra hboth
  obtain ⟨hl, hl'⟩ := not_or.mp hboth
  exact h ((hdomain hl).trans (hdomain hl').symm)

/-- Rows of different domains load to the same map in either order. -/
theorem lastWrite_upsert_comm {l l' : Str} (h : lineDomain l ≠ lineDomain l') (lines : List Str) (k : Key) :
    lastWrite k ((upsert lineDomain l (upsert lineDomain l' lines)).map lineRecord) =
      lastWrite k ((upsert lineDomain l' (upsert lineDomain l lines)).map lineRecord) := by
  rcases upsert_comm_cases h lines with heq | ⟨hl, hl'⟩
  · rw [heq]
  · rw [hl, hl', List.map_append, List.map_append]
    exact lastWrite_swap (boundValue_lineRecord_or (Ne.symm h) k) _

/-! ### Nodes -/

variable [Unicode]

/-- The record files after the commit of an update. -/
theorem commitStep_file {n : Node} {num d t v head : Str} (hlog : n.writer.logs num = some (row d t v))
    (h : IsTriple d t v) (hshard : shardOf d = some head) (s : Str) :
    (n.commitStep num).disk.file s =
      if n.disk.canOpen head = true ∧ s = head then some (commitFile (n.disk.file s) d (row d t v))
      else n.disk.file s := by
  obtain ⟨c, cs, rfl, -⟩ := h.domain.exists_cons
  obtain rfl : lower [c] = head := Option.some.inj hshard
  have hfile := n.commitHandler_file hlog s
  rw [commitTarget_of_updateRecord h.updateRecord_eq rfl] at hfile
  exact hfile

/-- A commit leaves the log and the names that can be opened as they are. -/
theorem commitStep_logs (n : Node) (num : Str) :
    (n.commitStep num).writer = n.writer ∧ ∀ name, (n.commitStep num).disk.canOpen name = n.disk.canOpen name := by
  obtain ⟨-, hwriter, -, hdenied, -⟩ := n.commitHandler_frame num
  refine ⟨hwriter, fun name => ?_⟩
  have hdenied : (n.commitStep num).disk.denied = n.disk.denied := hdenied
  unfold Disk.canOpen
  rw [hdenied]

/-- The record file after the commits of two updates of its shard. -/
theorem commitStep_commitStep_file {n : Node} {num₁ num₂ d₁ t₁ v₁ d₂ t₂ v₂ head : Str}
    (hlog₁ : n.writer.logs num₁ = some (row d₁ t₁ v₁)) (hlog₂ : n.writer.logs num₂ = some (row d₂ t₂ v₂))
    (h₁ : IsTriple d₁ t₁ v₁) (h₂ : IsTriple d₂ t₂ v₂) (hshard₁ : shardOf d₁ = some head)
    (hshard₂ : shardOf d₂ = some head) :
    ((n.commitStep num₁).commitStep num₂).disk.file head =
      if n.disk.canOpen head = true then
        some (commitFile (some (commitFile (n.disk.file head) d₁ (row d₁ t₁ v₁))) d₂ (row d₂ t₂ v₂))
      else n.disk.file head := by
  obtain ⟨hwriter, hopen⟩ := commitStep_logs n num₁
  have hlog : (n.commitStep num₁).writer.logs num₂ = some (row d₂ t₂ v₂) := by rw [hwriter, hlog₂]
  rw [commitStep_file hlog h₂ hshard₂, commitStep_file hlog₁ h₁ hshard₁, hopen]
  by_cases hc : n.disk.canOpen head = true
  · rw [if_pos ⟨hc, rfl⟩, if_pos ⟨hc, rfl⟩, if_pos hc]
  · rw [if_neg fun hboth => hc hboth.1, if_neg fun hboth => hc hboth.1, if_neg hc]

/-- **Commits are idempotent, and commits of different domains commute.** A repeated commit leaves the
record file as it is, to the byte; in either order two commits give a file of the same lines, which loads to
the same map. -/
theorem commits_commute {n : Node} {num₁ num₂ d₁ t₁ v₁ d₂ t₂ v₂ head : Str}
    (hlog₁ : n.writer.logs num₁ = some (row d₁ t₁ v₁)) (hlog₂ : n.writer.logs num₂ = some (row d₂ t₂ v₂))
    (h₁ : IsTriple d₁ t₁ v₁) (h₂ : IsTriple d₂ t₂ v₂) (hshard₁ : shardOf d₁ = some head)
    (hshard₂ : shardOf d₂ = some head) (hne : d₁ ≠ d₂) (hfile : ∀ l ∈ fileLines (n.disk.file head), Terminated l) :
    ((n.commitStep num₁).commitStep num₁).disk.file head = (n.commitStep num₁).disk.file head ∧
    loadText (((n.commitStep num₁).commitStep num₂).disk.file head) =
      loadText (((n.commitStep num₂).commitStep num₁).disk.file head) ∧
    (fileLines (((n.commitStep num₁).commitStep num₂).disk.file head)).Perm
      (fileLines (((n.commitStep num₂).commitStep num₁).disk.file head)) := by
  rw [commitStep_commitStep_file hlog₁ hlog₁ h₁ h₁ hshard₁ hshard₁,
    commitStep_commitStep_file hlog₁ hlog₂ h₁ h₂ hshard₁ hshard₂,
    commitStep_commitStep_file hlog₂ hlog₁ h₂ h₁ hshard₂ hshard₁, commitStep_file hlog₁ h₁ hshard₁]
  by_cases hc : n.disk.canOpen head = true
  · rw [if_pos hc, if_pos hc, if_pos hc, if_pos ⟨hc, rfl⟩]
    have hdomains : lineDomain (row d₂ t₂ v₂ ++ ['\n']) ≠ lineDomain (row d₁ t₁ v₁ ++ ['\n']) := by
      rw [h₁.lineDomain_eq, h₂.lineDomain_eq]
      exact Ne.symm hne
    refine ⟨congrArg some (commitFile_commitFile h₁ hfile), ?_, ?_⟩
    · funext k
      rw [loadText_apply, loadText_apply, fileLines_commitFile_commitFile h₁ h₂ hfile,
        fileLines_commitFile_commitFile h₂ h₁ hfile]
      exact lastWrite_upsert_comm hdomains _ k
    · rw [fileLines_commitFile_commitFile h₁ h₂ hfile, fileLines_commitFile_commitFile h₂ h₁ hfile]
      exact upsert_comm_perm hdomains _
  · rw [if_neg hc, if_neg hc, if_neg hc, if_neg fun hboth => hc hboth.1]
    exact ⟨rfl, rfl, List.Perm.refl _⟩

omit [Unicode] in
/-- Two new domains of one shard, with the lines of `a.txt` all terminated: the first commit takes both lines
of `a.com`. -/
theorem commits_commute_new :
    let text := "# hosts\na.com,A,9.9.9.9\na.com,MX,mail\n".toList
    let n := aboutToCommit text
    let n := { n with writer := n.writer.setLog ['2'] "ab.com,A,2.2.2.2".toList }
    ((@Node.commitStep Unicode.ascii n ['1']).disk.file ['a'] =
        some "# hosts\na.com,A,1.1.1.1\na.com,A,1.1.1.1\n".toList) ∧
      (@Node.commitStep Unicode.ascii (@Node.commitStep Unicode.ascii n ['1']) ['1']).disk.file ['a'] =
        (@Node.commitStep Unicode.ascii n ['1']).disk.file ['a'] ∧
      loadText ((@Node.commitStep Unicode.ascii (@Node.commitStep Unicode.ascii n ['1']) ['2']).disk.file ['a']) =
        loadText ((@Node.commitStep Unicode.ascii (@Node.commitStep Unicode.ascii n ['2']) ['1']).disk.file ['a']) := by
  intro text n n'
  have hfields : IsField "a.com".toList ∧ IsField "ab.com".toList ∧ IsField ['A'] ∧ IsField "1.1.1.1".toList ∧
      IsField "2.2.2.2".toList := by
    refine ⟨?_, ?_, ?_, ?_, ?_⟩ <;> exact ⟨by decide, by decide, by decide, by decide, by decide⟩
  obtain ⟨ha, hab, htype, h1, h2⟩ := hfields
  have hlines : fileLines (n'.disk.file ['a']) =
      ["# hosts\n".toList, "a.com,A,9.9.9.9\n".toList, "a.com,MX,mail\n".toList] := by decide
  have hterminated : ∀ l ∈ fileLines (n'.disk.file ['a']), Terminated l := by
    rw [hlines]
    have hdrop : ∀ l ∈ ["# hosts\n".toList, "a.com,A,9.9.9.9\n".toList, "a.com,MX,mail\n".toList],
        l = l.dropLast ++ ['\n'] ∧ '\n' ∉ l.dropLast := by decide
    exact fun l hl => ⟨l.dropLast, hdrop l hl⟩
  have hcommute := @commits_commute Unicode.ascii n' ['1'] ['2'] _ _ _ _ _ _ ['a'] rfl rfl ⟨ha, htype, h1⟩
    ⟨hab, htype, h2⟩ (by decide) (by decide) (by decide) hterminated
  exact ⟨by decide, hcommute.1, hcommute.2.1⟩

end DsDns
