/-
  When a record file stays what the node holds in memory.

  `commitHandler` rewrites a file line by line and finds the lines of a record by their domain alone,
  while the map `Reader.__init__` builds from the file is keyed by domain and type. `commitFile_lines`
  gives the lines of the rewritten file. From it `loadText_commitFile_iff` decides when the rewrite
  is the keyed update `put`: the file has no record of the domain under another type, and an appended
  line does not run into an unterminated last line. `commits_reload` carries this over any sequence
  of commits: what a restarted reader loads is what the node held in memory.
-/
import DsDns.DataPlane.Equiv.Reader
import DsDns.DataPlane.Equiv.Writer
import DsDns.DataPlane.Server
import DsDns.Transition

namespace DsDns

/-! ### Lines and rows -/

/-- The text of an update with three fields. -/
def row (d t v : Str) : Str := d ++ ',' :: (t ++ ',' :: v)

/-- A field of an update: trimmed, not empty, and without the characters that end a field. -/
structure IsField (f : Str) : Prop where
  ne_nil : f ≠ []
  trimmed : strip f = f
  no_comma : ',' ∉ f
  no_newline : '\n' ∉ f
  no_return : '\r' ∉ f

/-- An update whose line is a record: three fields, and no comment. -/
structure IsRow (d t v : Str) : Prop where
  domain : IsField d
  rtype : IsField t
  value : IsField v
  not_comment : startsWith d ['#'] = false

theorem IsField.exists_cons {f : Str} (h : IsField f) : ∃ c cs, f = c :: cs ∧ isSpace c = false := by
  obtain ⟨c, cs, rfl⟩ := List.exists_cons_of_ne_nil h.ne_nil
  exact ⟨c, cs, rfl, not_space_of_strip_eq_cons h.trimmed⟩

theorem IsField.rstrip_eq {f : Str} (h : IsField f) : rstrip f = f := by
  rw [← h.trimmed, rstrip_strip]

/-- A row ends where its value ends. -/
theorem rstrip_row_of {v : Str} (hv : rstrip v = v) (hne : v ≠ []) (a d t : Str) :
    rstrip (a ++ row d t v) = a ++ row d t v := by
  have hrow : a ++ row d t v = (a ++ d ++ ',' :: t ++ [',']) ++ v := by simp [row]
  rw [hrow, rstrip_append_of_ne_nil (by rw [hv]; exact hne), hv]

/-- A row of a trimmed domain and a trimmed value is trimmed. -/
theorem strip_row_of {d v : Str} (hd : strip d = d) (hdne : d ≠ []) (hv : rstrip v = v)
    (hvne : v ≠ []) (t : Str) : strip (row d t v) = row d t v := by
  obtain ⟨c, cs, rfl⟩ := List.exists_cons_of_ne_nil hdne
  have hrow := rstrip_row_of hv hvne [] (c :: cs) t
  rw [List.nil_append] at hrow
  unfold strip
  rw [show row (c :: cs) t v = c :: (cs ++ ',' :: (t ++ ',' :: v)) from rfl] at hrow ⊢
  rw [lstrip_cons_of_not_space (not_space_of_strip_eq_cons hd), hrow]

theorem split_row_of {d t v : Str} (hd : ',' ∉ d) (ht : ',' ∉ t) (hv : ',' ∉ v) :
    split ',' (row d t v) = [d, t, v] := by
  rw [row, split_append_sep hd, split_append_sep ht, split_of_not_mem hv]

theorem rstrip_row {d t v : Str} (h : IsRow d t v) (a : Str) :
    rstrip (a ++ row d t v) = a ++ row d t v :=
  rstrip_row_of h.value.rstrip_eq h.value.ne_nil a d t

theorem strip_row {d t v : Str} (h : IsRow d t v) : strip (row d t v) = row d t v :=
  strip_row_of h.domain.trimmed h.domain.ne_nil h.value.rstrip_eq h.value.ne_nil t

/-- A text that reads as three fields binds the first two to the third. -/
theorem updateRecord_of_strip {d t v line : Str} (hd : IsField d) (ht : IsField t) (hv : IsField v)
    (h : strip line = row d t v) : updateRecord line = some ((d, t), v) := by
  rw [updateRecord, h, split_row_of hd.no_comma ht.no_comma hv.no_comma]
  show some ((strip d, strip t), strip v) = _
  rw [hd.trimmed, ht.trimmed, hv.trimmed]

theorem updateRecord_row {d t v : Str} (h : IsRow d t v) :
    updateRecord (row d t v) = some ((d, t), v) :=
  updateRecord_of_strip h.domain h.rtype h.value (strip_row h)

/-- A line that is neither blank nor a comment is read like an update. -/
theorem lineRecord_eq (line : Str) : lineRecord line =
    if strip line = [] ∨ startsWith (strip line) ['#'] then none else updateRecord line := rfl

theorem lineRecord_row {d t v : Str} (h : IsRow d t v) :
    lineRecord (row d t v ++ ['\n']) = some ((d, t), v) := by
  have hrec : updateRecord (row d t v ++ ['\n']) = some ((d, t), v) := by
    rw [← updateRecord_row h, updateRecord, updateRecord, strip_append_newline]
  obtain ⟨c, cs, rfl, -⟩ := h.domain.exists_cons
  have hno : startsWith (row (c :: cs) t v) ['#'] = false := by
    have := h.not_comment
    simpa [startsWith, row, List.isPrefixOf] using this
  rw [lineRecord_eq, strip_append_newline, strip_row h, if_neg, hrec]
  rintro (he | he)
  · exact absurd he (by simp [row])
  · rw [hno] at he
    exact absurd he (by decide)

/-- A record line is matched by the domain of its key. -/
theorem lineDomain_of_lineRecord {line : Str} {key : Key} {v : Str}
    (h : lineRecord line = some (key, v)) : lineDomain line = key.1 := by
  rw [lineRecord_eq] at h
  split at h
  · exact absurd h (by simp)
  · rw [updateRecord] at h
    split at h
    · rename_i hsplit
      cases h
      rw [lineDomain, hsplit]
      rfl
    · exact absurd h (by simp)

/-! ### An unterminated last line -/

/-- An update that can be committed has at least three fields. -/
theorem two_le_count_of_commitTarget {u : Str} {p : Char × Key × Str}
    (h : commitTarget u = some p) : 2 ≤ u.count ',' := by
  have hlen := length_split ',' (strip u)
  rw [count_strip (by decide)] at hlen
  unfold commitTarget at h
  split at h
  · rename_i domain rtype ip rest hsplit
    rw [hsplit] at hlen
    simp only [List.length_cons] at hlen
    omega
  · exact absurd h (by simp)

/-- An update that runs into an unterminated line which already has a comma makes no record. -/
theorem lineRecord_merged_of_comma {tail u : Str} (hu : 2 ≤ u.count ',') (hc : ',' ∈ tail) :
    lineRecord (tail ++ u ++ ['\n']) = none := by
  rw [lineRecord_eq, strip_append_newline]
  split
  · rfl
  · unfold updateRecord
    split
    · rename_i dom t ip hsplit
      have hlen := length_split ',' (strip (tail ++ u ++ ['\n']))
      rw [hsplit, strip_append_newline, count_strip (by decide), List.count_append] at hlen
      have := List.count_pos_iff.mpr hc
      simp only [List.length_cons, List.length_nil] at hlen
      omega
    · rfl

/-- Whatever an update makes with the text it runs into, it is no record of its own domain. -/
theorem lineRecord_merged_ne {d t v tail : Str} (h : IsRow d t v) (ht : strip tail ≠ [])
    {key : Key} {v' : Str} (hrec : lineRecord (tail ++ row d t v ++ ['\n']) = some (key, v')) :
    key.1 ≠ d := by
  have hcount : 2 ≤ (row d t v).count ',' := by
    simp only [row, List.count_append, List.count_cons_self]
    omega
  by_cases hc : ',' ∈ tail
  · rw [lineRecord_merged_of_comma hcount hc] at hrec
    exact absurd hrec (by simp)
  -- The text is glued to the domain, which gets longer.
  rcases eq_spaces_or_split tail with hs | ⟨a, c, b, rfl, ha, hsp⟩
  · exact absurd (strip_of_spaces hs) ht
  have hstrip : strip (a ++ c :: b ++ row d t v ++ ['\n']) =
      (c :: (b ++ d)) ++ ',' :: (t ++ ',' :: v) := by
    rw [strip_append_newline, List.append_assoc, strip_append_of_spaces ha, List.cons_append,
      strip_cons_of_not_space hsp, rstrip_row h]
    simp [row]
  have hnc : ',' ∉ c :: (b ++ d) := by
    simp only [List.mem_append, List.mem_cons, not_or] at hc ⊢
    exact ⟨hc.2.1, hc.2.2, h.domain.no_comma⟩
  have hdom : lineDomain (a ++ c :: b ++ row d t v ++ ['\n']) = c :: (b ++ d) := by
    rw [lineDomain, hstrip, split_append_sep hnc, List.headD_cons, strip_cons_of_not_space hsp,
      rstrip_append_of_ne_nil, h.domain.rstrip_eq]
    rw [h.domain.rstrip_eq]
    exact h.domain.ne_nil
  rw [← lineDomain_of_lineRecord hrec, hdom]
  intro he
  have := congrArg List.length he
  simp only [List.length_cons, List.length_append] at this
  omega

/-! ### The rewritten file -/

/-- What `commitHandler` makes of one line of the file. -/
def rewriteLine (domain update line : Str) : Str :=
  if lineDomain line = domain then update ++ ['\n'] else line

/-- Some line of the file is matched by the domain. -/
def Matched (lines : List Str) (domain : Str) : Prop := ∃ line ∈ lines, lineDomain line = domain

instance (lines : List Str) (domain : Str) : Decidable (Matched lines domain) :=
  inferInstanceAs (Decidable (∃ line ∈ lines, _))

theorem commitFile_eq (file : Option Str) (domain update : Str) : commitFile file domain update =
    if Matched (fileLines file) domain then
      ((fileLines file).map (rewriteLine domain update)).flatten
    else (fileLines file).flatten ++ (update ++ ['\n']) := by
  have hlines : commitFile file domain update =
      (if (fileLines file).any fun line => lineDomain line = domain then
        (fileLines file).map (rewriteLine domain update)
      else (fileLines file).map (rewriteLine domain update) ++ [update ++ ['\n']]).flatten := by
    cases file <;> rfl
  have hany : ((fileLines file).any fun line => lineDomain line = domain) = true ↔
      Matched (fileLines file) domain := by
    simp [Matched, List.any_eq_true]
  rw [hlines]
  by_cases hm : Matched (fileLines file) domain
  · rw [if_pos (hany.mpr hm), if_pos hm]
  · rw [if_neg (fun h => hm (hany.mp h)), if_neg hm]
    have hid : (fileLines file).map (rewriteLine domain update) = fileLines file :=
      (List.map_congr_left fun line hline => if_neg fun he => hm ⟨line, hline, he⟩).trans
        (List.map_id _)
    rw [hid, List.flatten_append]
    simp

/-- The lines of a record file: terminated ones, and an unterminated rest. -/
theorem exists_fileLines (file : Option Str) : ∃ (ls : List Str) (tail : Str),
    fileLines file = ls ++ tailLine tail ∧ (∀ l ∈ ls, Terminated l) ∧ '\n' ∉ tail ∧
    '\r' ∉ ls.flatten ++ tail := by
  cases file with
  | none => exact ⟨[], [], rfl, by simp, by simp, by simp⟩
  | some text => exact exists_readLines text

/-- **The lines of the rewritten file.** Matched lines are replaced; without one, the update is
appended to what follows the last newline. -/
theorem commitFile_lines {file : Option Str} {ls : List Str} {tail update : Str} (domain : Str)
    (hfile : fileLines file = ls ++ tailLine tail) (hls : ∀ l ∈ ls, Terminated l)
    (htail : '\n' ∉ tail) (hr : '\r' ∉ ls.flatten ++ tail) (hun : '\n' ∉ update)
    (hur : '\r' ∉ update) : readLines (commitFile file domain update) =
      if Matched (fileLines file) domain then (fileLines file).map (rewriteLine domain update)
      else ls ++ [tail ++ update ++ ['\n']] := by
  -- No `\r` is written, so universal newlines change nothing on the way back.
  have hreturn : ∀ l ∈ fileLines file, '\r' ∉ l := by
    intro l hl hmem
    refine hr ?_
    rw [← flatten_tailLine tail, ← List.flatten_append, ← hfile]
    exact List.mem_flatten.mpr ⟨l, hl, hmem⟩
  have hrewrite : ∀ l, '\r' ∉ l → '\r' ∉ rewriteLine domain update l := by
    intro l hl
    unfold rewriteLine
    split
    · simpa using hur
    · exact hl
  rw [commitFile_eq]
  by_cases hm : Matched (fileLines file) domain
  · rw [if_pos hm, if_pos hm, readLines, universalNewlines_of_not_mem]
    · -- Rewritten lines are terminated, but for the last one, where it keeps its own text.
      rw [hfile, List.map_append, List.flatten_append, splitLines_flatten]
      · congr 1
        unfold tailLine
        split
        · rfl
        · rename_i hne
          rw [List.map_singleton, List.flatten_singleton]
          unfold rewriteLine
          split
          · exact splitLines_line hun
          · exact splitLines_of_not_mem htail hne
      · intro l hl
        obtain ⟨x, hx, rfl⟩ := List.mem_map.mp hl
        unfold rewriteLine
        split
        · exact ⟨update, rfl, hun⟩
        · exact hls x hx
    · intro hmem
      obtain ⟨l, hl, hc⟩ := List.mem_flatten.mp hmem
      obtain ⟨x, hx, rfl⟩ := List.mem_map.mp hl
      exact hrewrite x (hreturn x hx) hc
  · rw [if_neg hm, if_neg hm, hfile, List.flatten_append, flatten_tailLine, readLines,
      universalNewlines_of_not_mem]
    · -- The update runs into the unterminated tail.
      rw [List.append_assoc, splitLines_flatten hls, ← List.append_assoc, splitLines_line]
      simp [htail, hun]
    · simp only [List.mem_append, not_or] at hr ⊢
      exact ⟨hr, hur, by decide⟩

/-! ### The file as a keyed store -/

/-- What the file must be like for a commit of `(d, t)` to be a keyed update: it has no record of `d`
under another type, and the line of the update replaces one or starts on a line of its own. -/
def KeepsRecords (file : Option Str) (d t : Str) : Prop :=
  (∀ line ∈ fileLines file, ∀ t' v', lineRecord line = some ((d, t'), v') → t' = t) ∧
  (Matched (fileLines file) d ∨
    ∀ last, (fileLines file).getLast? = some last → last.getLast? = some '\n' ∨ strip last = [])

/-- The last line is terminated or blank exactly when the rest behind the last newline is blank. -/
theorem last_terminated_iff {ls : List Str} {tail : Str} (hls : ∀ l ∈ ls, Terminated l)
    (htail : '\n' ∉ tail) :
    (∀ last, (ls ++ tailLine tail).getLast? = some last →
      last.getLast? = some '\n' ∨ strip last = []) ↔ strip tail = [] := by
  unfold tailLine
  split
  · rename_i he
    rw [List.append_nil, he]
    refine ⟨fun _ => rfl, fun _ last hlast => Or.inl ?_⟩
    obtain ⟨body, rfl, -⟩ := hls last (List.mem_of_getLast? hlast)
    exact List.getLast?_concat
  · rw [List.getLast?_concat]
    constructor
    · intro h
      refine (h tail rfl).resolve_left fun he => htail ?_
      exact List.mem_of_getLast? he
    · rintro h last hlast
      obtain rfl := Option.some.inj hlast
      exact Or.inr h

theorem newline_not_mem_row {d t v : Str} (h : IsRow d t v) : '\n' ∉ row d t v := by
  simp [row, h.domain.no_newline, h.rtype.no_newline, h.value.no_newline]

theorem return_not_mem_row {d t v : Str} (h : IsRow d t v) : '\r' ∉ row d t v := by
  simp [row, h.domain.no_return, h.rtype.no_return, h.value.no_return]

/-- What the rewritten lines bind, when the update replaces a line: its own key, no other key of its
domain, and the other domains as before. -/
theorem lastWrite_rewritten {lines : List Str} {d t v : Str} (h : IsRow d t v)
    (hm : Matched lines d) (k : Key) :
    lastWrite k ((lines.map (rewriteLine d (row d t v))).map lineRecord) =
      if k = (d, t) then some v
      else if k.1 = d then none
      else lastWrite k (lines.map lineRecord) := by
  -- A rewritten line of the domain binds the new value; the others have another domain.
  have hline : ∀ l ∈ lines, ∀ v', lineRecord (rewriteLine d (row d t v) l) = some (k, v') →
      k = (d, t) ∧ v' = v ∨ k.1 ≠ d := by
    intro l _ v' hrec
    unfold rewriteLine at hrec
    split at hrec
    · rw [lineRecord_row h] at hrec
      cases hrec
      exact Or.inl ⟨rfl, rfl⟩
    · rename_i hne
      exact Or.inr (lineDomain_of_lineRecord hrec ▸ hne)
  by_cases hk : k = (d, t)
  · rw [if_pos hk]
    obtain ⟨l, hl, hd⟩ := hm
    have hmem : some (k, v) ∈ (lines.map (rewriteLine d (row d t v))).map lineRecord := by
      refine List.mem_map.mpr ⟨_, List.mem_map_of_mem hl, ?_⟩
      rw [rewriteLine, if_pos hd, lineRecord_row h, hk]
    cases hlast : lastWrite k ((lines.map (rewriteLine d (row d t v))).map lineRecord) with
    | none => exact absurd hmem (lastWrite_eq_none_iff.mp hlast v)
    | some v' =>
      obtain ⟨l', hl', hrec⟩ := List.mem_map.mp (mem_of_lastWrite_eq_some hlast)
      obtain ⟨x, hx, rfl⟩ := List.mem_map.mp hl'
      rcases hline x hx v' hrec with ⟨-, hv⟩ | hne
      · rw [hv]
      · exact absurd (by rw [hk]) hne
  · rw [if_neg hk]
    by_cases hd : k.1 = d
    · rw [if_pos hd, lastWrite_eq_none_iff]
      intro v' hmem
      obtain ⟨l', hl', hrec⟩ := List.mem_map.mp hmem
      obtain ⟨x, hx, rfl⟩ := List.mem_map.mp hl'
      rcases hline x hx v' hrec with ⟨he, -⟩ | hne
      · exact hk he
      · exact hne hd
    · rw [if_neg hd, List.map_map]
      refine lastWrite_congr fun l hl => ?_
      rw [Function.comp_apply, rewriteLine]
      split
      · rename_i hld
        -- Before and after, a line of the domain `d` binds no key of another domain.
        rw [lineRecord_row h, boundValue, if_neg hk, eq_comm, boundValue_eq_none_iff]
        intro v' hrec
        exact hd ((lineDomain_of_lineRecord hrec).symm.trans hld)
      · rfl

/-- The map a committed file loads to. -/
theorem put_loadText_apply (file : Option Str) (d t v : Str) (k : Key) :
    put (loadText file) (some ((d, t), v)) k =
      if k = (d, t) then some v else lastWrite k ((fileLines file).map lineRecord) := by
  rw [put_some_apply, loadText_apply]

/-- When the update replaces a line, the other types of its domain are lost. -/
theorem loadText_commitFile_matched {file : Option Str} {d t v : Str} (h : IsRow d t v)
    (hm : Matched (fileLines file) d)
    (hlines : readLines (commitFile file d (row d t v)) =
      (fileLines file).map (rewriteLine d (row d t v))) :
    loadText (some (commitFile file d (row d t v))) = put (loadText file) (some ((d, t), v)) ↔
      KeepsRecords file d t := by
  have hload : ∀ k, loadText (some (commitFile file d (row d t v))) k =
      lastWrite k ((readLines (commitFile file d (row d t v))).map lineRecord) :=
    fun k => loadText_apply _ k
  constructor
  · intro heq
    refine ⟨fun line hline t' v' hrec => ?_, Or.inl hm⟩
    by_contra hne
    have hk : (d, t') ≠ (d, t) := fun he => hne (Prod.mk.inj he).2
    -- A record of another type is lost with its line.
    have hat := congrFun heq (d, t')
    rw [hload, hlines, lastWrite_rewritten h hm, if_neg hk, if_pos rfl, put_loadText_apply,
      if_neg hk] at hat
    exact lastWrite_eq_none_iff.mp hat.symm v' (hrec ▸ List.mem_map_of_mem hline)
  · rintro ⟨htype, -⟩
    funext k
    rw [hload, hlines, lastWrite_rewritten h hm, put_loadText_apply]
    split
    · rfl
    · rename_i hk
      split
      · rename_i hd
        rw [eq_comm, lastWrite_eq_none_iff]
        intro v' hmem
        obtain ⟨l, hl, hrec⟩ := List.mem_map.mp hmem
        have hrec' : lineRecord l = some ((d, k.2), v') := by rw [hrec, ← hd]
        exact hk (Prod.ext hd (htype l hl k.2 v' hrec'))
      · rfl

/-- When the update is appended, it must not run into an unterminated text. -/
theorem loadText_commitFile_appended {file : Option Str} {d t v : Str} (h : IsRow d t v)
    (hm : ¬ Matched (fileLines file) d) {ls : List Str} {tail : Str}
    (hfile : fileLines file = ls ++ tailLine tail)
    (hlines : readLines (commitFile file d (row d t v)) = ls ++ [tail ++ row d t v ++ ['\n']]) :
    loadText (some (commitFile file d (row d t v))) = put (loadText file) (some ((d, t), v)) ↔
      strip tail = [] := by
  have hload : ∀ k, loadText (some (commitFile file d (row d t v))) k =
      lastWrite k ((readLines (commitFile file d (row d t v))).map lineRecord) :=
    fun k => loadText_apply _ k
  constructor
  · intro heq
    by_contra ht
    -- Only the merged line could bind the new value, and it reads as something else.
    have hat := congrFun heq (d, t)
    rw [hload, hlines, put_loadText_apply, if_pos rfl] at hat
    obtain ⟨l, hl, hrec⟩ := List.mem_map.mp (mem_of_lastWrite_eq_some hat)
    rcases List.mem_append.mp hl with hl | hl
    · -- No line has the domain, so the file has no record of it.
      exact hm ⟨l, hfile ▸ List.mem_append_left _ hl, lineDomain_of_lineRecord hrec⟩
    · rw [List.mem_singleton.mp hl] at hrec
      exact lineRecord_merged_ne h ht hrec rfl
  · intro ht
    have hblank : lineRecord (tail ++ row d t v ++ ['\n']) = some ((d, t), v) := by
      rw [← lineRecord_row h, lineRecord_eq, lineRecord_eq, updateRecord, updateRecord,
        List.append_assoc, strip_append_of_spaces (strip_eq_nil_iff.mp ht)]
    funext k
    rw [hload, hlines, put_loadText_apply, hfile, List.map_append, List.map_append, lastWrite_append,
      lastWrite_append, List.map_singleton, hblank, lastWrite_singleton, boundValue]
    split
    · rfl
    · -- The blank tail was no record before either.
      have hempty : lastWrite k ((tailLine tail).map lineRecord) = none := by
        unfold tailLine
        split
        · rfl
        · rw [List.map_singleton, lastWrite_singleton, lineRecord_eq, if_pos (Or.inl ht)]
          rfl
      rw [hempty, Option.none_or]

/-- **The record file as a keyed store.** Rewriting a file for an update is the update of the map it
loads to exactly when the file keeps its records. -/
theorem loadText_commitFile_iff {file : Option Str} {d t v : Str} (h : IsRow d t v) :
    loadText (some (commitFile file d (row d t v))) = put (loadText file) (some ((d, t), v)) ↔
      KeepsRecords file d t := by
  obtain ⟨ls, tail, hfile, hls, htail, hr⟩ := exists_fileLines file
  have hlines := commitFile_lines d hfile hls htail hr (newline_not_mem_row h)
    (return_not_mem_row h)
  by_cases hm : Matched (fileLines file) d
  · rw [if_pos hm] at hlines
    exact loadText_commitFile_matched h hm hlines
  · rw [if_neg hm] at hlines
    rw [loadText_commitFile_appended h hm hfile hlines, ← last_terminated_iff hls htail, ← hfile]
    refine ⟨fun hlast => ⟨fun l hl t' v' hrec => ?_, Or.inr hlast⟩, fun hk => hk.2.resolve_left hm⟩
    exact absurd ⟨l, hl, lineDomain_of_lineRecord hrec⟩ hm

/-! ### Commits and reloads -/

variable [Unicode]

/-- One commit of the log entry `num`. -/
def Node.commitStep (n : Node) (num : Str) : Node := (n.commitHandler num).1

/-- The log entry `num` of the node, if there is one, is a row whose file keeps its records. -/
def CommitKeeps (n : Node) (num : Str) : Prop :=
  ∀ u, n.writer.logs num = some u → ∃ d t v head, u = row d t v ∧ IsRow d t v ∧
    shardOf d = some head ∧ KeepsRecords (n.disk.file head) d t

/-- In every owned shard the memory agrees with the file, and the file holds its own domains only. -/
structure Mirrors (n : Node) (heads : List Str) : Prop where
  sharded : WellSharded n.disk heads
  same : ∀ k head, shardOf k.1 = some head → head ∈ heads →
    n.states.records k = loadText (n.disk.file head) k

omit [Unicode] in
theorem commitTarget_row {d t v : Str} (h : IsRow d t v) :
    ∃ c cs, d = c :: cs ∧ commitTarget (row d t v) = some (c, (d, t), v) := by
  obtain ⟨c, cs, hd, -⟩ := h.domain.exists_cons
  exact ⟨c, cs, hd, commitTarget_of_updateRecord (updateRecord_row h) hd⟩

/-- The commit of a row updates the file of the domain like the memory, or neither. -/
theorem commitHandler_row {n : Node} {num t v : Str} {c : Char} {cs : Str}
    (hlog : n.writer.logs num = some (row (c :: cs) t v)) (hrow : IsRow (c :: cs) t v)
    (hkeeps : KeepsRecords (n.disk.file (lower [c])) (c :: cs) t) :
    ((∀ head k, loadText ((n.commitHandler num).1.disk.file head) k =
        if head = lower [c] ∧ k = (c :: cs, t) then some v else loadText (n.disk.file head) k) ∧
      (n.commitHandler num).1.states.records = put n.states.records (some ((c :: cs, t), v))) ∨
    ((∀ head, (n.commitHandler num).1.disk.file head = n.disk.file head) ∧
      (n.commitHandler num).1.states.records = n.states.records) := by
  obtain ⟨c', cs', hdomain, htarget⟩ := commitTarget_row hrow
  obtain ⟨rfl, rfl⟩ := List.cons.inj hdomain
  have hfile := n.commitHandler_file hlog
  have hrecords := n.commitHandler_records hlog
  simp only [htarget] at hfile
  simp only [Node.committed, htarget] at hrecords
  by_cases ha : n.disk.canOpen (lower [c]) = true
  · rw [if_pos ha] at hrecords
    refine Or.inl ⟨fun head k => ?_, hrecords⟩
    rw [hfile]
    by_cases hh : head = lower [c]
    · rw [if_pos ⟨ha, hh⟩, hh, (loadText_commitFile_iff hrow).mpr hkeeps]
      simp only [true_and]
      rfl
    · rw [if_neg fun hboth => hh hboth.2, if_neg fun hboth => hh hboth.1]
  · -- The file cannot be opened.
    rw [if_neg ha] at hrecords
    refine Or.inr ⟨fun head => ?_, hrecords.trans (put_none _)⟩
    rw [hfile, if_neg fun hboth => ha hboth.1]

/-- One commit keeps the mirror. -/
theorem mirrors_commitStep {n : Node} {heads : List Str} {num : Str} (hm : Mirrors n heads)
    (hok : CommitKeeps n num) : Mirrors (n.commitStep num) heads := by
  unfold Node.commitStep
  cases hlog : n.writer.logs num with
  | none =>
    rw [Node.commitHandler_spec, hlog]
    exact hm
  | some u =>
    obtain ⟨d, t, v, head, rfl, hrow, hshard, hkeeps⟩ := hok u hlog
    obtain ⟨c, cs, rfl, -⟩ := commitTarget_row hrow
    obtain rfl : lower [c] = head := Option.some.inj hshard
    rcases commitHandler_row hlog hrow hkeeps with ⟨hload, hrecords⟩ | ⟨hsame, hrecords⟩
    · refine ⟨fun head hmem k v' hv => ?_, fun k head hk hmem => ?_⟩
      · rw [hload] at hv
        split at hv
        · rename_i hboth
          rw [hboth.2, hboth.1]
          rfl
        · exact hm.sharded head hmem k v' hv
      · rw [hrecords, hload, put_some_apply]
        by_cases hkey : k = (c :: cs, t)
        · have hhead : head = lower [c] := by
            rw [hkey] at hk
            exact (Option.some.inj hk).symm
          rw [if_pos hkey, if_pos ⟨hhead, hkey⟩]
        · rw [if_neg hkey, if_neg fun hboth => hkey hboth.2]
          exact hm.same k head hk hmem
    · refine ⟨fun head hmem k v' hv => ?_, fun k head hk hmem => ?_⟩
      · rw [hsame] at hv
        exact hm.sharded head hmem k v' hv
      · rw [hrecords, hsame]
        exact hm.same k head hk hmem

/-- **Restarting after any sequence of commits.** If every committed update finds a file that keeps
its records, the reader loads for every owned domain what the node holds in memory, in whatever
order it walks the letters. -/
theorem commits_reload {n : Node} {heads : List Str} (hws : WellSharded n.disk heads)
    (hstart : n.states.records = loadShards n.disk heads) (nums : List Str)
    (hok : Along CommitKeeps Node.commitStep n nums) {heads' : List Str}
    (hheads : ∀ head, head ∈ heads' ↔ head ∈ heads) {k : Key} {head : Str}
    (hk : shardOf k.1 = some head) (hmem : head ∈ heads) :
    loadShards (run Node.commitStep n nums).disk heads' k =
      (run Node.commitStep n nums).states.records k := by
  have hm : Mirrors (run Node.commitStep n nums) heads := by
    refine Along.invariant (P := fun m => Mirrors m heads) hok ⟨hws, fun k head hk hmem => ?_⟩
      fun m num hm hokay => mirrors_commitStep hm hokay
    rw [hstart]
    exact loadShards_apply hws hk hmem
  have hws' : WellSharded (run Node.commitStep n nums).disk heads' :=
    fun h hh => hm.sharded h ((hheads h).mp hh)
  rw [loadShards_apply hws' hk ((hheads head).mpr hmem), hm.same k head hk hmem]

/-- **The record file refines the map.** Committing a row is the keyed update of the map its file
loads to exactly when the file keeps its records; and after any sequence of such commits, reading the
files again gives the bindings the node holds in memory for its owned shards. -/
theorem record_file_refines :
    (∀ (n : Node) (num t v : Str) (c : Char) (cs : Str),
      n.writer.logs num = some (row (c :: cs) t v) → IsRow (c :: cs) t v →
      n.disk.canOpen (lower [c]) = true →
      (loadText ((n.commitHandler num).1.disk.file (lower [c])) =
          put (loadText (n.disk.file (lower [c]))) (some ((c :: cs, t), v)) ↔
        KeepsRecords (n.disk.file (lower [c])) (c :: cs) t)) ∧
    ∀ (n : Node) (heads heads' nums : List Str), WellSharded n.disk heads →
      n.states.records = loadShards n.disk heads → Along CommitKeeps Node.commitStep n nums →
      (∀ head, head ∈ heads' ↔ head ∈ heads) →
      ∀ k head, shardOf k.1 = some head → head ∈ heads →
        loadShards (run Node.commitStep n nums).disk heads' k =
          (run Node.commitStep n nums).states.records k := by
  constructor
  · intro n num t v c cs hlog hrow ha
    obtain ⟨c', cs', hd, htarget⟩ := commitTarget_row hrow
    obtain rfl := (List.cons.inj hd).1
    have hfile := n.commitHandler_file hlog (lower [c])
    simp only [htarget, ha, and_self, if_true] at hfile
    rw [hfile]
    exact loadText_commitFile_iff hrow
  · exact fun n heads heads' nums hws hstart hok hheads k head hk hmem =>
      commits_reload hws hstart nums hok hheads hk hmem

omit [Unicode] in
/-- A freshly started node that owns every letter, with one record file `a.txt`, at the moment it has
logged and sent the update `a.com,A,1.1.1.1` under the number 1. -/
def aboutToCommit (text : Str) : Node :=
  (Node.main "10.0.0.1".toList [some "10.0.0.1".toList]
    { file := fun s => if s = ['a'] then some text else none, denied := fun _ => false }
    [['a']] 0).announce "a.com,A,1.1.1.1".toList

omit [Unicode] in
/-- A file with the address of `a.com` only takes the new address, and a restart finds it. -/
theorem record_file_refines_replaced :
    loadShards (run (@Node.commitStep Unicode.ascii) (aboutToCommit "a.com,A,9.9.9.9\n".toList)
        [['1']]).disk [['a']] ("a.com".toList, ['A']) =
      (run (@Node.commitStep Unicode.ascii) (aboutToCommit "a.com,A,9.9.9.9\n".toList)
        [['1']]).states.records ("a.com".toList, ['A']) := by
  have hrow : IsRow "a.com".toList ['A'] "1.1.1.1".toList :=
    ⟨⟨by decide, by decide, by decide, by decide, by decide⟩,
      ⟨by decide, by decide, by decide, by decide, by decide⟩,
      ⟨by decide, by decide, by decide, by decide, by decide⟩, by decide⟩
  have hfile : fileLines ((aboutToCommit "a.com,A,9.9.9.9\n".toList).disk.file ['a']) =
      ["a.com,A,9.9.9.9\n".toList] := by decide
  have hrec : lineRecord "a.com,A,9.9.9.9\n".toList =
      some (("a.com".toList, ['A']), "9.9.9.9".toList) := by decide
  refine (@record_file_refines Unicode.ascii).2 _ [['a']] [['a']] [['1']] ?_ rfl ⟨?_, trivial⟩
    (fun _ => Iff.rfl) _ ['a'] (by decide) (by decide)
  · intro head hmem k v hv
    obtain rfl := List.mem_singleton.mp hmem
    rw [loadText_apply, hfile] at hv
    have hmem := mem_of_lastWrite_eq_some hv
    rw [List.map_singleton, hrec, List.mem_singleton] at hmem
    cases hmem
    decide
  · intro u hu
    have hu' : "a.com,A,1.1.1.1".toList = u := Option.some.inj hu
    refine ⟨"a.com".toList, ['A'], "1.1.1.1".toList, ['a'], hu'.symm, hrow, by decide,
      fun line hline t' v' hline' => ?_, Or.inl ?_⟩
    · rw [hfile, List.mem_singleton] at hline
      rw [hline, hrec] at hline'
      cases hline'
      rfl
    · rw [hfile]
      decide

omit [Unicode] in
/-- A file that holds `a.com` under another type loses it, and a file whose last line is unterminated
loses both that line and the new one. -/
theorem not_record_file_refines :
    (loadText ((aboutToCommit "a.com,MX,mail\n".toList).disk.file ['a']) ("a.com".toList, "MX".toList)
        = some "mail".toList ∧
      loadText ((@Node.commitHandler Unicode.ascii (aboutToCommit "a.com,MX,mail\n".toList)
        ['1']).1.disk.file ['a']) ("a.com".toList, "MX".toList) = none) ∧
    (loadText ((aboutToCommit "ab.com,A,2.2.2.2".toList).disk.file ['a']) ("ab.com".toList, ['A'])
        = some "2.2.2.2".toList ∧
      loadText ((@Node.commitHandler Unicode.ascii (aboutToCommit "ab.com,A,2.2.2.2".toList)
        ['1']).1.disk.file ['a']) ("ab.com".toList, ['A']) = none ∧
      loadText ((@Node.commitHandler Unicode.ascii (aboutToCommit "ab.com,A,2.2.2.2".toList)
        ['1']).1.disk.file ['a']) ("a.com".toList, ['A']) = none) := by
  decide

end DsDns
