/-
  What the import writes is what the nodes serve.

  The import and the reader share nothing but the record files. A line of the import is read back as the record
  it was written for (`lineRecord_entry`), after the lines that were there before if these end with a newline
  (`fileLines_appended`). So a node that starts after any number of imports answers as if it had started before
  them and then been told the addresses (`imports_served`).
-/
import DsDns.DataPlane.Equiv.Server
import DsDns.DataPlane.Equiv.Shard
import DsDns.Records.Equiv.Import
import DsDns.Records.Equiv.Sourced
import DsDns.Transition
import Mathlib.Data.List.Forall2

namespace DsDns.Parse

variable [Unicode]

/-! ### Answers -/

namespace Answer

omit [Unicode] in
/-- The record of the answer. -/
def binding (a : Answer) : Key × Str := ((a.domain, ['A']), a.ip)

/-- An IPv4 address for a domain of some list. -/
structure Genuine (a : Answer) : Prop where
  listed : ∃ csv, Listed csv a.domain
  address : (ipv4 a.ip).isSome

omit [Unicode] in
theorem entry_text (a : Answer) : a.entry.2 = row a.domain ['A'] a.ip ++ ['\n'] := by
  simp [entry, recordText, row]

namespace Genuine

variable {a : Answer}

theorem isDomain (h : a.Genuine) : IsDomain a.domain ∧ rstrip a.domain = a.domain := by
  obtain ⟨csv, line, hline, num, hcsvline⟩ := h.listed
  exact isDomain_of_csvLine hline hcsvline

/-- The line of the answer is one line. -/
theorem oneLine (h : a.Genuine) : Terminated a.entry.2 ∧ '\r' ∉ a.entry.2 := by
  obtain ⟨hdomain, -⟩ := h.isDomain
  have hvalue := isField_of_ipv4 h.address
  rw [entry_text]
  refine ⟨⟨_, rfl, not_mem_row (by decide) hdomain.no_newline (by decide) hvalue.no_newline⟩, ?_⟩
  have hreturn := not_mem_row (by decide) hdomain.no_return (by decide : '\r' ∉ ['A']) hvalue.no_return
  simp [hreturn]

/-- **The reader reads what the import wrote**, if the domain begins with a letter. -/
theorem lineRecord_entry (h : a.Genuine) (hhead : a.head ∈ alphabet) : lineRecord a.entry.2 = some a.binding := by
  obtain ⟨hdomain, htrim⟩ := h.isDomain
  have hall : alphabet.all (fun c => decide (isSpace c = false ∧ c ≠ '#')) = true := by decide
  have hletter := of_decide_eq_true (List.all_eq_true.mp hall a.head hhead)
  rw [entry_text]
  apply lineRecord_row
  refine ⟨⟨List.cons_ne_nil _ _, ?_, hdomain.no_comma, hdomain.no_newline, hdomain.no_return⟩, by
    constructor <;> decide, isField_of_ipv4 h.address, ?_⟩
  · unfold strip domain
    rw [lstrip_cons_of_not_space hletter.1]
    exact htrim
  · simp [startsWith, domain, List.isPrefixOf, Ne.symm hletter.2]

end Genuine

end Answer

/-! ### Files -/

/-- The record files of the letters hold records of their own domains, on lines that end. -/
structure Filed (disk : Disk) : Prop where
  sharded : WellSharded disk (letters alphabet)
  ended : ∀ c ∈ alphabet, Ended ((disk.file [c]).getD [])

/-- A letter is the name of its own file. -/
theorem lower_letter {c : Char} (hc : c ∈ alphabet) : lower [c] = [c] := by
  have hall : alphabet.all (fun c => decide (c.toNat < 128 ∧ c.toLower = c)) = true := by decide
  have hascii := of_decide_eq_true (List.all_eq_true.mp hall c hc)
  rw [Unicode.lower_ascii [c] (by simp [hascii.1]), List.map_singleton, hascii.2]

/-- The last of the answers that `heads` own, for a key. -/
def told (heads : List Str) (out : List Answer) (k : Key) : Option Str :=
  lastWrite k ((out.filter fun a => [a.head] ∈ heads).map fun a => some a.binding)

section Appended

variable {disk disk' : Disk} {out : List Answer}

theorem fileLines_appended (hdisk : Filed disk) (happends : Appends disk disk' (out.map Answer.entry))
    (hout : ∀ a ∈ out, a.Genuine) {c : Char} (hc : c ∈ alphabet) :
    fileLines (disk'.file [c]) =
      fileLines (disk.file [c]) ++ (out.filter fun a => a.head = c).map fun a => a.entry.2 := by
  have htexts : texts c (out.map Answer.entry) = (out.filter fun a => a.head = c).map fun a => a.entry.2 := by
    rw [texts, List.filter_map, List.map_map]
    rfl
  rw [fileLines_eq, fileLines_eq, happends.file, readLines_append (hdisk.ended c hc), htexts, readLines_flatten]
  intro l hl
  obtain ⟨a, ha, rfl⟩ := List.mem_map.mp hl
  exact (hout a (List.mem_of_mem_filter ha)).oneLine

/-- What a file says after the import. -/
theorem loadText_appended (hdisk : Filed disk) (happends : Appends disk disk' (out.map Answer.entry))
    (hout : ∀ a ∈ out, a.Genuine) {c : Char} (hc : c ∈ alphabet) (k : Key) :
    loadText (disk'.file [c]) k =
      (lastWrite k ((out.filter fun a => a.head = c).map fun a => some a.binding)).or (loadText (disk.file [c]) k) := by
  rw [loadText_apply, loadText_apply, fileLines_appended hdisk happends hout hc, List.map_append, lastWrite_append,
    List.map_map]
  congr 2
  apply List.map_congr_left
  intro a ha
  obtain ⟨ha, hhead⟩ := List.mem_filter.mp ha
  refine (hout a ha).lineRecord_entry ?_
  rw [of_decide_eq_true hhead]
  exact hc

theorem shardOf_binding {a : Answer} (ha : a.head ∈ alphabet) : shardOf a.binding.1.1 = some [a.head] :=
  congrArg some (lower_letter ha)

/-- **The files stay well formed.** -/
theorem Filed.appended (hdisk : Filed disk) (happends : Appends disk disk' (out.map Answer.entry))
    (hout : ∀ a ∈ out, a.Genuine) : Filed disk' where
  sharded head hhead k v hv := by
    obtain ⟨c, hc, rfl⟩ := List.mem_map.mp hhead
    rw [loadText_appended hdisk happends hout hc] at hv
    rcases Option.or_eq_some_iff.mp hv with hnew | ⟨-, hold⟩
    · obtain ⟨a, ha, heq⟩ := List.mem_map.mp (mem_of_lastWrite_eq_some hnew)
      obtain rfl : a.head = c := of_decide_eq_true (List.mem_filter.mp ha).2
      have hk : a.binding.1 = k := congrArg Prod.fst (Option.some.inj heq)
      rw [← hk]
      exact shardOf_binding hc
    · exact hdisk.sharded [c] hhead k v hold
  ended c hc := by
    rw [happends.file]
    apply (hdisk.ended c hc).append_flatten
    intro l hl
    obtain ⟨e, he, rfl⟩ := List.mem_map.mp hl
    obtain ⟨a, ha, rfl⟩ := List.mem_map.mp (List.mem_of_mem_filter he)
    exact (hout a ha).oneLine.1

/-- **What is loaded after the import.** -/
theorem loadShards_appended (hdisk : Filed disk) (happends : Appends disk disk' (out.map Answer.entry))
    (hout : ∀ a ∈ out, a.Genuine) {heads : List Str} (hheads : heads ⊆ letters alphabet) (k : Key) :
    loadShards disk' heads k = (told heads out k).or (loadShards disk heads k) := by
  have hsharded : WellSharded disk heads := fun head hhead => hdisk.sharded head (hheads hhead)
  have hsharded' : WellSharded disk' heads :=
    fun head hhead => (hdisk.appended happends hout).sharded head (hheads hhead)
  -- An answer for the key belongs to the file of the key.
  have hown : ∀ a ∈ out, [a.head] ∈ heads → a.binding.1 = k → shardOf k.1 = some [a.head] := by
    intro a _ hhead hk
    obtain ⟨c, hc, hletter⟩ := List.mem_map.mp (hheads hhead)
    rw [← hk]
    exact shardOf_binding ((List.cons.inj hletter).1 ▸ hc)
  by_cases hk : ∃ head ∈ heads, shardOf k.1 = some head
  · obtain ⟨head, hhead, hk⟩ := hk
    obtain ⟨c, hc, rfl⟩ := List.mem_map.mp (hheads hhead)
    rw [loadShards_apply hsharded' hk hhead, loadShards_apply hsharded hk hhead,
      loadText_appended hdisk happends hout hc]
    congr 1
    unfold told lastWrite
    rw [List.filterMap_map, List.filterMap_map, List.filterMap_filter, List.filterMap_filter]
    congr 1
    apply List.filterMap_congr
    intro a ha
    by_cases hkey : a.binding.1 = k
    · have hiff : a.head = c ↔ [a.head] ∈ heads := by
        constructor
        · rintro rfl
          exact hhead
        · intro hmem
          exact (List.cons.inj (Option.some.inj ((hown a ha hmem hkey).symm.trans hk))).1
      simp only [hiff]
    · have hnone : boundValue k (some a.binding) = none := if_neg (Ne.symm hkey)
      simp only [Function.comp_apply, hnone, ite_self]
  · rw [loadShards_eq_none hsharded' fun head hhead h => hk ⟨head, hhead, h⟩,
      loadShards_eq_none hsharded fun head hhead h => hk ⟨head, hhead, h⟩, Option.or_none, eq_comm, told,
      lastWrite_eq_none_iff]
    intro v hv
    obtain ⟨a, ha, heq⟩ := List.mem_map.mp hv
    obtain ⟨ha, hhead⟩ := List.mem_filter.mp ha
    have hhead := of_decide_eq_true hhead
    exact hk ⟨_, hhead, hown a ha hhead (congrArg Prod.fst (Option.some.inj heq))⟩

end Appended

/-! ### Imports -/

/-- One run of the script: its resolver, its list and the depth of its stack. -/
structure Script where
  gethostbyname : ℕ → Str → Option Str
  csv : Str
  depth : ℕ

/-- The directory after a run of the script. -/
def Script.exec (disk : Disk) (s : Script) : Disk := (main s.gethostbyname s.csv s.depth disk).1.disk

/-- The script has been told the answers. -/
def Script.Told (s : Script) (out : List Answer) : Prop := ∃ last, Answers s.gethostbyname s.csv 0 last out

theorem run_appends (scripts : List Script) (disk : Disk) :
    ∃ outs, List.Forall₂ Script.Told scripts outs ∧
      Appends disk (run Script.exec disk scripts) (outs.flatten.map Answer.entry) := by
  induction scripts generalizing disk with
  | nil => exact ⟨[], List.Forall₂.nil, Appends.refl disk⟩
  | cons s scripts ih =>
    obtain ⟨out, happends, hout⟩ := main_logged s.gethostbyname s.csv s.depth disk
    obtain ⟨outs, houts, happends'⟩ := ih (Script.exec disk s)
    refine ⟨out :: outs, List.Forall₂.cons ⟨_, hout⟩ houts, ?_⟩
    rw [List.flatten_cons, List.map_append]
    exact happends.trans happends'

theorem genuine_of_told {scripts : List Script} {outs : List (List Answer)} (h : List.Forall₂ Script.Told scripts outs)
    (hipv4 : ∀ s ∈ scripts, ∀ k d v, s.gethostbyname k d = some v → (ipv4 v).isSome) :
    ∀ a ∈ outs.flatten, a.Genuine := by
  induction h with
  | nil => exact fun a ha => absurd ha List.not_mem_nil
  | @cons s out scripts outs hs _ ih =>
    intro a ha
    rcases List.mem_append.mp ha with ha | ha
    · obtain ⟨last, hanswers⟩ := hs
      exact ⟨⟨s.csv, hanswers.listed a ha⟩, hipv4 s List.mem_cons_self _ _ _ (hanswers.given a ha)⟩
    · exact ih (fun s hs => hipv4 s (List.mem_cons_of_mem _ hs)) a ha

/-- **What was imported is served.** What the runs write are the lines of the answers `outs`, and these are what a
node that starts afterwards has been told. -/
theorem imports_served (scripts : List Script)
    (hipv4 : ∀ s ∈ scripts, ∀ k d v, s.gethostbyname k d = some v → (ipv4 v).isSome) {disk : Disk}
    (hdisk : Filed disk) :
    Filed (run Script.exec disk scripts) ∧
    ∃ outs, List.Forall₂ Script.Told scripts outs ∧
      Appends disk (run Script.exec disk scripts) (outs.flatten.map Answer.entry) ∧
      ∀ selfIp files heads now q, (∀ l, l ∈ heads ↔ l ∈ (States.init selfIp files).selfRecords) →
        (Node.main selfIp files (run Script.exec disk scripts) heads now).localLookup q =
          if (States.init selfIp files).owns q then
            (told heads outs.flatten (lower (strip q), ['A'])).getD
              ((Node.main selfIp files disk heads now).localLookup q)
          else notAvailable := by
  obtain ⟨outs, houts, happends⟩ := run_appends scripts disk
  have hgenuine := genuine_of_told houts hipv4
  refine ⟨hdisk.appended happends hgenuine, outs, houts, happends, fun selfIp files heads now q hheads => ?_⟩
  have hletters : heads ⊆ letters alphabet := by
    intro l hl
    have hsharded := States.sharded_init selfIp files
    rw [hheads, hsharded] at hl
    exact recordSet_subset hl
  rw [localLookup_eq, localLookup_eq]
  show (if (States.init selfIp files).owns q then
      (loadShards (run Script.exec disk scripts) heads (lower (strip q), ['A'])).getD notAvailable else _) =
    if (States.init selfIp files).owns q then (told heads outs.flatten (lower (strip q), ['A'])).getD
      (if (States.init selfIp files).owns q then (loadShards disk heads (lower (strip q), ['A'])).getD notAvailable
        else _) else _
  rw [loadShards_appended hdisk happends hgenuine hletters]
  split
  · rw [Option.getD_or]
  · rfl

omit [Unicode] in
/-- A list of one domain, and the resolver that knows it. -/
def oneScript : Script := ⟨fun _ _ => some "1.1.1.1".toList, "100,a.com\n".toList, 1⟩

omit [Unicode] in
theorem filed_directory : @Filed Unicode.ascii (directory none) := by
  have hnone : ∀ name, (directory none).file name = none := fun name => ite_self none
  refine @Filed.mk Unicode.ascii _ (fun head _ k v hv => ?_) fun c _ => ?_
  · rw [hnone] at hv
    exact absurd hv (by simp [loadText])
  · rw [hnone]
    exact fun c hc => absurd hc (by simp)

omit [Unicode] in
/-- A node that starts on an empty directory after the import has been told the address. -/
theorem imports_served_one : ∃ outs, List.Forall₂ (@Script.Told Unicode.ascii) [oneScript] outs ∧
    told (letters alphabet) outs.flatten ("a.com".toList, ['A']) = some "1.1.1.1".toList := by
  obtain ⟨-, outs, houts, -, hserved⟩ := @imports_served Unicode.ascii [oneScript] (fun s hs k d v hv => by
    obtain rfl := List.mem_singleton.mp hs
    obtain rfl := Option.some.inj hv
    decide) (directory none) filed_directory
  refine ⟨outs, houts, ?_⟩
  have hanswer := hserved "10.0.0.1".toList [] (letters alphabet) 0 "a.com".toList fun l => Iff.rfl
  have hnew : @Node.localLookup Unicode.ascii (Node.main "10.0.0.1".toList []
      (run (@Script.exec Unicode.ascii) (directory none) [oneScript]) (letters alphabet) 0) "a.com".toList =
      "1.1.1.1".toList := by decide
  have hold : @Node.localLookup Unicode.ascii (Node.main "10.0.0.1".toList [] (directory none) (letters alphabet) 0)
      "a.com".toList = notAvailable := by decide
  have hname : @lower Unicode.ascii (strip "a.com".toList) = "a.com".toList := by decide
  rw [hnew, hold, hname, if_pos (by decide)] at hanswer
  cases htold : told (letters alphabet) outs.flatten ("a.com".toList, ['A']) with
  | some ip =>
    rw [htold] at hanswer
    exact congrArg some hanswer.symm
  | none =>
    rw [htold] at hanswer
    exact absurd hanswer (by decide)

end DsDns.Parse
