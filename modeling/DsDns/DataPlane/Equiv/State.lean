/-
  What the operations of `States` do, field by field.

  Every operation that moves the shard ends in `updateRecordSet`, so `Sharded` (the owned letters are
  those of the node's rank, last rank and node count) holds of every node from its start on. The
  lemmas `updateRecordSet_eq`, `updateRank_eq`, `addNodes_eq` and `removeNode_eq` write each
  operation as one record update, and leave open what `updateState` publishes.
-/
import DsDns.DataPlane.State

namespace DsDns

namespace States

/-- The owned letters are those that rank, last rank and node count assign. -/
def Sharded (s : States) : Prop := s.selfRecords = recordSet s.nodeCount s.rank s.lastRank

theorem updateRecordSet_eq (s : States) : ∃ p, s.updateRecordSet =
    { s with selfRecords := recordSet s.nodeCount s.rank s.lastRank, published := p } := by
  unfold updateRecordSet recordSet
  by_cases h1 : s.nodeCount = 1
  · exact ⟨s.published, by rw [if_pos h1, if_pos h1]⟩
  · rw [if_neg h1, if_neg h1]
    by_cases h0 : s.lastRank = 0 ∨ s.rank = 0
    · exact ⟨s.published, by rw [if_pos h0, if_pos h0]⟩
    · rw [if_neg h0, if_neg h0]
      exact ⟨_, rfl⟩

theorem updateRank_eq (s : States) (rank lastRank : ℤ) : ∃ p, s.updateRank rank lastRank =
    { s with
      rank := rank
      lastRank := lastRank
      selfRecords := recordSet s.nodeCount rank lastRank
      published := p } :=
  updateRecordSet_eq { s with rank := rank, lastRank := lastRank }

theorem addNodes_of_mem {s : States} {ip : Str} (h : s.nodes.contains ip = true) :
    s.addNodes ip = s := if_pos h

theorem addNodes_eq {s : States} {ip : Str} (h : s.nodes.contains ip = false) :
    ∃ p, s.addNodes ip =
      { s with
        nodes := s.nodes.set ip (s.nodeCount + 1)
        nodeCount := s.nodeCount + 1
        lastRank := (s.nodes.set ip (s.nodeCount + 1)).length
        selfRecords := recordSet (s.nodeCount + 1) s.rank (s.nodes.set ip (s.nodeCount + 1)).length
        published := p } := by
  unfold addNodes
  rw [h]
  exact updateRecordSet_eq _

theorem removeNode_of_not_mem {s : States} {ip : Str} (h : s.nodes.contains ip = false) :
    s.removeNode ip = s := by
  unfold removeNode
  rw [h]
  rfl

/-- `removeNode`, with `nodes` for the renumbered map. -/
theorem removeNode_eq {s : States} {ip : Str} {nodes : OrderedDict Str ℤ}
    (h : s.nodes.contains ip = true) (hn : nodes = renumber (s.nodes.erase ip)) :
    ∃ p, s.removeNode ip =
      { s with
        nodes := nodes
        nodeCount := (s.nodes.erase ip).length
        rank := (nodes.get? s.selfIp).getD 1
        lastRank := nodes.length
        selfRecords :=
          recordSet (s.nodes.erase ip).length ((nodes.get? s.selfIp).getD 1) nodes.length
        published := p } := by
  subst hn
  unfold removeNode
  rw [if_pos h]
  exact updateRecordSet_eq _

theorem init_eq (selfIp : Str) (files : List (Option Str)) : ∃ p, init selfIp files =
    { selfIp := selfIp
      selfRecords := recordSet (registerNodes selfIp files).1.length
        (((registerNodes selfIp files).1.get? selfIp).getD 1) (registerNodes selfIp files).2
      records := fun _ => none
      nodes := (registerNodes selfIp files).1
      rank := ((registerNodes selfIp files).1.get? selfIp).getD 1
      lastRank := (registerNodes selfIp files).2
      mLastRank := (registerNodes selfIp files).2
      leader := true
      nodeCount := (registerNodes selfIp files).1.length
      leaderIp := selfIp
      published := p } := by
  unfold init
  obtain ⟨p, hp⟩ := updateRecordSet_eq
    { selfIp := selfIp
      selfRecords := []
      records := fun _ => none
      nodes := (registerNodes selfIp files).1
      rank := ((registerNodes selfIp files).1.get? selfIp).getD 1
      lastRank := (registerNodes selfIp files).2
      mLastRank := (registerNodes selfIp files).2
      leader := true
      nodeCount := (registerNodes selfIp files).1.length
      leaderIp := selfIp
      published := none }
  simp only [hp]
  exact ⟨_, rfl⟩

/-! ### The shard follows the rank -/

theorem sharded_updateRecordSet (s : States) : s.updateRecordSet.Sharded := by
  obtain ⟨p, hp⟩ := s.updateRecordSet_eq
  rw [hp]
  rfl

theorem sharded_updateRank (s : States) (rank lastRank : ℤ) : (s.updateRank rank lastRank).Sharded :=
  sharded_updateRecordSet _

theorem sharded_addNodes {s : States} (h : s.Sharded) (ip : Str) : (s.addNodes ip).Sharded := by
  unfold addNodes
  split
  · exact h
  · exact sharded_updateRecordSet _

theorem sharded_removeNode {s : States} (h : s.Sharded) (ip : Str) : (s.removeNode ip).Sharded := by
  unfold removeNode
  split
  · exact sharded_updateRecordSet _
  · exact h

theorem sharded_init (selfIp : Str) (files : List (Option Str)) : (init selfIp files).Sharded := by
  obtain ⟨p, hp⟩ := init_eq selfIp files
  rw [hp]
  rfl

/-- The shard is recomputed whenever the rank or the last rank changes. -/
theorem sharded_adopted {s : States} (h : s.Sharded) (r lr : ℤ) :
    (if s.rank ≠ r ∨ s.lastRank ≠ lr then recordSet s.nodeCount r lr else s.selfRecords) =
      recordSet s.nodeCount r lr := by
  split
  · rfl
  · rename_i hsame
    rw [not_or, not_not, not_not] at hsame
    rw [← hsame.1, ← hsame.2]
    exact h

/-! ### The ranks follow the order of the map -/

/-- The nodes of the map have the ranks 1, 2, 3, ..., in order. -/
def Ranked (nodes : OrderedDict Str ℤ) : Prop :=
  ∀ (i : ℕ) ip, nodes.keys[i]? = some ip → nodes.get? ip = some ((i : ℤ) + 1)

theorem keys_renumberFrom (i : ℤ) {ips : List Str} {nodes : OrderedDict Str ℤ}
    (h : ∀ ip ∈ ips, ip ∈ nodes.keys) : (renumberFrom i ips nodes).keys = nodes.keys := by
  induction ips generalizing i nodes with
  | nil => rfl
  | cons ip ips ih =>
    have hset : (nodes.set ip i).keys = nodes.keys := by
      rw [OrderedDict.keys_set, if_pos (h ip (by simp))]
    rw [renumberFrom, ih (i + 1) fun x hx => by rw [hset]; exact h x (by simp [hx]), hset]

theorem get?_renumberFrom_of_not_mem (i : ℤ) {ips : List Str} {nodes : OrderedDict Str ℤ} {ip : Str}
    (h : ip ∉ ips) : (renumberFrom i ips nodes).get? ip = nodes.get? ip := by
  induction ips generalizing i nodes with
  | nil => rfl
  | cons x ips ih =>
    rw [List.mem_cons, not_or] at h
    rw [renumberFrom, ih (i + 1) h.2, OrderedDict.get?_set, if_neg (Ne.symm h.1)]

theorem get?_renumberFrom (i : ℤ) {ips : List Str} {nodes : OrderedDict Str ℤ} (h : ips.Nodup)
    {k : ℕ} {ip : Str} (hk : ips[k]? = some ip) :
    (renumberFrom i ips nodes).get? ip = some (i + k) := by
  induction ips generalizing i nodes k with
  | nil => exact absurd hk (by simp)
  | cons x ips ih =>
    obtain ⟨hx, hnodup⟩ := List.nodup_cons.mp h
    rw [renumberFrom]
    cases k with
    | zero =>
      obtain rfl : x = ip := by simpa using hk
      rw [get?_renumberFrom_of_not_mem _ hx, OrderedDict.get?_set_self]
      simp
    | succ k =>
      rw [ih (i + 1) hnodup (by simpa using hk)]
      congr 1
      omega

theorem keys_renumber (nodes : OrderedDict Str ℤ) : (renumber nodes).keys = nodes.keys :=
  keys_renumberFrom 1 fun _ h => h

theorem length_renumber (nodes : OrderedDict Str ℤ) : (renumber nodes).length = nodes.length := by
  rw [← OrderedDict.length_keys, keys_renumber, OrderedDict.length_keys]

/-- `removeNode` leaves no gap in the ranks. -/
theorem ranked_renumber (nodes : OrderedDict Str ℤ) : Ranked (renumber nodes) := by
  intro i ip h
  rw [keys_renumber] at h
  rw [renumber, get?_renumberFrom 1 nodes.keys_nodup h]
  congr 1
  omega

/-- A new node with the next rank. -/
theorem ranked_set {nodes : OrderedDict Str ℤ} (h : Ranked nodes) {ip : Str} (hip : ip ∉ nodes.keys) :
    Ranked (nodes.set ip (nodes.length + 1)) := by
  intro i x hx
  rw [OrderedDict.keys_set, if_neg hip] at hx
  rw [OrderedDict.get?_set]
  by_cases hi : i < nodes.keys.length
  · rw [List.getElem?_append_left hi] at hx
    have hne : ip ≠ x := by
      rintro rfl
      exact hip (List.mem_of_getElem? hx)
    rw [if_neg hne]
    exact h i x hx
  · rw [List.getElem?_append_right (by omega), List.getElem?_singleton] at hx
    split at hx
    · rename_i h0
      have hlen : i = nodes.length := by
        rw [← OrderedDict.length_keys]
        omega
      rw [if_pos (Option.some.inj hx), hlen]
    · exact absurd hx (by simp)

/-- What the loop of `_register_and_load_nodes` keeps. -/
theorem foldl_registerFile {files : List Str} {acc : OrderedDict Str ℤ × ℤ}
    (hnodup : (acc.1.keys ++ files.map strip).Nodup) (hne : ∀ file ∈ files, strip file ≠ [])
    (hranked : Ranked acc.1) (hlen : acc.2 = acc.1.length) :
    let out := (files.map some).foldl registerFile acc
    out.1.keys = acc.1.keys ++ files.map strip ∧ Ranked out.1 ∧ out.2 = out.1.length := by
  induction files generalizing acc with
  | nil => exact ⟨by simp, hranked, hlen⟩
  | cons file files ih =>
    rw [List.map_cons, List.append_cons] at hnodup
    have hnew : strip file ∉ acc.1.keys := fun hmem =>
      (List.nodup_append.mp (List.nodup_append.mp hnodup).1).2.2 _ hmem _ (by simp) rfl
    have hstep : registerFile acc (some file) = (acc.1.set (strip file) (acc.2 + 1), acc.2 + 1) :=
      if_neg (hne file (by simp))
    have hkeys : (acc.1.set (strip file) (acc.2 + 1)).keys = acc.1.keys ++ [strip file] := by
      rw [OrderedDict.keys_set, if_neg hnew]
    have hlength : (acc.1.set (strip file) (acc.2 + 1)).length = acc.1.length + 1 := by
      rw [← OrderedDict.length_keys, hkeys, List.length_append, OrderedDict.length_keys]
      rfl
    have hgo := @ih (acc.1.set (strip file) (acc.2 + 1), acc.2 + 1)
      (by rw [hkeys]; exact hnodup) (fun f hf => hne f (by simp [hf]))
      (by rw [hlen]; exact ranked_set hranked hnew) (by rw [hlength, hlen]; rfl)
    rw [hkeys, ← List.append_cons, ← List.map_cons] at hgo
    rw [List.map_cons, List.foldl_cons, hstep]
    exact hgo

/-- A node list of distinct addresses is registered as it stands. -/
theorem registerNodes_eq {selfIp : Str} {files : List Str} (hself : selfIp ∈ files.map strip)
    (hnodup : (files.map strip).Nodup) (hne : ∀ file ∈ files, strip file ≠ []) :
    let out := registerNodes selfIp (files.map some)
    out.1.keys = files.map strip ∧ Ranked out.1 ∧ out.2 = out.1.length := by
  have hgo := @foldl_registerFile files (.empty, 0) hnodup hne
    (fun i ip h => absurd h (by simp [OrderedDict.keys, OrderedDict.empty])) rfl
  have hpos : ((files.map some).foldl registerFile (.empty, 0)).1.length ≠ 0 := by
    rw [← OrderedDict.length_keys, hgo.1]
    exact Nat.ne_of_gt (List.length_pos_of_mem (List.mem_append_right _ hself))
  unfold registerNodes
  rw [if_neg hpos]
  exact hgo

end States

/-! ### The values of the map -/

/-- The ranks of a map in which they follow the order. -/
theorem values_of_ranked {nodes : OrderedDict Str ℤ} (h : States.Ranked nodes) :
    nodes.values = (List.range nodes.length).map fun i : ℕ => (i : ℤ) + 1 := by
  apply List.ext_getElem?
  intro i
  unfold OrderedDict.values OrderedDict.length
  rw [List.getElem?_map, List.getElem?_map]
  by_cases hi : i < nodes.entries.length
  · have hentry : nodes.entries[i]? = some nodes.entries[i] := List.getElem?_eq_getElem hi
    have hkey : nodes.keys[i]? = some nodes.entries[i].1 := by
      unfold OrderedDict.keys
      rw [List.getElem?_map, hentry]
      rfl
    have hvalue : nodes.get? nodes.entries[i].1 = some nodes.entries[i].2 :=
      OrderedDict.get?_of_mem (List.getElem_mem hi)
    rw [hentry, List.getElem?_range hi, Option.map_some, Option.map_some, ← hvalue]
    exact h i _ hkey
  · rw [List.getElem?_eq_none (by omega), List.getElem?_eq_none (by simpa using hi)]
    rfl

theorem mem_range_rank {n : ℕ} {r : ℤ} :
    (r ∈ (List.range n).map fun i : ℕ => (i : ℤ) + 1) ↔ 1 ≤ r ∧ r ≤ n := by
  rw [List.mem_map]
  constructor
  · rintro ⟨i, hi, rfl⟩
    have := List.mem_range.mp hi
    omega
  · rintro ⟨h1, h2⟩
    refine ⟨(r - 1).toNat, List.mem_range.mpr (by omega), by omega⟩

/-- Ranks that follow the order are 1, ..., n, each once. -/
theorem ranks_of_ranked {nodes : OrderedDict Str ℤ} (h : States.Ranked nodes) :
    nodes.values.Nodup ∧ ∀ r, r ∈ nodes.values ↔ 1 ≤ r ∧ r ≤ nodes.length := by
  rw [values_of_ranked h]
  refine ⟨?_, fun r => mem_range_rank⟩
  apply List.Nodup.map _ List.nodup_range
  intro i j hij
  have hcast : (i : ℤ) + 1 = (j : ℤ) + 1 := hij
  omega

end DsDns
