/-
  How nodes discover each other.

  `addresses` is what the `self_ip_*.txt` files name: a file that is blank or cannot be read names nothing.
  The rank counter of `_register_and_load_nodes` goes up with every address, the map grows with every new
  one only, and a node that no file names is not in the map. So the ranking is proper, and the same at every
  node, exactly if the addresses are different and name all the nodes (`discovery_proper_iff`).
-/
import DsDns.DataPlane.Equiv.State
import DsDns.Text.Equiv.Basic
import Mathlib.Data.List.Dedup
import Mathlib.Data.Set.Insert

namespace DsDns

namespace States

theorem fileAddress_some (text : Str) :
    fileAddress (some text) = if strip text = [] then none else some (strip text) := rfl

/-- The ranking of a node: it is in its own map, the ranks are 1, ..., n, each once, and the two counters
are the number of nodes. -/
structure Proper (s : States) : Prop where
  self_mem : s.selfIp ∈ s.nodes.keys
  distinct : s.nodes.values.Nodup
  ranks : ∀ r, r ∈ s.nodes.values ↔ 1 ≤ r ∧ r ≤ s.nodes.length
  lastRank : s.lastRank = s.nodes.length
  mLastRank : s.mLastRank = s.nodes.length

/-! ### The loop over the files -/

theorem strip_of_mem_addresses {files : List (Option Str)} {ip : Str} (h : ip ∈ addresses files) :
    strip ip = ip ∧ ip ≠ [] := by
  obtain ⟨file, -, hfile⟩ := List.mem_filterMap.mp h
  cases file with
  | none => exact absurd hfile (by simp [fileAddress])
  | some text =>
    rw [fileAddress_some] at hfile
    split at hfile
    · exact absurd hfile (by simp)
    · rename_i hne
      obtain rfl := Option.some.inj hfile
      exact ⟨strip_strip text, hne⟩

theorem registerFile_eq (acc : OrderedDict Str ℤ × ℤ) (file : Option Str) : registerFile acc file =
    match fileAddress file with
    | none => acc
    | some ip => (acc.1.set ip (acc.2 + 1), acc.2 + 1) := by
  cases file with
  | none => rfl
  | some text =>
    rw [fileAddress_some]
    show (if strip text = [] then acc else _) = _
    split <;> rfl

/-- A file that holds an address as it is. -/
theorem registerFile_address {ip : Str} (h : strip ip = ip ∧ ip ≠ []) (acc : OrderedDict Str ℤ × ℤ) :
    registerFile acc (some ip) = (acc.1.set ip (acc.2 + 1), acc.2 + 1) := by
  unfold registerFile
  simp only [h.1]
  rw [if_neg h.2]

/-- Only the addresses matter. -/
theorem foldl_registerFile_addresses (files : List (Option Str)) (acc : OrderedDict Str ℤ × ℤ) :
    files.foldl registerFile acc = ((addresses files).map some).foldl registerFile acc := by
  induction files generalizing acc with
  | nil => rfl
  | cons file files ih =>
    rw [List.foldl_cons, ih]
    cases hfile : fileAddress file with
    | none =>
      have haddresses : addresses (file :: files) = addresses files := List.filterMap_cons_none hfile
      rw [haddresses, registerFile_eq, hfile]
    | some ip =>
      have haddresses : addresses (file :: files) = ip :: addresses files := List.filterMap_cons_some hfile
      have hip := strip_of_mem_addresses (show ip ∈ addresses (file :: files) by simp [haddresses])
      rw [haddresses, List.map_cons, List.foldl_cons, registerFile_address hip, registerFile_eq acc file,
        hfile]

/-- Every address takes a rank, also one that is in the map already. -/
theorem registered (ips : List Str) (hips : ∀ ip ∈ ips, strip ip = ip ∧ ip ≠ [])
    (acc : OrderedDict Str ℤ × ℤ) :
    ((ips.map some).foldl registerFile acc).2 = acc.2 + ips.length ∧
      ∀ x, x ∈ ((ips.map some).foldl registerFile acc).1.keys ↔ x ∈ acc.1.keys ∨ x ∈ ips := by
  induction ips generalizing acc with
  | nil => exact ⟨by simp, by simp⟩
  | cons ip ips ih =>
    obtain ⟨hip, hips⟩ := List.forall_mem_cons.mp hips
    obtain ⟨hcount, hkeys⟩ := ih hips (acc.1.set ip (acc.2 + 1), acc.2 + 1)
    rw [List.map_cons, List.foldl_cons, registerFile_address hip]
    constructor
    · rw [hcount, List.length_cons]
      push_cast
      omega
    · intro x
      rw [hkeys, OrderedDict.mem_keys_set, List.mem_cons]
      tauto

/-! ### The map of a directory -/

/-- Where no file names an address, the node is alone. -/
theorem registerNodes_of_nil {files : List (Option Str)} (h : addresses files = []) (selfIp : Str) :
    registerNodes selfIp files = (OrderedDict.empty.set selfIp 1, 1) := by
  unfold registerNodes
  rw [foldl_registerFile_addresses, h]
  rfl

/-- Otherwise the map does not depend on the node. -/
theorem registerNodes_of_ne_nil {files : List (Option Str)} (h : addresses files ≠ []) (selfIp : Str) :
    registerNodes selfIp files = ((addresses files).map some).foldl registerFile (.empty, 0) := by
  obtain ⟨-, hkeys⟩ := registered (addresses files) (fun _ => strip_of_mem_addresses) (.empty, 0)
  obtain ⟨ip, hip⟩ := List.exists_mem_of_ne_nil _ h
  have hpos : (((addresses files).map some).foldl registerFile (.empty, 0)).1.length ≠ 0 := by
    rw [← OrderedDict.length_keys]
    exact Nat.ne_of_gt (List.length_pos_of_mem ((hkeys ip).mpr (Or.inr hip)))
  unfold registerNodes
  rw [foldl_registerFile_addresses, if_neg hpos]

/-- The nodes of the map are the addresses, and the counter is their number with repetitions. -/
theorem registerNodes_keys {files : List (Option Str)} (h : addresses files ≠ []) (selfIp : Str) :
    (∀ x, x ∈ (registerNodes selfIp files).1.keys ↔ x ∈ addresses files) ∧
      (registerNodes selfIp files).2 = (addresses files).length := by
  obtain ⟨hcount, hkeys⟩ := registered (addresses files) (fun _ => strip_of_mem_addresses) (.empty, 0)
  rw [registerNodes_of_ne_nil h]
  constructor
  · intro x
    rw [hkeys]
    exact or_iff_right List.not_mem_nil
  · rw [hcount]
    omega

/-- The counter is the number of nodes if no address comes twice. -/
theorem registerNodes_length_iff {files : List (Option Str)} (h : addresses files ≠ []) (selfIp : Str) :
    (registerNodes selfIp files).2 = (registerNodes selfIp files).1.length ↔ (addresses files).Nodup := by
  obtain ⟨hkeys, hcount⟩ := registerNodes_keys h selfIp
  have hperm : (registerNodes selfIp files).1.keys.Perm (addresses files).dedup := by
    apply (List.perm_ext_iff_of_nodup (OrderedDict.keys_nodup _) (List.nodup_dedup _)).mpr
    intro x
    rw [hkeys, List.mem_dedup]
  have hlength := hperm.length_eq
  rw [OrderedDict.length_keys] at hlength
  rw [hcount, hlength, Nat.cast_inj]
  constructor
  · intro heq
    have hsame := (List.dedup_sublist (addresses files)).eq_of_length heq.symm
    exact List.dedup_eq_self.mp hsame
  · intro hnodup
    rw [hnodup.dedup]

theorem ranked_registerNodes {files : List (Option Str)} (h : addresses files ≠ [])
    (hnodup : (addresses files).Nodup) (selfIp : Str) : Ranked (registerNodes selfIp files).1 := by
  have hstrip : (addresses files).map strip = addresses files := by
    conv_rhs => rw [← List.map_id (addresses files)]
    exact List.map_congr_left fun ip hip => (strip_of_mem_addresses hip).1
  rw [registerNodes_of_ne_nil h]
  have hgo := @foldl_registerFile (addresses files) (.empty, 0) (by rw [hstrip]; exact hnodup)
    (fun ip hip => by rw [(strip_of_mem_addresses hip).1]; exact (strip_of_mem_addresses hip).2)
    (fun i ip hi => absurd hi (by simp [OrderedDict.keys, OrderedDict.empty])) rfl
  exact hgo.2.1

/-! ### The ranking -/

theorem init_ranking (selfIp : Str) (files : List (Option Str)) :
    (init selfIp files).selfIp = selfIp ∧ (init selfIp files).nodes = (registerNodes selfIp files).1 ∧
      (init selfIp files).rank = ((registerNodes selfIp files).1.get? selfIp).getD 1 ∧
      (init selfIp files).lastRank = (registerNodes selfIp files).2 ∧
      (init selfIp files).mLastRank = (registerNodes selfIp files).2 := by
  obtain ⟨p, hp⟩ := init_eq selfIp files
  rw [hp]
  exact ⟨rfl, rfl, rfl, rfl, rfl⟩

/-- Alone, a node has the only rank. -/
theorem proper_of_nil {files : List (Option Str)} (h : addresses files = []) (selfIp : Str) :
    Proper (init selfIp files) := by
  obtain ⟨hself, hnodes, -, hlast, hmLast⟩ := init_ranking selfIp files
  rw [registerNodes_of_nil h] at hnodes hlast hmLast
  have hvalues : (init selfIp files).nodes.values = [1] := by
    rw [hnodes]
    rfl
  have hlength : (init selfIp files).nodes.length = 1 := by
    rw [hnodes]
    rfl
  constructor
  · rw [hself, hnodes]
    exact List.mem_singleton_self selfIp
  · rw [hvalues]
    exact List.nodup_singleton 1
  · intro r
    rw [hvalues, hlength, List.mem_singleton]
    omega
  · rw [hlast, hlength]
    rfl
  · rw [hmLast, hlength]
    rfl

theorem proper_iff {files : List (Option Str)} (h : addresses files ≠ []) (selfIp : Str) :
    Proper (init selfIp files) ↔ (addresses files).Nodup ∧ selfIp ∈ addresses files := by
  obtain ⟨hself, hnodes, -, hlast, hmLast⟩ := init_ranking selfIp files
  have hkeys := (registerNodes_keys h selfIp).1
  have hlength := registerNodes_length_iff h selfIp
  constructor
  · intro hproper
    have hmem := hproper.self_mem
    have hcount := hproper.lastRank
    rw [hself, hnodes, hkeys] at hmem
    rw [hlast, hnodes, hlength] at hcount
    exact ⟨hcount, hmem⟩
  · rintro ⟨hnodup, hmem⟩
    obtain ⟨hdistinct, hranks⟩ := ranks_of_ranked (ranked_registerNodes h hnodup selfIp)
    constructor
    · rw [hself, hnodes, hkeys]
      exact hmem
    · rw [hnodes]
      exact hdistinct
    · rw [hnodes]
      exact hranks
    · rw [hlast, hnodes]
      exact hlength.mpr hnodup
    · rw [hmLast, hnodes]
      exact hlength.mpr hnodup

/-- In a map whose ranks follow the order, different nodes have different ranks. -/
theorem ne_rank_of_ranked {nodes : OrderedDict Str ℤ} (h : Ranked nodes) {ip ip' : Str}
    (hip : ip ∈ nodes.keys) (hip' : ip' ∈ nodes.keys) (hne : ip ≠ ip') :
    (nodes.get? ip).getD 1 ≠ (nodes.get? ip').getD 1 := by
  obtain ⟨i, hi⟩ := List.mem_iff_getElem?.mp hip
  obtain ⟨j, hj⟩ := List.mem_iff_getElem?.mp hip'
  rw [h i ip hi, h j ip' hj, Option.getD_some, Option.getD_some]
  intro heq
  obtain rfl : i = j := by omega
  exact hne (Option.some.inj (hi.symm.trans hj))

/-- **The discovery yields a proper ranking**, the same at all nodes that read the directory, exactly if
the files name different addresses and all of the nodes, or no file names an address and there is one node. -/
theorem discovery_proper_iff (files : List (Option Str)) {ips : Set Str} (hips : ips.Nonempty) :
    ((∀ ip ∈ ips, Proper (init ip files)) ∧ ∀ ip ∈ ips, ∀ ip' ∈ ips, ip ≠ ip' →
      (init ip files).nodes = (init ip' files).nodes ∧ (init ip files).rank ≠ (init ip' files).rank) ↔
    ((addresses files).Nodup ∧ ∀ ip ∈ ips, ip ∈ addresses files) ∨
      (addresses files = [] ∧ ∀ ip ∈ ips, ∀ ip' ∈ ips, ip = ip') := by
  by_cases hnil : addresses files = []
  · rw [hnil]
    constructor
    · rintro ⟨-, hsame⟩
      refine Or.inr ⟨rfl, fun ip hip ip' hip' => ?_⟩
      by_contra hne
      have hnodes := (hsame ip hip ip' hip' hne).1
      rw [(init_ranking ip files).2.1, (init_ranking ip' files).2.1, registerNodes_of_nil hnil,
        registerNodes_of_nil hnil] at hnodes
      -- Each of the two knows itself only.
      have hkeys : [ip] = [ip'] := congrArg OrderedDict.keys hnodes
      exact hne (List.cons.inj hkeys).1
    · intro h
      refine ⟨fun ip _ => proper_of_nil hnil ip, fun ip hip ip' hip' hne => ?_⟩
      rcases h with ⟨-, hall⟩ | ⟨-, hone⟩
      · exact absurd (hall ip hip) List.not_mem_nil
      · exact absurd (hone ip hip ip' hip') hne
  · constructor
    · rintro ⟨hproper, -⟩
      obtain ⟨ip, hip⟩ := hips
      have hnodup := ((proper_iff hnil ip).mp (hproper ip hip)).1
      exact Or.inl ⟨hnodup, fun x hx => ((proper_iff hnil x).mp (hproper x hx)).2⟩
    · intro h
      obtain ⟨hnodup, hall⟩ := h.resolve_right fun hno => hnil hno.1
      refine ⟨fun ip hip => (proper_iff hnil ip).mpr ⟨hnodup, hall ip hip⟩, fun ip hip ip' hip' hne => ?_⟩
      obtain ⟨-, hnodes, hrank, -⟩ := init_ranking ip files
      obtain ⟨-, hnodes', hrank', -⟩ := init_ranking ip' files
      have hsame : registerNodes ip files = registerNodes ip' files := by
        rw [registerNodes_of_ne_nil hnil, registerNodes_of_ne_nil hnil]
      have hkeys := (registerNodes_keys hnil ip).1
      rw [hnodes, hnodes', hrank, hrank', ← hsame]
      exact ⟨rfl, ne_rank_of_ranked (ranked_registerNodes hnil hnodup ip) ((hkeys ip).mpr (hall ip hip))
        ((hkeys ip').mpr (hall ip' hip')) hne⟩

/-- The files of two nodes, beside a blank file and one that cannot be read. -/
def mixedFiles : List (Option Str) :=
  [some "10.0.0.1\n".toList, some " ".toList, none, some "10.0.0.2\n".toList]

theorem discovery_proper_iff_two :
    ((∀ ip ∈ ({"10.0.0.1".toList, "10.0.0.2".toList} : Set Str), Proper (init ip mixedFiles)) ∧
      ∀ ip ∈ ({"10.0.0.1".toList, "10.0.0.2".toList} : Set Str),
        ∀ ip' ∈ ({"10.0.0.1".toList, "10.0.0.2".toList} : Set Str), ip ≠ ip' →
          (init ip mixedFiles).nodes = (init ip' mixedFiles).nodes ∧
            (init ip mixedFiles).rank ≠ (init ip' mixedFiles).rank) ↔
    ((addresses mixedFiles).Nodup ∧
        ∀ ip ∈ ({"10.0.0.1".toList, "10.0.0.2".toList} : Set Str), ip ∈ addresses mixedFiles) ∨
      (addresses mixedFiles = [] ∧ ∀ ip ∈ ({"10.0.0.1".toList, "10.0.0.2".toList} : Set Str),
        ∀ ip' ∈ ({"10.0.0.1".toList, "10.0.0.2".toList} : Set Str), ip = ip') :=
  discovery_proper_iff mixedFiles ⟨_, Set.mem_insert _ _⟩

/-- The files of two nodes, the first of which has left another file behind. -/
def repeatedFiles : List (Option Str) :=
  [some "10.0.0.1\n".toList, some "10.0.0.1\n".toList, some "10.0.0.2\n".toList]

/-- There are two nodes, and the last rank is 3. -/
theorem not_proper_repeated :
    (init "10.0.0.1".toList repeatedFiles).nodes.length = 2 ∧
    (init "10.0.0.1".toList repeatedFiles).lastRank = 3 ∧
    ¬ Proper (init "10.0.0.1".toList repeatedFiles) := by
  refine ⟨by decide, by decide, fun h => ?_⟩
  exact absurd h.lastRank (by decide)

end States

end DsDns
