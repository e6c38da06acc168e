/-
  Insertion-ordered dictionaries, the `dict` and `OrderedDict` of Python.

  A dictionary is the list of its entries, in order, together with the proof that no key occurs
  twice, so that an entry list that is no dictionary cannot be built. Assigning to a present key
  keeps its place; assigning to a new key appends it. `moveToEnd` and `popFirst` are the two
  reordering operations of `collections.OrderedDict`.

  `get?_set`, `get?_erase` and `keys_set` are what the users of a dictionary rewrite with.
-/
import Mathlib.Data.List.Nodup
import Mathlib.Tactic.TypeStar

namespace DsDns

/-- A dictionary in insertion order. -/
structure OrderedDict (κ ν : Type*) where
  /-- The entries, oldest first. -/
  entries : List (κ × ν)
  /-- No key occurs twice. -/
  nodupKeys : (entries.map Prod.fst).Nodup

namespace OrderedDict

variable {κ ν : Type*}

theorem ext {d e : OrderedDict κ ν} (h : d.entries = e.entries) : d = e := by
  cases d; cases e; cases h; rfl

/-- `list(d.keys())`. -/
def keys (d : OrderedDict κ ν) : List κ := d.entries.map Prod.fst

/-- `list(d.values())`. -/
def values (d : OrderedDict κ ν) : List ν := d.entries.map Prod.snd

/-- `{}`. -/
def empty : OrderedDict κ ν := ⟨[], List.nodup_nil⟩

instance : EmptyCollection (OrderedDict κ ν) := ⟨empty⟩

/-- `len(d)`. -/
def length (d : OrderedDict κ ν) : ℕ := d.entries.length

theorem keys_nodup (d : OrderedDict κ ν) : d.keys.Nodup := d.nodupKeys

@[simp] theorem length_keys (d : OrderedDict κ ν) : d.keys.length = d.length := by
  simp [keys, length]

/-- `d.popitem(last=False)`: drop the oldest entry. -/
def popFirst (d : OrderedDict κ ν) : OrderedDict κ ν :=
  ⟨d.entries.tail, by rw [List.map_tail]; exact d.nodupKeys.tail⟩

variable [DecidableEq κ]

instance [DecidableEq ν] : DecidableEq (OrderedDict κ ν) := fun d e =>
  decidable_of_iff (d.entries = e.entries) ⟨ext, fun h => h ▸ rfl⟩

/-- The value of a key in an entry list. -/
def lookup (k : κ) : List (κ × ν) → Option ν
  | [] => none
  | (k', v) :: es => if k' = k then some v else lookup k es

/-- `d.get(k)`. -/
def get? (d : OrderedDict κ ν) (k : κ) : Option ν := lookup k d.entries

/-- `k in d`. -/
def contains (d : OrderedDict κ ν) (k : κ) : Bool := d.keys.contains k

/-- Overwrite a key's value in place, or append the entry. -/
def setEntry (k : κ) (v : ν) : List (κ × ν) → List (κ × ν)
  | [] => [(k, v)]
  | (k', v') :: es => if k' = k then (k, v) :: es else (k', v') :: setEntry k v es

theorem map_fst_setEntry (k : κ) (v : ν) (es : List (κ × ν)) :
    (setEntry k v es).map Prod.fst =
      if k ∈ es.map Prod.fst then es.map Prod.fst else es.map Prod.fst ++ [k] := by
  induction es with
  | nil => rfl
  | cons e es ih =>
    obtain ⟨k', v'⟩ := e
    rw [setEntry]
    by_cases hk : k' = k
    · simp [hk]
    · rw [if_neg hk, List.map_cons, ih, List.map_cons]
      simp only [List.mem_cons, Ne.symm hk, false_or]
      split <;> rfl

/-- `d[k] = v`. -/
def set (d : OrderedDict κ ν) (k : κ) (v : ν) : OrderedDict κ ν where
  entries := setEntry k v d.entries
  nodupKeys := by
    rw [map_fst_setEntry]
    split
    · exact d.nodupKeys
    · rename_i hk
      exact List.nodup_append.mpr ⟨d.nodupKeys, List.nodup_singleton k,
        fun a ha b hb => by rw [List.mem_singleton.mp hb]; rintro rfl; exact hk ha⟩

/-- `del d[k]`, and `d.pop(k, None)`. -/
def erase (d : OrderedDict κ ν) (k : κ) : OrderedDict κ ν where
  entries := d.entries.filter fun e => e.1 ≠ k
  nodupKeys := d.nodupKeys.sublist (List.filter_sublist.map Prod.fst)

/-- `d.move_to_end(k)` for a present key; nothing moves for an absent one. -/
def moveToEnd (d : OrderedDict κ ν) (k : κ) : OrderedDict κ ν :=
  match d.get? k with
  | none => d
  | some v => (d.erase k).set k v

/-! ### Keys -/

@[simp] theorem contains_iff {d : OrderedDict κ ν} {k : κ} : d.contains k = true ↔ k ∈ d.keys := by
  simp [contains]

@[simp] theorem contains_eq_false_iff {d : OrderedDict κ ν} {k : κ} :
    d.contains k = false ↔ k ∉ d.keys := by
  simp [contains]

theorem keys_set (d : OrderedDict κ ν) (k : κ) (v : ν) :
    (d.set k v).keys = if k ∈ d.keys then d.keys else d.keys ++ [k] :=
  map_fst_setEntry k v d.entries

theorem keys_erase (d : OrderedDict κ ν) (k : κ) :
    (d.erase k).keys = d.keys.filter fun x => x ≠ k := by
  simp [keys, erase, List.filter_map, Function.comp_def]

theorem mem_keys_set {d : OrderedDict κ ν} {k x : κ} {v : ν} :
    x ∈ (d.set k v).keys ↔ x = k ∨ x ∈ d.keys := by
  rw [keys_set]
  split
  · rename_i hk
    exact ⟨Or.inr, fun h => h.elim (fun e => e ▸ hk) id⟩
  · simp [or_comm]

theorem mem_keys_erase {d : OrderedDict κ ν} {k x : κ} :
    x ∈ (d.erase k).keys ↔ x ∈ d.keys ∧ x ≠ k := by
  simp [keys_erase]

/-! ### Values -/

theorem lookup_eq_none_iff {k : κ} {es : List (κ × ν)} :
    lookup k es = none ↔ k ∉ es.map Prod.fst := by
  induction es with
  | nil => simp [lookup]
  | cons e es ih =>
    obtain ⟨k', v⟩ := e
    by_cases hk : k' = k
    · simp [lookup, hk]
    · simp [lookup, hk, Ne.symm hk, ih]

theorem get?_eq_none_iff {d : OrderedDict κ ν} {k : κ} : d.get? k = none ↔ k ∉ d.keys :=
  lookup_eq_none_iff

theorem get?_isSome_iff {d : OrderedDict κ ν} {k : κ} : (d.get? k).isSome ↔ k ∈ d.keys := by
  rw [← not_iff_not, ← get?_eq_none_iff]
  simp

theorem mem_keys_of_get?_eq_some {d : OrderedDict κ ν} {k : κ} {v : ν} (h : d.get? k = some v) :
    k ∈ d.keys :=
  get?_isSome_iff.mp (by rw [h]; rfl)

theorem lookup_setEntry (k x : κ) (v : ν) (es : List (κ × ν)) :
    lookup x (setEntry k v es) = if k = x then some v else lookup x es := by
  induction es with
  | nil => rfl
  | cons e es ih =>
    obtain ⟨k', v'⟩ := e
    rw [setEntry]
    by_cases hk : k' = k
    · subst hk
      rw [if_pos rfl, lookup, lookup]
      split <;> rfl
    · rw [if_neg hk, lookup, lookup, ih]
      by_cases hx : k' = x
      · rw [if_pos hx, if_neg (by rintro rfl; exact hk hx), if_pos hx]
      · rw [if_neg hx, if_neg hx]

@[simp] theorem get?_set (d : OrderedDict κ ν) (k x : κ) (v : ν) :
    (d.set k v).get? x = if k = x then some v else d.get? x :=
  lookup_setEntry k x v d.entries

theorem get?_set_self (d : OrderedDict κ ν) (k : κ) (v : ν) : (d.set k v).get? k = some v := by
  rw [get?_set, if_pos rfl]

theorem lookup_filter_ne (k x : κ) (es : List (κ × ν)) :
    lookup x (es.filter fun e => e.1 ≠ k) = if k = x then none else lookup x es := by
  induction es with
  | nil => simp [lookup]
  | cons e es ih =>
    obtain ⟨k', v⟩ := e
    by_cases hk : k' = k
    · subst hk
      rw [List.filter_cons_of_neg (by simp), ih, lookup]
      split <;> simp_all
    · rw [List.filter_cons_of_pos (by simpa using hk), lookup, lookup, ih]
      by_cases hx : k' = x
      · rw [if_pos hx, if_neg (by rintro rfl; exact hk hx), if_pos hx]
      · rw [if_neg hx, if_neg hx]

@[simp] theorem get?_erase (d : OrderedDict κ ν) (k x : κ) :
    (d.erase k).get? x = if k = x then none else d.get? x :=
  lookup_filter_ne k x d.entries

theorem setEntry_of_not_mem {k : κ} {es : List (κ × ν)} (h : k ∉ es.map Prod.fst) (v : ν) :
    setEntry k v es = es ++ [(k, v)] := by
  induction es with
  | nil => rfl
  | cons e es ih =>
    rw [List.map_cons, List.mem_cons, not_or] at h
    rw [setEntry, if_neg (Ne.symm h.1), ih h.2]
    rfl

theorem length_erase_of_mem {d : OrderedDict κ ν} {k : κ} (h : k ∈ d.keys) :
    (d.erase k).length + 1 = d.length := by
  have hkeys : (d.erase k).keys = d.keys.erase k := by
    rw [keys_erase, d.keys_nodup.erase_eq_filter]
    apply List.filter_congr
    intro x _
    rw [bne, decide_not]
    rfl
  have hpos := List.length_pos_of_mem h
  rw [← length_keys, hkeys, List.length_erase_of_mem h, ← length_keys]
  omega

/-- A new key comes last. -/
theorem values_set_of_not_mem {d : OrderedDict κ ν} {k : κ} (h : k ∉ d.keys) (v : ν) :
    (d.set k v).values = d.values ++ [v] := by
  show (setEntry k v d.entries).map Prod.snd = _
  rw [setEntry_of_not_mem h, List.map_append]
  rfl

theorem length_set_of_not_mem {d : OrderedDict κ ν} {k : κ} (h : k ∉ d.keys) (v : ν) :
    (d.set k v).length = d.length + 1 := by
  show (setEntry k v d.entries).length = _
  rw [setEntry_of_not_mem h, List.length_append]
  rfl

theorem lookup_of_mem {es : List (κ × ν)} (hnodup : (es.map Prod.fst).Nodup) {k : κ} {v : ν}
    (h : (k, v) ∈ es) : lookup k es = some v := by
  induction es with
  | nil => exact absurd h (by simp)
  | cons e es ih =>
    obtain ⟨hfresh, hnodup⟩ := List.nodup_cons.mp hnodup
    rcases List.mem_cons.mp h with rfl | h
    · exact if_pos rfl
    · have hne : e.1 ≠ k := by
        rintro rfl
        exact hfresh (List.mem_map.mpr ⟨_, h, rfl⟩)
      rw [lookup, if_neg hne, ih hnodup h]

/-- An entry is what its key is looked up to. -/
theorem get?_of_mem {d : OrderedDict κ ν} {k : κ} {v : ν} (h : (k, v) ∈ d.entries) :
    d.get? k = some v :=
  lookup_of_mem d.nodupKeys h

theorem mem_of_lookup {es : List (κ × ν)} {k : κ} {v : ν} (h : lookup k es = some v) : (k, v) ∈ es := by
  induction es with
  | nil => exact absurd h (by simp [lookup])
  | cons e es ih =>
    rw [lookup] at h
    split at h
    · rename_i hk
      rw [← hk, ← Option.some.inj h]
      exact List.mem_cons_self
    · exact List.mem_cons_of_mem _ (ih h)

theorem mem_entries_iff {d : OrderedDict κ ν} {k : κ} {v : ν} :
    (k, v) ∈ d.entries ↔ d.get? k = some v := ⟨get?_of_mem, mem_of_lookup⟩

@[simp] theorem get?_empty (k : κ) : (empty : OrderedDict κ ν).get? k = none := rfl

/-- Moving an entry changes no value. -/
@[simp] theorem get?_moveToEnd (d : OrderedDict κ ν) (k x : κ) :
    (d.moveToEnd k).get? x = d.get? x := by
  rw [moveToEnd]
  cases h : d.get? k with
  | none => rfl
  | some v =>
    simp only [get?_set, get?_erase]
    split
    · rename_i hk
      rw [← hk, h]
    · rfl

/-- The entry list with the key moved to the end, and there with the value `v`. -/
def toEnd (k : κ) (v : ν) (es : List (κ × ν)) : List (κ × ν) := (es.filter fun e => e.1 ≠ k) ++ [(k, v)]

theorem map_fst_toEnd (k : κ) (v : ν) (es : List (κ × ν)) :
    (toEnd k v es).map Prod.fst = ((es.map Prod.fst).filter fun x => x ≠ k) ++ [k] := by
  simp [toEnd, List.filter_map, Function.comp_def]

theorem not_mem_map_fst_filter_ne (k : κ) (es : List (κ × ν)) :
    k ∉ (es.filter fun e => e.1 ≠ k).map Prod.fst := by
  simp [List.mem_map, List.mem_filter]

theorem filter_ne_of_not_mem {k : κ} {es : List (κ × ν)} (h : k ∉ es.map Prod.fst) :
    (es.filter fun e => e.1 ≠ k) = es := by
  apply List.filter_eq_self.mpr
  intro e he
  apply decide_eq_true
  rintro rfl
  exact h (List.mem_map.mpr ⟨e, he, rfl⟩)

theorem entries_set_of_not_mem {d : OrderedDict κ ν} {k : κ} (h : k ∉ d.keys) (v : ν) :
    (d.set k v).entries = toEnd k v d.entries := by
  show setEntry k v d.entries = _
  rw [setEntry_of_not_mem h, toEnd, filter_ne_of_not_mem h]

theorem entries_moveToEnd {d : OrderedDict κ ν} {k : κ} {v : ν} (h : d.get? k = some v) :
    (d.moveToEnd k).entries = toEnd k v d.entries := by
  unfold moveToEnd
  rw [h]
  exact setEntry_of_not_mem (not_mem_map_fst_filter_ne k d.entries) v

/-- A subsequence stays one when the same key is moved to the end of both. -/
theorem toEnd_sublist {es fs : List (κ × ν)} (h : es.Sublist fs) (k : κ) (v : ν) :
    (toEnd k v es).Sublist (toEnd k v fs) :=
  (h.filter _).append (List.Sublist.refl [(k, v)])

/-- Assigning to the key moved last. -/
theorem entries_set_moveToEnd {d : OrderedDict κ ν} {k : κ} (h : k ∈ d.keys) (v : ν) :
    ((d.moveToEnd k).set k v).entries = toEnd k v d.entries := by
  obtain ⟨w, hw⟩ := Option.isSome_iff_exists.mp (get?_isSome_iff.mpr h)
  show setEntry k v (d.moveToEnd k).entries = _
  rw [entries_moveToEnd hw]
  generalize hes : (d.entries.filter fun e => e.1 ≠ k) = es
  have hfresh : k ∉ es.map Prod.fst := hes ▸ not_mem_map_fst_filter_ne k d.entries
  rw [toEnd, toEnd, hes]
  clear hes
  induction es with
  | nil => simp [setEntry]
  | cons e es ih =>
    rw [List.map_cons, List.mem_cons, not_or] at hfresh
    rw [List.cons_append, setEntry, if_neg (Ne.symm hfresh.1), ih hfresh.2]
    rfl

/-- Dropping the oldest entry takes its value away and no other. -/
theorem get?_popFirst (d : OrderedDict κ ν) (k : κ) :
    d.popFirst.get? k = if d.keys.head? = some k then none else d.get? k := by
  obtain ⟨es, hes⟩ := d
  cases es with
  | nil => rfl
  | cons e es =>
    obtain ⟨k', v'⟩ := e
    show lookup k es = if some k' = some k then none else if k' = k then some v' else lookup k es
    by_cases hk : k' = k
    · subst hk
      rw [if_pos rfl]
      exact lookup_eq_none_iff.mpr (List.nodup_cons.mp hes).1
    · rw [if_neg hk, if_neg fun h => hk (Option.some.inj h)]

/-- Dropping the oldest entry adds no value. -/
theorem get?_of_get?_popFirst {d : OrderedDict κ ν} {k : κ} {v : ν}
    (h : d.popFirst.get? k = some v) : d.get? k = some v := by
  rw [get?_popFirst] at h
  split at h
  · exact absurd h (by simp)
  · exact h

end OrderedDict

end DsDns
