/-
  What `json.dump` writes, `json.load` reads back.

  `units` undoes `escape` character by character (`units_escape`), `number` stops where the digits of an integer
  stop (`number_intStr`), and the recursion follows the recursion of `dump` (`value_dump`). A value the round trip
  keeps is `Plain`: no key of an object comes twice, and there is no floating-point number in it.
-/
import DsDns.Json.Basic
import DsDns.Text.Equiv.Basic

namespace DsDns

namespace Json

/-- A value without floating-point numbers whose objects are dictionaries. -/
inductive Plain : Json → Prop where
  | null : Plain null
  | bool (b : Bool) : Plain (bool b)
  | int (n : ℤ) : Plain (int n)
  | str (s : Str) : Plain (str s)
  | arr {vs : List Json} (h : ∀ v ∈ vs, Plain v) : Plain (arr vs)
  | obj {kvs : List (Str × Json)} (hkeys : (kvs.map Prod.fst).Nodup) (h : ∀ kv ∈ kvs, Plain kv.2) :
    Plain (obj kvs)

/-! ### White space -/

theorem skipBlanks_cons {c : Char} (h : isBlank c = false) (s : Str) : skipBlanks (c :: s) = c :: s :=
  List.dropWhile_cons_of_neg (by rw [h]; decide)

theorem skipBlanks_newline (w level : ℕ) (s : Str) : skipBlanks (newline w level ++ s) = skipBlanks s := by
  unfold skipBlanks newline
  rw [List.cons_append, List.dropWhile_cons_of_pos (by decide), List.dropWhile_append_of_pos]
  intro c hc
  rw [List.eq_of_mem_replicate hc]
  decide

/-! ### Strings -/

/-- The units a character is written with. -/
def charUnits (c : Char) : List ℕ :=
  if c.toNat < 0x10000 then [c.toNat]
  else [0xD800 + (c.toNat - 0x10000) / 0x400, 0xDC00 + (c.toNat - 0x10000) % 0x400]

theorem hexDigit_digitChar : ∀ d < 16, hexDigit (Nat.digitChar d) = some d := by decide

theorem units_unitEscape {u : ℕ} (hu : u < 0x10000) (s : Str) :
    units (unitEscape u ++ s) = (units s).map fun r => (u :: r.1, r.2) := by
  have hsum : 4096 * (u / 4096 % 16) + 256 * (u / 256 % 16) + 16 * (u / 16 % 16) + u % 16 = u := by omega
  have hex : hexUnit (Nat.digitChar (u / 4096 % 16)) (Nat.digitChar (u / 256 % 16))
      (Nat.digitChar (u / 16 % 16)) (Nat.digitChar (u % 16)) = some u := by
    unfold hexUnit
    rw [hexDigit_digitChar _ (by omega), hexDigit_digitChar _ (by omega), hexDigit_digitChar _ (by omega),
      hexDigit_digitChar _ (by omega)]
    exact congrArg some hsum
  show units ('\\' :: 'u' :: _ :: _ :: _ :: _ :: s) = _
  rw [units, hex]
  cases units s <;> rfl

theorem units_letter {c u : Char} (hc : c ≠ 'u') (hu : OrderedDict.lookup c backslash = some u) (s : Str) :
    units ('\\' :: c :: s) = (units s).map fun r => (u.toNat :: r.1, r.2) := by
  rw [units.eq_4 c s fun _ _ _ _ _ h => absurd h hc, hu]
  cases units s <;> rfl

theorem units_plain {c : Char} (hquote : c ≠ '"') (hslash : c ≠ '\\') (h : 32 ≤ c.toNat) (s : Str) :
    units (c :: s) = (units s).map fun r => (c.toNat :: r.1, r.2) := by
  rw [units.eq_5 c s (absurd · hquote) (fun _ _ _ _ _ h => absurd h hslash) fun _ _ h => absurd h hslash,
    if_neg (by omega)]
  cases units s <;> rfl

/-- `BACKSLASH` undoes `ESCAPE_DCT`. -/
theorem backslash_escapeDct : ∀ p ∈ escapeDct, p.2 ≠ 'u' ∧ OrderedDict.lookup p.2 backslash = some p.1 ∧
    p.1.toNat < 0x10000 := by decide

/-- **Reading undoes the escape of a character.** -/
theorem units_escape (c : Char) (s : Str) :
    units (escape c ++ s) = (units s).map fun r => (charUnits c ++ r.1, r.2) := by
  unfold escape
  split
  · rename_i letter h
    obtain ⟨hletter, hback, hplane⟩ := backslash_escapeDct _ (OrderedDict.mem_of_lookup h)
    rw [charUnits, if_pos hplane]
    exact units_letter hletter hback s
  rename_i hshort
  have hquote : c ≠ '"' := by
    rintro rfl
    exact absurd hshort (by decide)
  have hslash : c ≠ '\\' := by
    rintro rfl
    exact absurd hshort (by decide)
  split
  · rename_i hprint
    rw [charUnits, if_pos (by omega)]
    exact units_plain hquote hslash hprint.1 s
  split
  · rename_i hplane
    rw [charUnits, if_pos hplane]
    exact units_unitEscape hplane s
  · rename_i hplane
    -- The two halves of a surrogate pair.
    have hmax : c.toNat < 0x110000 := by
      rcases c.valid with h | h
      · have : c.toNat < 0xD800 := h
        omega
      · exact h.2
    rw [charUnits, if_neg hplane, List.append_assoc, units_unitEscape (by omega), units_unitEscape (by omega)]
    cases units s <;> rfl

theorem units_quoteTail (t s : Str) : units (quoteTail t ++ s) = some (t.flatMap charUnits, s) := by
  induction t with
  | nil => rfl
  | cons c t ih =>
    have hcons : quoteTail (c :: t) ++ s = escape c ++ (quoteTail t ++ s) := by simp [quoteTail]
    rw [hcons, units_escape, ih, Option.map_some, List.flatMap_cons]

theorem joinUnits_cons {u : ℕ} {c : Char} (hlead : ¬ (0xD800 ≤ u ∧ u ≤ 0xDBFF)) (hc : unitChar u = some c)
    (us : List ℕ) : joinUnits (u :: us) = (joinUnits us).map (c :: ·) := by
  cases us with
  | nil =>
    show (do let c ← unitChar u; some [c]) = _
    rw [hc]
    rfl
  | cons v us =>
    rw [joinUnits, if_neg fun h => hlead h.1, hc]
    cases joinUnits (v :: us) <;> rfl

/-- A character is what its units denote. -/
theorem joinUnits_charUnits (c : Char) (us : List ℕ) :
    joinUnits (charUnits c ++ us) = (joinUnits us).map (c :: ·) := by
  unfold charUnits
  split
  · -- A character is no half of a surrogate pair.
    have hvalid : c.toNat < 0xD800 ∨ 0xDFFF < c.toNat := by
      rcases c.valid with h | h
      · exact Or.inl h
      · exact Or.inr h.1
    refine joinUnits_cons (by omega) ?_ us
    rw [unitChar, if_neg (by omega), Char.ofNat_toNat]
  · rename_i hplane
    have hmax : c.toNat < 0x110000 := by
      rcases c.valid with h | h
      · have : c.toNat < 0xD800 := h
        omega
      · exact h.2
    show joinUnits (_ :: _ :: us) = _
    rw [joinUnits, if_pos (by omega)]
    have hsum : 0x10000 + (0xD800 + (c.toNat - 0x10000) / 0x400 - 0xD800) * 0x400 +
        (0xDC00 + (c.toNat - 0x10000) % 0x400 - 0xDC00) = c.toNat := by omega
    rw [hsum, Char.ofNat_toNat]
    cases joinUnits us <;> rfl

theorem joinUnits_flatMap (t : Str) : joinUnits (t.flatMap charUnits) = some t := by
  induction t with
  | nil => rfl
  | cons c t ih => rw [List.flatMap_cons, joinUnits_charUnits, ih, Option.map_some]

/-- **A string literal reads back.** -/
theorem stringTail_quoteTail (t s : Str) : stringTail (quoteTail t ++ s) = some (t, s) := by
  unfold stringTail
  rw [units_quoteTail]
  show (do let t ← joinUnits (t.flatMap charUnits); some (t, s)) = _
  rw [joinUnits_flatMap]
  rfl

/-! ### Numbers -/

/-- What follows a number does not belong to it. -/
def Ends (rest : Str) : Prop := ∀ c ∈ rest.head?, c.isDigit = false ∧ c ≠ '.' ∧ c ≠ 'e' ∧ c ≠ 'E'

theorem ends_nil : Ends [] := fun _ h => absurd h (by simp)

theorem ends_cons {c : Char} (h : c = ',' ∨ c = '\n') (s : Str) : Ends (c :: s) := by
  intro x hx
  obtain rfl := Option.some.inj hx
  rcases h with rfl | rfl <;> decide

theorem fraction_of_ends {rest : Str} (h : Ends rest) : fraction rest = [] := by
  cases rest with
  | nil => rfl
  | cons c s =>
    obtain ⟨-, hdot, -⟩ := h c rfl
    unfold fraction
    split
    · rename_i heq
      cases heq
      exact absurd rfl hdot
    · rfl

theorem exponent_of_ends {rest : Str} (h : Ends rest) : exponent rest = [] := by
  cases rest with
  | nil => rfl
  | cons c s =>
    obtain ⟨-, -, he, hE⟩ := h c rfl
    rw [exponent, if_neg (not_or.mpr ⟨he, hE⟩)]

/-- The digits of a positive number do not begin with a zero. -/
theorem toDigits_head (n : ℕ) (h : 0 < n) : ∃ c s, Nat.toDigits 10 n = c :: s ∧ c ≠ '0' := by
  induction n using Nat.strong_induction_on with
  | _ n ih =>
    rw [Nat.toDigits_eq_if (by decide)]
    split
    · rename_i hlt
      have hdigit : ∀ d < 10, 0 < d → Nat.digitChar d ≠ '0' := by decide
      exact ⟨_, [], rfl, hdigit n hlt h⟩
    · obtain ⟨c, s, hs, hc⟩ := ih (n / 10) (by omega) (by omega)
      exact ⟨c, s ++ [(n % 10).digitChar], by rw [hs]; rfl, hc⟩

theorem wholePart_toDigits (n : ℕ) {rest : Str} (h : Ends rest) :
    wholePart (Nat.toDigits 10 n ++ rest) = Nat.toDigits 10 n := by
  rcases Nat.eq_zero_or_pos n with rfl | hn
  · rw [Nat.toDigits_zero]
    rfl
  · obtain ⟨c, s, hs, hc⟩ := toDigits_head n hn
    have hdigits : ∀ x ∈ Nat.toDigits 10 n, x.isDigit = true := fun x hx =>
      Nat.isDigit_of_mem_toDigits (by decide) (by decide) hx
    have htake : (Nat.toDigits 10 n ++ rest).takeWhile Char.isDigit = Nat.toDigits 10 n := by
      rw [List.takeWhile_append_of_pos hdigits]
      cases rest with
      | nil => simp
      | cons x rest => rw [List.takeWhile_cons_of_neg (by rw [(h x rfl).1]; decide), List.append_nil]
    rw [hs] at htake ⊢
    rw [List.cons_append] at htake ⊢
    unfold wholePart
    split
    · rename_i heq
      cases heq
      exact absurd rfl hc
    · exact htake

/-- **An integer reads back.** -/
theorem number_intStr (n : ℤ) {rest : Str} (h : Ends rest) : number (intStr n ++ rest) = some (int n, rest) := by
  have hstep : ∀ m : ℕ, (Nat.toDigits 10 m ++ rest).drop (Nat.toDigits 10 m).length = rest := fun m => by simp
  cases n with
  | ofNat m =>
    have hsign : startsWith (Nat.toDigits 10 m ++ rest) ['-'] = false := by
      cases hs : Nat.toDigits 10 m with
      | nil => exact absurd hs Nat.toDigits_ne_nil
      | cons c s =>
        have hc : c.isDigit = true :=
          Nat.isDigit_of_mem_toDigits (by decide) (by decide) (show c ∈ Nat.toDigits 10 m by rw [hs]; simp)
        have hne : c ≠ '-' := by
          rintro rfl
          exact absurd hc (by decide)
        simp [startsWith, List.isPrefixOf, hne.symm]
    unfold number
    simp only [intStr, hsign, Bool.false_eq_true, if_false, List.length_nil, List.drop_zero,
      wholePart_toDigits m h, if_neg Nat.toDigits_ne_nil, hstep, fraction_of_ends h, Nat.add_zero,
      exponent_of_ends h, and_self, if_true, Nat.ofDigitChars_ten_toDigits]
    rfl
  | negSucc m =>
    have hsign : startsWith ('-' :: (Nat.toDigits 10 (m + 1) ++ rest)) ['-'] = true := by simp [startsWith]
    unfold number
    simp only [intStr, List.cons_append, hsign, if_true, List.length_singleton, List.drop_succ_cons, List.drop_zero,
      wholePart_toDigits (m + 1) h, if_neg Nat.toDigits_ne_nil, hstep, fraction_of_ends h, List.length_nil,
      Nat.add_zero, exponent_of_ends h, and_self, Nat.ofDigitChars_ten_toDigits]
    rfl

/-! ### Values -/

/-- The text of a value begins with no blank and closes nothing. -/
theorem exists_dump (w level : ℕ) {v : Json} (h : Plain v) :
    ∃ c s, dump w level v = c :: s ∧ isBlank c = false ∧ c ≠ ']' := by
  cases h with
  | null => exact ⟨'n', _, rfl, by decide, by decide⟩
  | bool b => cases b <;> exact ⟨_, _, rfl, by decide, by decide⟩
  | int n =>
    have hhead : ∀ {c : Char}, c.isDigit = true ∨ c = '-' → isBlank c = false ∧ c ≠ ']' := by
      rintro c (hc | rfl)
      · refine ⟨?_, fun he => by rw [he] at hc; exact absurd hc (by decide)⟩
        rw [← Bool.not_eq_true]
        intro hb
        simp only [isBlank, Bool.or_eq_true, beq_iff_eq] at hb
        rcases hb with ((rfl | rfl) | rfl) | rfl <;> exact absurd hc (by decide)
      · decide
    rw [dump]
    cases hs : intStr n with
    | nil => cases n <;> exact absurd hs (by simp [intStr, Nat.toDigits_ne_nil])
    | cons c s =>
      obtain ⟨hb, hc⟩ := hhead (isDigit_or_eq_minus_of_mem_intStr (n := n) (c := c) (by rw [hs]; simp))
      exact ⟨c, s, rfl, hb, hc⟩
  | str s => exact ⟨'"', _, rfl, by decide, by decide⟩
  | @arr vs _ => cases vs <;> exact ⟨'[', _, rfl, by decide, by decide⟩
  | @obj kvs _ _ =>
    cases kvs with
    | nil => exact ⟨'{', _, rfl, by decide, by decide⟩
    | cons kv kvs => exact ⟨'{', _, rfl, by decide, by decide⟩

theorem dict_of_nodup {kvs : List (Str × Json)} (h : (kvs.map Prod.fst).Nodup) : dict kvs = kvs := by
  suffices hfold : ∀ (kvs acc : List (Str × Json)), ((acc ++ kvs).map Prod.fst).Nodup →
      kvs.foldl (fun kvs kv => OrderedDict.setEntry kv.1 kv.2 kvs) acc = acc ++ kvs from hfold kvs [] h
  intro kvs
  induction kvs with
  | nil => intro acc _; simp
  | cons kv kvs ih =>
    intro acc hacc
    have hnew : kv.1 ∉ acc.map Prod.fst := by
      rw [List.map_append, List.map_cons] at hacc
      exact fun hmem => (List.nodup_append.mp hacc).2.2 _ hmem _ List.mem_cons_self rfl
    rw [List.foldl_cons, OrderedDict.setEntry_of_not_mem hnew, ih _ (by simpa using hacc), List.append_assoc]
    rfl

theorem value_of_scalar {c : Char} {s : Str} (hquote : c ≠ '"') (harr : c ≠ '[') (hobj : c ≠ '{') (n : ℕ) :
    value (n + 1) (c :: s) = scalar (c :: s) :=
  value.eq_4 _ n (fun _ h => hquote (List.cons.inj h).1) (fun _ h => harr (List.cons.inj h).1)
    fun _ h => hobj (List.cons.inj h).1

theorem value_intStr (i : ℤ) (n : ℕ) {rest : Str} (h : Ends rest) :
    value (n + 1) (intStr i ++ rest) = some (int i, rest) := by
  cases hs : intStr i with
  | nil => cases i <;> exact absurd hs (by simp [intStr, Nat.toDigits_ne_nil])
  | cons c s =>
    have hc : c.isDigit = true ∨ c = '-' :=
      isDigit_or_eq_minus_of_mem_intStr (n := i) (by rw [hs]; exact List.mem_cons_self)
    have hne : ∀ x : Char, x.isDigit = false → x ≠ '-' → c ≠ x := by
      rintro x hx hm rfl
      exact hc.elim (fun h => absurd h (by rw [hx]; decide)) hm
    rw [List.cons_append, value_of_scalar (hne _ (by decide) (by decide)) (hne _ (by decide) (by decide))
      (hne _ (by decide) (by decide)), scalar, ← List.cons_append, ← hs, number_intStr i h]

/-! ### The three readers, one step at a time -/

theorem value_arr {n : ℕ} {s t : Str} {c : Char} (hs : skipBlanks s = c :: t) (hc : c ≠ ']') :
    value (n + 1) ('[' :: s) = (items n (c :: t)).map fun r => (arr r.1, r.2) := by
  rw [value, hs]
  split
  · rename_i heq
    exact absurd (List.cons.inj heq).1 hc
  · rfl

theorem value_obj {n : ℕ} {s t : Str} (hs : skipBlanks s = '"' :: t) :
    value (n + 1) ('{' :: s) = (members n ('"' :: t)).map fun r => (obj (dict r.1), r.2) := by
  rw [value, hs]
  rfl

theorem items_last {n : ℕ} {s r t : Str} {v : Json} (hv : value n s = some (v, r)) (hr : skipBlanks r = ']' :: t) :
    items (n + 1) s = some ([v], t) := by
  rw [items, hv]
  simp only [hr]

theorem items_comma {n : ℕ} {s r t : Str} {v : Json} (hv : value n s = some (v, r)) (hr : skipBlanks r = ',' :: t) :
    items (n + 1) s = (items n (skipBlanks t)).map fun r => (v :: r.1, r.2) := by
  rw [items, hv]
  simp only [hr]

theorem members_last {n : ℕ} {s r t u x : Str} {k : Str} {v : Json} (hk : stringTail s = some (k, r))
    (hr : skipBlanks r = ':' :: t) (hv : value n (skipBlanks t) = some (v, u)) (hu : skipBlanks u = '}' :: x) :
    members (n + 1) ('"' :: s) = some ([(k, v)], x) := by
  rw [members, hk]
  simp only [hr, hv, hu]

theorem members_comma {n : ℕ} {s r t u x : Str} {k : Str} {v : Json} (hk : stringTail s = some (k, r))
    (hr : skipBlanks r = ':' :: t) (hv : value n (skipBlanks t) = some (v, u)) (hu : skipBlanks u = ',' :: x) :
    members (n + 1) ('"' :: s) = (members n (skipBlanks x)).map fun r => ((k, v) :: r.1, r.2) := by
  rw [members, hk]
  simp only [hr, hv, hu]

/-! ### The round trip -/

theorem skipBlanks_dump (w level : ℕ) {v : Json} (h : Plain v) (s : Str) :
    skipBlanks (dump w level v ++ s) = dump w level v ++ s := by
  obtain ⟨c, t, ht, hc, -⟩ := exists_dump w level h
  rw [ht, List.cons_append, skipBlanks_cons hc]

/-- What follows an item ends it. -/
theorem ends_dumpItems (w level : ℕ) (vs : List Json) (rest : Str) : Ends (dumpItems w level vs ++ rest) := by
  cases vs with
  | nil => exact ends_cons (Or.inr rfl) _
  | cons v vs => exact ends_cons (Or.inl rfl) _

theorem ends_dumpMembers (w level : ℕ) (kvs : List (Str × Json)) (rest : Str) :
    Ends (dumpMembers w level kvs ++ rest) := by
  cases kvs with
  | nil => exact ends_cons (Or.inr rfl) _
  | cons kv kvs => exact ends_cons (Or.inl rfl) _

/-- What the three readers do with what the three writers wrote, given more fuel than characters. -/
structure Reads (n : ℕ) : Prop where
  value : ∀ (w level : ℕ) (v : Json) (rest : Str), Plain v → Ends rest → (dump w level v).length < n →
    value n (dump w level v ++ rest) = some (v, rest)
  items : ∀ (w level : ℕ) (v : Json) (vs : List Json) (rest : Str), (∀ x ∈ v :: vs, Plain x) →
    (dump w (level + 1) v).length + (dumpItems w level vs).length < n →
    items n (dump w (level + 1) v ++ (dumpItems w level vs ++ rest)) = some (v :: vs, rest)
  members : ∀ (w level : ℕ) (k : Str) (v : Json) (kvs : List (Str × Json)) (rest : Str),
    (∀ kv ∈ (k, v) :: kvs, Plain kv.2) →
    (dump w (level + 1) v).length + (dumpMembers w level kvs).length < n →
    members n (quote k ++ ':' :: ' ' :: (dump w (level + 1) v ++ (dumpMembers w level kvs ++ rest))) =
      some ((k, v) :: kvs, rest)

theorem reads_items {n : ℕ} (ih : Reads n) (w level : ℕ) (v : Json) (vs : List Json) (rest : Str)
    (h : ∀ x ∈ v :: vs, Plain x)
    (hlen : (dump w (level + 1) v).length + (dumpItems w level vs).length < n + 1) :
    items (n + 1) (dump w (level + 1) v ++ (dumpItems w level vs ++ rest)) = some (v :: vs, rest) := by
  have hv := h v List.mem_cons_self
  have hpos : 0 < (dumpItems w level vs).length := by cases vs <;> simp [dumpItems]
  have hread := ih.value w (level + 1) v _ hv (ends_dumpItems w level vs rest) (by omega)
  cases vs with
  | nil =>
    refine items_last hread ?_
    rw [dumpItems, List.append_assoc, skipBlanks_newline]
    exact skipBlanks_cons (by decide) rest
  | cons v' vs =>
    have hv' := h v' (List.mem_cons_of_mem v List.mem_cons_self)
    have htext : dumpItems w level (v' :: vs) ++ rest =
        ',' :: (newline w (level + 1) ++ (dump w (level + 1) v' ++ (dumpItems w level vs ++ rest))) := by
      simp [dumpItems]
    rw [items_comma hread (by rw [htext]; exact skipBlanks_cons (by decide) _), skipBlanks_newline,
      skipBlanks_dump w (level + 1) hv',
      ih.items w level v' vs rest (fun x hx => h x (List.mem_cons_of_mem v hx))
        (by simp [dumpItems] at hlen; omega),
      Option.map_some]

theorem reads_members {n : ℕ} (ih : Reads n) (w level : ℕ) (k : Str) (v : Json) (kvs : List (Str × Json))
    (rest : Str) (h : ∀ kv ∈ (k, v) :: kvs, Plain kv.2)
    (hlen : (dump w (level + 1) v).length + (dumpMembers w level kvs).length < n + 1) :
    members (n + 1) (quote k ++ ':' :: ' ' :: (dump w (level + 1) v ++ (dumpMembers w level kvs ++ rest))) =
      some ((k, v) :: kvs, rest) := by
  have hv : Plain v := h (k, v) List.mem_cons_self
  have hpos : 0 < (dumpMembers w level kvs).length := by cases kvs <;> simp [dumpMembers]
  have hread := ih.value w (level + 1) v _ hv (ends_dumpMembers w level kvs rest) (by omega)
  have hcolon : ∀ s : Str, skipBlanks (':' :: s) = ':' :: s := skipBlanks_cons (by decide)
  -- The blank after the colon.
  have hblank : skipBlanks (' ' :: (dump w (level + 1) v ++ (dumpMembers w level kvs ++ rest))) =
      dump w (level + 1) v ++ (dumpMembers w level kvs ++ rest) := skipBlanks_dump w (level + 1) hv _
  rw [quote, List.cons_append]
  cases kvs with
  | nil =>
    refine members_last (stringTail_quoteTail k _) (hcolon _) (by rw [hblank, hread]) ?_
    rw [dumpMembers, List.append_assoc, skipBlanks_newline]
    exact skipBlanks_cons (by decide) rest
  | cons kv kvs =>
    obtain ⟨k', v'⟩ := kv
    have htext : dumpMembers w level ((k', v') :: kvs) ++ rest =
        ',' :: (newline w (level + 1) ++
          (quote k' ++ ':' :: ' ' :: (dump w (level + 1) v' ++ (dumpMembers w level kvs ++ rest)))) := by
      simp [dumpMembers]
    have hkey : ∀ s : Str, skipBlanks (quote k' ++ s) = quote k' ++ s := fun s => skipBlanks_cons (by decide) _
    rw [members_comma (stringTail_quoteTail k _) (hcolon _) (by rw [hblank, hread])
        (by rw [htext]; exact skipBlanks_cons (by decide) _), skipBlanks_newline, hkey,
      ih.members w level k' v' kvs rest (fun x hx => h x (List.mem_cons_of_mem (k, v) hx))
        (by simp [dumpMembers] at hlen; omega),
      Option.map_some]

theorem reads_value {n : ℕ} (ih : Reads n) (w level : ℕ) (v : Json) (rest : Str) (hv : Plain v)
    (hrest : Ends rest) (hlen : (dump w level v).length < n + 1) :
    value (n + 1) (dump w level v ++ rest) = some (v, rest) := by
  cases hv with
  | null => rfl
  | bool b => cases b <;> rfl
  | int i => exact value_intStr i n hrest
  | str s =>
    show Json.value (n + 1) ('"' :: (quoteTail s ++ rest)) = _
    rw [Json.value, stringTail_quoteTail, Option.map_some]
  | @arr vs h =>
    cases vs with
    | nil => rfl
    | cons v vs =>
      have hv := h v List.mem_cons_self
      have htext : dump w level (arr (v :: vs)) ++ rest =
          '[' :: (newline w (level + 1) ++ (dump w (level + 1) v ++ (dumpItems w level vs ++ rest))) := by
        simp [dump]
      obtain ⟨c, t, ht, -, hclose⟩ := exists_dump w (level + 1) hv
      have hread := ih.items w level v vs rest h (by simp [dump] at hlen; omega)
      have hskip := skipBlanks_dump w (level + 1) hv (dumpItems w level vs ++ rest)
      rw [ht, List.cons_append] at hread hskip
      rw [htext, ht, List.cons_append, value_arr (by rw [skipBlanks_newline, hskip]) hclose, hread, Option.map_some]
  | @obj kvs hkeys h =>
    cases kvs with
    | nil => rfl
    | cons kv kvs =>
      obtain ⟨k, v⟩ := kv
      have htext : dump w level (obj ((k, v) :: kvs)) ++ rest = '{' :: (newline w (level + 1) ++
          (quote k ++ ':' :: ' ' :: (dump w (level + 1) v ++ (dumpMembers w level kvs ++ rest)))) := by
        simp [dump]
      have hread := ih.members w level k v kvs rest h (by simp [dump] at hlen; omega)
      rw [quote, List.cons_append] at htext hread
      rw [htext, value_obj (by rw [skipBlanks_newline]; exact skipBlanks_cons (by decide) _), hread, Option.map_some,
        dict_of_nodup hkeys]

/-- **The three readers undo the three writers**, by induction on the fuel. -/
theorem reads (n : ℕ) : Reads n := by
  induction n with
  | zero =>
    exact ⟨fun _ _ _ _ _ _ h => absurd h (by omega), fun _ _ _ _ _ _ h => absurd h (by omega),
      fun _ _ _ _ _ _ _ h => absurd h (by omega)⟩
  | succ n ih => exact ⟨reads_value ih, reads_items ih, reads_members ih⟩

/-- **Round trip**: `json.loads(json.dumps(v, indent=w)) == v`. -/
theorem loads_dump (w : ℕ) {v : Json} (h : Plain v) : loads (dump w 0 v) = some v := by
  have hread := (reads ((dump w 0 v).length + 1)).value w 0 v [] h ends_nil (by omega)
  have hskip := skipBlanks_dump w 0 h []
  rw [List.append_nil] at hread hskip
  rw [loads, hskip, hread]
  rfl

/-! ### The alphabet of a document -/

/-- A character `json.dump` writes: printable ASCII, or a line break. -/
def Printable (c : Char) : Prop := c = '\n' ∨ 32 ≤ c.toNat ∧ c.toNat ≤ 126

instance (c : Char) : Decidable (Printable c) := inferInstanceAs (Decidable (_ ∨ _))

theorem printable_word {s : Str} (h : (s.all fun c => decide (Printable c)) = true) : ∀ c ∈ s, Printable c := by
  simpa using h

theorem printable_digitChar : ∀ d < 16, Printable (Nat.digitChar d) := by decide

theorem printable_unitEscape (u : ℕ) : ∀ c ∈ unitEscape u, Printable c := by
  intro c hc
  simp only [unitEscape, List.mem_cons, List.not_mem_nil, or_false] at hc
  rcases hc with rfl | rfl | rfl | rfl | rfl | rfl
  · decide
  · decide
  all_goals exact printable_digitChar _ (Nat.mod_lt _ (by decide))

theorem printable_escape (x : Char) : ∀ c ∈ escape x, Printable c := by
  intro c hc
  unfold escape at hc
  split at hc
  · rename_i letter hletter
    have hall : ∀ p ∈ escapeDct, Printable p.2 := by decide
    simp only [List.mem_cons, List.not_mem_nil, or_false] at hc
    rcases hc with rfl | rfl
    · decide
    · exact hall _ (OrderedDict.mem_of_lookup hletter)
  split at hc
  · rename_i hprint
    obtain rfl := List.mem_singleton.mp hc
    exact Or.inr hprint
  split at hc
  · exact printable_unitEscape _ c hc
  · rcases List.mem_append.mp hc with hc | hc
    · exact printable_unitEscape _ c hc
    · exact printable_unitEscape _ c hc

theorem printable_quote (s : Str) : ∀ c ∈ quote s, Printable c := by
  intro c hc
  simp only [quote, quoteTail, List.mem_cons, List.mem_append, List.mem_flatMap, List.not_mem_nil,
    or_false] at hc
  rcases hc with rfl | ⟨x, -, hx⟩ | rfl
  · decide
  · exact printable_escape x c hx
  · decide

theorem printable_intStr (n : ℤ) : ∀ c ∈ intStr n, Printable c := by
  intro c hc
  rcases isDigit_or_eq_minus_of_mem_intStr hc with hd | rfl
  · have h : 48 ≤ c.toNat ∧ c.toNat ≤ 57 := by simpa [Char.isDigit, UInt32.le_iff_toNat_le] using hd
    exact Or.inr (by omega)
  · decide

theorem printable_newline (w level : ℕ) : ∀ c ∈ newline w level, Printable c := by
  intro c hc
  rcases List.mem_cons.mp hc with rfl | hc
  · decide
  · rw [List.eq_of_mem_replicate hc]
    decide

theorem printable_dumpItems {w level : ℕ} {vs : List Json}
    (h : ∀ v ∈ vs, ∀ c ∈ dump w (level + 1) v, Printable c) : ∀ c ∈ dumpItems w level vs, Printable c := by
  induction vs with
  | nil =>
    intro c hc
    rcases List.mem_append.mp hc with hc | hc
    · exact printable_newline w level c hc
    · rw [List.mem_singleton.mp hc]
      decide
  | cons v vs ih =>
    intro c hc
    simp only [dumpItems, List.mem_cons, List.mem_append] at hc
    rcases hc with rfl | hc | hc | hc
    · decide
    · exact printable_newline w (level + 1) c hc
    · exact h v List.mem_cons_self c hc
    · exact ih (fun x hx => h x (List.mem_cons_of_mem v hx)) c hc

theorem printable_dumpMembers {w level : ℕ} {kvs : List (Str × Json)}
    (h : ∀ kv ∈ kvs, ∀ c ∈ dump w (level + 1) kv.2, Printable c) :
    ∀ c ∈ dumpMembers w level kvs, Printable c := by
  induction kvs with
  | nil =>
    intro c hc
    rcases List.mem_append.mp hc with hc | hc
    · exact printable_newline w level c hc
    · rw [List.mem_singleton.mp hc]
      decide
  | cons kv kvs ih =>
    intro c hc
    simp only [dumpMembers, List.mem_cons, List.mem_append] at hc
    rcases hc with rfl | hc | hc | rfl | rfl | hc | hc
    · decide
    · exact printable_newline w (level + 1) c hc
    · exact printable_quote kv.1 c hc
    · decide
    · decide
    · exact h kv List.mem_cons_self c hc
    · exact ih (fun x hx => h x (List.mem_cons_of_mem kv hx)) c hc

/-- The text of a document is printable ASCII and line breaks. -/
theorem printable_dump {w : ℕ} {v : Json} (h : Plain v) : ∀ level, ∀ c ∈ dump w level v, Printable c := by
  induction h with
  | null => exact fun _ => printable_word (s := "null".toList) rfl
  | bool b =>
    cases b with
    | false => exact fun _ => printable_word (s := "false".toList) rfl
    | true => exact fun _ => printable_word (s := "true".toList) rfl
  | int n => exact fun level => printable_intStr n
  | str s => exact fun level => printable_quote s
  | @arr vs _ ih =>
    intro level
    cases vs with
    | nil => exact printable_word (s := ['[', ']']) rfl
    | cons v vs =>
      -- An array is the items after its first one, but for the bracket in the place of the comma.
      intro c hc
      rcases List.mem_cons.mp hc with rfl | hc
      · decide
      · exact printable_dumpItems (fun x hx => ih x hx (level + 1)) c (List.mem_cons_of_mem _ hc)
  | @obj kvs _ _ ih =>
    intro level
    cases kvs with
    | nil => exact printable_word (s := ['{', '}']) rfl
    | cons kv kvs =>
      intro c hc
      rcases List.mem_cons.mp hc with rfl | hc
      · decide
      · exact printable_dumpMembers (fun x hx => ih x hx (level + 1)) c (List.mem_cons_of_mem _ hc)

end Json

end DsDns
