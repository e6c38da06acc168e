/-
  Which bytes of a packet reach the name that is asked for.

  The loop over the labels consumes a byte a turn, so its fuel never runs out (`readLabels_fuel`).
  A label may hold any byte, and decoding and lower-casing keep the ASCII characters that are no
  letters: such a character other than the dot is in the name exactly when its byte is in a label
  (`mem_parseDomain`).
-/
import DsDns.ControlPlane.DnsRequestParser

namespace DsDns

/-- Some label of the packet has the byte. -/
def HasByte (request : List UInt8) (b : UInt8) : Prop :=
  ∃ labels, queryLabels request = some labels ∧ ∃ label ∈ labels, b ∈ label

theorem readLabels_nil (fuel : ℕ) : readLabels fuel [] = some [] := by
  cases fuel <;> rfl

/-- The labels alone obey the same recursion. -/
theorem readLabels_succ (fuel : ℕ) (len : UInt8) (rest : List UInt8) : readLabels (fuel + 1) (len :: rest) =
    if len = 0 then some []
    else if len &&& 0xC0 = 0xC0 then some []
    else if rest.length < len.toNat then none
    else (readLabels fuel (rest.drop len.toNat)).map (rest.take len.toNat :: ·) := by
  unfold readLabels
  rw [scanName]
  split
  · rfl
  split
  · rfl
  split
  · rfl
  · rw [Option.map_map, Option.map_map]
    rfl

/-- The fuel is enough: more of it changes nothing. -/
theorem readLabels_fuel {bytes : List UInt8} {fuel : ℕ} (h : bytes.length ≤ fuel) (more : ℕ) :
    readLabels (fuel + more) bytes = readLabels fuel bytes := by
  induction fuel generalizing bytes with
  | zero =>
    obtain rfl : bytes = [] := List.length_eq_zero_iff.mp (by omega)
    rw [readLabels_nil, readLabels_nil]
  | succ fuel ih =>
    cases bytes with
    | nil => rw [readLabels_nil, readLabels_nil]
    | cons len rest =>
      have hrest : (rest.drop len.toNat).length ≤ fuel := by
        rw [List.length_drop]
        rw [List.length_cons] at h
        omega
      rw [Nat.succ_add, readLabels_succ, readLabels_succ, ih hrest]

variable [Jvm]

theorem mem_appendLabel {domain : Str} {label : List UInt8} {c : Char} (hc : c.toNat < 128)
    (hdot : c ≠ '.') :
    c ∈ appendLabel domain label ↔ c ∈ domain ∨ UInt8.ofNat c.toNat ∈ label := by
  unfold appendLabel
  split
  · rw [List.mem_append, List.mem_cons, Jvm.mem_decode label c hc]
    constructor
    · rintro (h | rfl | h)
      · exact Or.inl h
      · exact absurd rfl hdot
      · exact Or.inr h
    · rintro (h | h)
      · exact Or.inl h
      · exact Or.inr (Or.inr h)
  · rw [List.mem_append, Jvm.mem_decode label c hc]

theorem mem_foldl_appendLabel {labels : List (List UInt8)} {domain : Str} {c : Char}
    (hc : c.toNat < 128) (hdot : c ≠ '.') : c ∈ labels.foldl appendLabel domain ↔
      c ∈ domain ∨ ∃ label ∈ labels, UInt8.ofNat c.toNat ∈ label := by
  induction labels generalizing domain with
  | nil => simp
  | cons label labels ih =>
    rw [List.foldl_cons, ih, mem_appendLabel hc hdot, or_assoc]
    simp

/-- **What a query can put into a name**: an ASCII character that is neither a letter nor the dot is
in the name exactly when its byte is in a label. -/
theorem mem_parseDomain {request : List UInt8} {domain : Str} (h : parseDomain request = some domain)
    {c : Char} (hc : c.toNat < 128) (halpha : c.isAlpha = false) (hdot : c ≠ '.') :
    c ∈ domain ↔ HasByte request (UInt8.ofNat c.toNat) := by
  unfold parseDomain at h
  split at h
  · exact absurd h (by simp)
  · split at h
    · exact absurd h (by simp)
    · rename_i labels hlabels
      simp only at h
      split at h
      · exact absurd h (by simp)
      · rw [← Option.some.inj h, Jvm.mem_toLowerCase _ c hc halpha, mem_foldl_appendLabel hc hdot]
        constructor
        · rintro (h' | h')
          · exact absurd h' (by simp)
          · exact ⟨labels, hlabels, h'⟩
        · rintro ⟨labels', hlabels', h'⟩
          obtain rfl : labels = labels' := Option.some.inj (hlabels.symm.trans hlabels')
          exact Or.inr h'

/-! ### An ASCII platform -/

omit [Jvm] in
/-- Only the letters have another lower-case form. -/
theorem toLower_eq_iff {x c : Char} (hc : c.isAlpha = false) : x.toLower = c ↔ x = c := by
  unfold Char.toLower
  split
  · rename_i h
    have h1 : 65 ≤ x.toNat := h.1
    have h2 : x.toNat ≤ 90 := h.2
    constructor
    · -- A lower-cased letter is a letter.
      intro he
      have hval : c.toNat = (x.toNat + 32) % 2 ^ 32 := by
        rw [← he]
        rfl
      have hrange : 97 ≤ c.toNat ∧ c.toNat ≤ 122 := by omega
      have hlower : c.isLower = true :=
        Bool.and_eq_true_iff.mpr ⟨decide_eq_true hrange.1, decide_eq_true hrange.2⟩
      have halpha : (c.isUpper || c.isLower) = false := hc
      rw [hlower, Bool.or_true] at halpha
      exact absurd halpha (by simp)
    · rintro rfl
      have hupper : x.isUpper = true := decide_eq_true ⟨h1, h2⟩
      have halpha : (x.isUpper || x.isLower) = false := hc
      rw [hupper, Bool.true_or] at halpha
      exact absurd halpha (by simp)
  · exact Iff.rfl

omit [Jvm] in
theorem toNat_ofNat_ascii {n : ℕ} (h : n < 128) : (Char.ofNat n).toNat = n := by
  rw [Char.ofNat, dif_pos (Or.inl (show n < 0xD800 by omega))]
  rfl

omit [Jvm] in
/-- A platform whose charset is ASCII: every other byte is replaced. -/
@[reducible] def Jvm.ascii : Jvm where
  decode bytes := bytes.map fun b => if b.toNat < 128 then Char.ofNat b.toNat else '\uFFFD'
  toLowerCase s := s.map Char.toLower
  mem_decode := by
    intro bytes c hc
    rw [List.mem_map]
    constructor
    · rintro ⟨b, hb, rfl⟩
      split at hc
      · rename_i hlt
        rw [if_pos hlt, toNat_ofNat_ascii hlt, UInt8.ofNat_toNat]
        exact hb
      · exact absurd hc (by decide)
    · intro hmem
      have hval : (UInt8.ofNat c.toNat).toNat = c.toNat := by
        rw [UInt8.toNat_ofNat']
        omega
      exact ⟨_, hmem, by rw [hval, if_pos hc, Char.ofNat_toNat]⟩
  mem_toLowerCase := by
    intro s c _ hc
    rw [List.mem_map]
    constructor
    · rintro ⟨x, hx, he⟩
      rw [← (toLower_eq_iff hc).mp he]
      exact hx
    · intro hmem
      exact ⟨c, hmem, (toLower_eq_iff hc).mpr rfl⟩

end DsDns
