/-
  The names that the parser accepts.

  The loop over the labels stops at the end of the packet, at a zero byte or at the byte of a pointer
  (`Stops`), and takes every length byte before that for the length of a label. `scanName_eq_some_iff` says so
  for every sequence of bytes. A packet with a name that the parser accepts is therefore well formed unless
  it has one of three defects (`Slips`).
-/
import DsDns.ControlPlane.Equiv.DnsRequestParser
import DsDns.DnsMessage

namespace DsDns

/-! ### The loop -/

theorem pointer_iff (b : UInt8) : b &&& 0xC0 = 0xC0 ↔ 192 ≤ b.toNat := by
  have hall : ∀ n : Fin 256, UInt8.ofFin n &&& 0xC0 = 0xC0 ↔ 192 ≤ n.val := by decide +kernel
  exact hall b.toFin

/-- Where the loop ends: at the end of the packet, a zero byte, or a pointer. -/
def Stops (rest : List UInt8) : Prop := ∀ b ∈ rest.head?, b = 0 ∨ 192 ≤ b.toNat

/-- The lengths that the loop takes for the length of a label. -/
def IsScanned (label : List UInt8) : Prop := 1 ≤ label.length ∧ label.length ≤ 191

theorem scanName_encode {labels : List (List UInt8)} {rest : List UInt8} {fuel : ℕ}
    (hlabels : ∀ label ∈ labels, IsScanned label) (hstops : Stops rest) (hfuel : labels.length ≤ fuel) :
    scanName fuel (encodeLabels labels ++ rest) = some (labels, rest) := by
  induction labels generalizing fuel with
  | nil =>
    cases fuel with
    | zero => rfl
    | succ fuel =>
      cases rest with
      | nil => rfl
      | cons b rest =>
        rw [encodeLabels_nil, List.nil_append, scanName]
        rcases hstops b rfl with rfl | hb
        · rfl
        · split
          · rfl
          · rw [if_pos ((pointer_iff b).mpr hb)]
  | cons label labels ih =>
    obtain ⟨fuel, rfl⟩ : ∃ m, fuel = m + 1 := ⟨fuel - 1, by rw [List.length_cons] at hfuel; omega⟩
    obtain ⟨⟨hpos, hle⟩, hlabels⟩ := List.forall_mem_cons.mp hlabels
    have hlength := toNat_length (show label.length < 256 by omega)
    -- The length byte neither ends the name nor is it a pointer.
    have hzero : UInt8.ofNat label.length ≠ 0 := by
      intro h
      rw [h] at hlength
      exact absurd hlength (by simp; omega)
    have hpointer : ¬ UInt8.ofNat label.length &&& 0xC0 = 0xC0 := by
      rw [pointer_iff, hlength]
      omega
    rw [encodeLabels_cons, List.cons_append, scanName, if_neg hzero, if_neg hpointer, hlength,
      List.append_assoc, if_neg (by rw [List.length_append]; omega), List.drop_left, List.take_left,
      ih hlabels (by rw [List.length_cons] at hfuel; omega)]
    rfl

/-- One turn of the loop: it ends here, or it takes a label and goes on. -/
theorem scanName_cases {len : UInt8} {tail rest : List UInt8} {labels : List (List UInt8)} {fuel : ℕ}
    (h : scanName (fuel + 1) (len :: tail) = some (labels, rest)) :
    (labels = [] ∧ rest = len :: tail ∧ (len = 0 ∨ 192 ≤ len.toNat)) ∨
    (len ≠ 0 ∧ len.toNat < 192 ∧ len.toNat ≤ tail.length ∧ ∃ later,
      labels = tail.take len.toNat :: later ∧ scanName fuel (tail.drop len.toNat) = some (later, rest)) := by
  have hiff := pointer_iff len
  rw [scanName] at h
  by_cases hzero : len = 0
  · rw [if_pos hzero] at h
    cases h
    exact Or.inl ⟨rfl, rfl, Or.inl hzero⟩
  by_cases hpointer : len &&& 0xC0 = 0xC0
  · rw [if_neg hzero, if_pos hpointer] at h
    cases h
    exact Or.inl ⟨rfl, rfl, Or.inr (hiff.mp hpointer)⟩
  have hlt : ¬ 192 ≤ len.toNat := fun hle => hpointer (hiff.mpr hle)
  by_cases hfits : tail.length < len.toNat
  · rw [if_neg hzero, if_neg hpointer, if_pos hfits] at h
    exact absurd h (by simp)
  · rw [if_neg hzero, if_neg hpointer, if_neg hfits] at h
    obtain ⟨⟨later, after⟩, hlater, heq⟩ := Option.map_eq_some_iff.mp h
    cases heq
    exact Or.inr ⟨hzero, by omega, by omega, later, rfl, hlater⟩

/-- **What the loop accepts.** -/
theorem scanName_eq_some_iff {labels : List (List UInt8)} {bytes rest : List UInt8} {fuel : ℕ}
    (hfuel : bytes.length ≤ fuel) : scanName fuel bytes = some (labels, rest) ↔
      bytes = encodeLabels labels ++ rest ∧ (∀ label ∈ labels, IsScanned label) ∧ Stops rest := by
  constructor
  · -- A turn takes a byte at least, so the fuel lasts for the bytes that are left.
    intro h
    induction fuel generalizing bytes labels with
    | zero =>
      obtain rfl : bytes = [] := List.length_eq_zero_iff.mp (by omega)
      cases h
      exact ⟨rfl, by simp, by simp [Stops]⟩
    | succ fuel ih =>
      cases bytes with
      | nil =>
        cases h
        exact ⟨rfl, by simp, by simp [Stops]⟩
      | cons len tail =>
        rcases scanName_cases h with ⟨rfl, rfl, hstop⟩ | ⟨hzero, hpointer, hfits, later, rfl, hlater⟩
        · refine ⟨rfl, by simp, fun b hb => ?_⟩
          obtain rfl := Option.some.inj hb
          exact hstop
        · have hlen : (tail.drop len.toNat).length ≤ fuel := by
            rw [List.length_drop]
            rw [List.length_cons] at hfuel
            omega
          obtain ⟨hbytes, hlabels, hstops⟩ := ih hlen hlater
          have hpos : len.toNat ≠ 0 := fun h0 => hzero (UInt8.toNat_inj.mp h0)
          have htake : (tail.take len.toNat).length = len.toNat := by
            rw [List.length_take]
            omega
          refine ⟨?_, List.forall_mem_cons.mpr ⟨?_, hlabels⟩, hstops⟩
          · rw [encodeLabels_cons, htake, UInt8.ofNat_toNat, List.cons_append, List.append_assoc,
              ← hbytes, List.take_append_drop]
          · constructor <;> omega
  · rintro ⟨rfl, hlabels, hstops⟩
    have hcount := length_le_length_encodeLabels labels
    rw [List.length_append] at hfuel
    exact scanName_encode hlabels hstops (by omega)

/-- The bytes determine the labels and where they stop. -/
theorem encodeLabels_unique {labels labels' : List (List UInt8)} {rest rest' : List UInt8}
    (h : encodeLabels labels ++ rest = encodeLabels labels' ++ rest')
    (hlabels : ∀ label ∈ labels, IsScanned label) (hlabels' : ∀ label ∈ labels', IsScanned label)
    (hstops : Stops rest) (hstops' : Stops rest') : labels = labels' ∧ rest = rest' := by
  have hleft := scanName_encode hlabels hstops (Nat.le_add_right labels.length labels'.length)
  have hright := scanName_encode hlabels' hstops' (Nat.le_add_left labels'.length labels.length)
  rw [h, hright] at hleft
  cases hleft
  exact ⟨rfl, rfl⟩

theorem IsLabel.scanned {label : List UInt8} (h : IsLabel label) : IsScanned label :=
  ⟨h.1, h.2.trans (by decide)⟩

theorem stops_zero (rest : List UInt8) : Stops (0 :: rest) := by
  simp [Stops]

/-! ### Which packets have a name -/

/-- A question name as RFC 1035 has it, from byte 12 on: labels of at most 63 bytes, at least one, and
a zero byte. -/
def WellFormedName (request : List UInt8) : Prop :=
  12 ≤ request.length ∧ ∃ labels rest, labels ≠ [] ∧ (∀ label ∈ labels, IsLabel label) ∧
    request.drop 12 = encodeLabels labels ++ 0 :: rest

/-- The name in the packet has one of three defects: a label of more than 63 bytes, no end, or a
pointer for an end. -/
def Slips (request : List UInt8) : Prop :=
  ∃ labels rest, labels ≠ [] ∧ (∀ label ∈ labels, IsScanned label) ∧
    request.drop 12 = encodeLabels labels ++ rest ∧
      (Stops rest ∧ (∃ label ∈ labels, 63 < label.length) ∨ rest = [] ∨ ∃ b ∈ rest.head?, 192 ≤ b.toNat)

/-- Decoding and lower-casing make no text of nothing only. -/
structure Jvm.KeepsText (jvm : Jvm) : Prop where
  decode_eq_nil_iff : ∀ bytes, jvm.decode bytes = [] ↔ bytes = []
  toLowerCase_eq_nil_iff : ∀ s, jvm.toLowerCase s = [] ↔ s = []

theorem Jvm.keepsText_ascii : Jvm.ascii.KeepsText where
  decode_eq_nil_iff _ := List.map_eq_nil_iff
  toLowerCase_eq_nil_iff _ := List.map_eq_nil_iff

section Accepts

variable [jvm : Jvm]

theorem appendLabel_ne_nil {domain : Str} {label : List UInt8} (h : domain ≠ [] ∨ decode label ≠ []) :
    appendLabel domain label ≠ [] := by
  unfold appendLabel
  split
  · simp
  · rename_i hempty
    obtain rfl : domain = [] := List.length_eq_zero_iff.mp (by omega)
    simpa using h

theorem foldl_appendLabel_ne_nil {labels : List (List UInt8)} {domain : Str} (h : domain ≠ []) :
    labels.foldl appendLabel domain ≠ [] := by
  induction labels generalizing domain with
  | nil => exact h
  | cons label labels ih => exact ih (appendLabel_ne_nil (Or.inl h))

/-- The name is empty only if there are no labels. -/
theorem foldl_appendLabel_eq_nil_iff (hjvm : jvm.KeepsText) {labels : List (List UInt8)}
    (hlabels : ∀ label ∈ labels, IsScanned label) : labels.foldl appendLabel [] = [] ↔ labels = [] := by
  cases labels with
  | nil => exact iff_of_true rfl rfl
  | cons label labels =>
    have hlabel : label ≠ [] := by
      have hpos := (hlabels label List.mem_cons_self).1
      exact List.length_pos_iff.mp hpos
    have hfirst : appendLabel [] label ≠ [] :=
      appendLabel_ne_nil (Or.inr fun h => hlabel ((hjvm.decode_eq_nil_iff label).mp h))
    have hall : labels.foldl appendLabel (appendLabel [] label) ≠ [] := foldl_appendLabel_ne_nil hfirst
    exact iff_of_false hall (by simp)

omit jvm in
/-- What the loop reads from byte 12 on. -/
theorem queryLabels_eq_some_iff {request : List UInt8} {labels : List (List UInt8)} :
    queryLabels request = some labels ↔ ∃ rest, (∀ label ∈ labels, IsScanned label) ∧
      request.drop 12 = encodeLabels labels ++ rest ∧ Stops rest := by
  have hfuel : (request.drop 12).length ≤ request.length := by
    rw [List.length_drop]
    omega
  have hlabels : queryLabels request = (scanName request.length (request.drop 12)).map Prod.fst := rfl
  rw [hlabels, Option.map_eq_some_iff]
  constructor
  · rintro ⟨⟨_, rest⟩, hscan, rfl⟩
    obtain ⟨hbytes, hscanned, hstops⟩ := (scanName_eq_some_iff hfuel).mp hscan
    exact ⟨rest, hscanned, hbytes, hstops⟩
  · rintro ⟨rest, hscanned, hbytes, hstops⟩
    exact ⟨(labels, rest), (scanName_eq_some_iff hfuel).mpr ⟨hbytes, hscanned, hstops⟩, rfl⟩

/-- The name is accepted if the loop found a label. -/
theorem parseDomain_isSome_iff_queryLabels (hjvm : jvm.KeepsText) (request : List UInt8) :
    (parseDomain request).isSome ↔
      12 ≤ request.length ∧ ∃ labels, labels ≠ [] ∧ queryLabels request = some labels := by
  unfold parseDomain
  by_cases hshort : request.length < 12
  · rw [if_pos hshort]
    exact iff_of_false (by simp) fun h => by omega
  · rw [if_neg hshort]
    cases hlabels : queryLabels request with
    | none => exact iff_of_false (by simp) (by simp)
    | some labels =>
      obtain ⟨_, hscanned, -⟩ := queryLabels_eq_some_iff.mp hlabels
      have hempty : Jvm.toLowerCase (labels.foldl appendLabel []) = [] ↔ labels = [] :=
        (hjvm.toLowerCase_eq_nil_iff _).trans (foldl_appendLabel_eq_nil_iff hjvm hscanned)
      simp only [Option.some.injEq]
      by_cases hnil : labels = []
      · rw [if_pos (hempty.mpr hnil)]
        refine iff_of_false (by simp) ?_
        rintro ⟨-, labels', hne, rfl⟩
        exact hne hnil
      · rw [if_neg fun h => hnil (hempty.mp h)]
        exact iff_of_true rfl ⟨by omega, labels, hnil, rfl⟩

/-- **Which packets the parser accepts**: after at least one label it may find the end of the packet, a zero
byte or a pointer. -/
theorem parseDomain_isSome_iff (hjvm : jvm.KeepsText) (request : List UInt8) :
    (parseDomain request).isSome ↔ 12 ≤ request.length ∧ ∃ labels rest, labels ≠ [] ∧
      (∀ label ∈ labels, IsScanned label) ∧ request.drop 12 = encodeLabels labels ++ rest ∧ Stops rest := by
  rw [parseDomain_isSome_iff_queryLabels hjvm]
  refine and_congr_right fun _ => exists_congr fun labels => ?_
  rw [queryLabels_eq_some_iff]
  exact exists_and_left.symm

theorem WellFormedName.isSome (hjvm : jvm.KeepsText) {request : List UInt8} (h : WellFormedName request) :
    (parseDomain request).isSome := by
  obtain ⟨hlength, labels, rest, hne, hlabels, hbytes⟩ := h
  apply (parseDomain_isSome_iff hjvm request).mpr
  exact ⟨hlength, labels, 0 :: rest, hne, fun label hl => (hlabels label hl).scanned, hbytes, stops_zero rest⟩

omit jvm in
/-- A name that slips is not well formed, though the loop stops. -/
theorem Slips.stops {request : List UInt8} (h : Slips request) : ¬ WellFormedName request ∧
    12 ≤ request.length ∧ ∃ labels rest, labels ≠ [] ∧ (∀ label ∈ labels, IsScanned label) ∧
      request.drop 12 = encodeLabels labels ++ rest ∧ Stops rest := by
  obtain ⟨labels, rest, hne, hscanned, hbytes, hdefect⟩ := h
  have hstops : Stops rest := by
    rcases hdefect with ⟨hstops, -⟩ | rfl | ⟨b, hb, hpointer⟩
    · exact hstops
    · simp [Stops]
    · intro c hc
      obtain rfl := Option.some.inj (hb.symm.trans hc)
      exact Or.inr hpointer
  refine ⟨?_, ?_, labels, rest, hne, hscanned, hbytes, hstops⟩
  · rintro ⟨-, labels', rest', -, hlabels', hbytes'⟩
    have hsame := encodeLabels_unique (hbytes.symm.trans hbytes') hscanned
      (fun label hl => (hlabels' label hl).scanned) hstops (stops_zero rest')
    obtain ⟨rfl, rfl⟩ := hsame
    rcases hdefect with ⟨-, label, hl, hlong⟩ | hnil | ⟨b, hb, hpointer⟩
    · exact absurd (hlabels' label hl).2 (by omega)
    · exact absurd hnil (by simp)
    · obtain rfl := Option.some.inj hb
      exact absurd hpointer (by decide)
  · -- There is a label after byte 12.
    have hcount := length_le_length_encodeLabels labels
    have hpos := List.length_pos_iff.mpr hne
    have hlength := congrArg List.length hbytes
    rw [List.length_drop, List.length_append] at hlength
    omega

/-- **What the parser accepts**: a packet with a name is accepted exactly if it is well formed, unless its name
slips. -/
theorem parseDomain_accepts_iff (hjvm : jvm.KeepsText) (request : List UInt8) :
    ((parseDomain request).isSome ↔ WellFormedName request) ↔ ¬ Slips request := by
  have haccepts := parseDomain_isSome_iff hjvm request
  constructor
  · intro hiff hslips
    obtain ⟨hnot, hlength, hstops⟩ := hslips.stops
    exact hnot (hiff.mp (haccepts.mpr ⟨hlength, hstops⟩))
  · intro hslips
    refine ⟨fun hsome => ?_, fun hwell => hwell.isSome hjvm⟩
    obtain ⟨hlength, labels, rest, hne, hscanned, hbytes, hstops⟩ := haccepts.mp hsome
    refine ⟨hlength, labels, rest.tail, hne, fun label hl => ?_, ?_⟩
    · refine ⟨(hscanned label hl).1, ?_⟩
      by_contra hlong
      exact hslips ⟨labels, rest, hne, hscanned, hbytes, Or.inl ⟨hstops, label, hl, by omega⟩⟩
    · -- The loop has not stopped at the end of the packet, nor at a pointer.
      cases rest with
      | nil => exact absurd ⟨labels, [], hne, hscanned, hbytes, Or.inr (Or.inl rfl)⟩ hslips
      | cons b rest =>
        rcases hstops b rfl with rfl | hpointer
        · exact hbytes
        · exact absurd ⟨labels, b :: rest, hne, hscanned, hbytes, Or.inr (Or.inr ⟨b, rfl, hpointer⟩)⟩ hslips

end Accepts

/-- A header of zero bytes, and the label `a`. -/
def unterminated : List UInt8 := List.replicate 12 0 ++ [1, 97]

theorem parseDomain_accepts_iff_terminated :
    ((@parseDomain Jvm.ascii (unterminated ++ [0])).isSome ↔ WellFormedName (unterminated ++ [0])) ↔
      ¬ Slips (unterminated ++ [0]) :=
  @parseDomain_accepts_iff Jvm.ascii Jvm.keepsText_ascii (unterminated ++ [0])

/-- The packet ends before its name does, and the parser accepts it. -/
theorem not_accepts_unterminated :
    ¬ ((@parseDomain Jvm.ascii unterminated).isSome ↔ WellFormedName unterminated) := by
  have hslips : Slips unterminated :=
    ⟨[[97]], [], by simp, by simp [IsScanned], by decide, Or.inr (Or.inl rfl)⟩
  have hsome : (@parseDomain Jvm.ascii unterminated).isSome = true := by decide
  exact fun hiff => hslips.stops.1 (hiff.mp hsome)

end DsDns
