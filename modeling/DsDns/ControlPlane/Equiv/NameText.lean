/-
  The text of a name.

  On a platform that reads ASCII as ASCII (`Jvm.Ascii`), the parser turns the encoding of labels into the labels
  in lower case with a dot between them, whatever stands in front of the name and behind it (`parse_encode`).
  A dot inside a label looks like a dot between two, so different names have the same text exactly if they cut
  the same pieces differently (`sameText_iff`).
-/
import DsDns.ControlPlane.Equiv.DnsResponseBuilder
import DsDns.ControlPlane.Equiv.QueryName
import DsDns.Text.Equiv.Basic

namespace DsDns

/-! ### The platform -/

/-- The text whose characters are the bytes. -/
def asciiText (bytes : List UInt8) : Str := bytes.map fun b => Char.ofNat b.toNat

/-- Every byte is the code of an ASCII character. -/
def IsAscii (bytes : List UInt8) : Prop := ∀ b ∈ bytes, b.toNat < 128

instance (bytes : List UInt8) : Decidable (IsAscii bytes) := List.decidableBAll _ bytes

/-- The charset extends ASCII, and the letters of ASCII are lower-cased as usual. -/
structure Jvm.Ascii (jvm : Jvm) : Prop where
  decode_ascii : ∀ bytes, IsAscii bytes → jvm.decode bytes = asciiText bytes
  toLowerCase_ascii : ∀ s : Str, (∀ c ∈ s, c.toNat < 128) → jvm.toLowerCase s = s.map Char.toLower

theorem Jvm.ascii_ascii : Jvm.ascii.Ascii where
  decode_ascii := by
    intro bytes h
    apply List.map_congr_left
    intro b hb
    exact if_pos (h b hb)
  toLowerCase_ascii _ _ := rfl

theorem toNat_lt_of_mem_asciiText {bytes : List UInt8} (h : IsAscii bytes) {c : Char}
    (hc : c ∈ asciiText bytes) : c.toNat < 128 := by
  obtain ⟨b, hb, rfl⟩ := List.mem_map.mp hc
  rw [toNat_ofNat_ascii (h b hb)]
  exact h b hb

/-! ### Joined labels -/

/-- A label in lower case. -/
def lowerLabel (label : List UInt8) : Str := (asciiText label).map Char.toLower

/-- The labels in lower case, with a dot between them. -/
def dottedName (labels : List (List UInt8)) : Str := ['.'].intercalate (labels.map lowerLabel)

theorem length_lowerLabel (label : List UInt8) : (lowerLabel label).length = label.length := by
  rw [lowerLabel, asciiText, List.length_map, List.length_map]

theorem dottedName_ne_nil {labels : List (List UInt8)} (hne : labels ≠ [])
    (hlabels : ∀ label ∈ labels, IsLabel label) : dottedName labels ≠ [] := by
  obtain ⟨label, labels, rfl⟩ := List.exists_cons_of_ne_nil hne
  have hpos := (hlabels label List.mem_cons_self).1
  have hlabel : lowerLabel label ≠ [] := by
    rw [← List.length_pos_iff, length_lowerLabel]
    exact hpos
  unfold dottedName
  cases labels with
  | nil =>
    rw [List.map_singleton, List.intercalate_singleton]
    exact hlabel
  | cons label' labels =>
    rw [List.map_cons, List.map_cons, List.intercalate_cons_cons, List.append_assoc]
    exact List.append_ne_nil_of_left_ne_nil hlabel _

theorem lower_intercalate (labels : List (List UInt8)) :
    (['.'].intercalate (labels.map asciiText)).map Char.toLower = dottedName labels := by
  unfold dottedName
  induction labels with
  | nil => rfl
  | cons label labels ih =>
    cases labels with
    | nil =>
      rw [List.map_singleton, List.map_singleton, List.intercalate_singleton, List.intercalate_singleton]
      rfl
    | cons label' labels =>
      simp only [List.map_cons, List.intercalate_cons_cons, List.map_append] at ih ⊢
      rw [ih]
      rfl

theorem toNat_lt_of_mem_joined {labels : List (List UInt8)} (h : ∀ label ∈ labels, IsAscii label) {c : Char}
    (hc : c ∈ ['.'].intercalate (labels.map asciiText)) : c.toNat < 128 := by
  induction labels with
  | nil => exact absurd hc (by simp)
  | cons label labels ih =>
    obtain ⟨hlabel, hlabels⟩ := List.forall_mem_cons.mp h
    cases labels with
    | nil => exact toNat_lt_of_mem_asciiText hlabel (by simpa using hc)
    | cons label' labels =>
      rw [List.map_cons, List.map_cons, List.intercalate_cons_cons, List.mem_append, List.mem_append,
        List.mem_singleton] at hc
      rcases hc with (hc | rfl) | hc
      · exact toNat_lt_of_mem_asciiText hlabel hc
      · decide
      · exact ih hlabels hc

section Parse

variable [jvm : Jvm]

/-- Labels after a text that is not empty. -/
theorem foldl_appendLabel {labels : List (List UInt8)} {domain : Str} (h : domain ≠ []) :
    labels.foldl appendLabel domain = ['.'].intercalate (domain :: labels.map decode) := by
  induction labels generalizing domain with
  | nil => exact List.intercalate_singleton.symm
  | cons label labels ih =>
    have hlabel : appendLabel domain label = domain ++ '.' :: decode label :=
      if_pos (List.length_pos_iff.mpr h)
    rw [List.foldl_cons, hlabel, ih (by simp), List.map_cons, List.intercalate_cons_cons]
    cases labels with
    | nil => simp
    | cons label' labels =>
      rw [List.map_cons, List.intercalate_cons_cons, List.intercalate_cons_cons]
      simp only [List.append_assoc, List.cons_append, List.nil_append]

/-- The text that the loop has put together. -/
theorem foldl_appendLabel_ascii (hjvm : jvm.Ascii) {labels : List (List UInt8)}
    (hlabels : ∀ label ∈ labels, IsLabel label ∧ IsAscii label) :
    labels.foldl appendLabel [] = ['.'].intercalate (labels.map asciiText) := by
  have hdecode : labels.map decode = labels.map asciiText :=
    List.map_congr_left fun label hl => hjvm.decode_ascii label (hlabels label hl).2
  cases labels with
  | nil => rfl
  | cons label labels =>
    obtain ⟨⟨hpos, -⟩, hascii⟩ := hlabels label List.mem_cons_self
    have hne : decode label ≠ [] := by
      rw [hjvm.decode_ascii label hascii, ← List.length_pos_iff, asciiText, List.length_map]
      omega
    show labels.foldl appendLabel (appendLabel [] label) = _
    rw [show appendLabel [] label = decode label from rfl, foldl_appendLabel hne, ← hdecode]
    rfl

omit jvm in
/-- The name in the packet: labels of ASCII bytes, each after its length, and a zero byte. -/
structure IsQueryFor (request : List UInt8) (labels : List (List UInt8)) : Prop where
  length : 12 ≤ request.length
  isLabel : ∀ label ∈ labels, IsLabel label
  isAscii : ∀ label ∈ labels, IsAscii label
  name : ∃ tail, request.drop 12 = encodeLabels labels ++ 0 :: tail

omit jvm in
theorem isQueryFor_encode {header : List UInt8} (hheader : header.length = 12) {labels : List (List UInt8)}
    (hlabels : ∀ label ∈ labels, IsLabel label ∧ IsAscii label) (tail : List UInt8) :
    IsQueryFor (header ++ (encodeLabels labels ++ 0 :: tail)) labels where
  length := by
    rw [List.length_append]
    omega
  isLabel label hl := (hlabels label hl).1
  isAscii label hl := (hlabels label hl).2
  name := ⟨tail, List.drop_left' hheader⟩

theorem parseDomain_of_isQueryFor (hjvm : jvm.Ascii) {request : List UInt8} {labels : List (List UInt8)}
    (h : IsQueryFor request labels) :
    parseDomain request = if labels = [] then none else some (dottedName labels) := by
  obtain ⟨tail, hname⟩ := h.name
  have hlength := h.length
  have hquery : queryLabels request = some labels := queryLabels_eq_some_iff.mpr
    ⟨0 :: tail, fun label hl => (h.isLabel label hl).scanned, hname, stops_zero tail⟩
  have htext : Jvm.toLowerCase (labels.foldl appendLabel []) = dottedName labels := by
    rw [foldl_appendLabel_ascii hjvm fun label hl => ⟨h.isLabel label hl, h.isAscii label hl⟩,
      hjvm.toLowerCase_ascii _ fun c hc => toNat_lt_of_mem_joined h.isAscii hc, lower_intercalate]
  unfold parseDomain
  rw [if_neg (by omega), hquery]
  simp only [htext]
  by_cases hnil : labels = []
  · rw [if_pos hnil, hnil]
    rfl
  · rw [if_neg hnil, if_neg (dottedName_ne_nil hnil h.isLabel)]

omit jvm in
/-- `parseQType` reads the two bytes behind the name. -/
theorem parseQType_encode {request tail : List UInt8} {labels : List (List UInt8)}
    (hlabels : ∀ label ∈ labels, IsLabel label) (hname : request.drop 12 = encodeLabels labels ++ 0 :: tail) :
    parseQType request = (readBe16 tail).elim (-1) fun r => (r.1 : ℤ) := by
  have hcount := length_le_length_encodeLabels labels
  have hlength := congrArg List.length hname
  rw [List.length_drop, List.length_append, List.length_cons] at hlength
  unfold parseQType
  rw [if_neg (by omega), hname, skipName_encode hlabels (by omega)]
  rcases tail with _ | ⟨hi, _ | ⟨lo, rest⟩⟩
  · rfl
  · rfl
  · simp only [shift_or]
    rfl

/-- **Decoding undoes encoding.** Whatever stands in the twelve bytes of the header and behind the name,
`parseDomain` returns the labels in lower case with a dot between them, and `parseQType` the next two bytes. -/
theorem parse_encode (hjvm : jvm.Ascii) {header : List UInt8} (hheader : header.length = 12)
    {labels : List (List UInt8)} (hne : labels ≠ [])
    (hlabels : ∀ label ∈ labels, IsLabel label ∧ IsAscii label) (tail : List UInt8) :
    parseDomain (header ++ (encodeLabels labels ++ 0 :: tail)) = some (dottedName labels) ∧
    (∀ hi lo rest, tail = hi :: lo :: rest →
      parseQType (header ++ (encodeLabels labels ++ 0 :: tail)) = hi.toNat * 256 + lo.toNat) ∧
    (parseQType (header ++ (encodeLabels labels ++ 0 :: tail)) = -1 ↔ tail.length < 2) := by
  have hpacket := isQueryFor_encode hheader hlabels tail
  constructor
  · rw [parseDomain_of_isQueryFor hjvm hpacket, if_neg hne]
  rw [parseQType_encode hpacket.isLabel (List.drop_left' hheader)]
  rcases tail with _ | ⟨hi, _ | ⟨lo, rest⟩⟩
  · exact ⟨fun _ _ _ h => absurd h (by simp), iff_of_true rfl (by simp)⟩
  · exact ⟨fun _ _ _ h => absurd h (by simp), iff_of_true rfl (by simp)⟩
  · constructor
    · rintro _ _ _ ⟨⟩
      rfl
    · refine iff_of_false ?_ (by simp)
      show ¬ ((hi.toNat * 256 + lo.toNat : ℕ) : ℤ) = -1
      omega

omit jvm in
/-- `WWW.Example` and the type 28. -/
theorem parse_encode_example :
    @parseDomain Jvm.ascii (List.replicate 12 0 ++
        (encodeLabels [[87, 87, 87], [69, 120, 97, 109, 112, 108, 101]] ++ 0 :: [0, 28, 0, 1])) =
      some (dottedName [[87, 87, 87], [69, 120, 97, 109, 112, 108, 101]]) ∧
    parseQType (List.replicate 12 0 ++
        (encodeLabels [[87, 87, 87], [69, 120, 97, 109, 112, 108, 101]] ++ 0 :: [0, 28, 0, 1])) = 28 ∧
    dottedName [[87, 87, 87], [69, 120, 97, 109, 112, 108, 101]] = "www.example".toList := by
  obtain ⟨hdomain, htype, -⟩ := @parse_encode Jvm.ascii Jvm.ascii_ascii (List.replicate 12 0) (by decide)
    [[87, 87, 87], [69, 120, 97, 109, 112, 108, 101]] (by decide) (by decide)
    [0, 28, 0, 1]
  exact ⟨hdomain, htype 0 28 [0, 1] rfl, by decide⟩

/-! ### Names with the same text -/

omit jvm in
/-- The labels in lower case, cut at the dots inside them. -/
def dotPieces (labels : List (List UInt8)) : List Str := (labels.map lowerLabel).flatMap (split '.')

omit jvm in
theorem dotPieces_eq_nil_iff (labels : List (List UInt8)) : dotPieces labels = [] ↔ labels = [] := by
  cases labels with
  | nil => exact iff_of_true rfl rfl
  | cons label labels =>
    refine iff_of_false ?_ (by simp)
    exact List.append_ne_nil_of_left_ne_nil (split_ne_nil '.' (lowerLabel label)) _

/-- Two queries have the same text exactly if the pieces between dots are the same. -/
theorem sameText_iff_dotPieces (hjvm : jvm.Ascii) {request request' : List UInt8}
    {labels labels' : List (List UInt8)} (h : IsQueryFor request labels) (h' : IsQueryFor request' labels') :
    parseDomain request = parseDomain request' ↔ dotPieces labels = dotPieces labels' := by
  rw [parseDomain_of_isQueryFor hjvm h, parseDomain_of_isQueryFor hjvm h']
  by_cases hnil : labels = []
  · subst hnil
    rw [if_pos rfl, eq_comm (b := dotPieces labels'), show dotPieces [] = [] from rfl, dotPieces_eq_nil_iff]
    by_cases hnil' : labels' = []
    · exact iff_of_true (by rw [if_pos hnil']) hnil'
    · exact iff_of_false (by rw [if_neg hnil']; simp) hnil'
  · by_cases hnil' : labels' = []
    · subst hnil'
      rw [if_neg hnil, if_pos rfl, show dotPieces [] = [] from rfl, dotPieces_eq_nil_iff]
      exact iff_of_false (by simp) hnil
    · rw [if_neg hnil, if_neg hnil', Option.some.injEq]
      exact intercalate_eq_iff (mt List.map_eq_nil_iff.mp hnil) (mt List.map_eq_nil_iff.mp hnil')

/-- **When different names have different texts**: two queries with the same text have the same labels up to
letter case exactly if the lengths of their labels are the same, or the pieces between dots are not. -/
theorem sameText_iff (hjvm : jvm.Ascii) {request request' : List UInt8} {labels labels' : List (List UInt8)}
    (h : IsQueryFor request labels) (h' : IsQueryFor request' labels') :
    (parseDomain request = parseDomain request' → labels.map lowerLabel = labels'.map lowerLabel) ↔
      labels.map List.length = labels'.map List.length ∨ dotPieces labels ≠ dotPieces labels' := by
  have hlengths : ∀ labels : List (List UInt8),
      (labels.map lowerLabel).map List.length = labels.map List.length := by
    intro labels
    rw [List.map_map]
    exact List.map_congr_left fun label _ => length_lowerLabel label
  rw [sameText_iff_dotPieces hjvm h h']
  constructor
  · intro hsame
    by_cases hpieces : dotPieces labels = dotPieces labels'
    · left
      rw [← hlengths labels, hsame hpieces, hlengths]
    · exact Or.inr hpieces
  · rintro (hcounts | hne) hpieces
    · have hjoined : dottedName labels = dottedName labels' := by
        unfold dottedName
        rw [← intercalate_flatMap_split, ← intercalate_flatMap_split '.' (labels'.map lowerLabel)]
        exact congrArg _ hpieces
      refine eq_of_intercalate_eq hjoined ?_
      rw [hlengths, hlengths, hcounts]
    · exact absurd hpieces hne

omit jvm in
/-- Labels without dots are their own pieces. -/
theorem dotPieces_of_not_mem {labels : List (List UInt8)}
    (h : ∀ label ∈ labels, IsAscii label ∧ 46 ∉ label) : dotPieces labels = labels.map lowerLabel := by
  induction labels with
  | nil => rfl
  | cons label labels ih =>
    obtain ⟨⟨hascii, hdot⟩, hlabels⟩ := List.forall_mem_cons.mp h
    have hpiece : '.' ∉ lowerLabel label := by
      intro hmem
      obtain ⟨c, hc, hlower⟩ := List.mem_map.mp hmem
      obtain ⟨b, hb, rfl⟩ := List.mem_map.mp hc
      have hcode := congrArg Char.toNat ((toLower_eq_iff (by decide)).mp hlower)
      rw [toNat_ofNat_ascii (hascii b hb)] at hcode
      have hbyte : b = 46 := UInt8.toNat_inj.mp hcode
      exact hdot (hbyte ▸ hb)
    show split '.' (lowerLabel label) ++ dotPieces labels = lowerLabel label :: labels.map lowerLabel
    rw [split_of_not_mem hpiece, ih hlabels]
    rfl

/-- Names without dots in their labels have different texts. -/
theorem labels_eq_of_sameText (hjvm : jvm.Ascii) {request request' : List UInt8}
    {labels labels' : List (List UInt8)} (h : IsQueryFor request labels) (h' : IsQueryFor request' labels')
    (hdot : ∀ label ∈ labels, 46 ∉ label) (hdot' : ∀ label ∈ labels', 46 ∉ label)
    (hsame : parseDomain request = parseDomain request') : labels.map lowerLabel = labels'.map lowerLabel := by
  have hpieces := (sameText_iff_dotPieces hjvm h h').mp hsame
  rwa [dotPieces_of_not_mem fun label hl => ⟨h.isAscii label hl, hdot label hl⟩,
    dotPieces_of_not_mem fun label hl => ⟨h'.isAscii label hl, hdot' label hl⟩] at hpieces

end Parse

/-- The query with a header of zero bytes, the labels, and the type A. -/
def queryFor (labels : List (List UInt8)) : List UInt8 :=
  List.replicate 12 0 ++ (encodeLabels labels ++ 0 :: [0, 1, 0, 1])

/-- `www.a` and `WWW.A`. -/
theorem sameText_iff_case :
    (@parseDomain Jvm.ascii (queryFor [[119, 119, 119], [97]]) =
        @parseDomain Jvm.ascii (queryFor [[87, 87, 87], [65]]) →
      [[119, 119, 119], [97]].map lowerLabel = [[87, 87, 87], [65]].map lowerLabel) ↔
      [[119, 119, 119], [97]].map List.length = ([[87, 87, 87], [65]] : List (List UInt8)).map List.length ∨
        dotPieces [[119, 119, 119], [97]] ≠ dotPieces [[87, 87, 87], [65]] :=
  @sameText_iff Jvm.ascii Jvm.ascii_ascii _ _ _ _
    (isQueryFor_encode (by decide) (by decide) _)
    (isQueryFor_encode (by decide) (by decide) _)

/-- The one label `a.b` has the text of the two labels `a` and `b`. -/
theorem not_injective_text :
    IsQueryFor (queryFor [[97, 46, 98]]) [[97, 46, 98]] ∧ IsQueryFor (queryFor [[97], [98]]) [[97], [98]] ∧
    @parseDomain Jvm.ascii (queryFor [[97, 46, 98]]) = some "a.b".toList ∧
    @parseDomain Jvm.ascii (queryFor [[97], [98]]) = some "a.b".toList ∧
    [[97, 46, 98]].map lowerLabel ≠ [[97], [98]].map lowerLabel := by
  refine ⟨isQueryFor_encode (by decide) (by decide) _,
    isQueryFor_encode (by decide) (by decide) _, by decide, by decide, by decide⟩

end DsDns
