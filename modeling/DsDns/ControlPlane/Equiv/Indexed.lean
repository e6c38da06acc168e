/-
  The wire code stays within its buffers.

  On a packet of at most 2^31 − 257 bytes no position wraps around (`int32_eq`), so every turn of the three
  loops reads inside the packet and moves on. Each loop keeps the bytes that are left in step with the
  recursion over lists (`tryDomain_eq`, `tryQType_eq`, `copyQuestion_eq`), so the functions return what
  those over lists return.
-/
import DsDns.ControlPlane.Equiv.DnsRequestParser
import DsDns.ControlPlane.Indexed
import Mathlib.Tactic.Cases
import Mathlib.Tactic.NormNum

namespace DsDns.Indexed

variable {request : List UInt8} {fuel : ℕ}

/-! ### Positions -/

/-- The longest packet on which no position wraps around. -/
def Addressable (request : List UInt8) : Prop := request.length ≤ 2147483391

theorem int32_eq {x : ℤ} (hx : 0 ≤ x) (hlt : x < 2147483648) : int32 x = x := by
  unfold int32
  omega

/-- A read inside the packet. -/
theorem byteAt_eq (request : List UInt8) {pos : ℤ} (hpos : 0 ≤ pos) (hlt : pos < request.length) :
    ∃ b, byteAt request pos = .ok b ∧ request.drop pos.toNat = b :: request.drop (pos + 1).toNat := by
  have hidx : pos.toNat < request.length := by omega
  refine ⟨request[pos.toNat], ?_, ?_⟩
  · rw [byteAt, if_pos hpos, List.getElem?_eq_getElem hidx]
  · rw [List.drop_eq_getElem_cons hidx, show (pos + 1).toNat = pos.toNat + 1 by omega]

/-- No read outside of the packet succeeds. -/
theorem byteAt_range {pos : ℤ} {b : UInt8} (h : byteAt request pos = .ok b) :
    0 ≤ pos ∧ pos < request.length := by
  unfold byteAt at h
  split at h
  · rename_i hpos
    split at h
    · rename_i hget
      obtain ⟨hlt, -⟩ := List.getElem?_eq_some_iff.mp hget
      omega
    · exact absurd h (by simp)
  · exact absurd h (by simp)

theorem copyOf_eq {pos len : ℤ} (hpos : 0 ≤ pos) (hlen : 0 ≤ len) (hle : pos + len ≤ request.length) :
    copyOf request pos len = .ok ((request.drop pos.toNat).take len.toNat) := by
  rw [copyOf, if_pos ⟨hpos, hlen, by omega⟩]

theorem drop_eq_nil {pos : ℤ} (h : request.length ≤ pos) : request.drop pos.toNat = [] :=
  List.drop_eq_nil_of_le (by omega)

/-- The bytes behind a label of `len` bytes. -/
theorem drop_drop_label {pos : ℤ} (hpos : 0 ≤ pos) (len : ℕ) :
    (request.drop (pos + 1).toNat).drop len = request.drop (pos + (1 + len)).toNat := by
  rw [List.drop_drop]
  congr 1
  omega

/-! ### `parseQType` -/

/-- The bytes behind a label need less fuel. -/
theorem length_drop_le {b : UInt8} {rest : List UInt8} (h : (b :: rest).length ≤ fuel + 1) (len : ℕ) :
    (rest.drop len).length ≤ fuel := by
  rw [List.length_drop]
  rw [List.length_cons] at h
  omega

theorem skipName_nil (fuel : ℕ) : skipName fuel [] = [] := by
  cases fuel <;> rfl

/-- The fuel of the recursion over lists is enough. -/
theorem skipName_fuel {bytes : List UInt8} (h : bytes.length ≤ fuel) (more : ℕ) :
    skipName (fuel + more) bytes = skipName fuel bytes := by
  induction fuel generalizing bytes with
  | zero =>
    obtain rfl : bytes = [] := List.length_eq_zero_iff.mp (by omega)
    rw [skipName_nil, skipName_nil]
  | succ fuel ih =>
    cases bytes with
    | nil => rw [skipName_nil, skipName_nil]
    | cons len rest => rw [Nat.succ_add, skipName, skipName, ih (length_drop_le h len.toNat)]

theorem skipName_cons {len : UInt8} {rest : List UInt8} (h : (len :: rest).length ≤ fuel) :
    skipName fuel (len :: rest) = if len = 0 then rest else skipName fuel (rest.drop len.toNat) := by
  obtain ⟨k, rfl⟩ : ∃ k, fuel = k + 1 := ⟨fuel - 1, by rw [List.length_cons] at h; omega⟩
  rw [skipName, skipName_fuel (length_drop_le h len.toNat)]

/-- The loop of `parseQType` leaves the packet at the bytes after the name, or at most 255 bytes behind its
end. -/
theorem qTypeLoop_eq (hlen : Addressable request) (hfuel : request.length < fuel) :
    ∃ pos, whileLoop (qTypeTurn request) fuel 12 = some (.ok pos) ∧ 0 ≤ pos ∧
      (pos ≤ 12 ∨ pos ≤ request.length + 255) ∧
      request.drop pos.toNat = skipName request.length (request.drop 12) := by
  unfold Addressable at hlen
  have hskip : ∀ pos : ℤ, (request.drop pos.toNat).length ≤ request.length := fun pos => by
    rw [List.length_drop]
    omega
  refine whileLoop_rule
    (fun pos : ℤ => 0 ≤ pos ∧ (pos ≤ 12 ∨ pos ≤ request.length + 255) ∧
      skipName request.length (request.drop pos.toNat) = skipName request.length (request.drop 12))
    (fun pos => (request.length - pos).toNat) _ (fun pos hinv => ?_) ⟨by omega, by omega, rfl⟩ (by omega)
  obtain ⟨hpos, hmax, hrest⟩ := hinv
  unfold qTypeTurn
  by_cases hlt : pos < request.length
  · obtain ⟨b, hb, hdrop⟩ := byteAt_eq request hpos hlt
    have hbyte := b.toNat_lt
    rw [if_pos hlt, hb]
    have hcons := hskip pos
    rw [hdrop] at hrest hcons
    rw [skipName_cons hcons] at hrest
    by_cases hzero : b = 0
    · right
      refine ⟨int32 (pos + 1), by simp [hzero, bind, Except.bind], ?_⟩
      rw [int32_eq (by omega) (by omega)]
      rw [if_pos hzero] at hrest
      exact ⟨by omega, by omega, hrest⟩
    · left
      refine ⟨int32 (pos + (1 + b.toNat)), by simp [hzero, bind, Except.bind], ?_⟩
      rw [int32_eq (by omega) (by omega)]
      rw [if_neg hzero, drop_drop_label hpos] at hrest
      exact ⟨⟨by omega, by omega, hrest⟩, by omega⟩
  · right
    rw [if_neg hlt]
    refine ⟨pos, rfl, hpos, hmax, ?_⟩
    rw [drop_eq_nil (by omega), skipName_nil] at hrest
    rw [drop_eq_nil (by omega), hrest]

/-- The bytes after the name decide; a packet without a header has none. -/
theorem parseQType_eq_read {n : ℕ} (h : request.drop n = skipName request.length (request.drop 12)) :
    DsDns.parseQType request =
      match request.drop n with
      | hi :: lo :: _ => ((hi.toNat <<< 8 ||| lo.toNat : ℕ) : ℤ)
      | _ => -1 := by
  unfold DsDns.parseQType
  rw [h]
  split
  · rename_i hshort
    rw [List.drop_eq_nil_of_le (by omega), skipName_nil]
  · rfl

/-- **`parseQType` never leaves the packet**, and returns what the recursion over lists returns. -/
theorem tryQType_eq (hlen : Addressable request) (hfuel : request.length < fuel) :
    tryQType fuel request = some (.ok (DsDns.parseQType request)) := by
  obtain ⟨pos, hloop, hpos, hmax, hdrop⟩ := qTypeLoop_eq hlen hfuel
  unfold Addressable at hlen
  rw [tryQType, hloop]
  show some (readQType request pos) = _
  rw [readQType, int32_eq (by omega) (by omega)]
  rw [parseQType_eq_read hdrop]
  by_cases hend : (request.length : ℤ) ≤ pos + 1
  · rw [if_pos hend]
    by_cases hlast : (request.length : ℤ) ≤ pos
    · rw [drop_eq_nil hlast]
    · obtain ⟨b, -, hb⟩ := byteAt_eq request hpos (by omega)
      rw [hb, drop_eq_nil hend]
  · rw [if_neg hend]
    obtain ⟨hi, hhi, hdrop⟩ := byteAt_eq request hpos (by omega)
    obtain ⟨lo, hlo, hdrop'⟩ := byteAt_eq request (by omega : 0 ≤ pos + 1) (by omega)
    rw [hhi, hlo, hdrop, hdrop']
    rfl

/-! ### `parseDomain` -/

section

variable [Jvm]

omit [Jvm] in
theorem readLabels_cons {len : UInt8} {rest : List UInt8} (h : (len :: rest).length ≤ fuel) :
    readLabels fuel (len :: rest) =
      if len = 0 then some []
      else if len &&& 0xC0 = 0xC0 then some []
      else if rest.length < len.toNat then none
      else (readLabels fuel (rest.drop len.toNat)).map (rest.take len.toNat :: ·) := by
  obtain ⟨k, rfl⟩ : ∃ k, fuel = k + 1 := ⟨fuel - 1, by rw [List.length_cons] at h; omega⟩
  rw [readLabels_succ, readLabels_fuel (length_drop_le h len.toNat)]

/-- What the loop of `parseDomain` keeps: the labels it has read and those that are left make up the name. -/
def NameRead (request : List UInt8) (s : NameState) : Prop :=
  0 ≤ s.pos ∧ (readLabels request.length (request.drop s.pos.toNat)).map (List.foldl appendLabel s.domain) =
    (queryLabels request).map (List.foldl appendLabel [])

/-- One turn reads one label, or ends the name. -/
theorem domainTurn_cases (hlen : Addressable request) {s : NameState} (hs : NameRead request s) :
    (∃ s', domainTurn request s = .ok (.next s') ∧ NameRead request s' ∧ s.pos < request.length ∧
      s.pos < s'.pos) ∨
    domainTurn request s = .ok (.exit ((queryLabels request).map (List.foldl appendLabel []))) := by
  unfold Addressable at hlen
  obtain ⟨hpos, hrest⟩ := hs
  rw [← hrest]
  unfold domainTurn
  by_cases hlt : s.pos < request.length
  · obtain ⟨b, hb, hdrop⟩ := byteAt_eq request hpos hlt
    have hbyte := b.toNat_lt
    have hcons : (b :: request.drop (s.pos + 1).toNat).length ≤ request.length := by
      rw [← hdrop, List.length_drop]
      omega
    have hbehind : int32 (s.pos + 1) = s.pos + 1 := int32_eq (by omega) (by omega)
    have hlabel : int32 (s.pos + 1 + b.toNat) = s.pos + 1 + b.toNat := int32_eq (by omega) (by omega)
    rw [hdrop, readLabels_cons hcons] at hrest ⊢
    rw [if_pos hlt, hb]
    simp only [bind, Except.bind, hbehind, hlabel]
    by_cases hzero : b = 0
    · rw [if_pos hzero, if_pos hzero]
      exact Or.inr rfl
    rw [if_neg hzero] at hrest ⊢
    rw [if_neg hzero]
    by_cases hpointer : b &&& 0xC0 = 0xC0
    · rw [if_pos hpointer, if_pos hpointer]
      exact Or.inr rfl
    rw [if_neg hpointer] at hrest ⊢
    rw [if_neg hpointer]
    have hover : (request.drop (s.pos + 1).toNat).length < b.toNat ↔
        (request.length : ℤ) < s.pos + 1 + b.toNat := by
      rw [List.length_drop]
      omega
    by_cases hoverflow : (request.length : ℤ) < s.pos + 1 + b.toNat
    · rw [if_pos hoverflow, if_pos (hover.mpr hoverflow)]
      exact Or.inr rfl
    · rw [if_neg (mt hover.mp hoverflow), drop_drop_label hpos, Option.map_map] at hrest
      rw [if_neg hoverflow, copyOf_eq (by omega) (by omega) (by omega), Int.add_assoc, Int.toNat_natCast]
      exact Or.inl ⟨_, rfl, ⟨by dsimp only; omega, hrest⟩, hlt, by dsimp only; omega⟩
  · rw [if_neg hlt, drop_eq_nil (by omega), readLabels_nil]
    exact Or.inr rfl

/-- **`parseDomain` never leaves the packet**: its loop collects the labels of the recursion over lists. -/
theorem tryDomain_eq (hlen : Addressable request) (hfuel : request.length < fuel) :
    tryDomain fuel request = some (.ok ((queryLabels request).map (List.foldl appendLabel []))) := by
  refine whileLoop_eq (NameRead request) (fun s => (request.length - s.pos).toNat) _ (fun s hs => ?_)
    ⟨by decide, rfl⟩ (by show ((request.length : ℤ) - 12).toNat < fuel; omega)
  refine (domainTurn_cases hlen hs).imp_left fun ⟨s', hnext, hs', hlt, hmove⟩ => ⟨s', hnext, hs', ?_⟩
  omega

theorem parseDomain_eq (hlen : Addressable request) (hfuel : request.length < fuel) :
    parseDomain fuel request = some (DsDns.parseDomain request) := by
  unfold parseDomain DsDns.parseDomain
  split
  · rfl
  · rw [tryDomain_eq hlen hfuel]
    cases queryLabels request <;> rfl

end

/-! ### `buildResponse` -/

/-- The loop ends at the first zero byte. -/
theorem endLoop_eq (hlen : Addressable request) (hfuel : request.length < fuel) :
    whileLoop (endTurn request) fuel 12 = some (.ok (qnameEnd request)) := by
  unfold Addressable at hlen
  refine whileLoop_eq
    (fun pos : ℤ => 0 ≤ pos ∧
      pos + ((request.drop pos.toNat).takeWhile (· ≠ 0)).length = (qnameEnd request : ℤ))
    (fun pos => (request.length - pos).toNat) _ (fun pos hinv => ?_) ⟨by omega, rfl⟩ (by omega)
  obtain ⟨hpos, hrest⟩ := hinv
  unfold endTurn
  by_cases hlt : pos < request.length
  · obtain ⟨b, hb, hdrop⟩ := byteAt_eq request hpos hlt
    have hnext : int32 (pos + 1) = pos + 1 := int32_eq (by omega) (by omega)
    rw [if_pos hlt, hb]
    rw [hdrop] at hrest
    simp only [bind, Except.bind, hnext]
    by_cases hzero : b = 0
    · rw [if_neg (not_not.mpr hzero), ← hrest, List.takeWhile_cons_of_neg (by simpa using hzero)]
      exact Or.inr (by simp)
    · rw [if_pos hzero]
      rw [List.takeWhile_cons_of_pos (by simpa using hzero), List.length_cons] at hrest
      exact Or.inl ⟨pos + 1, rfl, ⟨by omega, by omega⟩, by omega⟩
  · rw [if_neg hlt, ← hrest, drop_eq_nil (by omega)]
    exact Or.inr (by simp)

/-- The copy of the question stays inside the packet. -/
theorem copyQuestion_eq (hlen : Addressable request) :
    copyQuestion request (qnameEnd request) = .ok (questionSection request) := by
  unfold Addressable at hlen
  have hend : 12 ≤ qnameEnd request := Nat.le_add_right 12 _
  unfold copyQuestion questionSection
  by_cases hmissing : request.length ≤ qnameEnd request
  · rw [if_pos (by omega), if_pos hmissing]
  · have hlabels : int32 (qnameEnd request - 12) = qnameEnd request - 12 := int32_eq (by omega) (by omega)
    have hzero : int32 (qnameEnd request - 12 + 1) = qnameEnd request - 12 + 1 := int32_eq (by omega) (by omega)
    have hquestion : int32 (qnameEnd request - 12 + 1 + 4) = qnameEnd request - 12 + 1 + 4 :=
      int32_eq (by omega) (by omega)
    have hbehind : int32 (12 + (qnameEnd request - 12 + 1 + 4)) = 12 + (qnameEnd request - 12 + 1 + 4) :=
      int32_eq (by omega) (by omega)
    rw [if_neg (by omega), if_neg hmissing, hlabels, hzero, hquestion]
    dsimp only
    rw [hbehind]
    by_cases hshort : request.length < 12 + (qnameEnd request - 12 + 1 + 4)
    · rw [if_pos (by omega), if_pos hshort]
    · rw [if_neg (by omega), if_neg hshort, copyOf_eq (by omega) (by omega) (by omega),
        show ((qnameEnd request : ℤ) - 12 + 1 + 4).toNat = qnameEnd request - 12 + 1 + 4 by omega]
      rfl

/-- **`buildResponse` never leaves the packet**, and returns what the function over lists returns. -/
theorem buildResponse_eq (hlen : Addressable request) (hfuel : request.length < fuel)
    (getByName : Str → Option (List UInt8)) (ipAddress : Option Str) :
    buildResponse getByName fuel request ipAddress =
      some (.ok (DsDns.buildResponse getByName request ipAddress)) := by
  unfold buildResponse DsDns.buildResponse
  split
  · rfl
  · obtain ⟨id₀, h₀, hdrop₀⟩ := byteAt_eq request (Int.le_refl 0) (by omega)
    obtain ⟨id₁, h₁, hdrop₁⟩ := byteAt_eq request (by omega : (0 : ℤ) ≤ 1) (by omega)
    have hid : request.take 2 = [id₀, id₁] := by
      have hall : request = id₀ :: id₁ :: request.drop 2 := hdrop₀.trans (congrArg (id₀ :: ·) hdrop₁)
      rw [hall]
      rfl
    have hheader : ∀ found, responseHeader [id₀, id₁] found = responseHeader request found := by
      intro found
      rw [responseHeader, responseHeader, hid]
      rfl
    rw [endLoop_eq hlen hfuel]
    simp only [Option.map_some, h₀, h₁, bind, Except.bind, copyQuestion_eq hlen, hheader]

/-! ### Progress -/

theorem bind_byteAt_eq_ok {α : Type} {pos : ℤ} {f : UInt8 → Except OutOfBounds α} {a : α}
    (h : (byteAt request pos).bind f = .ok a) : ∃ b, byteAt request pos = .ok b ∧ f b = .ok a := by
  cases hb : byteAt request pos with
  | error e =>
    rw [hb] at h
    exact absurd h (by simp [Except.bind])
  | ok b =>
    rw [hb] at h
    exact ⟨b, rfl, h⟩

theorem qTypeTurn_next (hlen : Addressable request) {pos pos' : ℤ}
    (h : qTypeTurn request pos = .ok (.next pos')) : pos < pos' := by
  unfold Addressable at hlen
  unfold qTypeTurn at h
  split at h
  · obtain ⟨b, hb, h⟩ := bind_byteAt_eq_ok h
    obtain ⟨hpos, hlt⟩ := byteAt_range hb
    have hbyte := b.toNat_lt
    rw [int32_eq (x := pos + (1 + b.toNat)) (by omega) (by omega)] at h
    split at h
    · cases h
    · cases h
      omega
  · cases h

theorem endTurn_next (hlen : Addressable request) {pos pos' : ℤ} (h : endTurn request pos = .ok (.next pos')) :
    pos < pos' := by
  unfold Addressable at hlen
  unfold endTurn at h
  split at h
  · obtain ⟨b, hb, h⟩ := bind_byteAt_eq_ok h
    obtain ⟨hpos, hlt⟩ := byteAt_range hb
    rw [int32_eq (x := pos + 1) (by omega) (by omega)] at h
    split at h
    · cases h
      omega
    · cases h
  · cases h

variable [Jvm]

theorem domainTurn_next (hlen : Addressable request) {s s' : NameState}
    (h : domainTurn request s = .ok (.next s')) : s.pos < s'.pos := by
  unfold Addressable at hlen
  unfold domainTurn at h
  split at h
  · obtain ⟨b, hb, h⟩ := bind_byteAt_eq_ok h
    obtain ⟨hpos, hlt⟩ := byteAt_range hb
    have hbyte := b.toNat_lt
    rw [int32_eq (x := s.pos + 1) (by omega) (by omega)] at h
    dsimp only at h
    rw [int32_eq (x := s.pos + 1 + b.toNat) (by omega) (by omega)] at h
    split at h
    · cases h
    split at h
    · cases h
    split at h
    · cases h
    · rw [copyOf_eq (by omega) (by omega) (by omega)] at h
      cases h
      dsimp only
      omega
  · cases h

/-- **The wire code stays within its buffers**, for every packet of at most 2^31 − 257 bytes: with enough
fuel the three functions end without an access outside of the packet, every turn of a loop moves on, and the
results are those of the functions over lists. -/
theorem wire_code_in_bounds (hlen : Addressable request) (hfuel : request.length < fuel)
    (getByName : Str → Option (List UInt8)) (ipAddress : Option Str) :
    ((∃ r, tryDomain fuel request = some (.ok r)) ∧ (∃ r, tryQType fuel request = some (.ok r)) ∧
        ∃ r, buildResponse getByName fuel request ipAddress = some (.ok r)) ∧
      ((∀ s s', domainTurn request s = .ok (.next s') → s.pos < s'.pos) ∧
        (∀ pos pos', qTypeTurn request pos = .ok (.next pos') → pos < pos') ∧
        ∀ pos pos', endTurn request pos = .ok (.next pos') → pos < pos') ∧
      parseDomain fuel request = some (DsDns.parseDomain request) ∧
        parseQType fuel request = some (DsDns.parseQType request) ∧
        buildResponse getByName fuel request ipAddress =
          some (.ok (DsDns.buildResponse getByName request ipAddress)) := by
  have hqtype : parseQType fuel request = some (DsDns.parseQType request) := by
    unfold parseQType
    split
    · rename_i hshort
      rw [DsDns.parseQType, if_pos hshort]
    · rw [tryQType_eq hlen hfuel]
      rfl
  exact ⟨⟨⟨_, tryDomain_eq hlen hfuel⟩, ⟨_, tryQType_eq hlen hfuel⟩, _,
      buildResponse_eq hlen hfuel getByName ipAddress⟩,
    ⟨fun _ _ => domainTurn_next hlen, fun _ _ => qTypeTurn_next hlen, fun _ _ => endTurn_next hlen⟩,
    parseDomain_eq hlen hfuel, hqtype, buildResponse_eq hlen hfuel getByName ipAddress⟩

omit [Jvm] in
/-- A query for `com`. -/
theorem wire_code_in_bounds_query :
    let request : List UInt8 := List.replicate 12 0 ++ [3, 99, 111, 109, 0, 0, 1, 0, 1]
    @parseDomain Jvm.ascii 512 request = some (some "com".toList) ∧ parseQType 512 request = some 1 ∧
      ∃ r, buildResponse (fun _ => none) 512 request none = some (.ok r) := by
  intro request
  obtain ⟨⟨-, -, hresponse⟩, -, hdomain, hqtype, -⟩ :=
    @wire_code_in_bounds request 512 Jvm.ascii (by unfold Addressable; decide) (by decide) (fun _ => none) none
  exact ⟨hdomain.trans (by decide), hqtype.trans (by decide), hresponse⟩

/-! ### Positions that wrap around -/

omit [Jvm] in
/-- A packet whose labels fill it up to its last byte, which is the length of one more label. -/
def longPacket (n : ℕ) : List UInt8 := List.replicate 12 0 ++ 242 :: List.replicate n 255

omit [Jvm] in
theorem length_longPacket (n : ℕ) : (longPacket n).length = n + 13 := by
  rw [longPacket, List.length_append, List.length_cons, List.length_replicate, List.length_replicate]
  omega

omit [Jvm] in
theorem byteAt_longPacket {n : ℕ} {pos : ℤ} (hpos : 13 ≤ pos) (hlt : pos < n + 13) :
    byteAt (longPacket n) pos = .ok 255 := by
  have hget : (longPacket n)[pos.toNat]? = some 255 := by
    rw [longPacket, List.getElem?_append_right (by rw [List.length_replicate]; omega), List.length_replicate,
      show pos.toNat - 12 = (pos.toNat - 13) + 1 by omega, List.getElem?_cons_succ,
      List.getElem?_replicate_of_lt (by omega)]
  rw [byteAt, if_pos (by omega), hget]

omit [Jvm] in
/-- The loop of `parseQType` takes the labels of 255 bytes one after the other. -/
theorem qTypeLoop_longPacket {n : ℕ} (hn : n + 269 = 2147483648) (more k : ℕ)
    (hk : 256 * k + 256 ≤ 2147483648) :
    whileLoop (qTypeTurn (longPacket n)) (more + k) (2147483647 - 256 * k) =
      whileLoop (qTypeTurn (longPacket n)) more 2147483647 := by
  induction k with
  | zero => rfl
  | succ k ih =>
    have hlength := length_longPacket n
    have hturn : qTypeTurn (longPacket n) (2147483647 - 256 * (k + 1 : ℕ)) =
        .ok (.next (2147483647 - 256 * k)) := by
      rw [qTypeTurn, if_pos (by omega), byteAt_longPacket (by omega) (by omega)]
      have hnext : int32 (2147483647 - 256 * (k + 1 : ℕ) + (1 + (255 : UInt8).toNat)) =
          2147483647 - 256 * k := by
        have hbyte : (255 : UInt8).toNat = 255 := rfl
        rw [hbyte, int32_eq (by omega) (by omega)]
        omega
      simp only [bind, Except.bind, hnext]
      rfl
    rw [← Nat.add_assoc, whileLoop_next hturn]
    exact ih (by omega)

omit [Jvm] in
theorem tryQType_longPacket {n : ℕ} (hn : n + 269 = 2147483648) :
    tryQType (1 + 8388607 + 1) (longPacket n) = some (.error .mk) := by
  have hlength := length_longPacket n
  have hfirst : qTypeTurn (longPacket n) 12 = .ok (.next (2147483647 - 256 * (8388607 : ℕ))) := by
    have hbyte : byteAt (longPacket n) 12 = .ok 242 := rfl
    have hnext : int32 (12 + (1 + (242 : UInt8).toNat)) = 2147483647 - 256 * (8388607 : ℕ) := by
      have hbyte : (242 : UInt8).toNat = 242 := rfl
      rw [hbyte, int32_eq (by omega) (by omega)]
      omega
    rw [qTypeTurn, if_pos (by omega), hbyte]
    simp only [bind, Except.bind, hnext]
    rfl
  have hlast : qTypeTurn (longPacket n) 2147483647 = .ok (.exit 2147483647) := by
    rw [qTypeTurn, if_neg (by omega)]
  have hread : readQType (longPacket n) 2147483647 = .error .mk := by
    have hwrap : int32 (2147483647 + 1) = -2147483648 := rfl
    have hbyte : byteAt (longPacket n) 2147483647 = .error .mk := by
      have hnone : (longPacket n)[(2147483647 : ℤ).toNat]? = none := List.getElem?_eq_none (by omega)
      rw [byteAt, if_pos (by omega), hnone]
    rw [readQType, hwrap, if_neg (by omega), hbyte]
    rfl
  rw [tryQType, whileLoop_next hfirst, qTypeLoop_longPacket hn 1 8388607 (by omega), whileLoop_exit hlast]
  show some (readQType (longPacket n) 2147483647) = _
  rw [hread]

omit [Jvm] in
/-- On a packet of 2^31 − 256 bytes the position after the name wraps around, and the exception is caught. -/
theorem not_wire_code_in_bounds :
    (longPacket 2147483379).length = 2147483392 ∧
      tryQType 8388609 (longPacket 2147483379) = some (.error .mk) ∧
      parseQType 8388609 (longPacket 2147483379) = some (-1) := by
  have hlength : (longPacket 2147483379).length = 2147483392 := length_longPacket 2147483379
  have htry : tryQType 8388609 (longPacket 2147483379) = some (.error .mk) :=
    tryQType_longPacket (show 2147483379 + 269 = 2147483648 by norm_num)
  refine ⟨hlength, htry, ?_⟩
  rw [parseQType, if_neg (by rw [hlength]; norm_num), htry]
  rfl

end DsDns.Indexed
