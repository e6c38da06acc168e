/-
  IPv4 addresses as a linear order.

  `ipaddress.IPv4Address` accepts one text for each address: an octet has no leading zero, so its
  value gives its digits back (`ipv4Octet_injective`), and four octets below 256 give their number back
  (`ipv4_injective`). So the accepted texts are ordered by the numbers they denote, which is how
  `beatHandler` compares leaders.
-/
import DsDns.DataPlane.Ipv4
import DsDns.Text.Equiv.Basic
import Mathlib.Order.Lattice

namespace DsDns

/-! ### Octets -/

/-- The value of a digit, which gives the digit back. -/
theorem toNat_sub_of_isDigit {c : Char} (h : c.isDigit = true) :
    '0'.toNat ≤ c.toNat ∧ c.toNat - '0'.toNat ≤ 9 := by
  obtain ⟨h1, h2⟩ := Bool.and_eq_true_iff.mp h
  have hlow : 48 ≤ c.toNat := of_decide_eq_true h1
  have hhigh : c.toNat ≤ 57 := of_decide_eq_true h2
  have hzero : '0'.toNat = 48 := rfl
  omega

theorem eq_of_digit_value {c d : Char} (hc : c.isDigit = true) (hd : d.isDigit = true)
    (h : c.toNat - '0'.toNat = d.toNat - '0'.toNat) : c = d := by
  have h1 := toNat_sub_of_isDigit hc
  have h2 := toNat_sub_of_isDigit hd
  apply Char.toNat_inj.mp
  omega

theorem pos_of_digit {c : Char} (hc : c.isDigit = true) (h : c ≠ '0') : 1 ≤ c.toNat - '0'.toNat := by
  by_contra hzero
  apply h
  apply eq_of_digit_value hc (by decide)
  omega

/-- The texts of an octet: one digit, or two or three without a leading zero. -/
theorem ipv4Octet_cases {s : Str} {n : ℕ} (h : ipv4Octet s = some n) : n ≤ 255 ∧
    ((∃ a, s = [a] ∧ a.isDigit = true ∧ n = a.toNat - '0'.toNat) ∨
    (∃ a b, s = [a, b] ∧ a.isDigit = true ∧ b.isDigit = true ∧ a ≠ '0' ∧
      n = 10 * (a.toNat - '0'.toNat) + (b.toNat - '0'.toNat)) ∨
    (∃ a b c, s = [a, b, c] ∧ a.isDigit = true ∧ b.isDigit = true ∧ c.isDigit = true ∧ a ≠ '0' ∧
      n = 10 * (10 * (a.toNat - '0'.toNat) + (b.toNat - '0'.toNat)) + (c.toNat - '0'.toNat))) := by
  unfold ipv4Octet at h
  split at h
  · exact absurd h (by simp)
  rename_i hok
  simp only [not_or, not_and, not_not, List.all_eq_true] at hok
  obtain ⟨hne, hdigits, hlen, hlead⟩ := hok
  simp only at h
  split at h
  · exact absurd h (by simp)
  rename_i hsmall
  obtain rfl := Option.some.inj h
  refine ⟨by omega, ?_⟩
  -- One case for each number of digits; a fourth digit is too many.
  match s, hne, hdigits, hlen, hlead with
  | [a], _, hdigits, _, _ =>
    refine Or.inl ⟨a, rfl, hdigits a (by simp), ?_⟩
    simp [Nat.ofDigitChars_cons]
  | [a, b], _, hdigits, _, hlead =>
    refine Or.inr (Or.inl ⟨a, b, rfl, hdigits a (by simp), hdigits b (by simp), ?_, ?_⟩)
    · rintro rfl
      exact hlead (by simp) rfl
    · simp [Nat.ofDigitChars_cons]
  | [a, b, c], _, hdigits, _, hlead =>
    refine Or.inr (Or.inr ⟨a, b, c, rfl, hdigits a (by simp), hdigits b (by simp),
      hdigits c (by simp), ?_, ?_⟩)
    · rintro rfl
      exact hlead (by simp) rfl
    · simp [Nat.ofDigitChars_cons]
  | _ :: _ :: _ :: _ :: _, _, _, hlen, _ => simp at hlen

/-- **An octet has one text.** -/
theorem ipv4Octet_injective {s t : Str} {n : ℕ} (hs : ipv4Octet s = some n)
    (ht : ipv4Octet t = some n) : s = t := by
  -- The number of digits follows from the value, since the first one is not zero.
  have hle : ∀ {c : Char}, c.isDigit = true → c.toNat - '0'.toNat ≤ 9 := fun hc =>
    (toNat_sub_of_isDigit hc).2
  obtain ⟨-, ⟨a, rfl, ha, hn⟩ | ⟨a, b, rfl, ha, hb, ha0, hn⟩ | ⟨a, b, c, rfl, ha, hb, hc, ha0, hn⟩⟩ :=
    ipv4Octet_cases hs
  all_goals
    have h1 := hle ha
    obtain ⟨-, ⟨x, rfl, hx, hm⟩ | ⟨x, y, rfl, hx, hy, hx0, hm⟩ |
      ⟨x, y, z, rfl, hx, hy, hz, hx0, hm⟩⟩ := ipv4Octet_cases ht
    all_goals have h2 := hle hx
  · rw [eq_of_digit_value ha hx (by omega)]
  · have := pos_of_digit hx hx0
    omega
  · have := pos_of_digit hx hx0
    omega
  · have := pos_of_digit ha ha0
    omega
  · have h3 := hle hb
    have h4 := hle hy
    rw [eq_of_digit_value ha hx (by omega), eq_of_digit_value hb hy (by omega)]
  · have := pos_of_digit hx hx0
    have h3 := hle hb
    omega
  · have := pos_of_digit ha ha0
    omega
  · have := pos_of_digit ha ha0
    have h3 := hle hy
    omega
  · have h3 := hle hb
    have h4 := hle hy
    have h5 := hle hc
    have h6 := hle hz
    rw [eq_of_digit_value ha hx (by omega), eq_of_digit_value hb hy (by omega),
      eq_of_digit_value hc hz (by omega)]

/-! ### Addresses -/

/-- **An address has one text.** -/
theorem ipv4_injective {s t : Str} {m : ℕ} (hs : ipv4 s = some m) (ht : ipv4 t = some m) : s = t := by
  unfold ipv4 at hs ht
  split at hs
  · rename_i a b c d hsplit
    split at ht
    · rename_i a' b' c' d' hsplit'
      simp only [bind, Option.bind_eq_some_iff, Option.some.injEq] at hs ht
      obtain ⟨na, ha, nb, hb, nc, hc, nd, hd, hm⟩ := hs
      obtain ⟨na', ha', nb', hb', nc', hc', nd', hd', hm'⟩ := ht
      have h1 := (ipv4Octet_cases ha).1
      have h2 := (ipv4Octet_cases hb).1
      have h3 := (ipv4Octet_cases hc).1
      have h4 := (ipv4Octet_cases hd).1
      have h5 := (ipv4Octet_cases ha').1
      have h6 := (ipv4Octet_cases hb').1
      have h7 := (ipv4Octet_cases hc').1
      have h8 := (ipv4Octet_cases hd').1
      -- Octets are below 256, so the value determines them one by one.
      obtain rfl : na = na' := by omega
      obtain rfl : nb = nb' := by omega
      obtain rfl : nc = nc' := by omega
      obtain rfl : nd = nd' := by omega
      rw [← intercalate_split '.' s, ← intercalate_split '.' t, hsplit, hsplit',
        ipv4Octet_injective ha ha', ipv4Octet_injective hb hb', ipv4Octet_injective hc hc',
        ipv4Octet_injective hd hd']
    · exact absurd ht (by simp)
  · exact absurd hs (by simp)

namespace Address

theorem ipv4_ip (a : Address) : ipv4 a.ip = some a.value := by
  rw [value, Option.some_get]

theorem value_injective : Function.Injective value := by
  intro a b h
  apply Address.ext
  apply ipv4_injective a.ipv4_ip
  rw [h]
  exact b.ipv4_ip

/-- Addresses are compared as numbers. -/
instance : LinearOrder Address := LinearOrder.lift' value value_injective

theorem le_iff {a b : Address} : a ≤ b ↔ a.value ≤ b.value := Iff.rfl

end Address

end DsDns
