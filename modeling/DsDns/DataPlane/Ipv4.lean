/-
  `ipaddress.IPv4Address` on texts.

  Four decimal octets, each of one to three ASCII digits, at most 255 and without a leading zero.
  Addresses are compared as the 32-bit numbers they denote.
-/
import DsDns.Text.Basic

namespace DsDns

/-- One octet; `none` is the `AddressValueError`. -/
def ipv4Octet (s : Str) : Option ℕ :=
  if s = [] ∨ ¬ (s.all Char.isDigit) ∨ 3 < s.length ∨ (s ≠ ['0'] ∧ s.head? = some '0') then none
  else
    let n := Nat.ofDigitChars 10 s 0
    if 255 < n then none else some n

/-- `int(ipaddress.IPv4Address(s))`; `none` is the `ValueError`. -/
def ipv4 (s : Str) : Option ℕ :=
  match split '.' s with
  | [a, b, c, d] => do
    let a ← ipv4Octet a
    let b ← ipv4Octet b
    let c ← ipv4Octet c
    let d ← ipv4Octet d
    some (((a * 256 + b) * 256 + c) * 256 + d)
  | _ => none

/-- An IPv4 address: the text that stands for it. -/
@[ext] structure Address where
  ip : Str
  valid : (ipv4 ip).isSome

/-- The 32-bit number an address denotes. -/
def Address.value (a : Address) : ℕ := (ipv4 a.ip).get a.valid

end DsDns
