/-
  `AclManager.java`: which clients are internal.
-/
import DsDns.ControlPlane.CacheClient

namespace DsDns

/-- `s.split(regex)` for a separator of one character: empty texts at the end are dropped, unless
there is nothing to split. -/
def javaSplit (sep : Char) (s : Str) : List Str :=
  if s.contains sep then (split sep s).rdropWhile (· = []) else [s]

variable [Unicode]

/-- The digits of an integer: at least one. -/
def javaDigits (s : Str) : Option ℕ :=
  if s = [] then none else (s.mapM digit).map fun digits => digits.foldl (fun n d => 10 * n + d) 0

/-- `Integer.parseInt(s)`; `none` is the `NumberFormatException`. -/
def javaParseInt (s : Str) : Option ℤ :=
  let value : Option ℤ :=
    match s with
    | '-' :: t => (javaDigits t).map fun n => -(n : ℤ)
    | '+' :: t => (javaDigits t).map fun n => (n : ℤ)
    | t => (javaDigits t).map fun n => (n : ℤ)
  value.filter fun n => -2147483648 ≤ n ∧ n ≤ 2147483647

/-- `class AclManager`. -/
structure AclManager where
  subnetPrefix : Str
  octet3Min : ℤ
  octet3Max : ℤ

/-- `AclManager.isInternalRequest`. -/
def AclManager.isInternalRequest (acl : AclManager) (clientIp : Str) : Bool :=
  if isBlank clientIp then false
  else
    match javaSplit '.' clientIp with
    -- The fourth part is not looked at.
    | [first, second, third, _] =>
      if first ++ '.' :: second ≠ acl.subnetPrefix then false
      else
        match javaParseInt third with
        | none => false
        | some thirdOctet => acl.octet3Min ≤ thirdOctet ∧ thirdOctet ≤ acl.octet3Max
    | _ => false

end DsDns
