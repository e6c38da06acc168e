/-
  `DnsRequestParser.java`: the queried name of a DNS packet, and the queried type.

  A Java `String` is a text, as a Python `str` is. What depends on the platform (the charset of
  `new String(bytes)`, the locale of `toLowerCase()`) is the class `Jvm`: it says only that
  characters of ASCII come from their own bytes and that lower-casing keeps those that are no letters.
-/
import DsDns.Text.Basic

namespace DsDns

/-- The platform of the control plane. -/
class Jvm where
  /-- `new String(bytes)`. -/
  decode : List UInt8 → Str
  /-- `s.toLowerCase()`. -/
  toLowerCase : Str → Str
  mem_decode : ∀ (bytes : List UInt8) (c : Char), c.toNat < 128 →
    (c ∈ decode bytes ↔ UInt8.ofNat c.toNat ∈ bytes)
  mem_toLowerCase : ∀ (s : Str) (c : Char), c.toNat < 128 → c.isAlpha = false →
    (c ∈ toLowerCase s ↔ c ∈ s)

export Jvm (decode)

/-- The loop of `parseDomain`: the labels of a QNAME, and the bytes from the position on where it ends;
`none` is a label that overflows the packet. Every turn consumes a byte, so the length of the text is
fuel enough (`readLabels_fuel`). -/
def scanName : ℕ → List UInt8 → Option (List (List UInt8) × List UInt8)
  | 0, bytes => some ([], bytes)
  | _, [] => some ([], [])
  | fuel + 1, len :: rest =>
    if len = 0 then some ([], len :: rest)
    -- A compression pointer ends the name.
    else if len &&& 0xC0 = 0xC0 then some ([], len :: rest)
    else if rest.length < len.toNat then none
    else (scanName fuel (rest.drop len.toNat)).map fun r => (rest.take len.toNat :: r.1, r.2)

/-- The labels of a QNAME. -/
def readLabels (fuel : ℕ) (bytes : List UInt8) : Option (List (List UInt8)) :=
  (scanName fuel bytes).map Prod.fst

/-- The labels of a packet: its QNAME starts at byte 12. -/
def queryLabels (request : List UInt8) : Option (List (List UInt8)) :=
  readLabels request.length (request.drop 12)

/-- The loop of `parseQType`: the bytes after the name. It does not look for pointers, and a label that
overflows the packet leaves nothing. -/
def skipName : ℕ → List UInt8 → List UInt8
  | 0, bytes => bytes
  | _, [] => []
  | fuel + 1, len :: rest => if len = 0 then rest else skipName fuel (rest.drop len.toNat)

/-- `DnsRequestParser.parseQType`. -/
def parseQType (request : List UInt8) : ℤ :=
  if request.length < 12 then -1
  else
    match skipName request.length (request.drop 12) with
    | hi :: lo :: _ => ((hi.toNat <<< 8 ||| lo.toNat : ℕ) : ℤ)
    | _ => -1

variable [Jvm]

/-- One `append` to the `StringBuilder`, with a dot in front unless it is empty. -/
def appendLabel (domain : Str) (label : List UInt8) : Str :=
  if 0 < domain.length then domain ++ '.' :: decode label else domain ++ decode label

/-- `DnsRequestParser.parseDomain`; `none` is `null`. -/
def parseDomain (request : List UInt8) : Option Str :=
  if request.length < 12 then none
  else
    match queryLabels request with
    | none => none
    | some labels =>
      -- The bytes of a label are taken as they are, line breaks and semicolons included.
      let result := Jvm.toLowerCase (labels.foldl appendLabel [])
      if result = [] then none else some result

end DsDns
