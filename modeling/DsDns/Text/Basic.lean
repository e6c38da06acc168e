/-
  Python text, as the data plane and the two caches use it.

  A text is a list of code points. The functions carry the names of the `str` methods and
  built-ins they follow: `strip`, `lstrip`, `rstrip`, `startswith`, `split(sep)`, `int`, `str` of an
  integer, and the line iteration of a text file opened with universal newlines.

  What depends on the tables of the Unicode character database (`lower`, `upper`, the decimal
  digits) is the class `Unicode`: it says only what every version of those tables agrees on, that
  on ASCII they are the familiar maps. `Unicode.ascii` is the instance concrete runs use.
-/
import Mathlib.Data.List.DropRight
import Mathlib.Data.Nat.Notation
import Mathlib.Data.Int.Notation
import Mathlib.Tactic.TypeStar

namespace DsDns

/-- A text: the code points of a Python `str` or of a Java `String`. -/
abbrev Str := List Char

-- By name, so that `if ip ∈ ips` is the same term in every module.
instance lawfulBEqStr : LawfulBEq Str := inferInstance

/-! ### Whitespace -/

/-- `c.isspace()`. -/
def isSpace (c : Char) : Bool :=
  let n := c.toNat
  (9 ≤ n && n ≤ 13) || (28 ≤ n && n ≤ 32) || n == 0x85 || n == 0xA0 || n == 0x1680 ||
    (0x2000 ≤ n && n ≤ 0x200A) || n == 0x2028 || n == 0x2029 || n == 0x202F || n == 0x205F ||
    n == 0x3000

/-- `s.lstrip()`. -/
def lstrip (s : Str) : Str := s.dropWhile isSpace

/-- `s.rstrip()`. -/
def rstrip (s : Str) : Str := s.rdropWhile isSpace

/-- `s.strip()`. -/
def strip (s : Str) : Str := rstrip (lstrip s)

/-! ### Prefixes and fields -/

/-- `s.startswith(p)`. -/
def startsWith (s p : Str) : Bool := p.isPrefixOf s

/-- `s.split(sep)` for a one-character separator. -/
def split (sep : Char) (s : Str) : List Str := s.splitOn sep

/-- `s.split(sep, n)` for a one-character separator: at most `n` cuts. -/
def splitMax (sep : Char) : ℕ → Str → List Str
  | 0, s => [s]
  | n + 1, s =>
    match s.dropWhile (· ≠ sep) with
    | [] => [s]
    | _ :: rest => s.takeWhile (· ≠ sep) :: splitMax sep n rest

/-! ### Lines -/

/-- The newline translation of text mode: `\r\n` and `\r` are read as `\n`. -/
def universalNewlines : Str → Str
  | [] => []
  | '\r' :: '\n' :: s => '\n' :: universalNewlines s
  | c :: s => (if c = '\r' then '\n' else c) :: universalNewlines s

/-- Put a character in front of the first line of a list of lines. -/
def consLine (c : Char) : List Str → List Str
  | [] => [[c]]
  | l :: ls => (c :: l) :: ls

/-- Cut a text after every `\n`; the last line may be unterminated. -/
def splitLines : Str → List Str
  | [] => []
  | c :: s => if c = '\n' then ['\n'] :: splitLines s else consLine c (splitLines s)

/-- The lines of `for line in f`, and of repeated `f.readline()`, on a text-mode file. -/
def readLines (s : Str) : List Str := splitLines (universalNewlines s)

/-- `len(s.encode())`. -/
def byteLength (s : Str) : ℕ := s.foldr (fun c n => c.utf8Size + n) 0

/-! ### Case and decimal digits -/

/-- The part of the Unicode character database the program reads. `lower` works on whole texts
because lower-casing a sigma looks at its neighbours; upper-casing never does. -/
class Unicode where
  /-- `s.lower()`. -/
  lower : Str → Str
  /-- `c.upper()`, which may be several characters. -/
  upperChar : Char → Str
  /-- The decimal value of a character, as `int` reads it. -/
  digit : Char → Option ℕ
  lower_ascii : ∀ s : Str, (∀ c ∈ s, c.toNat < 128) → lower s = s.map Char.toLower
  upperChar_ascii : ∀ c : Char, c.toNat < 128 → upperChar c = [c.toUpper]
  digit_ascii : ∀ c : Char, c.toNat < 128 →
    digit c = if c.isDigit then some (c.toNat - '0'.toNat) else none

/-- The tables restricted to ASCII: every other character is its own case and no digit. -/
@[reducible] def Unicode.ascii : Unicode where
  lower s := s.map Char.toLower
  upperChar c := [c.toUpper]
  digit c := if c.isDigit then some (c.toNat - '0'.toNat) else none
  lower_ascii _ _ := rfl
  upperChar_ascii _ _ := rfl
  digit_ascii _ _ := rfl

export Unicode (lower upperChar digit)

variable [Unicode]

/-- `s.upper()`. -/
def upper (s : Str) : Str := s.flatMap upperChar

/-! ### Integers -/

/-- The digits of an integer literal after its first one: single underscores may separate them. -/
def intDigits (acc : ℕ) : Str → Option ℕ
  | [] => some acc
  | '_' :: c :: s => (digit c).bind fun d => intDigits (10 * acc + d) s
  | c :: s => (digit c).bind fun d => intDigits (10 * acc + d) s

/-- An unsigned integer literal: a digit first. -/
def natLiteral : Str → Option ℕ
  | [] => none
  | c :: s => (digit c).bind fun d => intDigits d s

omit [Unicode] in
/-- The whitespace `int` takes off: the separators U+001C to U+001F stay, and make it fail. -/
def intSpace (c : Char) : Bool := isSpace c && !(28 ≤ c.toNat && c.toNat ≤ 31)

/-- `int(s)` of an interpreter that reads literals of any length (`sys.set_int_max_str_digits(0)`); `none` is
the `ValueError`. -/
def parseInt (s : Str) : Option ℤ :=
  match (s.dropWhile intSpace).rdropWhile intSpace with
  | '-' :: t => (natLiteral t).map fun n => -(n : ℤ)
  | '+' :: t => (natLiteral t).map fun n => (n : ℤ)
  | t => (natLiteral t).map fun n => (n : ℤ)

/-- `int(s)` under the limit that an interpreter sets to the digits of a literal, leading zeros included. -/
def parseIntUpTo (limit : ℕ) (s : Str) : Option ℤ :=
  if limit < s.countP fun c => (digit c).isSome then none else parseInt s

omit [Unicode] in
/-- The limit an interpreter starts with: `sys.get_int_max_str_digits()`. -/
def maxStrDigits : ℕ := 4300

omit [Unicode] in
/-- `str(n)`. -/
def intStr : ℤ → Str
  | .ofNat n => Nat.toDigits 10 n
  | .negSucc n => '-' :: Nat.toDigits 10 (n + 1)

end DsDns
