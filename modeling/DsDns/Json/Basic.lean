/-
  Python's `json` module: `json.dump` with an indent, and `json.load`.

  `dump` escapes everything outside printable ASCII, as `ensure_ascii` does; `loads` is the scanner of the
  module, with its white space, its escapes and its numbers. A number with a fraction or an exponent, `NaN` and
  the infinities keep their text (`float`): no user of the library computes with them. A `\u` escape of half a
  surrogate pair that has no other half is refused, since `Str` has no such character.

  Nothing bounds the nesting, so `value`, `items` and `members` recurse on fuel; `loads` gives them more than
  the text has characters.
-/
import DsDns.OrderedDict
import DsDns.Text.Basic
import Mathlib.Data.Nat.Digits.Defs

namespace DsDns

/-- A value of a JSON document. The members of an object are in order. -/
inductive Json where
  | null
  | bool (b : Bool)
  | int (n : ℤ)
  | float (literal : Str)
  | str (s : Str)
  | arr (items : List Json)
  | obj (members : List (Str × Json))

namespace Json

/-! ### Writing -/

/-- The escape `\uXXXX` of one UTF-16 code unit. -/
def unitEscape (u : ℕ) : Str :=
  ['\\', 'u', Nat.digitChar (u / 4096 % 16), Nat.digitChar (u / 256 % 16), Nat.digitChar (u / 16 % 16),
    Nat.digitChar (u % 16)]

/-- `ESCAPE_DCT`: the characters with a short escape, and its letter. -/
def escapeDct : List (Char × Char) :=
  [('\\', '\\'), ('"', '"'), (Char.ofNat 8, 'b'), (Char.ofNat 12, 'f'), ('\n', 'n'), ('\r', 'r'), ('\t', 't')]

/-- One character of a string literal. -/
def escape (c : Char) : Str :=
  match OrderedDict.lookup c escapeDct with
  | some letter => ['\\', letter]
  | none =>
    if 32 ≤ c.toNat ∧ c.toNat ≤ 126 then [c]
    else if c.toNat < 0x10000 then unitEscape c.toNat
    -- Outside the first plane: a surrogate pair.
    else
      unitEscape (0xD800 + (c.toNat - 0x10000) / 0x400) ++ unitEscape (0xDC00 + (c.toNat - 0x10000) % 0x400)

/-- The text of a string literal after its opening quote. -/
def quoteTail (s : Str) : Str := s.flatMap escape ++ ['"']

/-- A string literal. -/
def quote (s : Str) : Str := '"' :: quoteTail s

/-- The line break before an item at the nesting `level`. -/
def newline (w level : ℕ) : Str := '\n' :: List.replicate (w * level) ' '

mutual
/-- `json.dumps(v, indent=w)` at the nesting `level`. -/
def dump (w level : ℕ) : Json → Str
  | null => "null".toList
  | bool true => "true".toList
  | bool false => "false".toList
  | int n => intStr n
  | float literal => literal
  | str s => quote s
  | arr [] => ['[', ']']
  | arr (v :: vs) => '[' :: (newline w (level + 1) ++ (dump w (level + 1) v ++ dumpItems w level vs))
  | obj [] => ['{', '}']
  | obj ((k, v) :: kvs) =>
    '{' :: (newline w (level + 1) ++ (quote k ++ ':' :: ' ' :: (dump w (level + 1) v ++ dumpMembers w level kvs)))

/-- The items of an array after its first one, and its end. -/
def dumpItems (w level : ℕ) : List Json → Str
  | [] => newline w level ++ [']']
  | v :: vs => ',' :: (newline w (level + 1) ++ (dump w (level + 1) v ++ dumpItems w level vs))

/-- The members of an object after its first one, and its end. -/
def dumpMembers (w level : ℕ) : List (Str × Json) → Str
  | [] => newline w level ++ ['}']
  | (k, v) :: kvs =>
    ',' :: (newline w (level + 1) ++ (quote k ++ ':' :: ' ' :: (dump w (level + 1) v ++ dumpMembers w level kvs)))
end

/-! ### Reading -/

/-- The white space of JSON. -/
def isBlank (c : Char) : Bool := c == ' ' || c == '\t' || c == '\n' || c == '\r'

/-- Skip white space. -/
def skipBlanks (s : Str) : Str := s.dropWhile isBlank

/-- The value of a hexadecimal digit. -/
def hexDigit (c : Char) : Option ℕ :=
  if '0' ≤ c ∧ c ≤ '9' then some (c.toNat - '0'.toNat)
  else if 'a' ≤ c ∧ c ≤ 'f' then some (c.toNat - 'a'.toNat + 10)
  else if 'A' ≤ c ∧ c ≤ 'F' then some (c.toNat - 'A'.toNat + 10)
  else none

/-- The code unit of four hexadecimal digits. -/
def hexUnit (a b c d : Char) : Option ℕ := do
  let a ← hexDigit a
  let b ← hexDigit b
  let c ← hexDigit c
  let d ← hexDigit d
  some (4096 * a + 256 * b + 16 * c + d)

/-- `BACKSLASH`: the letters of the short escapes, and what they stand for. -/
def backslash : List (Char × Char) :=
  [('"', '"'), ('\\', '\\'), ('/', '/'), ('b', Char.ofNat 8), ('f', Char.ofNat 12), ('n', '\n'), ('r', '\r'),
    ('t', '\t')]

/-- The code points and code units of a string literal after its opening quote, and what follows it. -/
def units : Str → Option (List ℕ × Str)
  | [] => none
  | '"' :: s => some ([], s)
  | '\\' :: 'u' :: a :: b :: c :: d :: s => do
    let u ← hexUnit a b c d
    let r ← units s
    some (u :: r.1, r.2)
  | '\\' :: c :: s => do
    let u ← OrderedDict.lookup c backslash
    let r ← units s
    some (u.toNat :: r.1, r.2)
  | c :: s =>
    -- Control characters may not stand in a string.
    if c.toNat < 32 then none
    else do
      let r ← units s
      some (c.toNat :: r.1, r.2)

/-- The character of one unit. -/
def unitChar (u : ℕ) : Option Char := if 0xD800 ≤ u ∧ u ≤ 0xDFFF then none else some (Char.ofNat u)

/-- The text of a sequence of units: a high surrogate joins a low one after it. -/
def joinUnits : List ℕ → Option Str
  | [] => some []
  | [u] => do
    let c ← unitChar u
    some [c]
  | u :: v :: us =>
    if (0xD800 ≤ u ∧ u ≤ 0xDBFF) ∧ 0xDC00 ≤ v ∧ v ≤ 0xDFFF then do
      let s ← joinUnits us
      some (Char.ofNat (0x10000 + (u - 0xD800) * 0x400 + (v - 0xDC00)) :: s)
    else do
      let c ← unitChar u
      let s ← joinUnits (v :: us)
      some (c :: s)

/-- A string literal after its opening quote. -/
def stringTail (s : Str) : Option (Str × Str) := do
  let r ← units s
  let t ← joinUnits r.1
  some (t, r.2)

/-- The fraction at the beginning of a text, if there is one: `\.\d+`. -/
def fraction : Str → Str
  | '.' :: s => if s.takeWhile Char.isDigit = [] then [] else '.' :: s.takeWhile Char.isDigit
  | _ => []

/-- The exponent at the beginning of a text, if there is one: `[eE][-+]?\d+`. -/
def exponent : Str → Str
  | e :: s =>
    if e = 'e' ∨ e = 'E' then
      let sign := (s.take 1).filter fun c => c == '-' || c == '+'
      let digits := (s.drop sign.length).takeWhile Char.isDigit
      if digits = [] then [] else e :: (sign ++ digits)
    else []
  | [] => []

/-- The digits of the integer part of a number: `0|[1-9]\d*`. -/
def wholePart : Str → Str
  | '0' :: _ => ['0']
  | s => s.takeWhile Char.isDigit

/-- A number. -/
def number (s : Str) : Option (Json × Str) :=
  let sign := if startsWith s ['-'] then ['-'] else []
  let t := s.drop sign.length
  let whole := wholePart t
  if whole = [] then none
  else
    let frac := fraction (t.drop whole.length)
    let exp := exponent (t.drop (whole.length + frac.length))
    let rest := t.drop (whole.length + frac.length + exp.length)
    if frac = [] ∧ exp = [] then
      let n : ℤ := Nat.ofDigitChars 10 whole 0
      some (int (if sign = [] then n else -n), rest)
    else some (float (sign ++ whole ++ frac ++ exp), rest)

/-- The words that are values. -/
def words : List (Str × Json) :=
  [("null".toList, null), ("true".toList, bool true), ("false".toList, bool false), ("NaN".toList, float "NaN".toList),
    ("Infinity".toList, float "Infinity".toList), ("-Infinity".toList, float "-Infinity".toList)]

/-- A number or a word. -/
def scalar (s : Str) : Option (Json × Str) :=
  match number s with
  | some r => some r
  | none => words.findSome? fun w => if startsWith s w.1 then some (w.2, s.drop w.1.length) else none

/-- `dict(pairs)`: a key that comes again keeps its place and takes the new value. -/
def dict (pairs : List (Str × Json)) : List (Str × Json) :=
  pairs.foldl (fun kvs kv => OrderedDict.setEntry kv.1 kv.2 kvs) []

mutual
/-- One value, and the text after it. -/
def value : ℕ → Str → Option (Json × Str)
  | _ + 1, '"' :: s => (stringTail s).map fun r => (str r.1, r.2)
  | fuel + 1, '[' :: s =>
    match skipBlanks s with
    | ']' :: s => some (arr [], s)
    | s => (items fuel s).map fun r => (arr r.1, r.2)
  | fuel + 1, '{' :: s =>
    match skipBlanks s with
    | '}' :: s => some (obj [], s)
    | s => (members fuel s).map fun r => (obj (dict r.1), r.2)
  | _ + 1, s => scalar s
  | 0, _ => none

/-- The items of an array from one of them on. -/
def items : ℕ → Str → Option (List Json × Str)
  | fuel + 1, s =>
    match value fuel s with
    | none => none
    | some (v, s) =>
      match skipBlanks s with
      | ']' :: s => some ([v], s)
      | ',' :: s => (items fuel (skipBlanks s)).map fun r => (v :: r.1, r.2)
      | _ => none
  | 0, _ => none

/-- The members of an object from one of them on. -/
def members : ℕ → Str → Option (List (Str × Json) × Str)
  | fuel + 1, '"' :: s =>
    match stringTail s with
    | none => none
    | some (k, s) =>
      match skipBlanks s with
      | ':' :: s =>
        match value fuel (skipBlanks s) with
        | none => none
        | some (v, s) =>
          match skipBlanks s with
          | '}' :: s => some ([(k, v)], s)
          | ',' :: s => (members fuel (skipBlanks s)).map fun r => ((k, v) :: r.1, r.2)
          | _ => none
      | _ => none
  | _, _ => none
end

/-- `json.loads(s)`; `none` is the `JSONDecodeError`. -/
def loads (s : Str) : Option Json :=
  match value (s.length + 1) (skipBlanks s) with
  | none => none
  | some (v, rest) => if skipBlanks rest = [] then some v else none

/-- `data.get(key)` on an object. -/
def get? (key : Str) : Json → Option Json
  | obj kvs => OrderedDict.lookup key kvs
  | _ => none

end Json

end DsDns
