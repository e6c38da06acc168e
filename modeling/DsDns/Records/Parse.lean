/-
  `records/parse.py`: the bulk import of `top-1m.csv` into the record files.

  `World` is what the calls of `parseStart` share: the directory, the number of look-ups made so far and a
  log of the calls the function makes of itself. The resolver may answer differently each time, so
  `gethostbyname` takes that number too. `parseStart` takes the depth that is left of the interpreter's
  stack; at depth 0 a call raises `RecursionError`. Files may be impossible to open; what is written to an
  open file gets there.
-/
import DsDns.DataPlane.Node

namespace DsDns.Parse

/-- The directory, the look-ups so far, and for every recursive call the `start` of the caller and its
argument. -/
structure World where
  disk : Disk
  asked : ℕ
  calls : List (ℤ × ℤ)

/-- The local variables of `parseStart`. -/
structure Locals where
  records : OrderedDict Char (List Str)
  errStart : ℤ
  contErr : ℕ

/-- `file.writelines(record)` on a file opened for appending. -/
def append (disk : Disk) (name : Str) (record : List Str) : Disk :=
  disk.write name ((disk.file name).getD [] ++ record.flatten)

/-- The loop of `commit`. What was appended before an exception stays. -/
def commitHeads (disk : Disk) : List (Char × List Str) → Disk × Exit
  | [] => (disk, .ok)
  | (head, record) :: heads =>
    if disk.canOpen [head] then commitHeads (append disk [head] record) heads else (disk, .raised)

/-- `commit`. -/
def commit (disk : Disk) (records : OrderedDict Char (List Str)) (num : ℤ) : Disk × Exit :=
  if disk.canOpen "last".toList then commitHeads (disk.write "last".toList (intStr num)) records.entries
  else (disk, .raised)

/-- The line of one resolved domain. -/
def recordText (domain ip : Str) : Str := domain ++ ",A,".toList ++ ip ++ ['\n']

namespace Locals

/-- The variables `parseStart` starts with. -/
def init : Locals := ⟨.empty, 0, 0⟩

/-- `records[head].append(text)`, with the empty list for a new key. -/
def push (l : Locals) (head : Char) (text : Str) : Locals :=
  { l with records := l.records.set head ((l.records.get? head).getD [] ++ [text]) }

/-- The `except` branch of the loop. -/
def fail (l : Locals) (num : ℤ) : Locals :=
  if l.contErr = 0 then { l with errStart := num, contErr := 1 } else { l with contErr := l.contErr + 1 }

end Locals

section

variable (gethostbyname : ℕ → Str → Option Str)

/-- The `try` statement of the loop. `again` is the recursive call; its exception counts as one more
failure. -/
def lookup (again : ℤ → World → World × Exit) (start num : ℤ) (domain : Str) (l : Locals) (w : World) :
    Locals × World :=
  let answer := gethostbyname w.asked domain
  let w := { w with asked := w.asked + 1 }
  match answer, domain with
  | some ip, head :: _ =>
    -- The line is kept before the recursive call, which looks the domain up again.
    let l := l.push head (recordText domain ip)
    if 200 < l.contErr then
      match again l.errStart { w with calls := w.calls ++ [(start, l.errStart)] } with
      | (w, .ok) => ({ l with contErr := 0 }, w)
      | (w, .raised) => (l.fail num, w)
    else ({ l with contErr := 0 }, w)
  -- An empty domain that resolves raises at `domain[0]`.
  | _, _ => (l.fail num, w)

/-- One turn of the loop of `parseStart`, for a number beyond `start`. -/
def parseLine (again : ℤ → World → World × Exit) (start num : ℤ) (domain : Str) (l : Locals) (w : World) :
    Locals × World × Exit :=
  let (l, w) := lookup gethostbyname again start num domain l w
  if num % 100 = 0 then
    match commit w.disk l.records num with
    | (disk, .ok) => ({ l with records := .empty }, { w with disk := disk }, .ok)
    | (disk, .raised) => (l, { w with disk := disk }, .raised)
  else (l, w, .ok)

variable [Unicode]

/-- The number and the domain of a line; `none` is the `ValueError`. -/
def csvLine (line : Str) : Option (ℤ × Str) :=
  match split ',' (strip line) with
  | [num, domain] => (parseIntUpTo maxStrDigits num).map fun num => (num, domain)
  | _ => none

/-- The loop of `parseStart`. -/
def parseLines (again : ℤ → World → World × Exit) (start : ℤ) : List Str → Locals → World → World × Exit
  | [], _, w => (w, .ok)
  | line :: lines, l, w =>
    match csvLine line with
    | none => (w, .raised)
    | some (num, domain) =>
      if num ≤ start then parseLines again start lines l w
      else
        match parseLine gethostbyname again start num domain l w with
        | (l, w, .ok) => parseLines again start lines l w
        | (_, w, .raised) => (w, .raised)

/-- `parseStart`. The lines after the last multiple of 100 are in no commit. -/
def parseStart (csv : Str) : ℕ → ℤ → World → World × Exit
  | 0, _, w => (w, .raised)
  | depth + 1, start, w => parseLines gethostbyname (parseStart csv depth) start (readLines csv) Locals.init w

/-! ### The module -/

/-- One turn of the loop that fills `r`. -/
def numberLine (r : Str → Option ℤ) (line : Str) : Option (Str → Option ℤ) :=
  (csvLine line).map fun (num, domain) => put r (some (domain, num))

/-- The dictionary `r`: the number of every domain, the last one if it comes twice. -/
def numbers (csv : Str) : Option (Str → Option ℤ) := (readLines csv).foldlM numberLine fun _ => none

omit [Unicode] in
/-- One turn of the inner loop that looks for the resume point; `none` is its exception. -/
def resumeLine (r : Str → Option ℤ) (start : ℤ) (line : Str) : Option ℤ :=
  match split ',' line with
  | [domain, _, _] => (r domain).map fun num => max num start
  | _ => none

omit [Unicode] in
/-- The inner loop. An exception ends it and keeps what it has found. -/
def resumeLines (r : Str → Option ℤ) (start : ℤ) : List Str → ℤ
  | [] => start
  | line :: lines =>
    match resumeLine r start line with
    | none => start
    | some start => resumeLines r start lines

omit [Unicode] in
/-- One turn of the outer loop: a missing file is skipped. -/
def resumeHead (r : Str → Option ℤ) (disk : Disk) (start : ℤ) (head : Char) : ℤ :=
  match disk.file [head] with
  | none => start
  | some text => resumeLines r start (readLines text)

omit [Unicode] in
/-- The heads of the files that are searched. -/
def heads : Str := "abcdefghijklmnopqrstuvwxyz0123456789".toList

omit [Unicode] in
/-- The number the search ends with. -/
def resume (r : Str → Option ℤ) (disk : Disk) : ℤ := heads.foldl (resumeHead r disk) 0

/-- The module: it skips the line after the resume point. -/
def main (csv : Str) (depth : ℕ) (disk : Disk) : World × Exit :=
  match numbers csv with
  | none => (⟨disk, 0, []⟩, .raised)
  | some r => parseStart gethostbyname csv depth (resume r disk + 1) ⟨disk, 0, []⟩

end

end DsDns.Parse
