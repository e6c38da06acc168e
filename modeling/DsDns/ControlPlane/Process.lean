/-
  `control_plane/process.py`: the process that looks the records of this host's shards up again.

  It learns the shards and the leader from `states.txt`. `gethostbyname` may fail with `socket.gaierror`, which
  skips the record, or with another exception, such as the `UnicodeError` of an overlong label, which ends the
  process; what was sent before stays sent.

  A head that is a float or a container is formatted by `repr`, which names no record file here.
-/
import DsDns.DataPlane.Node
import DsDns.Json.Basic

namespace DsDns

/-- How `socket.gethostbyname` ends. -/
inductive Lookup where
  | ip (address : Str)
  | gaierror
  | raised
  deriving DecidableEq

/-- The address, for a caller that catches every exception. -/
def Lookup.toOption : Lookup → Option Str
  | .ip address => some address
  | _ => none

namespace Process

/-- The messages of a loop whose body may raise. -/
def sendAll {α : Type} (body : α → List Packet × Exit) : List α → List Packet × Exit
  | [] => ([], .ok)
  | x :: xs =>
    match body x with
    | (sent, .raised) => (sent, .raised)
    | (sent, .ok) => (sent ++ (sendAll body xs).1, (sendAll body xs).2)

/-- `send_update`. An address that is no text makes `connect` raise, which is caught. -/
def sendUpdate (domain ip : Str) (leaderIp : Json) : List Packet :=
  match leaderIp with
  | .str leader => [⟨leader, 9000, '1' :: ';' :: (domain ++ ",A,".toList ++ ip ++ ['\n'])⟩]
  | _ => []

/-- One turn of the loop over the lines of a record file. -/
def scanLine (gethostbyname : Str → Lookup) (leaderIp : Json) (line : Str) : List Packet × Exit :=
  let line := strip line
  if line = [] ∨ startsWith line ['#'] then ([], .ok)
  else
    match split ',' line with
    -- The record type is not looked at.
    | domain :: _ :: storedIp :: _ =>
      match gethostbyname (strip domain) with
      | .gaierror => ([], .ok)
      | .raised => ([], .raised)
      | .ip liveIp => (if liveIp ≠ strip storedIp then sendUpdate (strip domain) liveIp leaderIp else [], .ok)
    | _ => ([], .ok)

/-- `f'{head}'`. -/
def headText : Json → Option Str
  | .str s => some s
  | .int n => some (intStr n)
  | .bool b => some (if b then "True".toList else "False".toList)
  | .null => some "None".toList
  | _ => none

/-- One turn of the loop over the heads: a missing file is skipped. -/
def scanHead (gethostbyname : Str → Lookup) (file : Str → Option Str) (leaderIp head : Json) :
    List Packet × Exit :=
  match (headText head).bind file with
  | none => ([], .ok)
  | some text => sendAll (scanLine gethostbyname leaderIp) (readLines text)

/-- What `for head in self_records` walks; `none` is the `TypeError` of a value that is not iterable. -/
def heads : Json → Option (List Json)
  | .arr vs => some vs
  | .str s => some (s.map fun c => .str [c])
  | .obj kvs => some (kvs.map fun kv => .str kv.1)
  | _ => none

/-- `main`, on the text of `states.txt` and the record files. -/
def main (gethostbyname : Str → Lookup) (file : Str → Option Str) (states : Option Str) : List Packet × Exit :=
  match states with
  | none => ([], .ok)
  | some text =>
    match Json.loads (universalNewlines text) with
    | none => ([], .ok)
    | some (.obj data) =>
      let selfRecords := (OrderedDict.lookup "selfRecords".toList data).getD (.arr [])
      let leaderIp := (OrderedDict.lookup "leaderIp".toList data).getD (.str "127.0.0.1".toList)
      match heads selfRecords with
      | none => ([], .raised)
      | some hs => sendAll (scanHead gethostbyname file leaderIp) hs
    -- Only a dictionary has `get`.
    | some _ => ([], .raised)

end Process

end DsDns
