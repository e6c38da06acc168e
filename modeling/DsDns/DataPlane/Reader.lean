/-
  `data_plane/read/_read.py`: loading the owned shards at start-up and looking a record up.
-/
import DsDns.DataPlane.Node

namespace DsDns

/-- The binding of one line of a shard file, if it is a record. -/
def lineRecord (line : Str) : Option (Key × Str) :=
  let line := strip line
  if line = [] ∨ startsWith line ['#'] then none
  else
    match split ',' line with
    -- The key keeps its spelling.
    | [domain, rtype, value] => some ((strip domain, strip rtype), strip value)
    | _ => none

/-- One turn of the reading loop of `Reader.__init__`. -/
def loadLine (records : Records) (line : Str) : Records :=
  match lineRecord line with
  | none => records
  | some (key, value) => records.set key value

/-- Load the lines of one shard file. -/
def loadFile (records : Records) (text : Str) : Records := (readLines text).foldl loadLine records

/-- One turn of the outer loop of `Reader.__init__`: a missing file is skipped. -/
def loadShard (disk : Disk) (records : Records) (head : Str) : Records :=
  match disk.file head with
  | none => records
  | some text => loadFile records text

/-- The records `Reader.__init__` loads, walking the set `selfRecords` in the order `heads`. -/
def loadShards (disk : Disk) (heads : List Str) : Records :=
  heads.foldl (loadShard disk) fun _ => none

variable [Unicode]

/-- `domain[0].lower() in selfRecords`, false for the empty text. -/
def States.owns (s : States) (domain : Str) : Bool :=
  match domain with
  | [] => false
  | c :: _ => s.selfRecords.contains (lower [c])

/-- `Reader.recordResponse`. -/
def States.recordResponse (s : States) (domain rtype : Str) : Str :=
  if s.owns domain then
    -- The look-up folds the case, the stores do not.
    (s.records (lower (strip domain), upper (strip rtype))).getD "N/A".toList
  else "N/A".toList

end DsDns
