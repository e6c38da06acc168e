/-
  `data_plane/state.py`: the membership view and the shard of one data-plane node.

  `States` has the attributes of the class. `selfRecords` is the list of its one-letter texts, the
  dictionary of records is the function from a `(domain, type)` key to its value, and `published`
  is what `updateState` last wrote to `states.txt`: the file is this node's own, and its writes go
  through. `nodes.txt` is written once and read by no modelled function; it is left out.
-/
import DsDns.KeyedStore
import DsDns.OrderedDict
import DsDns.DataPlane.Shard

namespace DsDns

/-- A reading of the monotonic clock, in nanoseconds. -/
abbrev Time := ℤ

/-- One second. -/
def second : Time := 1000000000

/-- `States.beatInterval`. -/
def beatInterval : Time := 100 * second

/-- `States.leaderDead`. -/
def leaderDead : Time := 300 * second

/-- A record's key: domain and record type. -/
abbrev Key := Str × Str

/-- A dictionary of records. -/
abbrev Records := Key → Option Str

/-- `records[k] = v`. -/
def Records.set (r : Records) (k : Key) (v : Str) : Records := put r (some (k, v))

/-- What `to_state_dict` returns. -/
structure StateDict where
  selfIp : Str
  nodes : OrderedDict Str ℤ
  rank : ℤ
  lastRank : ℤ
  leader : Bool
  beatInterval : Time
  leaderDead : Time
  nodeCount : ℕ
  leaderIp : Str
  selfRecords : List Str
  deriving DecidableEq

/-- `class States`. -/
structure States where
  selfIp : Str
  selfRecords : List Str
  records : Records
  nodes : OrderedDict Str ℤ
  rank : ℤ
  lastRank : ℤ
  mLastRank : ℤ
  leader : Bool
  nodeCount : ℕ
  leaderIp : Str
  published : Option StateDict

namespace States

/-- `States.to_state_dict`. -/
def toStateDict (s : States) : StateDict where
  selfIp := s.selfIp
  nodes := s.nodes
  rank := s.rank
  lastRank := s.lastRank
  leader := s.leader
  beatInterval := beatInterval
  leaderDead := leaderDead
  nodeCount := s.nodeCount
  leaderIp := s.leaderIp
  selfRecords := s.selfRecords

/-- `States.updateState`. A write of `states.txt` that raises `OSError` would leave a warning and the file as it is,
cut short or missing; the model has none. -/
def updateState (s : States) : States := { s with published := some s.toStateDict }

/-- `States.updateRecordSet`. Only the general branch publishes. -/
def updateRecordSet (s : States) : States :=
  if s.nodeCount = 1 then { s with selfRecords := letters alphabet }
  -- Zero ranks are not divided by, and own nothing.
  else if s.lastRank = 0 ∨ s.rank = 0 then { s with selfRecords := [] }
  else updateState { s with selfRecords := shardLetters s.rank s.lastRank }

/-- `States.setLeaderIp`. -/
def setLeaderIp (s : States) (ip : Str) : States := updateState { s with leaderIp := ip }

/-- `States.addNodes`. -/
def addNodes (s : States) (ip : Str) : States :=
  if s.nodes.contains ip then s
  else
    -- The new rank comes from `nodeCount`; `mLastRank` does not move.
    let nodes := s.nodes.set ip (s.nodeCount + 1)
    updateRecordSet { s with
      nodeCount := s.nodeCount + 1
      nodes := nodes
      lastRank := nodes.length }

/-- Assign the ranks from `i` on to the keys, in order. -/
def renumberFrom (i : ℤ) : List Str → OrderedDict Str ℤ → OrderedDict Str ℤ
  | [], nodes => nodes
  | ip :: ips, nodes => renumberFrom (i + 1) ips (nodes.set ip i)

/-- The loop of `removeNode`: `for i, node_ip in enumerate(list(nodes.keys()), start=1)`. -/
def renumber (nodes : OrderedDict Str ℤ) : OrderedDict Str ℤ := renumberFrom 1 nodes.keys nodes

/-- `States.removeNode`. -/
def removeNode (s : States) (ip : Str) : States :=
  if s.nodes.contains ip then
    let nodes := renumber (s.nodes.erase ip)
    updateRecordSet { s with
      nodes := nodes
      nodeCount := (s.nodes.erase ip).length
      -- A node that has removed itself gets the rank 1.
      rank := (nodes.get? s.selfIp).getD 1
      lastRank := nodes.length }
  else s

/-- `States.updateRank`. -/
def updateRank (s : States) (rank lastRank : ℤ) : States :=
  updateRecordSet { s with rank := rank, lastRank := lastRank }

/-- One turn of the loop of `_register_and_load_nodes`; `none` is a file that cannot be read. -/
def registerFile (acc : OrderedDict Str ℤ × ℤ) (file : Option Str) : OrderedDict Str ℤ × ℤ :=
  match file with
  | none => acc
  | some text =>
    let ip := strip text
    -- An address that comes twice takes a second rank, in its first place.
    if ip = [] then acc else (acc.1.set ip (acc.2 + 1), acc.2 + 1)

/-- The address a file names. -/
def fileAddress : Option Str → Option Str
  | none => none
  | some text => if strip text = [] then none else some (strip text)

/-- The addresses that the files name, in their order. -/
def addresses (files : List (Option Str)) : List Str := files.filterMap fileAddress

/-- The `nodes` and `currRank` of `_register_and_load_nodes`, from the texts of the
`self_ip_*.txt` files in the order of their names. -/
def registerNodes (selfIp : Str) (files : List (Option Str)) : OrderedDict Str ℤ × ℤ :=
  let acc := files.foldl registerFile (.empty, 0)
  -- Without a file that names a node, the node is alone.
  if acc.1.length = 0 then (OrderedDict.empty.set selfIp 1, 1) else acc

/-- `States.__init__`, on the advertised address and the `self_ip_*.txt` files. -/
def init (selfIp : Str) (files : List (Option Str)) : States :=
  let registered := registerNodes selfIp files
  updateState <| updateRecordSet
    { selfIp := selfIp
      selfRecords := []
      records := fun _ => none
      nodes := registered.1
      rank := (registered.1.get? selfIp).getD 1
      lastRank := registered.2
      mLastRank := registered.2
      leader := true
      nodeCount := registered.1.length
      leaderIp := selfIp
      published := none }

end States

end DsDns
