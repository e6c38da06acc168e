/-
  `states.txt`: the text `States.updateState` writes.

  The times of a `StateDict` are readings of the clock; the file has them in seconds.
-/
import DsDns.DataPlane.State
import DsDns.Json.Basic

namespace DsDns

/-- The dictionary of `to_state_dict`, as `json.dump` takes it. -/
def StateDict.toJson (d : StateDict) : Json :=
  .obj [("selfIp".toList, .str d.selfIp),
    ("nodes".toList, .obj (d.nodes.entries.map fun e => (e.1, .int e.2))),
    ("rank".toList, .int d.rank),
    ("lastRank".toList, .int d.lastRank),
    ("leader".toList, .bool d.leader),
    ("beatInterval".toList, .int (d.beatInterval / second)),
    ("leaderDead".toList, .int (d.leaderDead / second)),
    ("nodeCount".toList, .int d.nodeCount),
    ("leaderIp".toList, .str d.leaderIp),
    ("selfRecords".toList, .arr (d.selfRecords.map .str))]

/-- `json.dump(self.to_state_dict(), f, indent=2)`. -/
def StateDict.text (d : StateDict) : Str := Json.dump 2 0 d.toJson

/-- `states.txt`, if it has been written. -/
def States.file (s : States) : Option Str := s.published.map StateDict.text

end DsDns
