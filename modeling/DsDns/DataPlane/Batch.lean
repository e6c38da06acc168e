/-
  `data_plane/batch/_batch.py`: one pass of the thread that looks every record up again.

  A record whose address has changed goes to the leader as a new write. `gethostbyname` returns `none` when it
  fails to resolve.

  The loop reads a record file block by block, while the leader, which shares the directory, may rewrite it. So
  in a `Refresh` the lines come one by one, whatever they are, and between two of them the leader may handle a
  message. `processShard` is a pass over a file that nobody writes meanwhile.
-/
import DsDns.DataPlane.Lifetime

namespace DsDns

/-- The message for one line of a record file, if its address has changed. -/
def refreshLine (gethostbyname : Str → Option Str) (line : Str) : Option Str :=
  let line := strip line
  if line = [] ∨ startsWith line ['#'] then none
  else
    match split ',' line with
    | [dom, t, ip] =>
      -- The fields keep their blanks, also for the comparison.
      match gethostbyname dom with
      | none => none
      | some rip => if rip ≠ ip then some ('1' :: ';' :: (dom ++ ',' :: (t ++ ',' :: (rip ++ ['\n'])))) else none
    | _ => none

namespace Node

/-- One turn of the inner loop of `Batch.process`. -/
def processLine (gethostbyname : Str → Option Str) (n : Node) (line : Str) : Node :=
  match refreshLine gethostbyname line with
  | none => n
  | some msg => n.sendRaw n.states.leaderIp 9000 msg

/-- One turn of the outer loop of `Batch.process`, on a file that stays as it is until its end is read: a
missing file is skipped. -/
def processShard (gethostbyname : Str → Option Str) (n : Node) (shard : Str) : Node :=
  match n.disk.file shard with
  | none => n
  | some text => (readLines text).foldl (processLine gethostbyname) n

/-- `Batch.process` on such files. -/
def process (gethostbyname : Str → Option Str) (n : Node) : Node :=
  n.states.selfRecords.foldl (processShard gethostbyname) n

end Node

/-- A pass under way: the node that scans, what it has sent to the leader, and the leader, on whose disk the
record files are. -/
structure Refresh where
  node : Node
  inFlight : List Packet
  leader : Node

inductive RefreshEvent where
  /-- The scan gets a line of a record file. -/
  | line (text : Line)
  /-- The leader handles the message number `k`, and its write of the record file ends as `torn` says. -/
  | handle (k : ℕ) (torn : Torn)
  deriving DecidableEq

/-- The pass after one event. Every message has a connection of its own. -/
def Refresh.step [Unicode] (gethostbyname : Str → Option Str) (s : Refresh) : RefreshEvent → Refresh
  | .line text =>
    let n := ({ s.node with outbox := [] } : Node).processLine gethostbyname text.val
    { s with inFlight := s.inFlight ++ n.outbox }
  | .handle k torn =>
    match s.inFlight[k]? with
    | none => s
    | some p =>
      { s with
        inFlight := s.inFlight.eraseIdx k
        leader := (s.leader.writeHandlerWith torn (strip p.text)).1 }

end DsDns
