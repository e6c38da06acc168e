/-
  `data_plane/write/_writer.py`: the write pipeline of a data-plane node, from a message on
  port 9000 to the log, the followers, the record file and the records in memory.

  The text `update` is `domain,type,ip`. `commitFile` is the rewriting loop of `commitHandler` as a
  function of the file's text. Writing a record file can fail in two ways, and `commitHandler` catches
  both: `open` raises (`Disk.denied`), or a later write does (`Torn`). The functions that end in `With`
  take how a write ends; without it they are those of a disk on which what `open` lets through is written.
-/
import DsDns.DataPlane.Raft
import DsDns.DataPlane.Reader

namespace DsDns

/-- The domain a line of a record file is matched by: `line.strip().split(',')[0].strip()`. -/
def lineDomain (line : Str) : Str := strip ((split ',' (strip line)).headD [])

/-- The text `commitHandler` writes over a record file (`none`: there was no file). -/
def commitFile (file : Option Str) (domain update : Str) : Str :=
  let lines := match file with
    | none => []
    | some text => readLines text
  -- Every line of the domain is replaced, of whatever type.
  let rewritten := lines.map fun line => if lineDomain line = domain then update ++ ['\n'] else line
  let found := lines.any fun line => lineDomain line = domain
  -- The last line may lack its line break; the update is written after it as it is.
  (if found then rewritten else rewritten ++ [update ++ ['\n']]).flatten

variable [Unicode]

namespace Node

/-- `Writer.ackHandler`; the quorum message it prints changes nothing. -/
def ackHandler (n : Node) (num : Str) : Node :=
  { n with writer := { n.writer with
      logAck := fun x => if x = num then n.writer.logAck num + 1 else n.writer.logAck x } }

/-- The `try` block of `commitHandler`. An open that fails changes nothing; a write that fails has cost the
file what it held, and the records do not get the update. -/
def commitRecordWith (torn : Torn) (n : Node) (update domain rtype ip shard : Str) : Node :=
  if n.disk.denied shard then n
  else
    let text := commitFile (n.disk.file shard) domain update
    match torn with
    | some k => { n with disk := n.disk.write shard (text.take k) }
    | none =>
      { n with
        disk := n.disk.write shard text
        states := { n.states with records := n.states.records.set (domain, rtype) ip } }

/-- The `try` block where what `open` lets through is written. -/
def commitRecord (n : Node) (update domain rtype ip shard : Str) : Node :=
  n.commitRecordWith none update domain rtype ip shard

/-- `Writer.commitHandler`. It raises on an empty domain (`domain[0]`), and when the shard's name
cannot be a file name. -/
def commitHandlerWith (torn : Torn) (n : Node) (num : Str) : Node × Exit :=
  match n.writer.logs num with
  | none => (n, .ok)
  | some update =>
    if update = [] then (n, .ok)
    else
      match split ',' (strip update) with
      -- Fields after the third are ignored here.
      | domain :: rtype :: ip :: _ =>
        match strip domain with
        | [] => (n, .raised)
        | c :: cs =>
          -- `open` raises `ValueError` on an embedded NUL, which is no `OSError`.
          if (lower [c]).contains (Char.ofNat 0) then (n, .raised)
          else (n.commitRecordWith torn update (c :: cs) (strip rtype) (strip ip) (lower [c]), .ok)
      | _ => (n, .ok)

/-- `Writer.commitHandler` on such a disk. -/
def commitHandler (n : Node) (num : Str) : Node × Exit := n.commitHandlerWith none num

/-- `Writer.writeStarter`. -/
def writeStarterWith (torn : Torn) (n : Node) (update num : Str) : Node × Exit :=
  let n := { n with writer := n.writer.setLog num update }
  match n.sendLog (num ++ ';' :: update) num with
  | (n, .raised) => (n, .raised)
  | (n, .ok) => n.commitHandlerWith torn num

/-- `Writer.writeStarter` on such a disk. -/
def writeStarter (n : Node) (update num : Str) : Node × Exit := n.writeStarterWith none update num

/-- Take the next log number: `currLogNum += 1`. -/
def nextLogNum (n : Node) : Node := { n with raft := { n.raft with currLogNum := n.raft.currLogNum + 1 } }

/-- The type-1 branch of `writeHandler`: a new write. -/
def startWriteWith (torn : Torn) (n : Node) (update : Str) : Node × Exit :=
  let n := n.nextLogNum
  n.writeStarterWith torn update (intStr n.raft.currLogNum)

/-- A new write on such a disk. -/
def startWrite (n : Node) (update : Str) : Node × Exit := n.startWriteWith none update

/-- What a replicated update does to the records of a follower. -/
def applyReplica (s : States) (update : Str) : States :=
  match split ',' (strip update) with
  -- A fourth field makes the update no record here.
  | [dom, t, ip] =>
    if s.owns dom then { s with records := s.records.set (strip dom, strip t) (strip ip) } else s
  | _ => s

/-- The type-2 branch of `writeHandler`: a replicated log entry. -/
def replicate (n : Node) (num update : Str) : Node :=
  ({ n with
    writer := n.writer.setLog num update
    states := applyReplica n.states update } : Node).sendAck num

/-- `Writer.writeHandler`. -/
def writeHandlerWith (torn : Torn) (n : Node) (query : Str) : Node × Exit :=
  -- The only place that links the writer to its coordinator.
  let n := { n with writer := { n.writer with linked := true } }
  match split ';' (strip query) with
  | msgType :: parts =>
    if msgType = ['1'] then
      match parts with
      | update :: _ => n.startWriteWith torn update
      | [] => (n, .ok)
    else if msgType = ['2'] then
      match parts with
      | num :: update :: _ => (n.replicate num update, .ok)
      | _ => (n, .ok)
    else if msgType = ['3'] then
      match parts with
      | num :: _ => (n.ackHandler num, .ok)
      | [] => (n, .ok)
    else if msgType = ['4'] then
      match parts with
      | num :: _ => n.commitHandlerWith torn num
      | [] => (n, .ok)
    else (n, .ok)
  | [] => (n, .ok)

/-- `Writer.writeHandler` on such a disk. -/
def writeHandler (n : Node) (query : Str) : Node × Exit := n.writeHandlerWith none query

/-- The reading loop of `Server.handle_write`: an exception closes the connection. -/
def handleWriteLines (n : Node) : List Str → Node
  | [] => n
  | line :: lines =>
    if strip line = [] then n.handleWriteLines lines
    else
      match n.writeHandler (strip line) with
      | (n, .ok) => n.handleWriteLines lines
      | (n, .raised) => n

/-- `Server.handle_write` on everything one connection sends. -/
def handleWrite (n : Node) (text : Str) : Node := n.handleWriteLines (readLines text)

/-- `Writer.newRecord`; `gethostbyname` returns `none` when it fails to resolve. Every exception,
also the one of a writer without its `_raft`, becomes `N/A`. -/
def newRecord (gethostbyname : Str → Option Str) (n : Node) (domain : Str) : Node × Str :=
  match gethostbyname domain with
  | none => (n, "N/A".toList)
  | some ip =>
    if n.writer.linked then
      match n.startWrite (domain ++ ",A,".toList ++ ip) with
      | (n, .ok) => (n, ip)
      -- What was logged and sent before the exception stays.
      | (n, .raised) => (n, "N/A".toList)
    else (n, "N/A".toList)

end Node

end DsDns
