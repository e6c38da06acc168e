/-
  What is in the messages of the write port, and the two phases of a write.

  `parseWrite` is how `writeHandler` reads a line, and `replicaText` and `ackText` are the lines the nodes send
  each other. In an update text a follower and a commit read their bindings differently (`updateRecord`,
  `commitTarget`). A write is announced first and committed after that.
-/
import DsDns.DataPlane.Writer

namespace DsDns

/-- The binding a follower reads in an update: exactly three fields. -/
def updateRecord (update : Str) : Option (Key × Str) :=
  match split ',' (strip update) with
  | [dom, t, ip] => some ((strip dom, strip t), strip ip)
  | _ => none

/-- The binding and the first character of the domain a commit reads in an update: at least three
fields and a domain. -/
def commitTarget (update : Str) : Option (Char × Key × Str) :=
  match split ',' (strip update) with
  | domain :: rtype :: ip :: _ =>
    match strip domain with
    | [] => none
    | c :: cs => some (c, ((c :: cs, strip rtype), strip ip))
  | _ => none

namespace Node

/-- The link from the writer to the coordinator that every message sets. -/
def link (n : Node) : Node := { n with writer := { n.writer with linked := true } }

/-- A message on port 9000, read. -/
inductive WriteMsg where
  | start (update : Str)
  | replica (num update : Str)
  | ack (num : Str)
  | commit (num : Str)
  | ignored

/-- How `writeHandler` reads a message. -/
def parseWrite (query : Str) : WriteMsg :=
  match split ';' (strip query) with
  | [] => .ignored
  | msgType :: parts =>
    if msgType = ['1'] then
      match parts with
      | update :: _ => .start update
      | [] => .ignored
    else if msgType = ['2'] then
      match parts with
      | num :: update :: _ => .replica num update
      | _ => .ignored
    else if msgType = ['3'] then
      match parts with
      | num :: _ => .ack num
      | [] => .ignored
    else if msgType = ['4'] then
      match parts with
      | num :: _ => .commit num
      | [] => .ignored
    else .ignored

/-- The line that carries log entry `num` to the followers. -/
def replicaText (num update : Str) : Str := '2' :: ';' :: (num ++ ';' :: (update ++ ['\n']))

/-- The line that acknowledges log entry `num`. -/
def ackText (num : Str) : Str := '3' :: ';' :: (num ++ ['\n'])

/-- What a follower takes for the update: it ends at a semicolon, and before whitespace at the end. -/
def storedUpdate (update : Str) : Str := (split ';' (rstrip update)).headD []

/-- The number the next write of this node gets. -/
def nextNum (n : Node) : Str := intStr (n.raft.currLogNum + 1)

/-- The first phase of a write: take a number, log the update and send it to the followers. -/
def announce (n : Node) (update : Str) : Node :=
  ({ n with
    raft := { n.raft with currLogNum := n.raft.currLogNum + 1 }
    writer := n.writer.setLog n.nextNum update } : Node).sendToFollower 9000
      ('2' :: ';' :: (n.nextNum ++ ';' :: update))

variable [Unicode]

/-- The write a commit of `update` performs on the records in memory. -/
def committed (d : Disk) (update : Str) : Option (Key × Str) :=
  match commitTarget update with
  | none => none
  | some (c, key, v) => if d.canOpen (lower [c]) then some (key, v) else none

end Node

end DsDns
