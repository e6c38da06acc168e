/-
  Commits that interleave on one node.

  Every connection has its own thread, and `commitHandler` locks nothing. It reads the record file, opens it
  for writing, which empties it, writes the lines it has made, and puts the record into memory; between two of
  these steps other commits may take theirs. What is written starts at the beginning of the file, and what another
  commit has written behind its end stays (`writeOver`; the positions are counted in characters, which is what
  they are in a file of ASCII).
-/
import DsDns.CriticalSection
import DsDns.DataPlane.Writer

namespace DsDns

/-- What `commitHandler` knows before its `try` block: the number, the update, and its fields, the domain with its
first letter apart. -/
structure CommitJob where
  num : Str
  update : Str
  first : Char
  others : Str
  rtype : Str
  ip : Str
  deriving DecidableEq

/-- Where a call of `commitHandler` is in its `try` block. -/
inductive CommitStage where
  /-- The file has been read, and these are the lines to be written. -/
  | rewritten (text : Str)
  /-- The file is open for writing, and empty. -/
  | opened (text : Str)
  /-- The file is closed. -/
  | written
  deriving DecidableEq

namespace CommitJob

/-- The domain of the update. -/
def domain (job : CommitJob) : Str := job.first :: job.others

end CommitJob

/-- The text of a file after `text` has been written over its beginning. -/
def writeOver (old text : Str) : Str := text ++ old.drop text.length

variable [Unicode]

/-- The name of the record file. -/
def CommitJob.shard (job : CommitJob) : Str := lower [job.first]

/-- `commitHandler` up to its `try` block; `none` where it returns or raises before. -/
def Node.commitCall (num : Str) (n : Node) : Option CommitJob :=
  match n.writer.logs num with
  | none => none
  | some update =>
    if update = [] then none
    else
      match split ',' (strip update) with
      | domain :: rtype :: ip :: _ =>
        match strip domain with
        | [] => none
        | c :: cs =>
          if (lower [c]).contains (Char.ofNat 0) then none
          else some ⟨num, update, c, cs, strip rtype, strip ip⟩
      | _ => none

namespace CommitJob

/-- The loop over the lines of the file. -/
def readFile (job : CommitJob) (n : Node) : Node × Option CommitStage :=
  (n, some (.rewritten (commitFile (n.disk.file job.shard) job.domain job.update)))

/-- `self._states.records[(domain, rtype)] = ip`. -/
def remember (job : CommitJob) (n : Node) : Node :=
  { n with states := { n.states with records := n.states.records.set (job.domain, job.rtype) job.ip } }

/-- `f.writelines(lines)`, and the end of the `with` block. -/
def writeLines (job : CommitJob) (text : Str) (n : Node) : Node :=
  { n with disk := n.disk.write job.shard (writeOver ((n.disk.file job.shard).getD []) text) }

/-- `open(filepath, 'w')`. -/
def truncate (job : CommitJob) (n : Node) : Node := { n with disk := n.disk.write job.shard [] }

/-- The next step of the `try` block. -/
def next (job : CommitJob) : CommitStage → Node → Node × Option CommitStage
  -- An `OSError` ends the call.
  | .rewritten text, n => if n.disk.denied job.shard then (n, none) else (job.truncate n, some (.opened text))
  | .opened text, n => (job.writeLines text n, some .written)
  | .written, n => (job.remember n, none)

/-- The steps that are left. -/
def rest (job : CommitJob) : CommitStage → Node → Node
  | .rewritten text, n =>
    if n.disk.denied job.shard then n else job.remember (job.writeLines text (job.truncate n))
  | .opened text, n => job.remember (job.writeLines text n)
  | .written, n => job.remember n

end CommitJob

/-- The calls of `commitHandler` as sections at the record files. -/
def commits : Sections Str Node CommitJob CommitStage Str where
  accept := Node.commitCall
  place := CommitJob.shard
  first := CommitJob.readFile
  next := CommitJob.next
  rest := CommitJob.rest

end DsDns
