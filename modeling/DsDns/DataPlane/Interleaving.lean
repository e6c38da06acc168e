/-
  Writes that interleave on one leader.

  Every connection has its own thread, so several writes can be under way at once. Each goes through
  the steps of `startWrite` in order, and between two of them any other write may take its own:
  `currLogNum += 1` gives the number, `logs[num] = update` stores the update, `sendLog` sends it and
  `commitHandler` commits it.
-/
import DsDns.DataPlane.Writer
import DsDns.Transition

namespace DsDns

/-- The last step a write has taken. -/
inductive WriteStage where
  | allocated
  | stored
  | sent
  | committed
  deriving DecidableEq

/-- One write under way. -/
structure InFlight where
  update : Str
  num : Str
  stage : WriteStage

/-- A leader and the writes it has accepted, in the order of their allocation. -/
structure Pipeline where
  node : Node
  writes : List InFlight

/-- The next step of some write. -/
inductive PipelineEvent where
  /-- A new write is accepted and takes the next number. -/
  | allocate (update : Str)
  /-- The write number `i` takes its next step. -/
  | advance (i : ℕ)

namespace Pipeline

variable [Unicode]

/-- The next step of the write `x`. -/
def advanceNode (n : Node) (x : InFlight) : Node :=
  match x.stage with
  | .allocated => { n with writer := n.writer.setLog x.num x.update }
  | .stored => (n.sendLog (x.num ++ ';' :: x.update) x.num).1
  | .sent => (n.commitHandler x.num).1
  | .committed => n

/-- The stage after the next step. -/
def nextStage : WriteStage → WriteStage
  | .allocated => .stored
  | .stored => .sent
  | .sent => .committed
  | .committed => .committed

/-- The leader after one step of one write. -/
def step (w : Pipeline) : PipelineEvent → Pipeline
  | .allocate update =>
    let n := w.node.nextLogNum
    { node := n, writes := w.writes ++ [⟨update, intStr n.raft.currLogNum, .allocated⟩] }
  | .advance i =>
    match w.writes[i]? with
    | none => w
    | some x =>
      { node := advanceNode w.node x
        writes := w.writes.set i { x with stage := nextStage x.stage } }

/-- What is expected of a step: the numbers of all writes stay different, `currLogNum` does not
decrease, and a commit does to the records what it would do if the log held the write's own update. -/
def Faithful (w : Pipeline) (e : PipelineEvent) : Prop :=
  ((w.step e).writes.map InFlight.num).Nodup ∧
  w.node.raft.currLogNum ≤ (w.step e).node.raft.currLogNum ∧
  ∀ i x, e = .advance i → w.writes[i]? = some x → x.stage = .sent →
    (w.step e).node.states.records =
      (({ w.node with writer := w.node.writer.setLog x.num x.update } : Node).commitHandler
        x.num).1.states.records

/-- A write is sent before another one takes a number: `currLogNum` is still its own. -/
def SendsCurrent (w : Pipeline) (e : PipelineEvent) : Prop :=
  ∀ i x, e = .advance i → w.writes[i]? = some x → x.stage = .stored →
    x.num = intStr w.node.raft.currLogNum

end Pipeline

end DsDns
