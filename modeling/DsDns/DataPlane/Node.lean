/-
  The state of one data-plane process: its `States`, its `Raft`, its `Writer`, the records
  directory and the messages it has handed to the network.

  `_send_raw` is fire and forget, so sending appends a `Packet` to the `outbox`; whether the packet
  arrives is the network's business. `Exit` tells a call that returned from one that raised.
-/
import DsDns.DataPlane.State

namespace DsDns

/-- The attributes of `class Raft` that change, and the loop variable of `raftHeart`. -/
structure Raft where
  currLogNum : ℤ
  followerCount : ℕ
  leader : Bool
  beatSent : Bool
  lastBeatReceived : Time
  nextBeatTime : Time

/-- The attributes of `class Writer`. `linked` says whether `_raft` has been set. -/
structure Writer where
  logs : Str → Option Str
  logAck : Str → ℕ
  linked : Bool

/-- The directory `../records`: the texts of its files by shard name, and the names whose file
cannot be opened for writing (`OSError`). A write that fails behind `open` is `Torn`. -/
structure Disk where
  file : Str → Option Str
  denied : Str → Bool

/-- One message for another node: `_send_raw(ip, port, msg)`. -/
structure Packet where
  dst : Str
  port : ℕ
  text : Str
  deriving DecidableEq

/-- One data-plane process. -/
structure Node where
  states : States
  raft : Raft
  writer : Writer
  disk : Disk
  outbox : List Packet

/-- How a call ended. -/
inductive Exit where
  | ok
  | raised
  deriving DecidableEq

/-- `logs[num] = update`. -/
def Writer.setLog (w : Writer) (num update : Str) : Writer :=
  { w with logs := fun n => if n = num then some update else w.logs n }

/-- Overwrite the file of one shard. -/
def Disk.write (d : Disk) (shard text : Str) : Disk :=
  { d with file := fun s => if s = shard then some text else d.file s }

/-- How writing to a record file ends once `open` has emptied the file: `none` is a write that goes through,
`some k` one that raises `OSError` when the first `k` characters of the text stand in the file. -/
abbrev Torn := Option ℕ

/-- `open(filepath, 'w')` goes through: the name has no NUL, which would be a `ValueError`, and no `OSError` is
raised. -/
def Disk.canOpen (d : Disk) (name : Str) : Bool := !name.contains (Char.ofNat 0) && !d.denied name

namespace Node

/-- `Raft._send_raw`. -/
def sendRaw (n : Node) (ip : Str) (port : ℕ) (msg : Str) : Node :=
  { n with outbox := n.outbox ++ [⟨ip, port, msg⟩] }

/-- `Raft.sendToFollower`: the message to every node of the map but this one. -/
def sendToFollower (n : Node) (port : ℕ) (msg : Str) : Node :=
  { n with outbox := n.outbox ++
      ((n.states.nodes.keys.filter fun ip => ip ≠ n.states.selfIp).map
        fun ip => ⟨ip, port, msg ++ ['\n']⟩) }

end Node

end DsDns
