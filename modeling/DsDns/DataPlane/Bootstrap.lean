/-
  `data_plane/state_dynamic.py`: nodes that discover each other through a directory.

  A node writes its address to a file of its own, sleeps, and collects what all such files hold. The file is empty
  between its opening and its end, and the files are read one after the other, so the steps of several nodes
  interleave. After that, `__init__` goes on like the one of `state.py`.
-/
import DsDns.DataPlane.State
import DsDns.Transition
import Mathlib.Data.List.Sort

namespace DsDns

/-- An address as `get_advertised_ip` returns it. -/
structure Advertised where
  ip : Str
  digits : (ip.all fun c => c.isDigit || c == '.') = true
  ne_nil : ip ≠ []

theorem Advertised.ext {a b : Advertised} (h : a.ip = b.ip) : a = b := by
  cases a
  cases b
  congr

instance : DecidableEq Advertised := fun a b =>
  decidable_of_iff (a.ip = b.ip) ⟨Advertised.ext, congrArg Advertised.ip⟩

/-- The texts of the files in the directory, by name. -/
abbrev Directory := OrderedDict Str Str

/-- `f'self_ip_{self.selfIp.replace(".", "_")}.txt'`. -/
def ipFile (ip : Str) : Str :=
  "self_ip_".toList ++ ip.map (fun c => if c = '.' then '_' else c) ++ ".txt".toList

/-- `fn.startswith('self_ip_') and fn.endswith('.txt')`. -/
def isIpFile (fn : Str) : Bool := startsWith fn "self_ip_".toList && ".txt".toList.isSuffixOf fn

/-- `a <= b` on texts: by code points. -/
def textLe (a b : Str) : Bool := !(List.lex b a fun c d => c.toNat < d.toNat)

/-- The names of the `self_ip_*.txt` files, `sorted`. -/
def Directory.ipFiles (dir : Directory) : List Str :=
  (dir.keys.filter isIpFile).insertionSort fun a b => textLe a b = true

/-- How far a node is in `_register_and_load_nodes`. -/
inductive BootPhase where
  | down
  /-- The own file is open for writing. -/
  | opened
  /-- The own file is written. -/
  | sleeping (since : Time)
  /-- The files that are still to be read, and the texts of the others. -/
  | collecting (names : List Str) (texts : List (Option Str))
  | up (states : States)

/-- The directory and the nodes. -/
structure Bootstrap where
  dir : Directory
  phase : Advertised → BootPhase

/-- The steps of a node. -/
inductive BootStep where
  /-- The container starts, perhaps once more: `open(my_file, 'w')`. -/
  | start
  /-- The address is written and the file closed. -/
  | write
  /-- `os.listdir`, after the sleep. -/
  | list
  /-- The next file is read. -/
  | read
  /-- All files are read: `nodes.txt` is written, and `__init__` goes on. -/
  | finish

/-- A step of one node at its time. -/
structure BootEvent where
  now : Time
  node : Advertised
  step : BootStep

namespace Bootstrap

/-- No node is up. -/
def start (dir : Directory) : Bootstrap := ⟨dir, fun _ => .down⟩

/-- One node goes on. -/
def move (b : Bootstrap) (a : Advertised) (p : BootPhase) : Bootstrap :=
  { b with phase := fun x => if x = a then p else b.phase x }

/-- One node goes on after it has written a file. -/
def save (b : Bootstrap) (a : Advertised) (fn text : Str) (p : BootPhase) : Bootstrap :=
  { b.move a p with dir := b.dir.set fn text }

/-- The text of `nodes.txt`. -/
def nodesText (nodes : OrderedDict Str ℤ) : Str := (nodes.keys.map fun ip => ip ++ ['\n']).flatten

/-- The directory and the nodes after one step. A step that is not the node's next one does nothing. -/
def step (b : Bootstrap) (e : BootEvent) : Bootstrap :=
  let a := e.node
  match e.step, b.phase a with
  | .start, _ => b.save a (ipFile a.ip) [] .opened
  | .write, .opened => b.save a (ipFile a.ip) (a.ip ++ ['\n']) (.sleeping e.now)
  | .list, .sleeping since =>
    if since + 3 * second ≤ e.now then b.move a (.collecting b.dir.ipFiles []) else b
  | .read, .collecting (fn :: names) texts => b.move a (.collecting names (texts ++ [b.dir.get? fn]))
  | .finish, .collecting [] texts =>
    let states := States.init a.ip texts
    b.save a "nodes.txt".toList (nodesText states.nodes) (.up states)
  | _, _ => b

end Bootstrap

end DsDns
