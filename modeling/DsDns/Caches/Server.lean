/-
  `caches/l1_cache.py` and `caches/l2_cache.py`: the two cache servers.

  `handle_client` reads a line, runs `process_command` on it, answers, and reads on. Its reader is
  asyncio's, which ends a line at `\n` only and raises on a line of more than `streamLimit` bytes;
  the exception closes the connection. `serve` is the loop on everything one connection sends; both
  sides of the connection use UTF-8, so that is a text.
-/
import DsDns.Caches.Lru
import DsDns.DataPlane.State

namespace DsDns

/-! ### The connection -/

/-- The limit of an `asyncio.StreamReader`. -/
def streamLimit : ℕ := 65536

/-- The bytes of a line before its line break. -/
def lineLength (line : Str) : ℕ := byteLength (line.takeWhile (· ≠ '\n'))

/-- What `reader.readline()` returns, call by call, until it raises. -/
def received (text : Str) : List Str :=
  (splitLines text).takeWhile fun line => lineLength line ≤ streamLimit

/-- The loop of `handle_client` on the lines it reads, from the command number `i` on: the new state
and the text it writes. -/
def serveLines {σ : Type} (processCommand : ℕ → σ → Str → σ × Str) (i : ℕ) (s : σ) :
    List Str → σ × Str
  | [] => (s, [])
  | line :: lines =>
    let response := processCommand i s (rstrip line)
    let rest := serveLines processCommand (i + 1) response.1 lines
    (rest.1, response.2 ++ '\n' :: rest.2)

/-- `handle_client` on everything a connection sends. -/
def serve {σ : Type} (processCommand : ℕ → σ → Str → σ × Str) (s : σ) (text : Str) : σ × Str :=
  serveLines processCommand 0 s (received text)

variable [Unicode]

/-! ### L1 -/

/-- `process_command` of `l1_cache.py`. -/
def L1.processCommand (c : LruCache) (line : Str) : LruCache × Str :=
  if line = [] then (c, "ERROR".toList)
  else if startsWith (upper line) "GET;".toList then
    let key := strip (line.drop 4)
    match c.get key with
    | (c, some value) => (c, value)
    | (c, none) => (c, "N/A".toList)
  else if startsWith (upper line) "SET;".toList then
    match splitMax ';' 2 line with
    | [_, key, value] => (c.set (strip key) (strip value), "OK".toList)
    | _ => (c, "ERROR".toList)
  else (c, "ERROR".toList)

/-- `handle_client` of `l1_cache.py`. -/
def L1.handleClient (c : LruCache) (text : Str) : LruCache × Str :=
  serve (fun _ => L1.processCommand) c text

/-! ### L2 -/

/-- `LEASE_TTL_SECONDS`. -/
def leaseTtl : Time := 5 * second

/-- The globals of `l2_cache.py`: the cache, and when each key's lease was granted. -/
structure L2Cache where
  cache : LruCache
  leaseMap : Str → Option Time

/-- `lease_map.pop(key, None)`. -/
def L2Cache.release (s : L2Cache) (key : Str) : L2Cache :=
  { s with leaseMap := fun k => if k = key then none else s.leaseMap k }

/-- `lease_map[key] = now`. -/
def L2Cache.grant (s : L2Cache) (key : Str) (now : Time) : L2Cache :=
  { s with leaseMap := fun k => if k = key then some now else s.leaseMap k }

/-- `process_command` of `l2_cache.py` at the time `now`. -/
def L2.processCommand (now : Time) (s : L2Cache) (line : Str) : L2Cache × Str :=
  if line = [] then (s, "ERROR".toList)
  else if startsWith (upper line) "GET;".toList then
    let key := strip (line.drop 4)
    match s.cache.get key with
    -- A hit answers the value as it is, whatever its text.
    | (c, some value) => (({ s with cache := c } : L2Cache).release key, value)
    | (c, none) =>
      let s := { s with cache := c }
      match s.leaseMap key with
      | none => (s.grant key now, "LEASE;GRANTED".toList)
      | some issuedAt =>
        -- Too old a lease is granted again, to whoever asks first.
        if leaseTtl < now - issuedAt then (s.grant key now, "LEASE;GRANTED".toList)
        else (s, "LEASE;WAITING".toList)
  else if startsWith (upper line) "SET;".toList then
    match splitMax ';' 2 line with
    | [_, key, value] =>
      -- Whoever sends it: a `SET` names no lease.
      (({ s with cache := s.cache.set (strip key) (strip value) } : L2Cache).release (strip key),
        "OK".toList)
    | _ => (s, "ERROR".toList)
  else (s, "ERROR".toList)

/-- `handle_client` of `l2_cache.py`; `clock i` is the time of the command number `i`. -/
def L2.handleClient (clock : ℕ → Time) (s : L2Cache) (text : Str) : L2Cache × Str :=
  serve (fun i => L2.processCommand (clock i)) s text

/-- What a cache server reads in a line. -/
inductive Command where
  | get (key : Str)
  | set (key value : Str)
  | error

/-- The parsing part of `process_command`. -/
def parseCommand (line : Str) : Command :=
  if line = [] then .error
  else if startsWith (upper line) "GET;".toList then .get (strip (line.drop 4))
  else if startsWith (upper line) "SET;".toList then
    match splitMax ';' 2 line with
    | [_, key, value] => .set (strip key) (strip value)
    | _ => .error
  else .error

end DsDns
