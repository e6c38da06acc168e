/-
  `CacheClient.java`: a name is looked up in L1, in L2, and in the data plane.

  A call of `resolve` is a program whose questions are the calls of `send` and `Thread.sleep`, so
  that everything that can happen between two of them is left to the world. The reply to a `send` is
  what arrives on its connection (`none`: an exception, or no connection at all).
-/
import DsDns.Interaction
import DsDns.Text.Basic

namespace DsDns

/-! ### Java text -/

/-- `Character.isWhitespace(c)`. Unlike Python's `isspace` it excludes the no-break spaces. -/
def isWhitespace (c : Char) : Bool :=
  let n := c.toNat
  (9 ≤ n && n ≤ 13) || (28 ≤ n && n ≤ 32) || n == 0x1680 || (0x2000 ≤ n && n ≤ 0x2006) ||
    (0x2008 ≤ n && n ≤ 0x200A) || n == 0x2028 || n == 0x2029 || n == 0x205F || n == 0x3000

/-- `s.isBlank()`. -/
def isBlank (s : Str) : Bool := s.all isWhitespace

/-- `BufferedReader.readLine()` on everything that arrives; `none` is `null`. -/
def readLine (text : Str) : Option Str :=
  if text = [] then none else some (text.takeWhile fun c => c ≠ '\n' ∧ c ≠ '\r')

/-- The `char` values of a character in `toCharArray()`. -/
def charValues (c : Char) : List ℕ :=
  if c.toNat < 0x10000 then [c.toNat]
  else [0xD800 + (c.toNat - 0x10000) / 0x400, 0xDC00 + (c.toNat - 0x10000) % 0x400]

/-! ### Servers -/

/-- `ZoneConfig`; `null` lists are empty. -/
structure ZoneConfig where
  leaderIp : Option Str
  l1Servers : List (Option Str)
  l2Servers : List (Option Str)

/-- `FNV_OFFSET`. -/
def fnvOffset : BitVec 64 := 0xcbf29ce484222325#64

/-- `FNV_PRIME`. -/
def fnvPrime : BitVec 64 := 0x100000001b3#64

/-- The hash of `selectServer`. -/
def fnvHash (key : Str) : BitVec 64 :=
  (key.flatMap charValues).foldl (fun hash c => (hash ^^^ BitVec.ofNat 64 c) * fnvPrime) fnvOffset

/-- `CacheClient.selectServer`. -/
def selectServer (config : ZoneConfig) (servers : List (Option Str)) (key : Str) : Option Str :=
  if servers = [] then config.leaderIp
  else (servers[((fnvHash key).toInt.fmod servers.length).toNat]?).join

/-! ### Calls -/

/-- The three ports. -/
inductive Tier where
  | l1
  | l2
  | dataPlane
  deriving DecidableEq

/-- The questions of a call. -/
inductive Request where
  | send (tier : Tier) (ip : Option Str) (message : Str)
  | sleep
  deriving DecidableEq

/-- What a `send` receives, and whether a `sleep` is interrupted. -/
@[reducible] def Request.Reply : Request → Type
  | .send _ _ _ => Option Str
  | .sleep => Bool

/-- A call of the cache client. -/
abbrev Client (α : Type) := Interaction Request Request.Reply α

/-- `LEASE_MAX_RETRIES`. -/
def leaseMaxRetries : ℕ := 30

/-- `CacheClient.isHit` on a text. -/
def isHit (r : Str) : Bool :=
  !isBlank r && r ≠ "N/A".toList && !startsWith r "LEASE;".toList

/-- `"GET;" + domain`. -/
def getMessage (domain : Str) : Str := "GET;".toList ++ domain

/-- `"SET;" + domain + ";" + value`. -/
def setMessage (domain value : Str) : Str := "SET;".toList ++ domain ++ ';' :: value

namespace CacheClient

/-- `CacheClient.send`: `println` the message and read one line. A blank address gets no connection,
so nothing arrives. -/
def send (tier : Tier) (ip : Option Str) (message : Str) : Client (Option Str) := do
  let arrived : Option Str ← Interaction.question (Request.send tier ip message)
  return arrived.bind readLine

/-- `Thread.sleep(LEASE_WAIT_MS)`; true when it is interrupted. -/
def sleep : Client Bool := Interaction.question Request.sleep

/-- `CacheClient.fetchFromDataPlane`. -/
def fetchFromDataPlane (config : ZoneConfig) (domain : Str) : Client Str := do
  let response ← send .dataPlane config.leaderIp domain
  match response with
  -- Both misses return the empty text, which `resolve` does not store.
  | none => return []
  | some r => return if isBlank r ∨ r = "N/A".toList then [] else r

/-- Fetch the value and store it in both caches, the lines `resolve` has twice and `waitForLease`
once. -/
def fetchAndStore (config : ZoneConfig) (l2Ip l1Ip : Option Str) (domain : Str) : Client Str := do
  let value ← fetchFromDataPlane config domain
  if isBlank value then return value
  else
    let _ ← send .l2 l2Ip (setMessage domain value)
    let _ ← send .l1 l1Ip (setMessage domain value)
    return value

/-- `CacheClient.waitForLease` with so many turns of its loop left. -/
def waitForLease (config : ZoneConfig) (l2Ip l1Ip : Option Str) (domain : Str) : ℕ → Client Str
  -- Out of turns: the value is fetched without a lease, and not stored.
  | 0 => fetchFromDataPlane config domain
  | retries + 1 => do
    let interrupted ← sleep
    if interrupted then fetchFromDataPlane config domain
    else
      let response ← send .l2 l2Ip (getMessage domain)
      match response with
      | none => fetchFromDataPlane config domain
      | some r =>
        if isHit r then
          let _ ← send .l1 l1Ip (setMessage domain r)
          return r
        -- A blank answer or `N/A`.
        else if ¬ startsWith r "LEASE;".toList then fetchFromDataPlane config domain
        else if startsWith r "LEASE;GRANTED".toList then fetchAndStore config l2Ip l1Ip domain
        else waitForLease config l2Ip l1Ip domain retries

/-- The part of `resolve` after a miss in L1. -/
def resolveL2 (config : ZoneConfig) (l2Ip l1Ip : Option Str) (domain : Str) : Client Str := do
  let result ← send .l2 l2Ip (getMessage domain)
  match result with
  | none => fetchAndStore config l2Ip l1Ip domain
  | some r =>
    if isHit r then
      let _ ← send .l1 l1Ip (setMessage domain r)
      return r
    -- Compared as a whole here, and by its beginning in `waitForLease`.
    else if r = "LEASE;GRANTED".toList then fetchAndStore config l2Ip l1Ip domain
    else if startsWith r "LEASE;".toList then
      waitForLease config l2Ip l1Ip domain leaseMaxRetries
    else fetchAndStore config l2Ip l1Ip domain

/-- `CacheClient.resolve`. -/
def resolve (config : ZoneConfig) (domain : Str) : Client Str := do
  let l1Ip := selectServer config config.l1Servers domain
  let l2Ip := selectServer config config.l2Servers domain
  let result ← send .l1 l1Ip (getMessage domain)
  match result with
  | none => resolveL2 config l2Ip l1Ip domain
  | some r => if isHit r then return r else resolveL2 config l2Ip l1Ip domain

end CacheClient

end DsDns
