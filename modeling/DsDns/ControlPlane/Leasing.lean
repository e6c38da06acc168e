/-
  Any number of calls of `resolve` for one name at the same time, and the L2 server they share.

  A call that asks L2 has a connection of its own. The server runs the lines on it one at a time
  (`serve`), with anything in between, and the call may read what has been written at any time after the
  first answer (`read`), or give up (`fail`); what the server has not read by then is left on the
  connection, and may still be run (`drain`). L1 and the data plane reply what they like, as late as
  they like. Other clients ask L2 about other keys (`other`), and so fill its cache.

  Some fields say what an observer sees and no party knows: to whom the lease of the name was granted,
  unless the name has been `SET` since (`lease`), to whom it was granted last (`last`), when the value of
  the name stored last was fetched (`stamp`), for which calls it was stored (`stored`), and with every
  answer the lease at that time.
-/
import DsDns.Caches.Leases
import DsDns.ControlPlane.Calls
import DsDns.ControlPlane.Stage

namespace DsDns

/-- The key under which L2 looks a name up. -/
def cacheKey (domain : Str) : Str := strip (domain.takeWhile (· ≠ '\n'))

/-- What L2 has written in answer to a line, and the lease of the name at that time. -/
structure LeaseAnswer where
  text : Str
  lease : Option (ℕ × Time)

/-- What a call reads when L2 has given these answers. -/
def written (answers : List LeaseAnswer) : Str := answers.flatMap fun answer => answer.text ++ ['\n']

/-- One call of `resolve`: what it still has to do; the answers on its connection to L2; how many answers
have told it to wait; when the lease was granted that it read of before it asked the data plane; when the
data plane replied to it. -/
structure LeaseCall where
  client : Client Str
  answers : List LeaseAnswer
  waits : ℕ
  granted : Option Time
  fetched : Option Time

/-- The time, the L2 server, and what an observer sees of it. -/
structure LeaseServer where
  now : Time
  l2 : L2Cache
  lease : Option (ℕ × Time)
  last : Option (ℕ × Time)
  stamp : Option Time
  stored : List ℕ

/-- The server, the calls, and the lines left on abandoned connections, with the number of the call. -/
structure LeaseWorld extends LeaseServer where
  calls : List LeaseCall
  stray : List (ℕ × List Str)

/-- What can happen. -/
inductive LeaseEvent where
  | tick (delay : ℕ)
  | resolve
  | serve (i : ℕ)
  | read (i : ℕ)
  | fail (i : ℕ)
  | reply (i : ℕ) (arrived : Option Str)
  | wake (i : ℕ) (interrupted : Bool)
  | drain (k : ℕ)
  | other (line : Str)

namespace LeaseCall

/-- A call that has not asked anything. -/
def fresh (config : ZoneConfig) (domain : Str) : LeaseCall where
  client := CacheClient.resolve config domain
  answers := []
  waits := 0
  granted := none
  fetched := none

/-- The call is in `fetchFromDataPlane`. -/
def fetching (c : LeaseCall) : Bool :=
  match c.client with
  | .ask (.send .dataPlane _ _) _ => true
  | _ => false

/-- The call waits for the answer to its `GET` at L2. -/
def looking (domain : Str) (c : LeaseCall) : Bool :=
  match c.client with
  | .ask (.send .l2 _ message) _ => message = getMessage domain
  | _ => false

/-- The call sleeps. -/
def asleep (c : LeaseCall) : Bool :=
  match c.client with
  | .ask .sleep _ => true
  | _ => false

/-- The lines that the call has sent to L2 and L2 has not read. -/
def unread (c : LeaseCall) : List Str :=
  match c.client with
  | .ask (.send .l2 ip message) _ =>
    match connection ip with
    | none => []
    | some _ => (received (message ++ ['\n'])).drop c.answers.length
  | _ => []

/-- The line the call reads from L2. -/
def line (c : LeaseCall) : Option Str := readLine (written c.answers)

/-- L2 answers on the connection. -/
def served (c : LeaseCall) (answer : LeaseAnswer) : LeaseCall :=
  { c with answers := c.answers ++ [answer] }

/-- The call goes on with the program `client`; its connection is gone. -/
def goesOn (c : LeaseCall) (client : Client Str) : LeaseCall :=
  { c with client := client, answers := [] }

/-- The call number `i` reads what L2 has written, the first answer being `answer`, and goes on with the
program `client`. -/
def reads (i : ℕ) (c : LeaseCall) (answer : LeaseAnswer) (client : Client Str) : LeaseCall :=
  { c.goesOn client with
    waits := if c.line.any (tellsToWait c.waits) = true then c.waits + 1 else c.waits
    granted :=
      if c.fetched = none ∧ answer.text = "LEASE;GRANTED".toList ∧
          answer.lease.map Prod.fst = some i then
        answer.lease.map Prod.snd
      else c.granted }

end LeaseCall

section Lines

variable [Unicode]

/-- The line is a `GET` of the key that is answered `LEASE;GRANTED` because the key is not cached. -/
def grants (key : Str) (now : Time) (s : L2Cache) (line : Str) : Bool :=
  match parseCommand line with
  | .get k => k = key && (s.cache.get? key).isNone && L2.answer s (now, line) = "LEASE;GRANTED".toList
  | _ => false

/-- The line is a well-formed `SET` of the key. -/
def sets (key line : Str) : Bool :=
  match parseCommand line with
  | .set k _ => k = key
  | _ => false

/-- The line is a `GET` of the key. -/
def gets (key line : Str) : Bool :=
  match parseCommand line with
  | .get k => k = key
  | _ => false

end Lines

namespace LeaseWorld

/-- An empty L2 server and no calls. -/
def start (capacity : ℕ) : LeaseWorld where
  now := 0
  l2 := .start capacity
  lease := none
  last := none
  stamp := none
  stored := []
  calls := []
  stray := []

/-- When the data plane replied to the call number `i`. -/
def fetchedAt (w : LeaseWorld) (i : ℕ) : Option Time := w.calls[i]?.bind LeaseCall.fetched

variable [Unicode]

/-- L2 runs a line of the call number `i`. -/
def command (key : Str) (w : LeaseWorld) (i : ℕ) (line : Str) : LeaseWorld :=
  { w with
    l2 := L2.step w.l2 (w.now, line)
    lease :=
      -- A `GET` that is not answered with a grant changes no lease.
      if grants key w.now w.l2 line then some (i, w.now)
      else if sets key line then none
      else w.lease
    last := if grants key w.now w.l2 line then some (i, w.now) else w.last
    stamp := if sets key line then (w.fetchedAt i).or w.stamp else w.stamp
    stored := if sets key line then i :: w.stored else w.stored }

/-- L2 reads the next line on the connection of the call number `i`. -/
def serve (key : Str) (w : LeaseWorld) (i : ℕ) : LeaseWorld :=
  match w.calls[i]? with
  | none => w
  | some c =>
    match c.unread with
    | [] => w
    | line :: _ =>
      let w' := w.command key i (rstrip line)
      let answer : LeaseAnswer := ⟨L2.answer w.l2 (w.now, rstrip line), w'.lease⟩
      { w' with calls := w.calls.set i (c.served answer) }

/-- L2 reads the next line on the abandoned connection number `k`. -/
def drain (key : Str) (w : LeaseWorld) (k : ℕ) : LeaseWorld :=
  match w.stray[k]? with
  | some (i, line :: lines) =>
    { w.command key i (rstrip line) with stray := w.stray.set k (i, lines) }
  | _ => w

omit [Unicode] in
/-- The call number `i` reads the first line of what L2 has written. -/
def read (w : LeaseWorld) (i : ℕ) : LeaseWorld :=
  match w.calls[i]? with
  | none => w
  | some c =>
    match c.client, c.answers with
    | .ask (.send .l2 _ _) next, answer :: _ =>
      { w with
        -- L2 may still run the lines that follow the one it has answered.
        calls := w.calls.set i (c.reads i answer (next (some (written c.answers))))
        stray := (i, c.unread) :: w.stray }
    | _, _ => w

omit [Unicode] in
/-- The `send` of the call number `i` to L2 returns null. -/
def fail (w : LeaseWorld) (i : ℕ) : LeaseWorld :=
  match w.calls[i]? with
  | none => w
  | some c =>
    match c.client with
    | .ask (.send .l2 _ _) next =>
      { w with
        calls := w.calls.set i (c.goesOn (next none))
        stray := (i, c.unread) :: w.stray }
    | _ => w

omit [Unicode] in
/-- The `send` of the call number `i` to L1 or to the data plane returns. -/
def reply (w : LeaseWorld) (i : ℕ) (arrived : Option Str) : LeaseWorld :=
  match w.calls[i]? with
  | none => w
  | some c =>
    match c.client with
    | .ask (.send .l1 _ _) next =>
      { w with calls := w.calls.set i (c.goesOn (next arrived)) }
    | .ask (.send .dataPlane _ _) next =>
      { w with calls := w.calls.set i { c.goesOn (next arrived) with fetched := some w.now } }
    | _ => w

omit [Unicode] in
/-- The sleep of the call number `i` ends. -/
def wake (w : LeaseWorld) (i : ℕ) (interrupted : Bool) : LeaseWorld :=
  match w.calls[i]? with
  | none => w
  | some c =>
    match c.client with
    | .ask .sleep next =>
      { w with calls := w.calls.set i (c.goesOn (next interrupted)) }
    | _ => w

/-- The world after one event. -/
def step (config : ZoneConfig) (domain : Str) (w : LeaseWorld) : LeaseEvent → LeaseWorld
  | .tick delay => { w with now := w.now + delay }
  | .resolve => { w with calls := w.calls ++ [.fresh config domain] }
  | .serve i => w.serve (cacheKey domain) i
  | .read i => w.read i
  | .fail i => w.fail i
  | .reply i arrived => w.reply i arrived
  | .wake i interrupted => w.wake i interrupted
  | .drain k => w.drain (cacheKey domain) k
  | .other line =>
    if gets (cacheKey domain) line || sets (cacheKey domain) line then w
    else { w with l2 := L2.step w.l2 (w.now, line) }

/-! ### One fetch at a time -/

omit [Unicode] in
/-- The call number `i` is in `fetchFromDataPlane`. -/
def fetching (w : LeaseWorld) (i : ℕ) : Bool := w.calls[i]?.any LeaseCall.fetching

omit [Unicode] in
/-- Another call than the number `i` has been granted the lease, it is not too old, and the name has not
been `SET` since. -/
def LeasedToOther (w : LeaseWorld) (i : ℕ) : Prop :=
  ∃ j t, w.lease = some (j, t) ∧ j ≠ i ∧ w.now - t ≤ leaseTtl

/-- The call number `i` calls `fetchFromDataPlane` in this step. -/
def Turns (config : ZoneConfig) (domain : Str) (w : LeaseWorld) (e : LeaseEvent) (i : ℕ) : Prop :=
  w.fetching i = false ∧ (w.step config domain e).fetching i = true

/-- No call turns to the data plane in this step while another one has the lease. -/
def Exclusive (config : ZoneConfig) (domain : Str) (w : LeaseWorld) (e : LeaseEvent) : Prop :=
  ∀ i, w.Turns config domain e i → ¬ w.LeasedToOther i

omit [Unicode] in
/-- While another call has the lease, a call that polls is not interrupted, its `send` does not fail, it
has not been told to wait by every poll it has, and what it reads is a hit, or an answer that L2 gave
under that lease, or one that tells it to wait. -/
def Patient (domain : Str) (w : LeaseWorld) : LeaseEvent → Prop
  | .wake i interrupted =>
    ∀ c, w.calls[i]? = some c → c.asleep = true → w.LeasedToOther i → interrupted = false
  | .fail i => ∀ c, w.calls[i]? = some c → c.looking domain = true → ¬ w.LeasedToOther i
  | .read i =>
    ∀ c answer later, w.calls[i]? = some c → c.looking domain = true → c.answers = answer :: later →
      w.LeasedToOther i → c.line.any isHit = true ∨
        c.waits < leaseMaxRetries ∧
          (answer.lease = w.lease ∨ c.line.any (tellsToWait c.waits) = true)
  | _ => True

/-! ### No stale value -/

/-- The value of the name stored last is not replaced by one that was fetched before it. -/
def NeverStale (config : ZoneConfig) (domain : Str) (w : LeaseWorld) (e : LeaseEvent) : Prop :=
  ∀ s s', w.stamp = some s → (w.step config domain e).stamp = some s' → s ≤ s'

omit [Unicode] in
/-- The line that L2 runs in this step, and the number of the call it comes from. -/
def runs (w : LeaseWorld) : LeaseEvent → Option (ℕ × Str)
  | .serve i => (w.calls[i]?.bind fun c => c.unread.head?).map fun line => (i, rstrip line)
  | .drain k => w.stray[k]?.bind fun p => p.2.head?.map fun line => (p.1, rstrip line)
  | _ => none

omit [Unicode] in
/-- The call number `i` is the one that was granted the lease last, and it has read of it. -/
def Holds (w : LeaseWorld) (i : ℕ) : Prop :=
  ∃ c t, w.calls[i]? = some c ∧ c.granted = some t ∧ w.last = some (i, t)

omit [Unicode] in
theorem holds_iff {w : LeaseWorld} {i : ℕ} : w.Holds i ↔
    ((w.calls[i]?.bind LeaseCall.granted).any fun t => w.last = some (i, t)) = true := by
  unfold Holds
  cases w.calls[i]? with
  | none => simp
  | some c => simp [Option.any_eq_true]

omit [Unicode] in
instance (w : LeaseWorld) (i : ℕ) : Decidable (w.Holds i) := decidable_of_iff _ holds_iff.symm

omit [Unicode] in
/-- No value was stored for the call number `i`, and the lease that it has read of is not too old. -/
def OnTime (w : LeaseWorld) (i : ℕ) : Prop :=
  i ∉ w.stored ∧ ∃ c t, w.calls[i]? = some c ∧ c.granted = some t ∧ w.now - t ≤ leaseTtl

omit [Unicode] in
theorem onTime_iff {w : LeaseWorld} {i : ℕ} : w.OnTime i ↔
    i ∉ w.stored ∧
      ((w.calls[i]?.bind LeaseCall.granted).any fun t => w.now - t ≤ leaseTtl) = true := by
  unfold OnTime
  cases w.calls[i]? with
  | none => simp
  | some c => simp [Option.any_eq_true]

omit [Unicode] in
instance (w : LeaseWorld) (i : ℕ) : Decidable (w.OnTime i) := decidable_of_iff _ onTime_iff.symm

/-- L2 stores a value of the name in this step only for a call that is `allowed`. -/
def StoresFor (allowed : LeaseWorld → ℕ → Prop) (domain : Str) (w : LeaseWorld) (e : LeaseEvent) :
    Prop :=
  ∀ i line, w.runs e = some (i, line) → sets (cacheKey domain) line = true → allowed w i

instance (allowed : LeaseWorld → ℕ → Prop) [∀ w i, Decidable (allowed w i)] (domain : Str)
    (w : LeaseWorld) (e : LeaseEvent) : Decidable (w.StoresFor allowed domain e) :=
  match h : w.runs e with
  | none => .isTrue fun _ _ hruns => absurd (h.symm.trans hruns) (by simp)
  | some (i, line) =>
    decidable_of_iff (sets (cacheKey domain) line = true → allowed w i) (by
      constructor
      · intro hallowed j line' hruns
        obtain ⟨rfl, rfl⟩ := Prod.mk.inj (Option.some.inj (h.symm.trans hruns))
        exact hallowed
      · exact fun hstores => hstores i line h)

end LeaseWorld

end DsDns
