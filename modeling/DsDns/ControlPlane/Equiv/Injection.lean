/-
  When a query can do no more to the caches than ask for its own name.

  A name may hold any byte that a label may hold, and `send` writes it between the delimiters of the
  cache protocol as it is. `Contained` says of a message that its server reads one command line in it
  and that running it writes no other key. It holds exactly when no label of the query has a line feed,
  no label has a semicolon if the message is a `SET`, and the reader of the server takes a line of that
  length (`contained_iff`). `not_contained_newline` is a query that plants an address for another name.
-/
import DsDns.ControlPlane.Equiv.CacheClient
import DsDns.ControlPlane.Equiv.DnsRequestParser

namespace DsDns

open Interaction

variable [Unicode]

/-- The message is one command line, and running it neither creates nor changes a value under another
key than the name. -/
structure Contained (tier : Tier) (domain message : Str) : Prop where
  oneLine : received (message ++ ['\n']) = [message ++ ['\n']]
  l1 : tier = .l1 → ∀ (c : LruCache) (k v : Str), k ≠ strip domain →
    (L1.handleClient c (message ++ ['\n'])).1.get? k = some v → c.get? k = some v
  l2 : tier = .l2 → ∀ (clock : ℕ → Time) (s : L2Cache) (k v : Str), k ≠ strip domain →
    (L2.handleClient clock s (message ++ ['\n'])).1.cache.get? k = some v → s.cache.get? k = some v

/-! ### The messages of a call -/

omit [Unicode] in
/-- Every message to a cache is a `GET` of the name or a `SET` of it with a value of one line. -/
theorem message_of_asks {config : ZoneConfig} {domain : Str} {tier : Tier} {ip : Option Str}
    {message : Str} (h : Asks (CacheClient.resolve config domain) (.send tier ip message))
    (htier : tier ≠ .dataPlane) :
    message = getMessage domain ∨ ∃ v, '\n' ∉ v ∧ message = setMessage domain v := by
  -- A contract that only says what may be asked; the values that are stored are one line.
  let c : Contract Request Request.Reply Str Unit :=
    { asks := fun q => ∀ tier ip message, q = .send tier ip message → tier ≠ .dataPlane →
        message = getMessage domain ∨ ∃ v, '\n' ∉ v ∧ message = setMessage domain v
      replies := fun _ _ => True
      note := fun _ _ _ => ()
      ends := fun _ _ => True }
  have hsuits : Suits c domain fun v => '\n' ∉ v := by
    constructor
    · rintro tier ip _ _ _ _ ⟨rfl, rfl, rfl⟩ _
      exact Or.inl rfl
    · rintro tier ip v _ hv _ _ _ ⟨rfl, rfl, rfl⟩ _
      exact Or.inr ⟨v, hv, rfl⟩
    · rintro ip _ _ _ ⟨rfl, rfl, rfl⟩ hne
      exact absurd rfl hne
    · intro _ _ _ heq
      exact absurd heq (by simp)
    · intro _ _ arrived r _ _ hr _
      obtain ⟨text, -, hline⟩ := Option.bind_eq_some_iff.mp hr
      exact (readLine_eq_some hline).1
    · intro _ arrived r _ hr _ _
      obtain ⟨text, -, hline⟩ := Option.bind_eq_some_iff.mp hr
      exact (readLine_eq_some hline).1
    · intros
      trivial
    · intros
      trivial
  exact (resolve_meets hsuits config ()).of_asks (fun _ _ => trivial) h tier ip message rfl htier

omit [Unicode] in
theorem newline_mem_message {domain message : Str}
    (h : message = getMessage domain ∨ ∃ v, '\n' ∉ v ∧ message = setMessage domain v) :
    '\n' ∈ message ↔ '\n' ∈ domain := by
  rcases h with rfl | ⟨v, hv, rfl⟩
  · simp [getMessage]
  · simp [setMessage, hv]

/-! ### Containment -/

/-- A command that sets no other key writes no other key. -/
theorem contained_of_parse {tier : Tier} {domain message : Str}
    (hline : received (message ++ ['\n']) = [message ++ ['\n']])
    (hparse : ∀ k v, parseCommand (rstrip message) = .set k v → k = strip domain) :
    Contained tier domain message := by
  refine ⟨hline, fun _ c k v hk h => ?_, fun _ clock s k v hk h => ?_⟩
  · unfold L1.handleClient at h
    rw [serve_line _ _ hline] at h
    rcases get?_of_l1_processCommand h with hold | hset
    · exact hold
    · exact absurd (hparse k v hset) hk
  · unfold L2.handleClient at h
    rw [serve_line _ _ hline] at h
    rcases get?_of_l2_processCommand h with hold | hset
    · exact hold
    · exact absurd (hparse k v hset) hk

/-- A command that sets another key is not contained: it creates the key in an empty cache. -/
theorem not_contained_of_parse {tier : Tier} {domain message key value : Str}
    (htier : tier ≠ .dataPlane) (hparse : parseCommand (rstrip message) = .set key value)
    (hkey : key ≠ strip domain) : ¬ Contained tier domain message := by
  intro h
  cases tier with
  | l1 =>
    have hset : (L1.handleClient (LruCache.empty 1) (message ++ ['\n'])).1.get? key = some value := by
      unfold L1.handleClient
      rw [serve_line _ _ h.oneLine, l1_processCommand_eq, hparse]
      exact LruCache.get?_set_empty (by omega) key value
    exact absurd (h.l1 rfl _ key value hkey hset) (by simp)
  | l2 =>
    have hset : (L2.handleClient (fun _ => 0) { cache := LruCache.empty 1, leaseMap := fun _ => none }
        (message ++ ['\n'])).1.cache.get? key = some value := by
      unfold L2.handleClient
      rw [serve_line _ _ h.oneLine, l2_processCommand_eq, hparse]
      exact LruCache.get?_set_empty (by omega) key value
    exact absurd (h.l2 rfl _ _ key value hkey hset) (by simp)
  | dataPlane => exact htier rfl

/-- A `SET` of a name with a semicolon sets a part of the name. -/
theorem not_contained_of_semicolon {tier : Tier} {domain value : Str} (htier : tier ≠ .dataPlane)
    (h : ';' ∈ domain) : ¬ Contained tier domain (setMessage domain value) := by
  obtain ⟨key, rest, rfl, hkey⟩ := List.eq_append_cons_of_mem h
  refine not_contained_of_parse htier (parseCommand_setMessage_cut hkey rest value) fun heq => ?_
  have hmem : ';' ∈ strip (key ++ ';' :: rest) := (mem_strip_iff (by decide)).mpr (by simp)
  rw [← heq] at hmem
  exact hkey (mem_of_mem_strip hmem)

variable [Jvm]

/-- **When a query is contained.** For every query that is parsed, whatever the servers reply, a message
that the call sends to a cache is one command line and writes no key but the name, if and only if no
label has a line feed, no label has a semicolon or the message is a `GET`, and the message is not longer
than a reader takes. -/
theorem contained_iff (query : List UInt8) (config : ZoneConfig) {domain : Str}
    (hdomain : parseDomain query = some domain) {tier : Tier} {ip : Option Str} {message : Str}
    (hasks : Asks (CacheClient.resolve config domain) (.send tier ip message))
    (htier : tier ≠ .dataPlane) :
    Contained tier domain message ↔
      ¬ HasByte query 0x0A ∧ (startsWith message "SET;".toList = true → ¬ HasByte query 0x3B) ∧
        byteLength message ≤ streamLimit := by
  have hmessage := message_of_asks hasks htier
  have hnewline : '\n' ∈ message ↔ HasByte query 0x0A :=
    (newline_mem_message hmessage).trans (mem_parseDomain hdomain (by decide) (by decide) (by decide))
  have hsemicolon : ';' ∈ domain ↔ HasByte query 0x3B :=
    mem_parseDomain hdomain (by decide) (by decide) (by decide)
  rw [← hnewline, ← hsemicolon]
  constructor
  · intro h
    have hno : '\n' ∉ message := fun hmem => received_ne hmem h.oneLine
    refine ⟨hno, fun hset hmem => ?_, ?_⟩
    · rcases hmessage with rfl | ⟨v, -, rfl⟩
      · exact absurd hset (by simp [getMessage, startsWith])
      · exact not_contained_of_semicolon htier hmem h
    · -- A longer line makes the reader raise, and then nothing is received.
      apply Nat.not_lt.mp
      intro hlong
      have hnone := received_long hno hlong
      rw [h.oneLine] at hnone
      exact absurd hnone (by simp)
  · -- One line arrives, and a `SET` of a name without semicolons writes that name.
    rintro ⟨hno, hset, hlen⟩
    apply contained_of_parse (received_line hno hlen)
    intro k v hparse
    rcases hmessage with rfl | ⟨value, -, rfl⟩
    · rw [parseCommand_getMessage] at hparse
      exact absurd hparse (by simp)
    · have hclean : ';' ∉ domain := hset (by simp [setMessage, startsWith])
      rw [parseCommand_setMessage hclean] at hparse
      exact (Command.set.inj hparse).1.symm

omit [Unicode] [Jvm] in
/-- A query for `example.com`. -/
def plainQuery : List UInt8 :=
  List.replicate 12 0 ++ [7, 101, 120, 97, 109, 112, 108, 101, 3, 99, 111, 109, 0, 0, 1, 0, 1]

omit [Unicode] [Jvm] in
/-- One server for everything. -/
def localZone : ZoneConfig where
  leaderIp := some "127.0.0.1".toList
  l1Servers := [some "127.0.0.1".toList]
  l2Servers := [some "127.0.0.1".toList]

omit [Unicode] [Jvm] in
/-- The first message of the call for a plain name. -/
theorem contained_iff_plain :
    @Contained Unicode.ascii .l1 "example.com".toList (getMessage "example.com".toList) := by
  have hasks : Asks (CacheClient.resolve localZone "example.com".toList)
      (.send .l1 (some "127.0.0.1".toList) (getMessage "example.com".toList)) := Asks.here _ _
  refine (@contained_iff Unicode.ascii Jvm.ascii plainQuery localZone _ (by decide) _ _ _ hasks
    (by decide)).mpr ⟨?_, ?_, by decide⟩
  · rintro ⟨labels, hlabels, h⟩
    obtain rfl : [[101, 120, 97, 109, 112, 108, 101], [99, 111, 109]] = labels :=
      Option.some.inj ((show queryLabels plainQuery = _ by decide).symm.trans hlabels)
    exact absurd h (by decide)
  · intro hset
    exact absurd hset (by decide)

omit [Unicode] [Jvm] in
/-- A query with the one label `a`, line feed, `SET;b;6.6.6.6`. -/
def injectingQuery : List UInt8 :=
  List.replicate 12 0 ++
    [15, 97, 10, 83, 69, 84, 59, 98, 59, 54, 46, 54, 46, 54, 46, 54, 0, 0, 1, 0, 1]

omit [Unicode] [Jvm] in
/-- Asking for it plants the address `6.6.6.6` for the name `b` in an empty L1 cache. -/
theorem not_contained_newline :
    let domain := "a\nset;b;6.6.6.6".toList
    @parseDomain Jvm.ascii injectingQuery = some domain ∧
    Asks (CacheClient.resolve localZone domain)
      (.send .l1 (some "127.0.0.1".toList) (getMessage domain)) ∧
    received (getMessage domain ++ ['\n']) = ["GET;a\n".toList, "set;b;6.6.6.6\n".toList] ∧
    (@L1.handleClient Unicode.ascii (LruCache.empty 50000) (getMessage domain ++ ['\n'])).1.get?
      ['b'] = some "6.6.6.6".toList ∧
    ¬ @Contained Unicode.ascii .l1 domain (getMessage domain) := by
  refine ⟨by decide, Asks.here _ _, by decide, by decide, fun h => ?_⟩
  exact absurd (@Contained.oneLine Unicode.ascii _ _ _ h) (received_ne (by decide))

end DsDns
