/-
  What a cache server does with a line.

  The two `process_command`s read a line the same way, and `parseCommand` is what they read in it
  (`l1_processCommand_eq`, `l2_processCommand_eq`). A message without a line break that is not too long
  is one command (`received_line`); with a line break it is not (`received_ne`), and a longer one is
  never run (`received_long`).
-/
import DsDns.Caches.Server
import DsDns.Text.Equiv.Basic

namespace DsDns

/-! ### Lines of a connection -/

theorem takeWhile_line {m : Str} (h : '\n' ∉ m) : (m ++ ['\n']).takeWhile (· ≠ '\n') = m := by
  have hne : ∀ c ∈ m, decide (c ≠ '\n') = true := by
    intro c hc
    apply decide_eq_true
    rintro rfl
    exact h hc
  rw [List.takeWhile_append_of_pos hne, List.takeWhile_cons_of_neg (by simp), List.append_nil]

/-- A message of one line that the reader accepts. -/
theorem received_line {m : Str} (h : '\n' ∉ m) (hlen : byteLength m ≤ streamLimit) :
    received (m ++ ['\n']) = [m ++ ['\n']] := by
  unfold received lineLength
  rw [splitLines_line h, List.takeWhile_cons_of_pos]
  · rfl
  · rw [takeWhile_line h]
    exact decide_eq_true hlen

/-- The reader raises on a message that is too long, before any command is run. -/
theorem received_long {m : Str} (h : '\n' ∉ m) (hlen : streamLimit < byteLength m) :
    received (m ++ ['\n']) = [] := by
  unfold received lineLength
  rw [splitLines_line h, List.takeWhile_cons_of_neg]
  rw [takeWhile_line h, decide_eq_true_eq]
  omega

/-- A message with a line break is not read as one line. -/
theorem received_ne {m : Str} (h : '\n' ∈ m) : received (m ++ ['\n']) ≠ [m ++ ['\n']] := by
  intro hone
  obtain ⟨a, b, rfl, ha⟩ := List.eq_append_cons_of_mem h
  have hprefix : received ((a ++ '\n' :: b) ++ ['\n']) <+: splitLines ((a ++ '\n' :: b) ++ ['\n']) :=
    List.takeWhile_prefix _
  rw [hone, List.append_assoc, List.cons_append, splitLines_append_newline, splitLines_line ha,
    List.singleton_append, List.cons_prefix_cons] at hprefix
  have hlen := congrArg List.length hprefix.1
  simp only [List.length_append, List.length_cons, List.length_nil] at hlen
  omega

/-- A connection that carries one command. -/
theorem serve_line {σ : Type} (processCommand : ℕ → σ → Str → σ × Str) (s : σ) {m : Str}
    (h : received (m ++ ['\n']) = [m ++ ['\n']]) : serve processCommand s (m ++ ['\n']) =
      ((processCommand 0 s (rstrip m)).1, (processCommand 0 s (rstrip m)).2 ++ ['\n']) := by
  unfold serve
  rw [h, serveLines, serveLines, rstrip_append_newline]

/-! ### Commands -/

variable [Unicode]

theorem l1_processCommand_eq (c : LruCache) (line : Str) : L1.processCommand c line =
    match parseCommand line with
    | .get key => ((c.get key).1, (c.get? key).getD "N/A".toList)
    | .set key value => (c.set key value, "OK".toList)
    | .error => (c, "ERROR".toList) := by
  unfold L1.processCommand parseCommand
  by_cases hnil : line = []
  · rw [if_pos hnil, if_pos hnil]
  · rw [if_neg hnil, if_neg hnil]
    by_cases hget : startsWith (upper line) "GET;".toList = true
    · rw [if_pos hget, if_pos hget]
      have hvalue := c.get_snd (strip (line.drop 4))
      simp only
      split
      · rename_i c' v h
        rw [h] at hvalue
        rw [h, ← hvalue]
        rfl
      · rename_i c' h
        rw [h] at hvalue
        rw [h, ← hvalue]
        rfl
    · rw [if_neg hget, if_neg hget]
      split
      · rcases splitMax ';' 2 line with _ | ⟨_, _ | ⟨_, _ | ⟨_, _ | ⟨_, _⟩⟩⟩⟩ <;> rfl
      · rfl

/-- The answer to a `GET` at L2, and the state after it. -/
def L2.lookup (now : Time) (s : L2Cache) (key : Str) : L2Cache × Str :=
  match s.cache.get? key with
  | some value => (({ s with cache := (s.cache.get key).1 } : L2Cache).release key, value)
  | none =>
    if (s.leaseMap key).all fun issuedAt => leaseTtl < now - issuedAt then
      (({ s with cache := (s.cache.get key).1 } : L2Cache).grant key now, "LEASE;GRANTED".toList)
    else ({ s with cache := (s.cache.get key).1 }, "LEASE;WAITING".toList)

theorem l2_processCommand_eq (now : Time) (s : L2Cache) (line : Str) : L2.processCommand now s line =
    match parseCommand line with
    | .get key => L2.lookup now s key
    | .set key value =>
      (({ s with cache := s.cache.set key value } : L2Cache).release key, "OK".toList)
    | .error => (s, "ERROR".toList) := by
  unfold L2.processCommand parseCommand
  by_cases hnil : line = []
  · rw [if_pos hnil, if_pos hnil]
  · rw [if_neg hnil, if_neg hnil]
    by_cases hget : startsWith (upper line) "GET;".toList = true
    · rw [if_pos hget, if_pos hget]
      have hvalue := s.cache.get_snd (strip (line.drop 4))
      simp only
      unfold L2.lookup
      rw [← hvalue]
      split
      · rename_i c' v h
        rw [h]
      · rename_i c' h
        rw [h]
        simp only
        cases s.leaseMap (strip (line.drop 4)) with
        | none => rfl
        | some issuedAt =>
          simp only [Option.all_some, decide_eq_true_eq]
    · rw [if_neg hget, if_neg hget]
      split
      · rcases splitMax ';' 2 line with _ | ⟨_, _ | ⟨_, _ | ⟨_, _ | ⟨_, _⟩⟩⟩⟩ <;> rfl
      · rfl

theorem startsWith_upper_get (s : Str) : startsWith (upper ("GET;".toList ++ s)) "GET;".toList = true := by
  have hupper : upper ("GET;".toList ++ s) = "GET;".toList ++ upper s := by
    simp [upper, Unicode.upperChar_ascii]
  rw [hupper]
  rfl

theorem startsWith_upper_set (s : Str) :
    startsWith (upper ("SET;".toList ++ s)) "GET;".toList = false ∧
      startsWith (upper ("SET;".toList ++ s)) "SET;".toList = true := by
  have hupper : upper ("SET;".toList ++ s) = "SET;".toList ++ upper s := by
    simp [upper, Unicode.upperChar_ascii]
  rw [hupper]
  exact ⟨rfl, rfl⟩

theorem parseCommand_get (s : Str) : parseCommand ("GET;".toList ++ s) = .get (strip s) := by
  unfold parseCommand
  rw [if_neg (by simp), if_pos (startsWith_upper_get s)]
  rfl

/-- The key of a `SET` ends at its first semicolon. -/
theorem parseCommand_set {key : Str} (h : ';' ∉ key) (value : Str) :
    parseCommand ("SET;".toList ++ (key ++ ';' :: value)) = .set (strip key) (strip value) := by
  obtain ⟨hget, hset⟩ := startsWith_upper_set (key ++ ';' :: value)
  have hsplit : splitMax ';' 2 ("SET;".toList ++ (key ++ ';' :: value)) =
      ["SET".toList, key, value] := by
    show splitMax ';' 2 ("SET".toList ++ ';' :: (key ++ ';' :: value)) = _
    rw [splitMax_append_sep (by decide), splitMax_append_sep h, splitMax]
  unfold parseCommand
  rw [if_neg (by simp), hget, hset, hsplit]
  rfl

/-! ### Values -/

/-- **What a command writes**: a value after an L1 command was there before, or the command set it. -/
theorem get?_of_l1_processCommand {c : LruCache} {line k v : Str}
    (h : (L1.processCommand c line).1.get? k = some v) :
    c.get? k = some v ∨ parseCommand line = .set k v := by
  rw [l1_processCommand_eq] at h
  cases hcommand : parseCommand line with
  | get key =>
    rw [hcommand] at h
    simp only [LruCache.get?_get] at h
    exact Or.inl h
  | set key value =>
    rw [hcommand] at h
    rcases LruCache.get?_of_get?_set h with ⟨rfl, rfl⟩ | ⟨-, hold⟩
    · exact Or.inr rfl
    · exact Or.inl hold
  | error =>
    rw [hcommand] at h
    exact Or.inl h

omit [Unicode] in
theorem get?_lookup (now : Time) (s : L2Cache) (key k : Str) :
    (L2.lookup now s key).1.cache.get? k = s.cache.get? k := by
  unfold L2.lookup
  split
  · exact s.cache.get?_get key k
  · split <;> exact s.cache.get?_get key k

/-- The same for L2, whose leases hold no values. -/
theorem get?_of_l2_processCommand {now : Time} {s : L2Cache} {line k v : Str}
    (h : (L2.processCommand now s line).1.cache.get? k = some v) :
    s.cache.get? k = some v ∨ parseCommand line = .set k v := by
  rw [l2_processCommand_eq] at h
  cases hcommand : parseCommand line with
  | get key =>
    rw [hcommand] at h
    simp only [get?_lookup] at h
    exact Or.inl h
  | set key value =>
    rw [hcommand] at h
    rcases LruCache.get?_of_get?_set h with ⟨rfl, rfl⟩ | ⟨-, hold⟩
    · exact Or.inr rfl
    · exact Or.inl hold
  | error =>
    rw [hcommand] at h
    exact Or.inl h

/-! ### Replies -/

theorem l1_reply {c : LruCache} {line key : Str} (h : parseCommand line = .get key) :
    (L1.processCommand c line).2 = (c.get? key).getD "N/A".toList := by
  rw [l1_processCommand_eq, h]

/-- L2 replies with the value, or with a lease. -/
theorem l2_reply {now : Time} {s : L2Cache} {line key : Str} (h : parseCommand line = .get key) :
    s.cache.get? key = some (L2.processCommand now s line).2 ∨
      (L2.processCommand now s line).2 = "LEASE;GRANTED".toList ∨
      (L2.processCommand now s line).2 = "LEASE;WAITING".toList := by
  rw [l2_processCommand_eq, h]
  show s.cache.get? key = some (L2.lookup now s key).2 ∨ (L2.lookup now s key).2 = _ ∨
    (L2.lookup now s key).2 = _
  unfold L2.lookup
  split
  · rename_i value hvalue
    exact Or.inl hvalue
  · split
    · exact Or.inr (Or.inl rfl)
    · exact Or.inr (Or.inr rfl)

end DsDns
