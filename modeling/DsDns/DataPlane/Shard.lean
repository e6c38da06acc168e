/-
  The shard arithmetic of `data_plane/state.py`.

  `shardLetters rank lastRank` is the slice of the alphabet that `updateRecordSet` computes, with
  Python's floor division and slicing so that it is defined for the arbitrary integers a heartbeat
  can carry. `recordSet` adds the two early branches: one node owns everything, rank zero nothing.
-/
import DsDns.Text.Basic

namespace DsDns

/-- `ALPHABET`. -/
def alphabet : Str := "abcdefghijklmnopqrstuvwxyz".toList

/-- `TOTAL_LETTERS`. -/
def totalLetters : ℤ := alphabet.length

/-- A slice bound, counted from the end when negative and clamped to the sequence. -/
def sliceIndex (len : ℕ) (i : ℤ) : ℕ := if i < 0 then (i + len).toNat else min i.toNat len

/-- `s[i:j]`. -/
def slice (s : Str) (i j : ℤ) : Str :=
  (s.drop (sliceIndex s.length i)).take (sliceIndex s.length j - sliceIndex s.length i)

/-- `set(s)`: the one-character texts of `s`. -/
def letters (s : Str) : List Str := s.map fun c => [c]

/-- `set(ALPHABET[start:start + size])` for a node of rank `rank` out of `lastRank`. -/
def shardLetters (rank lastRank : ℤ) : List Str :=
  let perNode := totalLetters.fdiv lastRank
  let remainder := totalLetters.fmod lastRank
  let start := perNode * (rank - 1) + min (rank - 1) remainder
  let size := perNode + if rank ≤ remainder then 1 else 0
  letters (slice alphabet start (start + size))

/-- The letters `updateRecordSet` assigns. -/
def recordSet (nodeCount : ℕ) (rank lastRank : ℤ) : List Str :=
  if nodeCount = 1 then letters alphabet
  else if lastRank = 0 ∨ rank = 0 then []
  else shardLetters rank lastRank

end DsDns
