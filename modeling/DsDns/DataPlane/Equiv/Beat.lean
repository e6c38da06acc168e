/-
  Heartbeats on the wire.

  `parseBeat_body` is the round trip: what `sendBeat` writes for an IPv4 address is what
  `beatHandler` reads, since such an address has no semicolon and no whitespace. A connection that
  carries one heartbeat runs the handler once (`handleSync_beatText`).
-/
import DsDns.DataPlane.Raft
import DsDns.Text.Equiv.Basic

namespace DsDns

/-- An IPv4 address consists of digits and dots. -/
theorem mem_of_ipv4 {s : Str} (h : (ipv4 s).isSome) {c : Char} (hc : c ∈ s) :
    c.isDigit = true ∨ c = '.' := by
  have hoctet : ∀ {f : Str} {n : ℕ}, ipv4Octet f = some n → c ∈ f → c.isDigit = true := by
    intro f n hf hcf
    by_contra hd
    rw [ipv4Octet, if_pos] at hf
    · exact absurd hf (by simp)
    · exact Or.inr (Or.inl fun hall => hd (List.all_eq_true.mp hall c hcf))
  obtain ⟨m, hm⟩ := Option.isSome_iff_exists.mp h
  unfold ipv4 at hm
  split at hm
  · rename_i a b d e hsplit
    simp only [bind, Option.bind_eq_some_iff] at hm
    obtain ⟨na, ha, nb, hb, nd, hd, ne, he, -⟩ := hm
    rw [← intercalate_split '.' s, hsplit] at hc
    simp only [List.intercalate_cons_cons, List.intercalate_singleton, List.mem_append,
      List.mem_singleton] at hc
    rcases hc with (hc | hc) | (hc | hc) | (hc | hc) | hc
    · exact Or.inl (hoctet ha hc)
    · exact Or.inr hc
    · exact Or.inl (hoctet hb hc)
    · exact Or.inr hc
    · exact Or.inl (hoctet hd hc)
    · exact Or.inr hc
    · exact Or.inl (hoctet he hc)
  · exact absurd hm (by simp)

theorem not_mem_of_ipv4 {s : Str} (h : (ipv4 s).isSome) {c : Char} (hd : c.isDigit = false)
    (hdot : c ≠ '.') : c ∉ s := by
  intro hc
  rcases mem_of_ipv4 h hc with hc | hc
  · rw [hd] at hc
    exact absurd hc (by decide)
  · exact hdot hc

theorem isSpace_of_mem_ipv4 {s : Str} (h : (ipv4 s).isSome) {c : Char} (hc : c ∈ s) :
    isSpace c = false := by
  rcases mem_of_ipv4 h hc with hd | rfl
  · exact isSpace_of_isDigit hd
  · decide

theorem ne_nil_of_ipv4 {s : Str} (h : (ipv4 s).isSome) : s ≠ [] := by
  rintro rfl
  exact absurd h (by decide)

/-- A heartbeat without its line break. -/
def beatBody (s : Str) (r lr : ℤ) : Str := s ++ ';' :: (intStr r ++ ';' :: intStr lr)

theorem beatText_eq (s : Str) (r lr : ℤ) : beatText s r lr = beatBody s r lr ++ ['\n'] := by
  simp [beatText, beatBody]

theorem isSpace_of_mem_beatBody {s : Str} (h : (ipv4 s).isSome) {r lr : ℤ} {c : Char}
    (hc : c ∈ beatBody s r lr) : isSpace c = false := by
  rcases List.mem_append.mp hc with hc | hc
  · exact isSpace_of_mem_ipv4 h hc
  rcases List.mem_cons.mp hc with rfl | hc
  · decide
  rcases List.mem_append.mp hc with hc | hc
  · exact isSpace_of_mem_intStr hc
  rcases List.mem_cons.mp hc with rfl | hc
  · decide
  · exact isSpace_of_mem_intStr hc

theorem strip_beatBody {s : Str} (h : (ipv4 s).isSome) (r lr : ℤ) :
    strip (beatBody s r lr) = beatBody s r lr :=
  strip_of_no_space fun _ hc => isSpace_of_mem_beatBody h hc

variable [Unicode]

/-- **The round trip of heartbeats.** -/
theorem parseBeat_body {s : Str} (h : (ipv4 s).isSome) (r lr : ℤ) :
    parseBeat (beatBody s r lr) = some (s, r, lr) := by
  have hs : ';' ∉ s := not_mem_of_ipv4 h (by decide) (by decide)
  have hr : ';' ∉ intStr r := not_mem_intStr (by decide) (by decide) r
  have hlr : ';' ∉ intStr lr := not_mem_intStr (by decide) (by decide) lr
  unfold parseBeat parseBeatWith
  rw [strip_beatBody h, beatBody, split_append_sep hs, split_append_sep hr, split_of_not_mem hlr]
  simp only [parseInt_intStr]
  rfl

theorem beatText_injective {s t : Str} (hs : (ipv4 s).isSome) (ht : (ipv4 t).isSome) {r lr r' lr' : ℤ}
    (h : beatText s r lr = beatText t r' lr') : s = t ∧ r = r' ∧ lr = lr' := by
  rw [beatText_eq, beatText_eq] at h
  have hbody : some (s, r, lr) = some (t, r', lr') := by
    rw [← parseBeat_body hs, ← parseBeat_body ht, List.append_cancel_right h]
  simpa using hbody

/-- A connection that carries one heartbeat. -/
theorem handleSync_beatText {s : Str} (h : (ipv4 s).isSome) (r lr : ℤ) (n : Node) (now : Time) :
    n.handleSync (beatText s r lr) now = n.beatHandler (beatBody s r lr) now := by
  have hn : '\n' ∉ beatBody s r lr := fun hc => absurd (isSpace_of_mem_beatBody h hc) (by decide)
  have hr : '\r' ∉ beatBody s r lr := fun hc => absurd (isSpace_of_mem_beatBody h hc) (by decide)
  have hne : beatBody s r lr ≠ [] := by simp [beatBody]
  unfold Node.handleSync
  rw [beatText_eq, readLines_line hn hr, List.foldl_cons, List.foldl_nil, strip_append_newline,
    strip_beatBody h, if_neg hne]

end DsDns
