/-
  The refresh process of the control plane.

  It reads from `states.txt` exactly what the node has published (`process_reads_snapshot`), and then makes one
  pass over the record files. Its pass and the one of the data plane differ in the lines they take for records,
  in what they compare and send, and in what they do when a look-up raises something else than `gaierror`;
  `passes_agree_iff` says for which files that makes no difference.
-/
import DsDns.ControlPlane.Process
import DsDns.DataPlane.Equiv.Batch
import DsDns.DataPlane.Equiv.StatesFile
import DsDns.ListFacts

namespace DsDns

/-- A resolver whose failures are all `socket.gaierror`. -/
def Lookup.ofOption : Option Str → Lookup
  | some address => .ip address
  | none => .gaierror

namespace Process

/-! ### Reading the published state -/

/-- The pass over the record files of `heads`, for the leader `leader`. -/
def pass (gethostbyname : Str → Lookup) (file : Str → Option Str) (leader : Str) (heads : List Str) :
    List Packet × Exit :=
  sendAll (fun head => sendAll (scanLine gethostbyname (.str leader)) (fileLines (file head))) heads

theorem sendAll_map {α β : Type} (body : β → List Packet × Exit) (f : α → β) (xs : List α) :
    sendAll body (xs.map f) = sendAll (fun x => body (f x)) xs := by
  induction xs with
  | nil => rfl
  | cons x xs ih => rw [List.map_cons, sendAll, sendAll, ih]

theorem scanHead_str (g : Str → Lookup) (file : Str → Option Str) (leaderIp : Json) (head : Str) :
    scanHead g file leaderIp (.str head) = sendAll (scanLine g leaderIp) (fileLines (file head)) := by
  unfold scanHead
  simp only [headText, Option.bind_some]
  cases file head <;> rfl

/-- On the text of a published state the process makes one pass over its shards, for its leader. -/
theorem main_text (g : Str → Lookup) (file : Str → Option Str) (d : StateDict) :
    main g file (some d.text) = pass g file d.leaderIp d.selfRecords := by
  unfold main
  simp only [loads_text]
  show sendAll (scanHead g file (.str d.leaderIp)) (d.selfRecords.map .str) = _
  rw [sendAll_map]
  exact congrArg (sendAll · d.selfRecords) (funext fun head => scanHead_str g file _ head)

/-- **The process reads what the node has published.** In every state of every run of a node, `states.txt` shows
a state of the node, and `main` makes one pass over the letters that the numbers in it give, for the leader in
it. -/
theorem process_reads_snapshot [Unicode] (selfIp : Str) (files : List (Option Str)) (disk : Disk)
    (letters : List Str) (now : Time) (es : List StateEvent) :
    Always (fun n => ∃ d, n.states.published = some d ∧ d.selfIp = n.states.selfIp ∧
        d.selfRecords = recordSet d.nodeCount d.rank d.lastRank ∧
        ∀ (g : Str → Lookup) (file : Str → Option Str),
          main g file n.states.file = pass g file d.leaderIp d.selfRecords)
      Node.stateStep (Node.main selfIp files disk letters now) es := by
  intro early _
  obtain ⟨d, hd, hself, hset⟩ := snapshot_run selfIp files disk letters now early
  refine ⟨d, hd, hself, hset, fun g file => ?_⟩
  rw [States.file, hd]
  exact main_text g file d

/-! ### What a pass sends -/

/-- The update for one line, if it is a record whose address has changed. -/
def refreshUpdate (R : Str → Option Str) (line : Str) : Option Str :=
  let line := strip line
  if line = [] ∨ startsWith line ['#'] then none
  else
    match split ',' line with
    | domain :: _ :: storedIp :: _ =>
      (R (strip domain)).bind fun liveIp =>
        if liveIp ≠ strip storedIp then some (row (strip domain) ['A'] liveIp) else none
    | _ => none

variable {R : Str → Option Str}

theorem scanLine_eq (R : Str → Option Str) (leader line : Str) :
    scanLine (fun d => .ofOption (R d)) (.str leader) line =
      ((refreshUpdate R line).toList.map fun u => ⟨leader, 9000, typeOneText u⟩, .ok) := by
  unfold scanLine refreshUpdate
  by_cases hblank : strip line = [] ∨ startsWith (strip line) ['#']
  · simp only [if_pos hblank]
    rfl
  simp only [if_neg hblank]
  rcases split ',' (strip line) with _ | ⟨d, _ | ⟨t, _ | ⟨ip, rest⟩⟩⟩
  · rfl
  · rfl
  · rfl
  · simp only
    cases hR : R (strip d) with
    | none => rfl
    | some v =>
      simp only [Lookup.ofOption, Option.bind_some]
      split
      · simp [sendUpdate, typeOneText, row]
      · rfl

theorem sendAll_ok {α β : Type} {body : α → List Packet × Exit} {f : α → List β} {p : β → Packet} {xs : List α}
    (h : ∀ x ∈ xs, body x = ((f x).map p, .ok)) : sendAll body xs = ((xs.flatMap f).map p, .ok) := by
  induction xs with
  | nil => rfl
  | cons x xs ih =>
    rw [sendAll, h x List.mem_cons_self]
    simp only [ih fun y hy => h y (List.mem_cons_of_mem x hy)]
    rw [List.flatMap_cons, List.map_append]

theorem refreshUpdate_eq_some_iff {line u : Str} : refreshUpdate R line = some u ↔
    ∃ d t ip rest v, startsWith (strip line) ['#'] = false ∧ split ',' (strip line) = d :: t :: ip :: rest ∧
      R (strip d) = some v ∧ v ≠ strip ip ∧ u = row (strip d) ['A'] v := by
  unfold refreshUpdate
  constructor
  · intro h
    simp only at h
    split at h
    · exact absurd h (by simp)
    rename_i hcomment
    obtain ⟨-, hcomment⟩ := not_or.mp hcomment
    split at h
    · rename_i d t ip rest hsplit
      obtain ⟨v, hv, h⟩ := Option.bind_eq_some_iff.mp h
      split at h
      · rename_i hne
        exact ⟨d, t, ip, rest, v, Bool.eq_false_iff.mpr hcomment, hsplit, hv, hne, (Option.some.inj h).symm⟩
      · exact absurd h (by simp)
    · exact absurd h (by simp)
  · rintro ⟨d, t, ip, rest, v, hcomment, hsplit, hv, hne, rfl⟩
    have hblank : strip line ≠ [] := by
      intro he
      rw [he] at hsplit
      exact absurd hsplit (by simp [split])
    simp only [hsplit, hv, Option.bind_some, if_pos hne]
    rw [if_neg (not_or.mpr ⟨hblank, by simp [hcomment]⟩)]

/-! ### The two passes -/

/-- A line on which the two passes agree: if it has three fields, it has no more, they are trimmed, and the
second is `A`. -/
def Alike (line : Str) : Prop :=
  startsWith (strip line) ['#'] = false → ∀ d t ip rest, split ',' (strip line) = d :: t :: ip :: rest →
    rest = [] ∧ strip d = d ∧ t = ['A'] ∧ strip ip = ip

theorem refreshLine_of_alike {line : Str} (h : Alike line) (R : Str → Option Str) :
    refreshLine R line = (refreshUpdate R line).map typeOneText := by
  apply Option.ext
  intro msg
  rw [refreshLine_eq_some_iff, Option.map_eq_some_iff]
  constructor
  · rintro ⟨d, t, ip, v, hcomment, hsplit, hv, hne, rfl⟩
    obtain ⟨-, hd, rfl, hip⟩ := h hcomment d t ip [] hsplit
    exact ⟨row d ['A'] v,
      refreshUpdate_eq_some_iff.mpr ⟨d, _, ip, [], v, hcomment, hsplit, by rw [hd, hv], by rwa [hip], by rw [hd]⟩, rfl⟩
  · rintro ⟨u, hu, rfl⟩
    obtain ⟨d, t, ip, rest, v, hcomment, hsplit, hv, hne, rfl⟩ := refreshUpdate_eq_some_iff.mp hu
    obtain ⟨rfl, hd, rfl, hip⟩ := h hcomment d t ip rest hsplit
    rw [hd] at hv ⊢
    rw [hip] at hne
    exact ⟨d, _, ip, v, hcomment, hsplit, hv, hne, rfl⟩

/-- A text that is in none of finitely many. -/
theorem exists_fresh (texts : List Str) : ∃ s : Str, s ∉ texts := by
  refine ⟨'x' :: texts.flatten, fun h => ?_⟩
  have := (List.sublist_flatten_of_mem h).length_le
  simp at this

theorem row_injective_type {d t t' v : Str} (h : row d t v = row d t' v) : t = t' := by
  have h := List.append_cancel_left h
  obtain ⟨-, h⟩ := List.cons.inj h
  exact List.append_cancel_right h

/-- A resolver that knows one domain. -/
def only (domain address : Str) (d : Str) : Option Str := if d = domain then some address else none

theorem only_eq_some_iff {domain address d v : Str} :
    only domain address d = some v ↔ d = domain ∧ v = address := by
  unfold only
  split
  · rename_i h
    exact ⟨fun hv => ⟨h, (Option.some.inj hv).symm⟩, fun hv => by rw [hv.2]⟩
  · rename_i h
    exact ⟨fun hv => absurd hv (by simp), fun hv => absurd hv.1 h⟩

/-- The third field of a line. -/
def storedField (line : Str) : Str := (split ',' (strip line)).getD 2 []

/-- If the two passes send the same for every resolver, every line is one on which they agree. -/
theorem alike_of_agree {lines : List Str}
    (h : ∀ R, lines.filterMap (refreshLine R) = lines.filterMap fun line => (refreshUpdate R line).map typeOneText) :
    ∀ line ∈ lines, Alike line := by
  -- A resolver with an address that is stored nowhere: a record the one pass refreshes, so does the other.
  have hshape : ∀ line ∈ lines, startsWith (strip line) ['#'] = false → ∀ d t ip rest,
      split ',' (strip line) = d :: t :: ip :: rest → rest = [] ∧ strip d = d ∧ t = ['A'] := by
    intro line hline hcomment d t ip rest hsplit
    obtain ⟨v, hfresh⟩ := exists_fresh (lines.map fun l => strip (storedField l))
    have hstored : ∀ l ∈ lines, ∀ d t ip rest, split ',' (strip l) = d :: t :: ip :: rest → v ≠ strip ip := by
      rintro l hl d t ip rest hsplit rfl
      refine hfresh (List.mem_map.mpr ⟨l, hl, ?_⟩)
      rw [storedField, hsplit]
      rfl
    have hagree := eq_of_filterMap_eq (fun l hl hsome => ?_) (h (only (strip d) v)) line hline
    · have hsent : refreshUpdate (only (strip d) v) line = some (row (strip d) ['A'] v) :=
        refreshUpdate_eq_some_iff.mpr ⟨d, t, ip, rest, v, hcomment, hsplit, only_eq_some_iff.mpr ⟨rfl, rfl⟩,
          hstored line hline d t ip rest hsplit, rfl⟩
      rw [hsent, Option.map_some, refreshLine_eq_some_iff] at hagree
      obtain ⟨d', t', ip', v', -, hsplit', hv', -, hmsg⟩ := hagree
      rw [hsplit] at hsplit'
      cases hsplit'
      obtain ⟨hd, rfl⟩ := only_eq_some_iff.mp hv'
      have hrow := typeOneText_injective hmsg
      rw [← hd] at hrow
      exact ⟨rfl, hd.symm, (row_injective_type hrow).symm⟩
    · obtain ⟨msg, hmsg⟩ := Option.isSome_iff_exists.mp hsome
      obtain ⟨d', t', ip', v', hcomment', hsplit', hv', -, -⟩ := refreshLine_eq_some_iff.mp hmsg
      obtain ⟨rfl, rfl⟩ := only_eq_some_iff.mp hv'
      rw [Option.isSome_map, Option.isSome_iff_exists]
      exact ⟨_, refreshUpdate_eq_some_iff.mpr ⟨_, t', ip', [], _, hcomment', hsplit',
        only_eq_some_iff.mpr ⟨strip_strip d, rfl⟩, hstored l hl _ t' ip' [] hsplit', rfl⟩⟩
  intro line hline hcomment d t ip rest hsplit
  obtain ⟨rfl, hd, rfl⟩ := hshape line hline hcomment d t ip rest hsplit
  refine ⟨rfl, hd, rfl, ?_⟩
  -- A resolver with the stored address, trimmed: only the pass that trims finds it up to date.
  have hagree := eq_of_filterMap_eq (fun l hl hsome => ?_) (h (only d (strip ip))).symm line hline
  · have hnone : refreshUpdate (only d (strip ip)) line = none := by
      rw [Option.eq_none_iff_forall_ne_some]
      intro u hu
      obtain ⟨d', t', ip', rest', v', -, hsplit', hv', hne, -⟩ := refreshUpdate_eq_some_iff.mp hu
      rw [hsplit] at hsplit'
      cases hsplit'
      exact hne (only_eq_some_iff.mp hv').2
    by_contra hne
    rw [hnone, Option.map_none] at hagree
    have hsent : refreshLine (only d (strip ip)) line = some _ := refreshLine_eq_some_iff.mpr
      ⟨d, _, ip, strip ip, hcomment, hsplit, only_eq_some_iff.mpr ⟨rfl, rfl⟩, hne, rfl⟩
    rw [hsent] at hagree
    exact absurd hagree (by simp)
  · rw [Option.isSome_map] at hsome
    obtain ⟨u, hu⟩ := Option.isSome_iff_exists.mp hsome
    obtain ⟨d', t', ip', rest', v', hcomment', hsplit', hv', hne', -⟩ := refreshUpdate_eq_some_iff.mp hu
    obtain ⟨rfl, hd', rfl⟩ := hshape l hl hcomment' d' t' ip' rest' hsplit'
    rw [hd'] at hv'
    rw [Option.isSome_iff_exists]
    refine ⟨_, refreshLine_eq_some_iff.mpr ⟨d', _, ip', v', hcomment', hsplit', hv', ?_, rfl⟩⟩
    rintro rfl
    rw [(only_eq_some_iff.mp hv').2, strip_strip] at hne'
    exact hne' rfl

/-! ### Resolvers that raise -/

theorem sendAll_congr {α : Type} {body body' : α → List Packet × Exit} {xs : List α}
    (h : ∀ x ∈ xs, body x = body' x) : sendAll body xs = sendAll body' xs := by
  induction xs with
  | nil => rfl
  | cons x xs ih => rw [sendAll, sendAll, h x List.mem_cons_self, ih fun y hy => h y (List.mem_cons_of_mem x hy)]

theorem sendAll_append {α : Type} (body : α → List Packet × Exit) (xs ys : List α) :
    sendAll body (xs ++ ys) =
      if (sendAll body xs).2 = .ok then ((sendAll body xs).1 ++ (sendAll body ys).1, (sendAll body ys).2)
      else sendAll body xs := by
  induction xs with
  | nil => rfl
  | cons x xs ih =>
    rw [List.cons_append, sendAll, sendAll, ih]
    rcases body x with ⟨sent, _ | _⟩
    · by_cases hok : (sendAll body xs).2 = .ok
      · simp only [if_pos hok, List.append_assoc]
      · simp only [if_neg hok]
    · rfl

/-- A pass over several files is a pass over their lines. -/
theorem sendAll_flatMap {α β : Type} (body : β → List Packet × Exit) (f : α → List β) (xs : List α) :
    sendAll (fun x => sendAll body (f x)) xs = sendAll body (xs.flatMap f) := by
  induction xs with
  | nil => rfl
  | cons x xs ih =>
    rw [List.flatMap_cons, sendAll_append, sendAll, ← ih]
    rcases hx : sendAll body (f x) with ⟨sent, _ | _⟩ <;> simp

/-- The domain of a line that is a record for the process: three fields or more. -/
def scanned (line : Str) : Option Str :=
  if startsWith (strip line) ['#'] then none
  else
    match split ',' (strip line) with
    | domain :: _ :: _ :: _ => some (strip domain)
    | _ => none

/-- All records are of one domain. -/
def OneDomain (lines : List Str) : Prop := ∀ d ∈ lines.filterMap scanned, ∀ d' ∈ lines.filterMap scanned, d = d'

theorem scanned_eq_some_iff {line d : Str} : scanned line = some d ↔
    startsWith (strip line) ['#'] = false ∧ ∃ domain t ip rest,
      split ',' (strip line) = domain :: t :: ip :: rest ∧ strip domain = d := by
  unfold scanned
  by_cases hcomment : startsWith (strip line) ['#'] = true
  · rw [if_pos hcomment, hcomment]
    simp
  · rw [if_neg hcomment, Bool.eq_false_iff.mpr hcomment]
    rcases split ',' (strip line) with _ | ⟨domain, _ | ⟨t, _ | ⟨ip, rest⟩⟩⟩ <;> simp

/-- A line that is no record is passed over. -/
theorem scanLine_of_scanned (g : Str → Lookup) (leaderIp : Json) {line : Str} (h : scanned line = none) :
    scanLine g leaderIp line = ([], .ok) := by
  unfold scanLine
  by_cases hblank : strip line = [] ∨ startsWith (strip line) ['#']
  · exact if_pos hblank
  simp only [if_neg hblank]
  rw [scanned, if_neg (not_or.mp hblank).2] at h
  rcases hsplit : split ',' (strip line) with _ | ⟨domain, _ | ⟨t, _ | ⟨ip, rest⟩⟩⟩
  · rfl
  · rfl
  · rfl
  · rw [hsplit] at h
    cases h

/-- A record is looked up. -/
theorem scanLine_record (g : Str → Lookup) (leaderIp : Json) {line d : Str} (h : scanned line = some d) :
    ∃ stored, scanLine g leaderIp line =
      match g d with
      | .gaierror => ([], .ok)
      | .raised => ([], .raised)
      | .ip live => (if live ≠ stored then sendUpdate d live leaderIp else [], .ok) := by
  obtain ⟨hcomment, domain, t, ip, rest, hsplit, rfl⟩ := scanned_eq_some_iff.mp h
  have hblank : strip line ≠ [] := by
    intro he
    rw [he] at hsplit
    exact absurd hsplit (by simp [split])
  refine ⟨strip ip, ?_⟩
  unfold scanLine
  simp only [hsplit]
  exact if_neg (not_or.mpr ⟨hblank, by simp [hcomment]⟩)

theorem scanLine_raised {g : Str → Lookup} (leaderIp : Json) {line d : Str} (h : scanned line = some d)
    (hg : g d = .raised) : scanLine g leaderIp line = ([], .raised) := by
  obtain ⟨stored, hrun⟩ := scanLine_record g leaderIp h
  rw [hrun, hg]

/-- A look-up that does not raise finds the address or fails as `gaierror` does. -/
theorem scanLine_toOption {g : Str → Lookup} (leaderIp : Json) {line : Str}
    (h : ∀ d, scanned line = some d → g d ≠ .raised) :
    scanLine g leaderIp line = scanLine (fun d => .ofOption (g d).toOption) leaderIp line := by
  have hsame : ∀ d, g d ≠ .raised → .ofOption (g d).toOption = g d := by
    intro d hd
    cases hg : g d with
    | ip a => rfl
    | gaierror => rfl
    | raised => exact absurd hg hd
  cases hscan : scanned line with
  | none => rw [scanLine_of_scanned g _ hscan, scanLine_of_scanned _ _ hscan]
  | some d =>
    obtain ⟨hcomment, domain, t, ip, rest, hsplit, rfl⟩ := scanned_eq_some_iff.mp hscan
    unfold scanLine
    simp only [hsplit, hsame _ (h _ hscan)]

/-- A look-up that raises at the first record ends the pass before anything is sent. -/
theorem sendAll_scanLine_raised {g : Str → Lookup} (leaderIp : Json) {lines ds : List Str} {d : Str}
    (h : lines.filterMap scanned = d :: ds) (hg : g d = .raised) :
    (sendAll (scanLine g leaderIp) lines).1 = [] := by
  induction lines with
  | nil => cases h
  | cons line lines ih =>
    rw [sendAll]
    cases hscan : scanned line with
    | none =>
      rw [List.filterMap_cons_none hscan] at h
      rw [scanLine_of_scanned g leaderIp hscan]
      exact ih h
    | some d' =>
      rw [List.filterMap_cons_some hscan] at h
      obtain ⟨rfl, -⟩ := List.cons.inj h
      rw [scanLine_raised leaderIp hscan hg]

theorem scanned_of_refreshUpdate {line u : Str} (h : refreshUpdate R line = some u) :
    ∃ d v, scanned line = some d ∧ R d = some v := by
  obtain ⟨d, t, ip, rest, v, hcomment, hsplit, hv, -, -⟩ := refreshUpdate_eq_some_iff.mp h
  exact ⟨strip d, v, scanned_eq_some_iff.mpr ⟨hcomment, d, t, ip, rest, hsplit, rfl⟩, hv⟩

theorem sendAll_scanLine_ofOption (R : Str → Option Str) (leader : Str) (lines : List Str) :
    (sendAll (scanLine (fun d => .ofOption (R d)) (.str leader)) lines).1 =
      (lines.filterMap fun line => (refreshUpdate R line).map typeOneText).map fun msg => ⟨leader, 9000, msg⟩ := by
  rw [sendAll_ok fun line _ => scanLine_eq R leader line, List.map_filterMap, List.map_flatMap,
    List.filterMap_eq_flatMap_toList]
  refine List.flatMap_congr fun line _ => ?_
  cases refreshUpdate R line <;> rfl

/-- The two passes over some lines send the same for every resolver that fails with `gaierror` only, exactly if
they agree on every line. -/
theorem lines_agree_iff (lines : List Str) (leader : Str) :
    (∀ R : Str → Option Str, (lines.filterMap (refreshLine R)).map (fun msg => (⟨leader, 9000, msg⟩ : Packet)) =
        (sendAll (scanLine (fun d => .ofOption (R d)) (.str leader)) lines).1) ↔ ∀ line ∈ lines, Alike line := by
  have hpacket : Function.Injective fun msg : Str => (⟨leader, 9000, msg⟩ : Packet) :=
    fun _ _ h => (Packet.mk.inj h).2.2
  simp only [sendAll_scanLine_ofOption, (List.map_injective_iff.mpr hpacket).eq_iff]
  constructor
  · exact alike_of_agree
  · exact fun h R => List.filterMap_congr fun line hline => refreshLine_of_alike (h line hline) R

/-- If the two send the same for every resolver, also for one that raises, all records are of one domain: the first
record decides, since a resolver that raises there makes the process send nothing for any other domain. -/
theorem oneDomain_of_agree {lines : List Str} {leader : Str} (halike : ∀ line ∈ lines, Alike line)
    (h : ∀ g : Str → Lookup, (lines.filterMap (refreshLine fun d => (g d).toOption)).map
      (fun msg => (⟨leader, 9000, msg⟩ : Packet)) = (sendAll (scanLine g (.str leader)) lines).1) :
    OneDomain lines := by
  cases hfirst : lines.filterMap scanned with
  | nil =>
    intro d hd
    rw [hfirst] at hd
    cases hd
  | cons d₀ ds =>
    have hone : ∀ d ∈ lines.filterMap scanned, d = d₀ := by
      intro d hd
      by_contra hne
      obtain ⟨line, hline, hscan⟩ := List.mem_filterMap.mp hd
      obtain ⟨hcomment, domain, t, ip, rest, hsplit, rfl⟩ := scanned_eq_some_iff.mp hscan
      obtain ⟨v, hfresh⟩ := exists_fresh [strip ip]
      let g : Str → Lookup := fun x => if x = d₀ then .raised else .ip v
      have hg : g (strip domain) = .ip v := if_neg hne
      have hsent := h g
      rw [sendAll_scanLine_raised (.str leader) hfirst (if_pos rfl), List.map_eq_nil_iff,
        List.filterMap_eq_nil_iff] at hsent
      have hnone := hsent line hline
      rw [refreshLine_of_alike (halike line hline), Option.map_eq_none_iff] at hnone
      have hsome : refreshUpdate (fun d => (g d).toOption) line = some (row (strip domain) ['A'] v) :=
        refreshUpdate_eq_some_iff.mpr ⟨domain, t, ip, rest, v, hcomment, hsplit, by rw [hg]; rfl,
          fun he => hfresh (List.mem_singleton.mpr he), rfl⟩
      rw [hsome] at hnone
      cases hnone
    intro d hd d' hd'
    rw [hone d hd, hone d' hd']

/-- Where all records are of one domain and the resolver raises for it, no line is stale. -/
theorem refreshUpdate_of_raised {lines : List Str} {g : Str → Lookup} {d : Str} (hone : OneDomain lines)
    (hd : d ∈ lines.filterMap scanned) (hg : g d = .raised) {line : Str} (hline : line ∈ lines) :
    refreshUpdate (fun d => (g d).toOption) line = none := by
  rw [Option.eq_none_iff_forall_ne_some]
  intro u hu
  obtain ⟨d', v, hscan, hv⟩ := scanned_of_refreshUpdate hu
  obtain rfl := hone d hd d' (List.mem_filterMap.mpr ⟨line, hline, hscan⟩)
  rw [hg] at hv
  cases hv

/-- They send the same for every resolver, also for one that raises, exactly if moreover all records are of one
domain. -/
theorem lines_agree_raising_iff (lines : List Str) (leader : Str) :
    (∀ g : Str → Lookup, (lines.filterMap (refreshLine fun d => (g d).toOption)).map
        (fun msg => (⟨leader, 9000, msg⟩ : Packet)) = (sendAll (scanLine g (.str leader)) lines).1) ↔
      (∀ line ∈ lines, Alike line) ∧ OneDomain lines := by
  constructor
  · intro h
    have halike : ∀ line ∈ lines, Alike line := by
      refine (lines_agree_iff lines leader).mp fun R => ?_
      have hR := h fun d => .ofOption (R d)
      have hid : (fun d => (Lookup.ofOption (R d)).toOption) = R := by
        funext d
        cases R d <;> rfl
      rwa [hid] at hR
    exact ⟨halike, oneDomain_of_agree halike h⟩
  · rintro ⟨halike, hone⟩ g
    have hbatch := (lines_agree_iff lines leader).mpr halike fun d => (g d).toOption
    by_cases hraise : ∃ d ∈ lines.filterMap scanned, g d = .raised
    · obtain ⟨d, hd, hg⟩ := hraise
      obtain ⟨d₀, ds, hfirst⟩ := List.exists_cons_of_ne_nil (List.ne_nil_of_mem hd)
      have hd₀ : d₀ ∈ lines.filterMap scanned := by rw [hfirst]; exact List.mem_cons_self
      obtain rfl := hone d hd d₀ hd₀
      rw [sendAll_scanLine_raised (.str leader) hfirst hg, hbatch, sendAll_scanLine_ofOption, List.map_eq_nil_iff,
        List.filterMap_eq_nil_iff]
      intro line hline
      rw [refreshUpdate_of_raised hone hd hg hline]
      rfl
    · rw [sendAll_congr fun line hline => scanLine_toOption (.str leader) fun d hscan hg =>
        hraise ⟨d, List.mem_filterMap.mpr ⟨line, hline, hscan⟩, hg⟩]
      exact hbatch

/-- **When the two refreshers agree.** On a node with a current `states.txt`, the process of the control plane and
the thread of the data plane send the same messages in the same order for every resolver that fails with
`gaierror` only, exactly if they agree on every line of the node's record files; and for every resolver at all,
exactly if moreover all the records in these files are of one domain. -/
theorem passes_agree_iff {n : Node} (hcurrent : n.states.Current) :
    ((∀ R : Str → Option Str, (n.process R).outbox =
        n.outbox ++ (main (fun d => .ofOption (R d)) n.disk.file n.states.file).1) ↔
      ∀ head ∈ n.states.selfRecords, ∀ line ∈ fileLines (n.disk.file head), Alike line) ∧
    ((∀ g : Str → Lookup, (n.process fun d => (g d).toOption).outbox =
        n.outbox ++ (main g n.disk.file n.states.file).1) ↔
      (∀ head ∈ n.states.selfRecords, ∀ line ∈ fileLines (n.disk.file head), Alike line) ∧
        OneDomain (n.states.selfRecords.flatMap fun head => fileLines (n.disk.file head))) := by
  have hmain : ∀ g : Str → Lookup, (main g n.disk.file n.states.file).1 =
      (sendAll (scanLine g (.str n.states.leaderIp))
        (n.states.selfRecords.flatMap fun head => fileLines (n.disk.file head))).1 := by
    intro g
    rw [States.file, hcurrent, ← sendAll_flatMap]
    exact congrArg Prod.fst (main_text _ _ _)
  have hbatch : ∀ R : Str → Option Str, (n.process R).outbox = n.outbox ++
      ((n.states.selfRecords.flatMap fun head => fileLines (n.disk.file head)).filterMap (refreshLine R)).map
        fun msg => ⟨n.states.leaderIp, 9000, msg⟩ := by
    intro R
    rw [List.filterMap_flatMap]
    exact Node.run_processShard_outbox n.states.selfRecords n
  simp only [hmain, hbatch, List.append_cancel_left_eq, ← List.forall_mem_flatMap]
  exact ⟨lines_agree_iff _ _, lines_agree_raising_iff _ _⟩

/-- A record of another type: the process would make it an address. -/
theorem passes_disagree_on_mx :
    ¬ ∀ R : Str → Option Str, ((aboutToCommit "a.com,MX,9.9.9.9\n".toList).process R).outbox =
      (aboutToCommit "a.com,MX,9.9.9.9\n".toList).outbox ++
        (main (fun d => .ofOption (R d)) (aboutToCommit "a.com,MX,9.9.9.9\n".toList).disk.file
          (aboutToCommit "a.com,MX,9.9.9.9\n".toList).states.file).1 := by
  intro h
  have halike := (passes_agree_iff (n := aboutToCommit "a.com,MX,9.9.9.9\n".toList) rfl).1.mp h ['a'] (by decide)
    "a.com,MX,9.9.9.9\n".toList (by decide)
  obtain ⟨-, -, htype, -⟩ := halike (by decide) "a.com".toList "MX".toList "9.9.9.9".toList [] (by decide)
  exact absurd htype (by decide)

/-! ### What the leader makes of a pass -/

/-- The record a pass asks for: the present address of a domain. -/
def freshRow (R : Str → Option Str) (d : Str) : Str := row d ['A'] ((R d).getD [])

/-- A line after the records of the domains `ds` have been renewed. -/
def renew (R : Str → Option Str) (ds : List Str) (line : Str) : Str :=
  if lineDomain line ∈ ds then freshRow R (lineDomain line) ++ ['\n'] else line

variable [Unicode]

/-- A domain whose address the leader can commit to a record file that has it. -/
structure Due (R : Str → Option Str) (disk : Disk) (d : Str) : Prop where
  triple : IsTriple d ['A'] ((R d).getD [])
  no_semicolon : ';' ∉ freshRow R d
  matched : ∃ shard, shardOf d = some shard ∧ Matched (fileLines (disk.file shard)) d

omit [Unicode] in
theorem lineDomain_renew {ds : List Str} (h : ∀ d ∈ ds, IsTriple d ['A'] ((R d).getD [])) (line : Str) :
    lineDomain (renew R ds line) = lineDomain line := by
  unfold renew
  split
  · rename_i hmem
    exact (h _ hmem).lineDomain_eq
  · rfl

/-- **The leader handles one update of a pass**: the lines of its domain are renewed. -/
theorem fileLines_freshRow {n : Node} {d : Str} (h : Due R n.disk d) (s : Str) :
    (n.handleWrite (typeOneText (freshRow R d))).disk.denied = n.disk.denied ∧
    fileLines ((n.handleWrite (typeOneText (freshRow R d))).disk.file s) =
      if n.disk.canOpen s = true ∧ shardOf d = some s then (fileLines (n.disk.file s)).map (renew R [d])
      else fileLines (n.disk.file s) := by
  obtain ⟨htriple, hsemi, shard, hshard, hmatched⟩ := h
  obtain ⟨c, cs, rfl⟩ : ∃ c cs, d = c :: cs := List.exists_cons_of_ne_nil htriple.domain.ne_nil
  have hshard' : shardOf (c :: cs) = some (lower [c]) := rfl
  obtain rfl : lower [c] = shard := Option.some.inj (hshard'.symm.trans hshard)
  have htarget : commitTarget (freshRow R (c :: cs)) = some (c, (c :: cs, ['A']), (R (c :: cs)).getD []) :=
    commitTarget_of_updateRecord htriple.updateRecord_eq rfl
  have hrstrip : rstrip (freshRow R (c :: cs)) = freshRow R (c :: cs) :=
    rstrip_row_of htriple.value.rstrip_eq htriple.value.ne_nil [] (c :: cs) ['A']
  rw [typeOneText, Node.handleWrite_typeOne n hsemi htriple.no_newline htriple.no_return, hrstrip]
  refine ⟨(startWrite_effects n.link _).2.2.2.1, ?_⟩
  rw [startWrite_file, htarget]
  show fileLines (if n.disk.canOpen (lower [c]) = true ∧ s = lower [c] then _ else _) = _
  by_cases hs : n.disk.canOpen (lower [c]) = true ∧ s = lower [c]
  · obtain ⟨hopen, rfl⟩ := hs
    rw [if_pos ⟨hopen, rfl⟩, if_pos ⟨hopen, hshard'⟩]
    show fileLines (some (commitFile (n.disk.file (lower [c])) (c :: cs) (freshRow R (c :: cs)))) = _
    refine (fileLines_commitFile htriple.lineDomain_eq htriple.no_newline htriple.no_return
      (Or.inl hmatched)).trans ?_
    rw [upsert_of_mem (by rw [htriple.lineDomain_eq]; exact matched_iff.mp hmatched)]
    refine List.map_congr_left fun line _ => ?_
    unfold overwrite renew
    rw [htriple.lineDomain_eq]
    by_cases hline : lineDomain line = c :: cs
    · rw [if_pos hline, if_pos (List.mem_singleton.mpr hline), hline]
      rfl
    · rw [if_neg hline, if_neg (mt List.mem_singleton.mp hline)]
  · rw [if_neg hs, if_neg]
    · rfl
    · rintro ⟨hopen, heq⟩
      obtain rfl : lower [c] = s := Option.some.inj heq
      exact hs ⟨hopen, rfl⟩

theorem Due.handleWrite {n : Node} {d d' : Str} (h : Due R n.disk d) (h' : Due R n.disk d') :
    Due R (n.handleWrite (typeOneText (freshRow R d))).disk d' := by
  obtain ⟨htriple, hsemi, shard, hshard, hmatched⟩ := h'
  refine ⟨htriple, hsemi, shard, hshard, ?_⟩
  rw [matched_iff] at hmatched ⊢
  rw [(fileLines_freshRow h shard).2]
  split
  · -- Renewed lines keep their domain.
    have hone : ∀ x ∈ [d], IsTriple x ['A'] ((R x).getD []) := by simpa using h.triple
    obtain ⟨line, hline, rfl⟩ := List.mem_map.mp hmatched
    exact List.mem_map.mpr ⟨renew R [d] line, List.mem_map_of_mem hline, lineDomain_renew hone line⟩
  · exact hmatched

end Process

end DsDns
