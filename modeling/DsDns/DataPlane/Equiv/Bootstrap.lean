/-
  What the discovery through a directory guarantees.

  Different addresses have different files, and every file holds the address it is named after, or nothing yet. So
  whatever the other nodes have done when a node reads, it collects different addresses, its own among them
  (`Registered`, kept by every step), and its own ranking is proper (`boot_proper`).

  Two nodes agree if they read the same. That is what the sleep is for: if all nodes start within its length, then
  every collection comes after the last writing (`Gathered`), and all nodes have one map, with the shards of the
  nodes a partition of the letters (`boot_agrees`).
-/
import DsDns.DataPlane.Bootstrap
import DsDns.DataPlane.Equiv.Discovery
import DsDns.DataPlane.Equiv.Ownership
import DsDns.ListFacts

namespace DsDns

/-! ### The files -/

theorem Advertised.digit_or_dot (a : Advertised) : ∀ c ∈ a.ip, c.isDigit = true ∨ c = '.' := by
  intro c hc
  simpa using List.all_eq_true.mp a.digits c hc

/-- The file name without its dots tells the address. -/
theorem ipFile_injective {a b : Advertised} (h : ipFile a.ip = ipFile b.ip) : a = b := by
  have hmap := List.append_cancel_left (List.append_cancel_right h)
  have hback : ∀ x : Advertised,
      (x.ip.map fun c => if c = '.' then '_' else c).map (fun c => if c = '_' then '.' else c) = x.ip := by
    intro x
    rw [List.map_map]
    conv_rhs => rw [← List.map_id x.ip]
    apply List.map_congr_left
    intro c hc
    rcases x.digit_or_dot c hc with hdigit | rfl
    · have hdot : c ≠ '.' := by
        rintro rfl
        exact absurd hdigit (by decide)
      have hunderscore : c ≠ '_' := by
        rintro rfl
        exact absurd hdigit (by decide)
      show (if (if c = '.' then '_' else c) = '_' then '.' else _) = c
      rw [if_neg hdot, if_neg hunderscore]
    · rfl
  apply Advertised.ext
  rw [← hback a, ← hback b, hmap]

theorem isIpFile_ipFile (ip : Str) : isIpFile (ipFile ip) = true := by
  unfold isIpFile startsWith ipFile
  rw [Bool.and_eq_true]
  constructor
  · rw [List.isPrefixOf_iff_prefix, List.append_assoc]
    exact List.prefix_append _ _
  · rw [List.isSuffixOf_iff_suffix]
    exact List.suffix_append _ _

theorem ne_nodes_of_isIpFile {fn : Str} (h : isIpFile fn = true) : fn ≠ "nodes.txt".toList := by
  rintro rfl
  exact absurd h (by decide)

/-- What a node writes is read as its address. -/
theorem fileAddress_own (a : Advertised) : States.fileAddress (some (a.ip ++ ['\n'])) = some a.ip := by
  have hspace : ∀ c ∈ a.ip, isSpace c = false := by
    intro c hc
    rcases a.digit_or_dot c hc with hdigit | rfl
    · exact isSpace_of_isDigit hdigit
    · decide
  have hstrip : strip (a.ip ++ ['\n']) = a.ip := by
    rw [strip_append_space (by decide), strip_of_no_space hspace]
  rw [States.fileAddress_some, hstrip, if_neg a.ne_nil]

namespace Directory

theorem mem_ipFiles {dir : Directory} {fn : Str} : fn ∈ dir.ipFiles ↔ fn ∈ dir.keys ∧ isIpFile fn = true := by
  unfold ipFiles
  rw [List.mem_insertionSort, List.mem_filter]

theorem nodup_ipFiles (dir : Directory) : dir.ipFiles.Nodup :=
  (List.perm_insertionSort _ _).nodup_iff.mpr (dir.keys_nodup.filter _)

/-- Other files are not seen. -/
theorem ipFiles_set (dir : Directory) {fn : Str} (h : isIpFile fn = false) (text : Str) :
    ipFiles (dir.set fn text) = dir.ipFiles := by
  unfold ipFiles
  rw [OrderedDict.keys_set]
  split
  · rfl
  · rw [List.filter_append, List.filter_cons_of_neg (by rw [h]; decide), List.filter_nil, List.append_nil]

end Directory

/-- The file holds nothing, or the address it is named after. -/
def NamedAfter (fn : Str) (text : Option Str) : Prop :=
  ∀ ip, States.fileAddress text = some ip → ∃ a : Advertised, a.ip = ip ∧ fn = ipFile ip

theorem namedAfter_own (a : Advertised) : NamedAfter (ipFile a.ip) (some (a.ip ++ ['\n'])) := by
  intro ip hip
  rw [fileAddress_own] at hip
  obtain rfl := Option.some.inj hip
  exact ⟨a, rfl, rfl⟩

theorem namedAfter_blank (fn : Str) : NamedAfter fn (some []) := by
  have hblank : States.fileAddress (some []) = none := by decide
  intro ip hip
  rw [hblank] at hip
  exact absurd hip (Option.some_ne_none ip).symm

theorem exists_mem_of_forall₂ {α β : Type*} {R : α → β → Prop} {xs : List α} {ys : List β}
    (h : List.Forall₂ R xs ys) {x : α} (hx : x ∈ xs) : ∃ y ∈ ys, R x y := by
  induction h with
  | nil => exact absurd hx List.not_mem_nil
  | @cons x' y xs ys hxy _ ih =>
    rcases List.mem_cons.mp hx with rfl | hx
    · exact ⟨y, List.mem_cons_self, hxy⟩
    · obtain ⟨z, hz, hxz⟩ := ih hx
      exact ⟨z, List.mem_cons_of_mem y hz, hxz⟩

/-- Files with different names hold different addresses. -/
theorem addresses_of_namedAfter {names : List Str} {texts : List (Option Str)}
    (h : List.Forall₂ NamedAfter names texts) (hnodup : names.Nodup) :
    (States.addresses texts).Nodup ∧ ∀ ip ∈ States.addresses texts, ipFile ip ∈ names := by
  induction h with
  | nil => exact ⟨List.nodup_nil, fun ip hip => absurd hip List.not_mem_nil⟩
  | @cons fn text names texts hnamed _ ih =>
    obtain ⟨hfn, hnames⟩ := List.nodup_cons.mp hnodup
    obtain ⟨ihnodup, ihmem⟩ := ih hnames
    unfold States.addresses
    cases haddress : States.fileAddress text with
    | none =>
      rw [List.filterMap_cons_none haddress]
      exact ⟨ihnodup, fun ip hip => List.mem_cons_of_mem fn (ihmem ip hip)⟩
    | some ip =>
      obtain ⟨a, -, rfl⟩ := hnamed ip haddress
      rw [List.filterMap_cons_some haddress]
      constructor
      · exact List.nodup_cons.mpr ⟨fun hip => hfn (ihmem ip hip), ihnodup⟩
      · intro x hx
        rcases List.mem_cons.mp hx with rfl | hx
        · exact List.mem_cons_self
        · exact List.mem_cons_of_mem _ (ihmem x hx)

/-! ### One step -/

/-- The step writes the file of an address. -/
def BootStep.Writes : BootStep → Prop
  | .start => True
  | .write => True
  | .list => False
  | .read => False
  | .finish => False

instance : DecidablePred BootStep.Writes
  | .start => .isTrue trivial
  | .write => .isTrue trivial
  | .list => .isFalse id
  | .read => .isFalse id
  | .finish => .isFalse id

namespace Bootstrap

theorem move_phase (b : Bootstrap) (a x : Advertised) (p : BootPhase) :
    (b.move a p).phase x = if x = a then p else b.phase x := rfl

theorem save_phase (b : Bootstrap) (a x : Advertised) (fn text : Str) (p : BootPhase) :
    (b.save a fn text p).phase x = if x = a then p else b.phase x := rfl

/-- What a step can do. -/
inductive Steps (b : Bootstrap) (e : BootEvent) : Bootstrap → Prop where
  | idle : Steps b e b
  | start : e.step = .start → Steps b e (b.save e.node (ipFile e.node.ip) [] .opened)
  | write : e.step = .write → b.phase e.node = .opened →
    Steps b e (b.save e.node (ipFile e.node.ip) (e.node.ip ++ ['\n']) (.sleeping e.now))
  | list (since : Time) : b.phase e.node = .sleeping since → since + 3 * second ≤ e.now →
    Steps b e (b.move e.node (.collecting b.dir.ipFiles []))
  | read (fn : Str) (names : List Str) (texts : List (Option Str)) :
    b.phase e.node = .collecting (fn :: names) texts →
    Steps b e (b.move e.node (.collecting names (texts ++ [b.dir.get? fn])))
  | finish (texts : List (Option Str)) : b.phase e.node = .collecting [] texts →
    Steps b e (b.save e.node "nodes.txt".toList (nodesText (States.init e.node.ip texts).nodes)
      (.up (States.init e.node.ip texts)))

theorem steps_step (b : Bootstrap) (e : BootEvent) : Steps b e (b.step e) := by
  unfold step
  simp only
  split
  · rename_i hstep
    exact .start hstep
  · rename_i hstep hphase
    exact .write hstep hphase
  · rename_i since hstep hphase
    split
    · rename_i hslept
      exact .list since hphase hslept
    · exact .idle
  · rename_i fn names texts hstep hphase
    exact .read fn names texts hphase
  · rename_i texts hstep hphase
    exact .finish texts hphase
  · exact .idle

/-! ### Every node finds itself -/

/-- What a node has read: different files, its own among them or still to come. -/
def Collects (a : Advertised) (names : List Str) (texts : List (Option Str)) : Prop :=
  ∃ done : List Str, (done ++ names).Nodup ∧ ipFile a.ip ∈ done ++ names ∧ (∀ fn ∈ names, isIpFile fn = true) ∧
    List.Forall₂ (fun fn text => NamedAfter fn text ∧ (fn = ipFile a.ip → text = some (a.ip ++ ['\n']))) done texts

/-- What a node can rely on. -/
def Reliable (dir : Directory) (a : Advertised) : BootPhase → Prop
  | .down => True
  | .opened => True
  | .sleeping _ => dir.get? (ipFile a.ip) = some (a.ip ++ ['\n'])
  | .collecting names texts => dir.get? (ipFile a.ip) = some (a.ip ++ ['\n']) ∧ Collects a names texts
  | .up s => dir.get? (ipFile a.ip) = some (a.ip ++ ['\n']) ∧ s.selfIp = a.ip ∧ s.Proper

/-- The files hold what they are named after, and every node can rely on its own. -/
structure Registered (b : Bootstrap) : Prop where
  named : ∀ fn text, isIpFile fn = true → b.dir.get? fn = some text → NamedAfter fn (some text)
  reliable : ∀ a, Reliable b.dir a (b.phase a)

variable {b : Bootstrap} {a : Advertised}

/-- Only the own file matters. -/
theorem Reliable.of_own {dir dir' : Directory} {p : BootPhase} (h : Reliable dir a p)
    (hown : dir'.get? (ipFile a.ip) = dir.get? (ipFile a.ip)) : Reliable dir' a p := by
  cases p with
  | down => trivial
  | opened => trivial
  | sleeping since => exact hown.trans h
  | collecting names texts => exact ⟨hown.trans h.1, h.2⟩
  | up s => exact ⟨hown.trans h.1, h.2⟩

theorem Registered.move (h : Registered b) {p : BootPhase} (hp : Reliable b.dir a p) :
    Registered (b.move a p) where
  named := h.named
  reliable := by
    intro x
    rw [move_phase]
    split
    · rename_i hx
      rw [hx]
      exact hp
    · exact h.reliable x

/-- A file is written that no other node relies on. -/
theorem Registered.save (h : Registered b) {fn text : Str} {p : BootPhase}
    (hname : isIpFile fn = true → fn = ipFile a.ip ∧ NamedAfter fn (some text))
    (hp : Reliable (b.dir.set fn text) a p) : Registered (b.save a fn text p) where
  named := by
    intro x t hx ht
    change (b.dir.set fn text).get? x = some t at ht
    rw [OrderedDict.get?_set] at ht
    split at ht
    · rename_i heq
      obtain rfl := Option.some.inj ht
      rw [← heq] at hx ⊢
      exact (hname hx).2
    · exact h.named x t hx ht
  reliable := by
    intro x
    rw [save_phase]
    split
    · rename_i hx
      rw [hx]
      exact hp
    · rename_i hx
      apply (h.reliable x).of_own
      show (b.dir.set fn text).get? (ipFile x.ip) = _
      rw [OrderedDict.get?_set, if_neg]
      intro heq
      have hown := (hname (by rw [heq]; exact isIpFile_ipFile x.ip)).1
      exact hx (ipFile_injective (heq.symm.trans hown))

/-- The own file is in every listing after it was written. -/
theorem mem_ipFiles_own {dir : Directory} (h : dir.get? (ipFile a.ip) = some (a.ip ++ ['\n'])) :
    ipFile a.ip ∈ dir.ipFiles :=
  Directory.mem_ipFiles.mpr ⟨OrderedDict.mem_keys_of_get?_eq_some h, isIpFile_ipFile a.ip⟩

/-- One file more is read. -/
theorem Registered.collects (h : Registered b) {fn : Str} {names : List Str} {texts : List (Option Str)}
    (hown : b.dir.get? (ipFile a.ip) = some (a.ip ++ ['\n'])) (hc : Collects a (fn :: names) texts) :
    Collects a names (texts ++ [b.dir.get? fn]) := by
  obtain ⟨done, hnodup, hmem, hfiles, hread⟩ := hc
  have hsplit : done ++ [fn] ++ names = done ++ fn :: names := List.append_assoc _ _ _
  refine ⟨done ++ [fn], ?_, ?_, fun x hx => hfiles x (List.mem_cons_of_mem fn hx), ?_⟩
  · rw [hsplit]
    exact hnodup
  · rw [hsplit]
    exact hmem
  · apply List.rel_append hread
    refine List.Forall₂.cons ⟨?_, ?_⟩ List.Forall₂.nil
    · cases htext : b.dir.get? fn with
      | none => exact fun ip hip => absurd hip (Option.some_ne_none ip).symm
      | some text => exact h.named fn text (hfiles fn List.mem_cons_self) htext
    · rintro rfl
      exact hown

/-- A node that has read all files has a proper ranking. -/
theorem Collects.proper {texts : List (Option Str)} (h : Collects a [] texts) :
    (States.init a.ip texts).Proper := by
  obtain ⟨done, hnodup, hmem, -, hread⟩ := h
  rw [List.append_nil] at hnodup hmem
  have hnamed : List.Forall₂ NamedAfter done texts := hread.imp fun _ _ hand => hand.1
  have haddress : a.ip ∈ States.addresses texts := by
    obtain ⟨text, htext, hand⟩ := exists_mem_of_forall₂ hread hmem
    rw [hand.2 rfl] at htext
    exact List.mem_filterMap.mpr ⟨_, htext, fileAddress_own a⟩
  apply (States.proper_iff (List.ne_nil_of_mem haddress) a.ip).mpr
  exact ⟨(addresses_of_namedAfter hnamed hnodup).1, haddress⟩

theorem registered_step (h : Registered b) (e : BootEvent) : Registered (b.step e) := by
  have hnode := h.reliable e.node
  have hstep := steps_step b e
  generalize b.step e = b' at hstep ⊢
  cases hstep with
  | idle => exact h
  | start _ =>
    apply h.save
    · exact fun _ => ⟨rfl, namedAfter_blank _⟩
    · trivial
  | write _ _ =>
    apply h.save
    · exact fun _ => ⟨rfl, namedAfter_own e.node⟩
    · exact OrderedDict.get?_set_self _ _ _
  | list since hphase _ =>
    rw [hphase] at hnode
    apply h.move
    refine ⟨hnode, [], ?_, mem_ipFiles_own hnode, ?_, List.Forall₂.nil⟩
    · exact b.dir.nodup_ipFiles
    · exact fun fn hfn => (Directory.mem_ipFiles.mp hfn).2
  | read fn names texts hphase =>
    rw [hphase] at hnode
    apply h.move
    exact ⟨hnode.1, h.collects hnode.1 hnode.2⟩
  | finish texts hphase =>
    rw [hphase] at hnode
    have hnodes : isIpFile "nodes.txt".toList = false := by decide
    apply h.save
    · intro htrue
      rw [hnodes] at htrue
      exact absurd htrue Bool.false_ne_true
    · refine ⟨?_, (States.init_ranking e.node.ip texts).1, hnode.2.proper⟩
      rw [OrderedDict.get?_set, if_neg (ne_nodes_of_isIpFile (isIpFile_ipFile _)).symm]
      exact hnode.1

/-- The directory as earlier nodes may have left it: a file holds nothing, or the address it is named after. -/
def Inherited (dir : Directory) : Prop :=
  ∀ fn text, isIpFile fn = true → dir.get? fn = some text → NamedAfter fn (some text)

theorem registered_run {dir : Directory} (h : Inherited dir) (es : List BootEvent) :
    Registered (run step (start dir) es) :=
  run_invariant ⟨h, fun _ => trivial⟩ fun _ e hs => registered_step hs e

theorem inherited_empty : Inherited .empty := fun _ text _ h => absurd h (Option.some_ne_none text).symm

/-- **A node that is up has a proper ranking**, whatever the other nodes do and whenever they do it: it is in its
own map, the ranks of its map are 1, ..., n, each once, and its counters are n. -/
theorem boot_proper {dir : Directory} (h : Inherited dir) (es : List BootEvent) :
    Always (fun b => ∀ a s, b.phase a = .up s → s.selfIp = a.ip ∧ s.Proper) step (start dir) es := by
  intro early _ a s hup
  have hreliable := (registered_run h early).reliable a
  rw [hup] at hreliable
  exact hreliable.2

/-- The first of two nodes. -/
def firstNode : Advertised := ⟨"10.0.0.1".toList, by decide, by decide⟩

/-- The second of two nodes. -/
def secondNode : Advertised := ⟨"10.0.0.2".toList, by decide, by decide⟩

/-- The second node has opened its file when the first one reads it, and writes it afterwards. -/
def overlappingBoot : List BootEvent :=
  [⟨0, firstNode, .start⟩, ⟨0, firstNode, .write⟩, ⟨4 * second, secondNode, .start⟩,
    ⟨4 * second, firstNode, .list⟩, ⟨4 * second, firstNode, .read⟩, ⟨4 * second, firstNode, .read⟩,
    ⟨4 * second, secondNode, .write⟩, ⟨4 * second, firstNode, .finish⟩, ⟨8 * second, secondNode, .list⟩,
    ⟨8 * second, secondNode, .read⟩, ⟨8 * second, secondNode, .read⟩, ⟨8 * second, secondNode, .finish⟩]

theorem boot_proper_overlapping :
    Always (fun b => ∀ a s, b.phase a = .up s → s.selfIp = a.ip ∧ s.Proper) step (start .empty) overlappingBoot :=
  boot_proper inherited_empty overlappingBoot

/-! ### All nodes find the same -/

/-- The events are in the order of their times, and all writing is done within the length of the sleep. -/
def Prompt (t₀ : Time) (es : List BootEvent) : Prop :=
  (es.map BootEvent.now).Pairwise (· ≤ ·) ∧
    ∀ e ∈ es, e.step.Writes → t₀ ≤ e.now ∧ e.now < t₀ + 3 * second

instance (t₀ : Time) (es : List BootEvent) : Decidable (Prompt t₀ es) := inferInstanceAs (Decidable (_ ∧ _))

theorem Prompt.of_prefix {t₀ : Time} {es early : List BootEvent} (h : Prompt t₀ es) (hp : early <+: es) :
    Prompt t₀ early :=
  ⟨h.1.sublist (hp.sublist.map _), fun e he => h.2 e (hp.subset he)⟩

/-- Before the first listing. -/
def Waits (t₀ : Time) : BootPhase → Prop
  | .down => True
  | .opened => True
  | .sleeping since => t₀ ≤ since
  | .collecting _ _ => False
  | .up _ => False

theorem waits_step {t₀ : Time} (h : ∀ a, Waits t₀ (b.phase a)) {e : BootEvent} (hnow : e.now < t₀ + 3 * second)
    (hwrite : e.step.Writes → t₀ ≤ e.now) (a : Advertised) : Waits t₀ ((b.step e).phase a) := by
  have hnode := h e.node
  have hstep := steps_step b e
  generalize b.step e = b' at hstep ⊢
  cases hstep with
  | idle => exact h a
  | start _ =>
    rw [save_phase]
    split
    · trivial
    · exact h a
  | write hw _ =>
    rw [save_phase]
    split
    · exact hwrite (by rw [hw]; trivial)
    · exact h a
  | list since hphase hslept =>
    -- Who has slept has not written within the last three seconds.
    rw [hphase] at hnode
    have hge : t₀ + 3 * second ≤ e.now := (Int.add_le_add_right hnode _).trans hslept
    exact absurd hnow (not_lt.mpr hge)
  | read fn names texts hphase =>
    rw [hphase] at hnode
    exact hnode.elim
  | finish texts hphase =>
    rw [hphase] at hnode
    exact hnode.elim

/-- The directories hold the same addresses. -/
structure Same (dir dir' : Directory) : Prop where
  ipFiles : dir.ipFiles = dir'.ipFiles
  get? : ∀ fn, isIpFile fn = true → dir.get? fn = dir'.get? fn

/-- The texts of all address files. -/
def texts (dir : Directory) : List (Option Str) := dir.ipFiles.map dir.get?

theorem Same.texts {dir dir' : Directory} (h : Same dir dir') : texts dir = Bootstrap.texts dir' := by
  unfold Bootstrap.texts
  rw [h.ipFiles]
  apply List.map_congr_left
  intro fn hfn
  exact h.get? fn (Directory.mem_ipFiles.mp hfn).2

/-- What has been collected is what the directory holds. -/
def Gathered (dir : Directory) (a : Advertised) : BootPhase → Prop
  | .down => True
  | .opened => True
  | .sleeping _ => True
  | .collecting names texts => ∃ done, done ++ names = dir.ipFiles ∧ texts = done.map dir.get?
  | .up s => s = States.init a.ip (texts dir)

theorem gathered_step {dir : Directory} (hsame : Same b.dir dir) (h : ∀ a, Gathered dir a (b.phase a))
    {e : BootEvent} (hquiet : ¬ e.step.Writes) :
    Same (b.step e).dir dir ∧ ∀ a, Gathered dir a ((b.step e).phase a) := by
  have hnode := h e.node
  have hstep := steps_step b e
  generalize b.step e = b' at hstep ⊢
  cases hstep with
  | idle => exact ⟨hsame, h⟩
  | start hw => exact absurd (by rw [hw]; trivial) hquiet
  | write hw _ => exact absurd (by rw [hw]; trivial) hquiet
  | list since hphase hslept =>
    refine ⟨hsame, fun a => ?_⟩
    rw [move_phase]
    split
    · exact ⟨[], hsame.ipFiles, rfl⟩
    · exact h a
  | read fn names texts hphase =>
    refine ⟨hsame, fun a => ?_⟩
    rw [move_phase]
    split
    · rw [hphase] at hnode
      obtain ⟨done, hdone, rfl⟩ := hnode
      have hfn : fn ∈ dir.ipFiles := by
        rw [← hdone]
        exact List.mem_append_right _ List.mem_cons_self
      refine ⟨done ++ [fn], (List.append_assoc _ _ _).trans hdone, ?_⟩
      rw [hsame.get? fn (Directory.mem_ipFiles.mp hfn).2, List.map_append]
      rfl
    · exact h a
  | finish texts hphase =>
    have hnodes : isIpFile "nodes.txt".toList = false := by decide
    constructor
    · constructor
      · exact (Directory.ipFiles_set b.dir hnodes _).trans hsame.ipFiles
      · intro fn hfn
        rw [← hsame.get? fn hfn]
        show (b.dir.set _ _).get? fn = _
        rw [OrderedDict.get?_set, if_neg (ne_nodes_of_isIpFile hfn).symm]
    · intro a
      rw [save_phase]
      split
      · rename_i ha
        rw [hphase] at hnode
        obtain ⟨done, hdone, rfl⟩ := hnode
        rw [List.append_nil] at hdone
        show States.init e.node.ip _ = States.init a.ip _
        rw [ha, hdone]
        rfl
      · exact h a

/-- In a prompt run, every node that is up has collected what the directory holds at the end. -/
theorem gathered_run {t₀ : Time} {es : List BootEvent} (h : Prompt t₀ es) (dir : Directory) {s : States}
    (hup : (run step (start dir) es).phase a = .up s) :
    s = States.init a.ip (texts (run step (start dir) es).dir) := by
  obtain ⟨early, late, rfl, hearly, hlate⟩ := exists_split_of_pairwise h.1 (t₀ + 3 * second)
  have hwaits : ∀ x, Waits t₀ ((run step (start dir) early).phase x) := by
    have hall : Along (fun _ e => e.now < t₀ + 3 * second ∧ (e.step.Writes → t₀ ≤ e.now)) step (start dir) early :=
      along_of_mem fun _ e he => ⟨hearly e he, fun hw => (h.2 e (List.mem_append_left _ he) hw).1⟩
    have hstart : ∀ x, Waits t₀ ((start dir).phase x) := fun _ => trivial
    exact hall.invariant (P := fun b => ∀ x, Waits t₀ (b.phase x)) hstart fun b e hb hok =>
      waits_step hb hok.1 hok.2
  have hquiet : Along (fun _ e => ¬ e.step.Writes) step (run step (start dir) early) late :=
    along_of_mem fun _ e he hw => absurd (h.2 e (List.mem_append_right _ he) hw).2 (not_lt.mpr (hlate e he))
  have hgathered : Same (run step (start dir) (early ++ late)).dir (run step (start dir) early).dir ∧
      ∀ x, Gathered (run step (start dir) early).dir x ((run step (start dir) (early ++ late)).phase x) := by
    rw [run_append]
    apply hquiet.invariant (P := fun b => Same b.dir _ ∧ ∀ x, Gathered _ x (b.phase x))
    · refine ⟨⟨rfl, fun _ _ => rfl⟩, fun x => ?_⟩
      have hx := hwaits x
      cases hphase : (run step (start dir) early).phase x with
      | down => trivial
      | opened => trivial
      | sleeping since => trivial
      | collecting names texts =>
        rw [hphase] at hx
        exact hx.elim
      | up s =>
        rw [hphase] at hx
        exact hx.elim
    · exact fun b e hb hok => gathered_step hb.1 hb.2 hok
  have hstate := hgathered.2 a
  rw [hup] at hstate
  rw [hgathered.1.texts]
  exact hstate

/-- The addresses in the files are different. -/
theorem Registered.addresses_nodup (h : Registered b) : (States.addresses (texts b.dir)).Nodup := by
  have hnamed : List.Forall₂ NamedAfter b.dir.ipFiles (texts b.dir) := by
    unfold texts
    rw [List.forall₂_map_right_iff, List.forall₂_same]
    intro fn hfn
    cases htext : b.dir.get? fn with
    | none => exact fun ip hip => absurd hip (Option.some_ne_none ip).symm
    | some text => exact h.named fn text (Directory.mem_ipFiles.mp hfn).2 htext
  exact (addresses_of_namedAfter hnamed b.dir.nodup_ipFiles).1

/-- The node has written its file. -/
def Announced : BootPhase → Prop
  | .down => False
  | .opened => False
  | .sleeping _ => True
  | .collecting _ _ => True
  | .up _ => True

theorem Registered.address_mem (h : Registered b) (ha : Announced (b.phase a)) :
    a.ip ∈ States.addresses (texts b.dir) := by
  have hown : b.dir.get? (ipFile a.ip) = some (a.ip ++ ['\n']) := by
    have hreliable := h.reliable a
    cases hphase : b.phase a with
    | down =>
      rw [hphase] at ha
      exact ha.elim
    | opened =>
      rw [hphase] at ha
      exact ha.elim
    | sleeping since =>
      rw [hphase] at hreliable
      exact hreliable
    | collecting names texts =>
      rw [hphase] at hreliable
      exact hreliable.1
    | up s =>
      rw [hphase] at hreliable
      exact hreliable.1
  refine List.mem_filterMap.mpr ⟨some (a.ip ++ ['\n']), ?_, fileAddress_own a⟩
  exact List.mem_map.mpr ⟨ipFile a.ip, mem_ipFiles_own hown, hown⟩

/-- The ranking of a node, and the shard that goes with it. -/
theorem shard_init {texts : List (Option Str)} (hnodup : (States.addresses texts).Nodup) {ip : Str}
    (hip : ip ∈ States.addresses texts) :
    ∃ i < (States.init ip texts).nodes.length, (States.init ip texts).nodes.keys[i]? = some ip ∧
      (States.init ip texts).rank = (i : ℤ) + 1 ∧
      (States.init ip texts).selfRecords = shardLetters (i + 1) (States.init ip texts).nodes.length := by
  have hne := List.ne_nil_of_mem hip
  obtain ⟨p, hp⟩ := States.init_eq ip texts
  have hranked := States.ranked_registerNodes hne hnodup ip
  have hlength := (States.registerNodes_length_iff hne ip).mpr hnodup
  obtain ⟨i, hi⟩ := List.mem_iff_getElem?.mp (((States.registerNodes_keys hne ip).1 ip).mpr hip)
  have hlt : i < (States.registerNodes ip texts).1.length := by
    rw [← OrderedDict.length_keys]
    exact (List.getElem?_eq_some_iff.mp hi).1
  have hshard := (States.init ip texts).selfRecords_placed hlt
  obtain ⟨q, hq⟩ :=
    ((States.init ip texts).placed (States.registerNodes ip texts).1.length (i + 1)).updateRecordSet_eq
  rw [hq] at hshard
  rw [hp]
  have hrank : ((States.registerNodes ip texts).1.get? ip).getD 1 = (i : ℤ) + 1 := by
    rw [hranked i ip hi]
    rfl
  refine ⟨i, hlt, hi, hrank, ?_⟩
  rw [hlength, hrank]
  exact hshard

/-- Nodes that have read the same have one map. -/
theorem nodes_init {texts : List (Option Str)} {ip : Str} (hip : ip ∈ States.addresses texts) (ip' : Str) :
    (States.init ip texts).nodes = (States.init ip' texts).nodes := by
  rw [(States.init_ranking ip _).2.1, (States.init_ranking ip' _).2.1,
    States.registerNodes_of_ne_nil (List.ne_nil_of_mem hip),
    States.registerNodes_of_ne_nil (List.ne_nil_of_mem hip)]

/-- They share no rank and no letter. -/
theorem apart_init {texts : List (Option Str)} (hnodup : (States.addresses texts).Nodup) {ip ip' : Str}
    (hip : ip ∈ States.addresses texts) (hip' : ip' ∈ States.addresses texts) (hne : ip ≠ ip') :
    (States.init ip texts).rank ≠ (States.init ip' texts).rank ∧
      ∀ l ∈ (States.init ip texts).selfRecords, l ∉ (States.init ip' texts).selfRecords := by
  have hsame := nodes_init hip ip'
  obtain ⟨i, hlt, hi, hrank, hshard⟩ := shard_init hnodup hip
  obtain ⟨j, hlt', hj, hrank', hshard'⟩ := shard_init hnodup hip'
  have hindex : i ≠ j := by
    rintro rfl
    rw [hsame, hj] at hi
    exact hne (Option.some.inj hi).symm
  constructor
  · rw [hrank, hrank']
    omega
  · intro l hl
    rw [hshard] at hl
    rw [hshard', ← hsame]
    exact shardLetters_disjoint hlt (by rw [hsame]; exact hlt') hindex hl

/-- Between them they own every letter. -/
theorem exists_owner_init {texts : List (Option Str)} (hnodup : (States.addresses texts).Nodup)
    (hne : States.addresses texts ≠ []) {l : Str} (hl : l ∈ letters alphabet) :
    ∃ ip ∈ States.addresses texts, l ∈ (States.init ip texts).selfRecords := by
  obtain ⟨ip, hip⟩ := List.exists_mem_of_ne_nil _ hne
  obtain ⟨i, hlt, -, -, -⟩ := shard_init hnodup hip
  obtain ⟨r, hr, hletter⟩ := exists_shardLetters (Nat.zero_lt_of_lt hlt) hl
  rw [← OrderedDict.length_keys] at hr
  have howner : (States.init ip texts).nodes.keys[r] ∈ States.addresses texts := by
    rw [← (States.registerNodes_keys hne ip).1, ← (States.init_ranking ip texts).2.1]
    exact List.getElem_mem hr
  refine ⟨_, howner, ?_⟩
  obtain ⟨j, -, hj, -, hshard⟩ := shard_init hnodup howner
  have hsame := nodes_init howner ip
  -- The rank of a node is its place in the one map.
  have hplace : j = r := by
    rw [hsame, ← List.getElem?_eq_getElem hr] at hj
    exact ((List.getElem?_inj hr (OrderedDict.keys_nodup _)).mp hj.symm).symm
  rw [hshard, hsame, hplace]
  exact hletter

/-- The nodes that are up agree. -/
structure Agreed (b : Bootstrap) : Prop where
  /-- Every node that has written its file is in every map. -/
  known : ∀ a s, b.phase a = .up s → ∀ x, Announced (b.phase x) → x.ip ∈ s.nodes.keys
  /-- There is one map, and no rank and no letter is given twice. -/
  apart : ∀ a s a' s', b.phase a = .up s → b.phase a' = .up s' → a ≠ a' →
    s.nodes = s'.nodes ∧ s.rank ≠ s'.rank ∧ ∀ l ∈ s.selfRecords, l ∉ s'.selfRecords
  /-- When all nodes of the map are up, every letter has its owner. -/
  covered : ∀ a s, b.phase a = .up s → (∀ ip ∈ s.nodes.keys, ∃ x s', x.ip = ip ∧ b.phase x = .up s') →
    ∀ l ∈ letters alphabet, ∃ x s', b.phase x = .up s' ∧ l ∈ s'.selfRecords

theorem agreed_of_gathered (h : Registered b)
    (hgathered : ∀ a s, b.phase a = .up s → s = States.init a.ip (texts b.dir)) : Agreed b := by
  have hnodup := h.addresses_nodup
  have hmem : ∀ a s, b.phase a = .up s → a.ip ∈ States.addresses (texts b.dir) := by
    intro a s hup
    apply h.address_mem
    rw [hup]
    trivial
  have hkeys : ∀ a s, b.phase a = .up s → ∀ x, x ∈ s.nodes.keys ↔ x ∈ States.addresses (texts b.dir) := by
    intro a s hup x
    rw [hgathered a s hup, (States.init_ranking a.ip _).2.1]
    exact (States.registerNodes_keys (List.ne_nil_of_mem (hmem a s hup)) a.ip).1 x
  constructor
  case known =>
    intro a s hup x hx
    exact (hkeys a s hup x.ip).mpr (h.address_mem hx)
  case apart =>
    intro a s a' s' hup hup' hne
    have hip := hmem a s hup
    have hip' := hmem a' s' hup'
    obtain rfl := hgathered a s hup
    obtain rfl := hgathered a' s' hup'
    exact ⟨nodes_init hip a'.ip, apart_init hnodup hip hip' fun heq => hne (Advertised.ext heq)⟩
  case covered =>
    intro a s hup hall l hl
    obtain ⟨ip, hip, hletter⟩ := exists_owner_init hnodup (List.ne_nil_of_mem (hmem a s hup)) hl
    obtain ⟨x, s', rfl, hup'⟩ := hall ip ((hkeys a s hup ip).mpr hip)
    rw [← hgathered x s' hup'] at hletter
    exact ⟨x, s', hup', hletter⟩

/-- **The nodes agree if all of them start within the length of the sleep**, in whatever order their steps come:
at any time the nodes that are up have one map with every node that has written its file by then, different ranks
and different letters, and once all nodes of the map are up, every letter has an owner. -/
theorem boot_agrees {dir : Directory} (h : Inherited dir) {t₀ : Time} {es : List BootEvent}
    (hprompt : Prompt t₀ es) : Always Agreed step (start dir) es := by
  intro early hp
  apply agreed_of_gathered (registered_run h early)
  exact fun a s hup => gathered_run (hprompt.of_prefix hp) dir hup

/-- Two nodes that start one second apart. -/
def promptBoot : List BootEvent :=
  [⟨0, firstNode, .start⟩, ⟨0, firstNode, .write⟩, ⟨1 * second, secondNode, .start⟩,
    ⟨2 * second, secondNode, .write⟩, ⟨3 * second, firstNode, .list⟩, ⟨5 * second, secondNode, .list⟩,
    ⟨5 * second, firstNode, .read⟩, ⟨5 * second, secondNode, .read⟩, ⟨5 * second, secondNode, .read⟩,
    ⟨5 * second, firstNode, .read⟩, ⟨5 * second, secondNode, .finish⟩, ⟨6 * second, firstNode, .finish⟩]

theorem boot_agrees_two : Always Agreed step (start .empty) promptBoot :=
  boot_agrees inherited_empty (show Prompt 0 promptBoot by decide)

/-- A node that starts later is not in the map of the first one: both own the letter z. -/
theorem not_agreed_overlapping : ¬ Agreed (run step (start .empty) overlappingBoot) := by
  have hfirst : (run step (start .empty) overlappingBoot).phase firstNode =
      .up (States.init "10.0.0.1".toList [some "10.0.0.1\n".toList, some []]) := rfl
  have hsecond : (run step (start .empty) overlappingBoot).phase secondNode =
      .up (States.init "10.0.0.2".toList [some "10.0.0.1\n".toList, some "10.0.0.2\n".toList]) := rfl
  intro h
  have hapart := (h.apart _ _ _ _ hfirst hsecond (by decide)).2.2 ['z'] (by decide)
  exact absurd (by decide) hapart

end Bootstrap

end DsDns
