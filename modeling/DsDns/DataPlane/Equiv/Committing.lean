/-
  When concurrent commits are serial.

  All that is left of a commit changes the record file of its shard and binds one key of this shard
  (`rest_eq_touch`), so commits of different shards do not notice each other (`commits_lawful`), and a commit that
  nothing comes between is `commitHandler` (`commitHandler_eq_effect`). Hence it is enough that no two commits
  of one shard overlap (`commits_serial`). `not_commits_serial_overlapping` and `not_commits_serial_truncated` are
  the runs of two overlapping commits that lose an update, and a whole file.
-/
import DsDns.DataPlane.Committing
import DsDns.DataPlane.Equiv.CommitOrder

namespace DsDns

/-- Change the file of one shard. -/
def Disk.change (d : Disk) (shard : Str) (onFile : Option Str → Option Str) : Disk :=
  { d with file := fun s => if s = shard then onFile (d.file shard) else d.file s }

theorem Disk.change_comm {shard shard' : Str} (h : shard ≠ shard') (d : Disk) (f f' : Option Str → Option Str) :
    (d.change shard' f').change shard f = (d.change shard f).change shard' f' := by
  unfold change
  congr 1
  ext1 s
  simp only
  rw [if_neg h, if_neg h.symm]
  by_cases hs : s = shard
  · rw [if_pos hs, if_pos hs, if_neg fun hs' => h (hs.symm.trans hs')]
  · rw [if_neg hs, if_neg hs]

theorem Disk.change_id (d : Disk) (shard : Str) : d.change shard id = d := by
  unfold change
  congr 1
  ext1 s
  by_cases hs : s = shard
  · rw [if_pos hs, hs]
    rfl
  · rw [if_neg hs]

/-- Change the file of one shard, and the memory by a binding. -/
def Node.touch (n : Node) (shard : Str) (onFile : Option Str → Option Str) (binding : Option (Key × Str)) : Node :=
  { n with
    disk := n.disk.change shard onFile
    states := { n.states with records := put n.states.records binding } }

theorem Node.touch_comm {shard shard' : Str} (hshard : shard ≠ shard') {b b' : Option (Key × Str)}
    (hkey : ∀ k ∈ b.map Prod.fst, ∀ k' ∈ b'.map Prod.fst, k ≠ k') (n : Node) (f f' : Option Str → Option Str) :
    (n.touch shard' f' b').touch shard f b = (n.touch shard f b).touch shard' f' b' := by
  have hdisk := n.disk.change_comm hshard f f'
  have hrecords := put_comm hkey n.states.records
  unfold touch
  simp only
  rw [hdisk, hrecords]

variable [Unicode]

namespace CommitJob

/-- What is left of a commit makes of the file of its shard; `denied`: the file cannot be opened. -/
def onFile (denied : Bool) : CommitStage → Option Str → Option Str
  | .rewritten text, old => if denied then old else some text
  | .opened text, old => some (writeOver (old.getD []) text)
  | .written, old => old

/-- What is left of a commit binds in memory. -/
def binding (job : CommitJob) (denied : Bool) : CommitStage → Option (Key × Str)
  | .rewritten _ => if denied then none else some ((job.domain, job.rtype), job.ip)
  | _ => some ((job.domain, job.rtype), job.ip)

/-- Nothing is behind the end of what is written into an empty file. -/
theorem writeLines_truncate (job : CommitJob) (text : Str) (n : Node) :
    job.writeLines text (job.truncate n) = { n with disk := n.disk.write job.shard text } := by
  have hempty : (n.disk.write job.shard []).file job.shard = some [] := if_pos rfl
  have hover : writeOver [] text = text := by
    unfold writeOver
    rw [List.drop_nil, List.append_nil]
  unfold writeLines truncate
  simp only
  rw [hempty, Option.getD_some, hover]
  congr 1
  unfold Disk.write
  congr 1
  ext1 s
  by_cases hs : s = job.shard
  · simp only [if_pos hs]
  · simp only [if_neg hs]

theorem rest_rewritten (job : CommitJob) (text : Str) (n : Node) : job.rest (.rewritten text) n =
    if n.disk.denied job.shard then n else job.remember { n with disk := n.disk.write job.shard text } := by
  rw [rest, job.writeLines_truncate]

theorem rest_eq_touch (job : CommitJob) (stage : CommitStage) (n : Node) :
    job.rest stage n = n.touch job.shard (onFile (n.disk.denied job.shard) stage)
      (job.binding (n.disk.denied job.shard) stage) := by
  have hsame : ∀ b, n.touch job.shard id b =
      { n with states := { n.states with records := put n.states.records b } } := by
    intro b
    unfold Node.touch
    rw [n.disk.change_id]
  cases stage with
  | rewritten text =>
    rw [rest_rewritten]
    unfold onFile binding
    cases n.disk.denied job.shard with
    | true => exact (hsame none).symm
    | false => rfl
  | opened text => rfl
  | written => exact (hsame _).symm

theorem binding_ne {job job' : CommitJob} (h : job.shard ≠ job'.shard) (denied denied' : Bool)
    (stage stage' : CommitStage) : ∀ k ∈ (job.binding denied stage).map Prod.fst,
      ∀ k' ∈ (job'.binding denied' stage').map Prod.fst, k ≠ k' := by
  have hkey : ∀ (job : CommitJob) denied stage, ∀ k ∈ (job.binding denied stage).map Prod.fst,
      k = (job.domain, job.rtype) := by
    intro job denied stage k hk
    cases stage with
    | rewritten text =>
      cases denied with
      | true => exact absurd hk (by simp [binding])
      | false => exact (Option.some.inj hk).symm
    | opened text => exact (Option.some.inj hk).symm
    | written => exact (Option.some.inj hk).symm
  intro k hk k' hk' heq
  rw [hkey job denied stage k hk, hkey job' denied' stage' k' hk'] at heq
  -- Equal domains have the same first letter.
  have hdomain : job.first :: job.others = job'.first :: job'.others := (Prod.mk.inj heq).1
  exact h (congrArg (fun c => lower [c]) (List.cons.inj hdomain).1)

end CommitJob

/-- Commits of different shards do not notice each other. -/
theorem commits_lawful : commits.Lawful where
  rest_next job stage n := by
    cases stage with
    | rewritten text =>
      show commits.finish job (job.next (.rewritten text) n) = job.rest (.rewritten text) n
      unfold CommitJob.next CommitJob.rest
      simp only
      split <;> rfl
    | opened text => rfl
    | written => rfl
  first_rest job job' stage n h := by
    show job.readFile (job'.rest stage n) = (job'.rest stage n, some (.rewritten (commitFile (n.disk.file job.shard) _ _)))
    have hfile : (job'.rest stage n).disk.file job.shard = n.disk.file job.shard := by
      rw [job'.rest_eq_touch]
      exact if_neg h
    rw [CommitJob.readFile, hfile]
  rest_rest job job' stage stage' n h := by
    show job.rest stage (job'.rest stage' n) = job'.rest stage' (job.rest stage n)
    simp only [CommitJob.rest_eq_touch]
    exact Node.touch_comm h (CommitJob.binding_ne h _ _ stage stage') n _ _

/-- A commit that nothing comes between. -/
theorem effect_commits (job : CommitJob) (n : Node) : commits.effect job n =
    n.commitRecord job.update job.domain job.rtype job.ip job.shard := by
  show job.rest (.rewritten _) n = _
  rw [job.rest_rewritten]
  rfl

/-- `commitHandler` as one of these calls. -/
theorem Node.commitHandler_eq_effect (n : Node) (num : Str) : (n.commitHandler num).1 =
    match n.commitCall num with
    | none => n
    | some job => commits.effect job n := by
  unfold Node.commitHandler Node.commitHandlerWith Node.commitCall
  cases n.writer.logs num with
  | none => rfl
  | some update =>
    simp only
    by_cases hu : update = []
    · rw [if_pos hu, if_pos hu]
    rw [if_neg hu, if_neg hu]
    rcases split ',' (strip update) with _ | ⟨domain, _ | ⟨rtype, _ | ⟨ip, fields⟩⟩⟩
    · rfl
    · rfl
    · rfl
    · simp only
      rcases strip domain with _ | ⟨c, cs⟩
      · rfl
      · simp only
        by_cases hc : (lower [c]).contains (Char.ofNat 0) = true
        · rw [if_pos hc, if_pos hc]
        · rw [if_neg hc, if_neg hc]
          exact (effect_commits ⟨num, update, c, cs, strip rtype, strip ip⟩ n).symm

/-! ### Runs -/

theorem writer_stepSection (x : Section CommitJob CommitStage) (n : Node) :
    (commits.stepSection x n).1.writer = n.writer := by
  obtain ⟨job, _ | stage | _⟩ := x
  · rfl
  · show (job.next stage n).1.writer = n.writer
    cases stage with
    | rewritten text =>
      unfold CommitJob.next
      simp only
      split <;> rfl
    | opened text => rfl
    | written => rfl
  · rfl

theorem commitCall_of_writer {n m : Node} (h : m.writer = n.writer) (num : Str) :
    m.commitCall num = n.commitCall num := by
  unfold Node.commitCall
  rw [h]

theorem commitCall_num {n : Node} {num : Str} {job : CommitJob} (h : n.commitCall num = some job) :
    job.num = num := by
  unfold Node.commitCall at h
  grind

/-- The jobs are calls of `commitHandler` on the log of `n`, which stays as it is. -/
structure OnLog (n : Node) (w : SectionWorld Node CommitJob CommitStage) : Prop where
  writer : w.state.writer = n.writer
  jobs : ∀ x ∈ w.sections, n.commitCall x.job.num = some x.job

theorem onLog_step {n : Node} {w : SectionWorld Node CommitJob CommitStage} (h : OnLog n w) (e : SectionEvent Str) :
    OnLog n (commits.step w e) := by
  rcases commits.step_cases w e with ⟨hstep, -⟩ | ⟨num, job, haccept, hstep, -⟩ | ⟨as, x, bs, hsplit, hstep, -⟩
  · rw [hstep]
    exact h
  · rw [hstep]
    have hcall : n.commitCall num = some job := (commitCall_of_writer h.writer num).symm.trans haccept
    refine ⟨h.writer, fun x hx => ?_⟩
    rcases List.mem_append.mp hx with hx | hx
    · exact h.jobs x hx
    · rw [List.mem_singleton.mp hx, commitCall_num hcall]
      exact hcall
  · rw [hstep]
    refine ⟨(writer_stepSection x w.state).trans h.writer, fun y hy => ?_⟩
    have hjobs : ∀ z ∈ as ++ x :: bs, n.commitCall z.job.num = some z.job := hsplit ▸ h.jobs
    rcases List.mem_append.mp hy with hy | hy
    · exact hjobs y (List.mem_append_left _ hy)
    rcases List.mem_cons.mp hy with rfl | hy
    · rw [Sections.stepSection_job]
      exact hjobs x (List.mem_append_right as List.mem_cons_self)
    · exact hjobs y (List.mem_append_right as (List.mem_cons_of_mem x hy))

/-- Commits one after the other, as jobs and as calls. -/
theorem foldl_effect {n : Node} {jobs : List CommitJob} (h : ∀ job ∈ jobs, n.commitCall job.num = some job) :
    jobs.foldl (fun n job => commits.effect job n) n = run Node.commitStep n (jobs.map CommitJob.num) := by
  induction jobs generalizing n with
  | nil => rfl
  | cons job jobs ih =>
    have hfirst : n.commitStep job.num = commits.effect job n := by
      unfold Node.commitStep
      rw [n.commitHandler_eq_effect, h job List.mem_cons_self]
    rw [List.foldl_cons, List.map_cons, run_cons, ← hfirst]
    apply ih
    intro later hlater
    have hwriter : (n.commitStep job.num).writer = n.writer := n.commitHandler_writer job.num
    rw [commitCall_of_writer hwriter]
    exact h later (List.mem_cons_of_mem job hlater)

/-- **Commits that do not overlap within a shard are serial.** Any number of calls of `commitHandler`, each of them
step by step and in any interleaving: if none begins to read a record file while another one is between reading it and
its own end, then when all calls are over the node is what the calls make of it one after the other, in the order in which
they have read their files, each of them once. -/
theorem commits_serial (n : Node) (es : List (SectionEvent Str))
    (hexcl : Along commits.Exclusive commits.step ⟨n, []⟩ es) (hquiet : (run commits.step ⟨n, []⟩ es).Quiet) :
    (run commits.step ⟨n, []⟩ es).state =
        run Node.commitStep n ((commits.begun ⟨n, []⟩ es).map CommitJob.num) ∧
      (Sections.started (run commits.step ⟨n, []⟩ es)).Perm (commits.begun ⟨n, []⟩ es) := by
  have hperm := Sections.begun_perm (S := commits) (w := ⟨n, []⟩) es
  have hlog : OnLog n (run commits.step ⟨n, []⟩ es) :=
    run_invariant ⟨rfl, fun x hx => absurd hx List.not_mem_nil⟩ fun w e h => onLog_step h e
  refine ⟨?_, hperm⟩
  rw [Sections.serial_of_exclusive commits_lawful (fun x hx => absurd hx List.not_mem_nil) hexcl hquiet]
  apply foldl_effect
  intro job hjob
  obtain ⟨x, hx, rfl⟩ := List.mem_map.mp (hperm.mem_iff.mpr hjob)
  exact hlog.jobs x (List.mem_filter.mp hx).1

omit [Unicode] in
/-- A node with the record file `a.txt` that has logged two updates of this shard and one of another. -/
def threeLogged : Node :=
  let n := aboutToCommit "ax.com,A,9.9.9.9\n".toList
  { n with writer := (n.writer.setLog ['2'] "ab.com,A,2.2.2.2".toList).setLog ['3'] "b.com,A,3.3.3.3".toList }

omit [Unicode] in
/-- The commits 1 and 3 of different shards take turns, and the commit 2 comes after them. -/
def takingTurns : List (SectionEvent Str) :=
  [.call ['1'], .call ['3'], .advance 0, .advance 1, .advance 1, .advance 0, .call ['2'], .advance 0, .advance 1,
    .advance 1, .advance 0, .advance 2, .advance 2, .advance 2, .advance 2]

omit [Unicode] in
theorem commits_serial_turns :
    (run (@commits Unicode.ascii).step ⟨threeLogged, []⟩ takingTurns).state =
        run (@Node.commitStep Unicode.ascii) threeLogged [['1'], ['3'], ['2']] ∧
      (run (@commits Unicode.ascii).step ⟨threeLogged, []⟩ takingTurns).state.disk.file ['a'] =
        some "ax.com,A,9.9.9.9\na.com,A,1.1.1.1\nab.com,A,2.2.2.2\n".toList := by
  have hserial := @commits_serial Unicode.ascii threeLogged takingTurns (by decide) (by decide)
  exact ⟨hserial.1, by decide⟩

omit [Unicode] in
/-- Both commits of the shard read before either writes: the update 1 is in memory and not in the file. -/
theorem not_commits_serial_overlapping :
    let w := run (@commits Unicode.ascii).step ⟨threeLogged, []⟩ [.call ['1'], .call ['2'], .advance 0, .advance 1,
      .advance 0, .advance 0, .advance 0, .advance 1, .advance 1, .advance 1]
    w.Quiet ∧ w.state.disk.file ['a'] = some "ax.com,A,9.9.9.9\nab.com,A,2.2.2.2\n".toList ∧
      w.state.states.records ("a.com".toList, ['A']) = some "1.1.1.1".toList := by
  decide

omit [Unicode] in
/-- The second commit reads while the first has the file open: the records that were in the file are gone. -/
theorem not_commits_serial_truncated :
    let w := run (@commits Unicode.ascii).step ⟨threeLogged, []⟩ [.call ['1'], .call ['2'], .advance 0, .advance 0,
      .advance 1, .advance 0, .advance 0, .advance 1, .advance 1, .advance 1]
    w.Quiet ∧ w.state.disk.file ['a'] = some "ab.com,A,2.2.2.2\n".toList := by
  decide

end DsDns
