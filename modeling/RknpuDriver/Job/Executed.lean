import RknpuDriver.Job.Coverage
import RknpuDriver.Job.Matching
import RknpuDriver.Job.Waited

/-! # What a submitter is told

A thread that submits without `RKNPU_JOB_NONBLOCK` is told that its job is done by the `0` that
`rknpu_submit` returns, any other one by the out-fence. `rknpu_job_done` writes `job->ret` without a
lock, also while the submitter is between the end of `rknpu_job_wait` and the read of `job->ret`.

* `Answered`: whoever is told, or is about to be told, is told of a job that is done.
* `Finished`: a core that was given up for a job has had the interrupts of all its batches.
* `submit_executed`: the tasks of a job whose submitter was told were in one batch each, and the
  interrupts of all these batches were counted.
-/

namespace RknpuDriver.Job
set_option autoImplicit false
open RknpuDriver.Lib

/-- The blocks that tell somebody that a job is done. -/
def answering (dev : Dev) : JobOp → Option ℕ
  | .setRet j | .fenceSignal j => some j
  | .waitRet j ret => if ret = 0 then some j else none
  | .blockRet j =>
    if (dev.jobs j).args.flags &&& rknpuJobPc ≠ 0 ∧ (dev.jobs j).ret = 0 then some j else none
  | _ => none

/-- The submitter of job `j` was told that it is done: `rknpu_submit` has waited for the job and
returned `0`, or the out-fence was signaled. -/
def Told (s : JobState) (j : ℕ) : Prop :=
  (.ret j 0 ∈ s.hist ∧ (s.dev.jobs j).args.flags &&& rknpuJobPc ≠ 0 ∧
      (s.dev.jobs j).args.flags &&& rknpuJobNonblock = 0) ∨
    ∃ n, .fenceSignal j n ∈ s.hist

structure Answered (s : JobState) : Prop where
  done : ∀ j, (s.dev.jobs j).done = true → .done j ∈ s.hist
  pending : ∀ op ∈ s.todo, ∀ j, answering s.dev op = some j → .done j ∈ s.hist
  nonblock : ∀ j, .nonblockRet j ∈ s.todo → (s.dev.jobs j).args.flags &&& rknpuJobNonblock ≠ 0
  returned : ∀ j, .ret j 0 ∈ s.hist → j < s.dev.numJobs
  told : ∀ j, Told s j → .done j ∈ s.hist

section
variable {cfg : Config} {dev : Dev} {o : Outcome} {op : JobOp} {eff : Effect} {j : ℕ}

theorem ret_zero (h : jobExec cfg dev o op = some eff) (hj : (eff.dev.jobs j).ret = 0) :
    (dev.jobs j).ret = 0 ∨ op = .setRet j ∨ op = .waitRet j 0 := by
  cases op <;> grind -ring -linarith -order [commitError]

theorem calls_answering (h : jobExec cfg dev o op = some eff) {x : JobOp} (hx : x ∈ eff.calls)
    (hj : answering eff.dev x = some j) :
    answering dev op = some j ∨ op = .setDone j ∨ (dev.jobs j).done = true := by
  cases op with
  | setRet k =>
    cases h
    rw [List.mem_singleton.mp hx] at hj
    exact Or.inl hj
  | _ => grind -ring -linarith -order [answering]

theorem events_ret_zero (h : jobExec cfg dev o op = some eff) (hj : .ret j 0 ∈ eff.events) :
    (op = .blockRet j ∨ op = .nonblockRet j) ∧ (dev.jobs j).ret = 0 := by
  cases op <;> grind -ring -linarith -order

/-- A block goes on to answer if it did before, unless it is one of a handler or of the wait. -/
theorem answering_kept (h : jobExec cfg dev o op = some eff) {x : JobOp}
    (hj : answering eff.dev x = some j) :
    answering dev x = some j ∨ op = .setRet j ∨ op = .waitRet j 0 := by
  cases x with
  | blockRet i =>
    simp only [answering, Option.ite_none_right_eq_some, Option.some.injEq] at hj ⊢
    obtain ⟨⟨hpc, hret⟩, rfl⟩ := hj
    rw [flags_eq h] at hpc
    obtain hret | hop := ret_zero h hret
    · exact Or.inl ⟨⟨hpc, hret⟩, rfl⟩
    · exact Or.inr hop
  | _ => exact Or.inl hj

end

section
variable {cfg : Config} {s t : JobState} {a : JobLabel} {o : Outcome} {op : JobOp} {eff : Effect}
  {others : Multiset JobOp} {j : ℕ}

theorem answering_of_zero (hop : op = .setRet j ∨ op = .waitRet j 0) :
    answering s.dev op = some j := by
  obtain rfl | rfl := hop <;> rfl

theorem Answered.exec (hn : Answered s) (hs : Placed cfg s) (hop : s.todo = op ::ₘ others)
    (heff : jobExec cfg s.dev o op = some eff) (hdev : t.dev = eff.dev)
    (htodo : t.todo = (eff.calls : Multiset JobOp) + others)
    (hhist : t.hist = s.hist ++ eff.events) : Answered t := by
  have hmem : op ∈ s.todo := by simp [hop]
  have hold : ∀ j, .done j ∈ s.hist → .done j ∈ t.hist := by
    intro j hj
    rw [hhist]
    exact List.mem_append_left _ hj
  have hset : ∀ j, op = .setDone j → .done j ∈ t.hist := by
    intro j hj
    rw [hhist]
    exact List.mem_append_right _ ((events_done heff).mpr hj)
  refine ⟨fun j hj => ?_, fun x hx j hj => ?_, fun j hj => ?_, fun j hj => ?_, fun j hj => ?_⟩
  · rw [hdev, done_eq heff, Bool.or_eq_true, decide_eq_true_eq] at hj
    exact hj.elim (fun hj => hold j (hn.done j hj)) (hset j)
  · rw [hdev] at hj
    rw [htodo, Multiset.mem_add] at hx
    obtain hx | hx := hx
    · obtain hop | hop | hdone := calls_answering heff (Multiset.mem_coe.mp hx) hj
      · exact hold j (hn.pending op hmem j hop)
      · exact hset j hop
      · exact hold j (hn.done j hdone)
    · obtain hj | hzero := answering_kept heff hj
      · exact hold j (hn.pending x (by simp [hop, hx]) j hj)
      · exact hold j (hn.pending op hmem j (answering_of_zero hzero))
  · rw [hdev, flags_eq heff]
    rw [htodo, Multiset.mem_add] at hj
    obtain hj | hj := hj
    · exact calls_nonblockRet heff (Multiset.mem_coe.mp hj)
    · exact hn.nonblock j (by simp [hop, hj])
  · rw [hdev, numJobs_eq heff]
    rw [hhist, List.mem_append] at hj
    obtain hj | hj := hj
    · exact hn.returned j hj
    · refine hs.submitted op hmem j (Or.inr ?_)
      obtain ⟨rfl | rfl, -⟩ := events_ret_zero heff hj <;> rfl
  · unfold Told at hj
    rw [hdev, flags_eq heff, hhist] at hj
    simp only [List.mem_append] at hj
    obtain ⟨hret | hret, hpc, hblock⟩ | ⟨n, hsignal | hsignal⟩ := hj
    · exact hold j (hn.told j (Or.inl ⟨hret, hpc, hblock⟩))
    · obtain ⟨rfl | rfl, hzero⟩ := events_ret_zero heff hret
      · exact hold j (hn.pending _ hmem j (if_pos ⟨hpc, hzero⟩))
      · exact absurd hblock (hn.nonblock j hmem)
    · exact hold j (hn.told j (Or.inr ⟨n, hsignal⟩))
    · obtain ⟨rfl, -⟩ := (events_fenceSignal heff).mp hsignal
      exact hold j (hn.pending _ hmem j rfl)

theorem Answered.submit (hn : Answered s) (hs : Placed cfg s) {args : Submit} {useDrmGem : Bool}
    (hdev : t.dev = s.dev.addJob (rknpuJobAlloc s.dev args useDrmGem))
    (htodo : t.todo = .fenceIn s.dev.numJobs ::ₘ s.todo)
    (hhist : t.hist = s.hist ++
      if useDrmGem ∧ args.taskObjAddr ≠ 0 then [.gemGet args.taskObjAddr] else []) :
    Answered t := by
  have hgets := OnlyGets.of_submit hhist
  have hjob : ∀ j < s.dev.numJobs, t.dev.jobs j = s.dev.jobs j := by
    intro j hj
    rw [hdev, Dev.addJob_jobs, if_neg (Nat.ne_of_lt hj)]
  refine ⟨fun j hj => ?_, fun x hx j hj => ?_, fun j hj => ?_, fun j hj => ?_, fun j hj => ?_⟩
  · rw [hgets.mem_iff (by simp)]
    rw [hdev, Dev.addJob_jobs] at hj
    split_ifs at hj
    · cases hj
    · exact hn.done j hj
  · rw [hgets.mem_iff (by simp)]
    rw [htodo, Multiset.mem_cons] at hx
    obtain rfl | hx := hx
    · cases hj
    · refine hn.pending x hx j ?_
      cases x with
      | blockRet i =>
        simp only [answering] at hj ⊢
        rw [hjob i (hs.submitted _ hx i (Or.inr rfl))] at hj
        exact hj
      | _ => exact hj
  · rw [htodo, Multiset.mem_cons] at hj
    obtain hj | hj := hj
    · cases hj
    · rw [hjob j (hs.submitted _ hj j (Or.inr rfl))]
      exact hn.nonblock j hj
  · rw [hgets.mem_iff (by simp)] at hj
    rw [hdev, Dev.addJob_numJobs]
    exact Nat.lt_succ_of_lt (hn.returned j hj)
  · rw [hgets.mem_iff (by simp)]
    refine hn.told j (hj.imp (fun ⟨hret, hflags⟩ => ?_) fun ⟨n, hsignal⟩ => ?_)
    · rw [hgets.mem_iff (by simp)] at hret
      rw [hjob j (hn.returned j hret)] at hflags
      exact ⟨hret, hflags⟩
    · rw [hgets.mem_iff (by simp)] at hsignal
      exact ⟨n, hsignal⟩

theorem Answered.spawn (hn : Answered s) (hm : Spawned s t) : Answered t := by
  obtain ⟨new, htodo, hnew⟩ := hm.todo
  refine ⟨fun j hj => ?_, fun x hx j hj => ?_, fun j hj => ?_, fun j hj => ?_, fun j hj => ?_⟩
  · rw [hm.jobs] at hj
    rw [hm.hist]
    exact hn.done j hj
  · rw [hm.hist]
    rw [htodo, Multiset.mem_add] at hx
    obtain hx | hx := hx
    · have hstart := hnew x hx
      cases x <;> first | exact hstart.elim | cases hj
    · refine hn.pending x hx j ?_
      cases x with
      | blockRet i =>
        simp only [answering] at hj ⊢
        rw [hm.jobs] at hj
        exact hj
      | _ => exact hj
  · rw [hm.jobs]
    exact hn.nonblock j ((hm.mem_todo hj).resolve_right id)
  · rw [hm.hist] at hj
    rw [hm.numJobs]
    exact hn.returned j hj
  · unfold Told at hj
    rw [hm.hist, hm.jobs] at hj
    rw [hm.hist]
    exact hn.told j hj

theorem Answered.step (hn : Answered s) (hs : Placed cfg s) (h : Stepped cfg s t a) :
    Answered t := by
  cases h.moved with
  | submit hmask hdev htodo hhist => exact hn.submit hs hdev htodo hhist
  | exec hnext heff hop hdev htodo hhist => exact hn.exec hs hop heff hdev htodo hhist
  | spawn hm => exact hn.spawn hm

theorem answered_init {now : ℕ} : Answered ⟨.probed now, [], []⟩ where
  done _ hj := (Bool.false_ne_true hj).elim
  pending _ hop := (Multiset.notMem_zero _ hop).elim
  nonblock _ hj := (Multiset.notMem_zero _ hj).elim
  returned _ hj := (List.not_mem_nil hj).elim
  told _ hj := hj.elim (fun h => (List.not_mem_nil h.1).elim) fun ⟨_, h⟩ =>
    (List.not_mem_nil h).elim

end

/-! ## Cores that were given up -/

/-- What holds in every state of a run in which an interrupt is that of a batch. -/
structure Finished (cfg : Config) (s : LineState) : Prop where
  answered : Answered s.job
  chained : ∀ j c, Chained cfg j c s.job
  complete : ∀ j c, s.cleared j c = true →
    completesOn j c s.job.hist = commitCount cfg (s.job.dev.jobs j) c

section
variable {cfg : Config} {s t : LineState} {a : LineLabel} {j c : ℕ}

theorem Worked.paired (hs : Worked cfg s) (j : ℕ) (a : JobLabel) :
    onBlock (fun _ _ => paired j s.job) s.job a = true := by
  cases a with
  | exec tid o =>
    cases hnext : nextBlock s.job.threads tid with
    | none => simp only [onBlock, hnext]
    | some next =>
      obtain ⟨op, rest⟩ := next
      rw [onBlock_exec hnext]
      cases op with
      | doneCount i c =>
        refine decide_eq_true fun hij => ?_
        subst hij
        have hcounted := hs.manned.counted i c
        have hpos := Multiset.count_pos.mpr (mem_pending_of_nextBlock hnext)
        rw [JobState.todo] at hcounted
        omega
      | _ => rfl
  | _ => rfl

/-- A core that is given up by a job has counted the last batch, and counts no other one. -/
theorem Finished.exec (hn : Finished cfg s) (hs : Lined cfg s) {o : Outcome} {op : JobOp}
    {eff : Effect} (hmem : op ∈ s.job.todo) (heff : jobExec cfg s.job.dev o op = some eff)
    (hdev : t.job.dev = eff.dev) (hhist : t.job.hist = s.job.hist ++ eff.events)
    (ht : t = s.ran cfg o op t.job) (hj : t.cleared j c = true) :
    completesOn j c t.job.hist = commitCount cfg (t.job.dev.jobs j) c := by
  have hcompletes : completesOn j c t.job.hist =
      completesOn j c s.job.hist + if op = .doneCount j c then 1 else 0 := by
    rw [hhist, completesOn_append, events_complete heff]
  have hsame : j ∈ enqueues s.job.hist →
      commitCount cfg (t.job.dev.jobs j) c = commitCount cfg (s.job.dev.jobs j) c := by
    intro hq
    rw [hdev]
    exact ((hs.known.sameTasks_exec hmem heff (Or.inl hq)).commits c).2
  obtain hold | rfl := (cleared_ran ht j c).mp hj
  · have hq := (hs.known.taken.popped c j (hs.cleared.popped j c hold)).1
    have hnot : op ≠ .doneCount j c := by
      rintro rfl
      rw [hs.cleared.ended _ hmem j c rfl rfl] at hold
      cases hold
    rw [hcompletes, if_neg hnot, hsame hq]
    exact hn.complete j c hold
  · have hq := (hs.known.taken.worked _ hmem j rfl).1
    rw [hcompletes, if_neg (by simp), hsame hq]
    exact (hn.chained j c).leaves hmem

theorem LineMoved.finished (h : LineMoved cfg s t a) (hcfg : cfg.Sound) (hs : Worked cfg s)
    (hn : Finished cfg s) : Finished cfg t := by
  have hk := hs.lined.known
  have hkept : ∀ {b : JobLabel}, Stepped cfg s.job t.job b →
      Answered t.job ∧ ∀ j c, Chained cfg j c t.job := by
    intro b hstep
    exact ⟨hn.answered.step hk.placed hstep,
      fun j c => (hn.chained j c).step hcfg hk hs.issued hstep (hs.paired j b)⟩
  cases h with
  | complete hexec ht =>
    rw [ht]
    exact ⟨hn.answered, hn.chained, hn.complete⟩
  | irq hstep hidle hdev hhist hthreads ht =>
    refine ⟨(hkept hstep).1, (hkept hstep).2, fun j c hj => ?_⟩
    rw [ht] at hj
    rw [hdev, hhist]
    exact hn.complete j c hj
  | exec hstep hnext hstatus heff hop hdev htodo hhist hthreads ht =>
    refine ⟨(hkept hstep).1, (hkept hstep).2, fun j c hj => ?_⟩
    exact hn.exec hs.lined (by simp [hop]) heff hdev hhist ht hj
  | submit hstep hmask hdev hhist hthreads ht =>
    refine ⟨(hkept hstep).1, (hkept hstep).2, fun j c hj => ?_⟩
    rw [ht] at hj
    have hq := (hk.taken.popped c j (hs.lined.cleared.popped j c hj)).1
    rw [(OnlyGets.of_submit hhist).completesOn, hdev, Dev.addJob_jobs,
      if_neg (Nat.ne_of_lt (hk.taken.past j hq).1)]
    exact hn.complete j c hj
  | spawn hstep hm hrunning hthreads ht =>
    refine ⟨(hkept hstep).1, (hkept hstep).2, fun j c hj => ?_⟩
    rw [ht] at hj
    rw [hm.hist, hm.jobs]
    exact hn.complete j c hj

theorem finished_run (hcfg : cfg.Sound) (hs : (matchingSystem cfg).Reachable s) :
    Finished cfg s := by
  suffices h : (matchingSystem cfg).Reachable s ∧ Finished cfg s from h.2
  refine hs.invariant (fun s => (matchingSystem cfg).Reachable s ∧ Finished cfg s) ?_ ?_
  · rintro s ⟨now, rfl⟩
    exact ⟨.init ⟨now, rfl⟩, answered_init, fun j c => chained_init,
      fun j c hj => (Bool.false_ne_true hj).elim⟩
  · intro s a t ⟨hs, hn⟩ h
    obtain ⟨-, hstep⟩ := System.guarded_step.mp h
    exact ⟨hs.step h, (line_moved hstep).finished hcfg (matching_run hcfg hs).1 hn⟩

/-- **What a submitter is told is so**: when it is told that its job is done, then on each core of
the job the batches are the slices of its task range, each task is in one of them, and the interrupt
of each was counted. -/
theorem submit_executed (hcfg : cfg ∈ rknpuConfigs) (hs : (matchingSystem cfg).Reachable s)
    (htold : Told s.job j) (hc : c ∈ coresOf cfg (s.job.dev.jobs j).args.coreMask)
    (hok : TasksOk cfg (s.job.dev.jobs j) c) :
    windowsOn j c s.job.hist = (List.range (batchCount cfg (s.job.dev.jobs j) c)).map
        (sliceWindow cfg (s.job.dev.jobs j) c) ∧
      completesOn j c s.job.hist = batchCount cfg (s.job.dev.jobs j) c ∧
      ∀ x : ℤ, (taskStart cfg (s.job.dev.jobs j) c ≤ x ∧ x < taskStart cfg (s.job.dev.jobs j) c +
          rknpuGetTaskNumber cfg (s.job.dev.jobs j) c) ↔
        ∃! k : ℕ, ∃ w : Window, (windowsOn j c s.job.hist)[k]? = some w ∧
          w.taskStart ≤ x ∧ x < w.taskStart + w.taskNumber := by
  obtain ⟨hw, -⟩ := matching_run (rknpuConfigs_sound hcfg) hs
  have hn := finished_run (rknpuConfigs_sound hcfg) hs
  have hmax := (rknpuConfigs_sound hcfg).maxSubmitNumber_pos
  have hcore : c < rknpuMaxCores :=
    (mem_coresOf.mp hc).1.trans_le (rknpuConfigs_sound hcfg).numIrqs_le
  obtain ⟨hq, hgone⟩ := hw.lined.cleared.of_done (Or.inl (hn.answered.told j htold))
  have hle := hok.le
  have hcount : commitCount cfg (s.job.dev.jobs j) c = _ := commitCount_eq hmax hok.pos (by omega)
  have hcomplete := hn.complete j c (hgone c hc)
  have hcounted := (hn.chained j c).counted
  have hbound := (hn.chained j c).bounded hq
  rw [hcount] at hcomplete hbound
  have hstarts : startsOn j c s.job.hist = batchCount cfg (s.job.dev.jobs j) c := by omega
  have hwindows : windowsOn j c s.job.hist =
      (List.range (batchCount cfg (s.job.dev.jobs j) c)).map
        (sliceWindow cfg (s.job.dev.jobs j) c) := by
    rw [(hn.chained j c).windows, hstarts]
    apply List.map_congr_left
    intro k hk
    exact commitWindow_eq hmax hcore hok (List.mem_range.mp hk)
  refine ⟨hwindows, hcomplete, fun x => ?_⟩
  rw [sliceWindow_cover hmax hok, hwindows]
  refine existsUnique_congr fun k => ?_
  rw [List.getElem?_map]
  constructor
  · rintro ⟨hk, hbegin, hend⟩
    rw [List.getElem?_range hk]
    exact ⟨_, rfl, hbegin, hend⟩
  · rintro ⟨w, hw, hbegin, hend⟩
    obtain ⟨i, hi, rfl⟩ := Option.map_eq_some_iff.mp hw
    obtain ⟨hk, rfl⟩ := List.getElem?_eq_some_iff.mp hi
    rw [List.length_range] at hk
    rw [List.getElem_range] at hbegin hend
    exact ⟨hk, hbegin, hend⟩

end

/-- A job of `5000` tasks, from task `7`, that its submitter waits for. -/
def waitedBatches : List LineLabel :=
  ((.submit { oneTask rknpuJobPc rknpuCore0Mask with subcoreTask := fun _ => ⟨7, 5000⟩ } false
      true :: List.replicate 13 (.exec 0 calm) : List JobLabel)).map .job ++
    .complete 0 :: (.irq 0 false :: List.replicate 4 (.exec 1 calm) : List JobLabel).map .job ++
    .complete 0 :: (.irq 0 false :: List.replicate 10 (.exec 2 calm) : List JobLabel).map .job ++
    (List.replicate 7 (.exec 0 calm) : List JobLabel).map .job

theorem submit_executed_two : ∃ s, (matchingSystem rk3588RknpuConfig).Reachable s ∧
    .ret 0 0 ∈ s.job.hist ∧ completesOn 0 0 s.job.hist = 2 ∧
    ∃! k : ℕ, ∃ w : Window, (windowsOn 0 0 s.job.hist)[k]? = some w ∧
      w.taskStart ≤ 5000 ∧ 5000 < w.taskStart + w.taskNumber := by
  obtain ⟨s, hs, h⟩ := System.Reachable.of_run_any (S := matchingSystem rk3588RknpuConfig)
    (p := fun s => decide ((.ret 0 0 ∈ s.job.hist ∧
        (s.job.dev.jobs 0).args.flags &&& rknpuJobPc ≠ 0 ∧
        (s.job.dev.jobs 0).args.flags &&& rknpuJobNonblock = 0) ∧
      0 ∈ coresOf rk3588RknpuConfig (s.job.dev.jobs 0).args.coreMask ∧
      (rknpuGetTaskNumber rk3588RknpuConfig (s.job.dev.jobs 0) 0 = 5000 ∧
        taskStart rk3588RknpuConfig (s.job.dev.jobs 0) 0 = 7) ∧
      batchCount rk3588RknpuConfig (s.job.dev.jobs 0) 0 = 2))
    (l := waitedBatches) ⟨1, rfl⟩ (by decide +kernel)
  obtain ⟨htold, hc, ⟨hnum, hstart⟩, hbatches⟩ := of_decide_eq_true h
  obtain ⟨-, hcompletes, hcover⟩ := submit_executed (by decide) hs (Or.inl htold) hc ⟨by
    rw [hnum]
    decide, by
    rw [hnum]
    decide, by
    rw [hnum, hstart]
    decide⟩
  refine ⟨s, hs, htold.1, hcompletes.trans hbatches, (hcover 5000).mp ?_⟩
  rw [hnum, hstart]
  decide

end RknpuDriver.Job
