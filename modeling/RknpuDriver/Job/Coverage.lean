import RknpuDriver.Job.CommitPc
import RknpuDriver.Job.Started
import RknpuDriver.Job.Underway

/-! # A job covers its tasks

The batches of a job on a core, in any run: the first is written by `rknpu_job_commit`, each other
one by the `rknpu_job_done` that counts the interrupt of the batch before. `chainSystem` takes the
runs in which `rknpu_job_done` counts an interrupt of the job on a core only when a batch was
written there and not counted yet.

* `windowsOn`: the batches that were written, in order.
* `Chained`: the invariant.
* `batches_cover`: the batches are the slices of the task range.
-/

namespace RknpuDriver.Job
set_option autoImplicit false
open RknpuDriver.Lib

/-- An interrupt of job `j` that is counted is that of a batch. -/
def paired (j : ℕ) (s : JobState) : JobOp → Bool
  | .doneCount i c => i = j → completesOn j c s.hist < startsOn j c s.hist
  | _ => true

def chainSystem (cfg : Config) (j : ℕ) : System JobState JobLabel :=
  (jobSystem cfg).guarded fun s a => onBlock (fun _ _ => paired j s) s a = true

/-- The batches of job `j` that were written to core `c`, in order. -/
def windowsOn (j c : ℕ) (hist : List Event) : List Window :=
  hist.filterMap fun
    | .start i d taskStart taskNumber =>
      if i = j ∧ d = c then some ⟨taskStart, taskNumber⟩ else none
    | _ => none

structure Chained (cfg : Config) (j c : ℕ) (s : JobState) : Prop where
  counted : completesOn j c s.hist ≤ startsOn j c s.hist
  begun : 0 < startsOn j c s.hist →
    .commit j ∈ s.hist ∧ c ∈ coresOf cfg (s.dev.jobs j).args.coreMask
  bounded : j ∈ enqueues s.hist → startsOn j c s.hist + s.todo.count (.subcoreCommit j c) ≤
    commitCount cfg (s.dev.jobs j) c
  windows : windowsOn j c s.hist =
    (List.range (startsOn j c s.hist)).map fun k : ℕ => commitWindow cfg (s.dev.jobs j) c k
  leaves : .doneClear j c ∈ s.todo → completesOn j c s.hist = commitCount cfg (s.dev.jobs j) c

section
variable {cfg : Config} {s t : JobState} {a : JobLabel} {dev : Dev} {o : Outcome} {op : JobOp}
  {eff : Effect} {others : Multiset JobOp} {j c : ℕ}

theorem windowsOn_append (hist evs : List Event) :
    windowsOn j c (hist ++ evs) = windowsOn j c hist ++ windowsOn j c evs :=
  List.filterMap_append

theorem events_windowsOn (h : jobExec cfg dev o op = some eff) (j c : ℕ) :
    windowsOn j c eff.events = if op = .subcoreCommit j c ∧
        (dev.jobs j).args.flags &&& rknpuJobPc ≠ 0 ∧ commitError cfg dev o (dev.jobs j) c = none
      then [⟨(batchWindow cfg (dev.jobs j) c).1, (batchWindow cfg (dev.jobs j) c).2⟩] else [] := by
  cases op <;> grind -ring -linarith -order [windowsOn]

theorem taskStart_eq (h : jobExec cfg dev o op = some eff) (j : ℕ) :
    (eff.dev.jobs j).args.taskStart = (dev.jobs j).args.taskStart := by
  cases op <;> grind -ring -linarith -order

/-- Two jobs that have the same tasks. -/
structure SameTasks (job job' : RknpuJob) : Prop where
  useCoreNum : job.useCoreNum = job'.useCoreNum
  taskStart : job.args.taskStart = job'.args.taskStart
  taskNumber : job.args.taskNumber = job'.args.taskNumber
  subcoreTask : job.args.subcoreTask = job'.args.subcoreTask

/-- Only the choice of a core changes the tasks of a job. -/
theorem sameTasks (h : jobExec cfg dev o op = some eff) (hauto : ∀ i c n, op ≠ .autoRead j i c n) :
    SameTasks (eff.dev.jobs j) (dev.jobs j) :=
  ⟨(cores_eq h hauto).2, taskStart_eq h j, (taskCounts_eq h j).1, (taskCounts_eq h j).2⟩

theorem SameTasks.commits {job job' : RknpuJob} (h : SameTasks job job') (c : ℕ) :
    commitWindow cfg job c = commitWindow cfg job' c ∧
      commitCount cfg job c = commitCount cfg job' c := by
  obtain ⟨hcores, hstart, hnum, htask⟩ := h
  constructor
  · funext k
    unfold commitWindow commitTasks
    rw [hcores, hstart, hnum, htask]
  · unfold commitCount batches rknpuGetTaskNumber Job.taskNumber
    rw [hcores, hnum, htask]

/-! ## What a block keeps -/

theorem Chained.startsOn_of_unqueued (hn : Chained cfg j c s) (hk : Known cfg s)
    (hj : j ∉ enqueues s.hist) : startsOn j c s.hist = 0 := by
  by_contra hpos
  exact hj (hk.queued_of_commit (hn.begun (Nat.pos_of_ne_zero hpos)).1)

theorem Known.sameTasks_exec (hk : Known cfg s) (hmem : op ∈ s.todo)
    (heff : jobExec cfg s.dev o op = some eff) (hj : j ∈ enqueues s.hist ∨ op = .enqueue j) :
    SameTasks (eff.dev.jobs j) (s.dev.jobs j) := by
  refine sameTasks heff ?_
  rintro i d n rfl
  obtain hj | hj := hj
  · exact (hk.taken.past j hj).2 _ hmem rfl
  · cases hj

/-- A batch is committed when all the others before it are counted. -/
theorem Chained.completesOn_eq (hn : Chained cfg j c s) (hk : Known cfg s) (hi : Issued s)
    (hmem : .subcoreCommit j c ∈ s.todo) :
    .commit j ∈ s.hist ∧ completesOn j c s.hist = startsOn j c s.hist := by
  have hissued := hi.issued j c
  have hcount := hn.counted
  have hone := hk.countdown.commit_le_one (j := j)
  have hpos := Multiset.count_pos.mpr hmem
  exact ⟨List.count_pos_iff.mp (by omega), by omega⟩

/-- The next batch has the number of those that were written. -/
theorem Chained.submitCount_eq (hn : Chained cfg j c s) (hk : Known cfg s) (hi : Issued s)
    (hmem : .subcoreCommit j c ∈ s.todo) :
    (s.dev.jobs j).submitCount c = startsOn j c s.hist ∧
      startsOn j c s.hist < commitCount cfg (s.dev.jobs j) c := by
  have hbound := hn.bounded (hk.taken.worked _ hmem j rfl).1
  have hpos := Multiset.count_pos.mpr hmem
  rw [(hi.submitted j c).1, (hn.completesOn_eq hk hi hmem).2]
  exact ⟨rfl, by omega⟩

theorem Chained.bounded_exec (hn : Chained cfg j c s) (hk : Known cfg s) (hi : Issued s)
    (hop : s.todo = op ::ₘ others) (heff : jobExec cfg s.dev o op = some eff)
    (htodo : t.todo = (eff.calls : Multiset JobOp) + others)
    (hhist : t.hist = s.hist ++ eff.events) (hq : j ∈ enqueues s.hist) :
    startsOn j c t.hist + t.todo.count (.subcoreCommit j c) ≤ commitCount cfg (s.dev.jobs j) c := by
  have hmem : op ∈ s.todo := by simp [hop]
  have hold := hn.bounded hq
  have hissued := hi.issued j c
  have hcount := hn.counted
  have hone := hk.countdown.commit_le_one (j := j)
  have hcalls := calls_issued heff j c
  have hstart := events_startsOn_le heff j c
  have hpend := count_exec hop htodo (.subcoreCommit j c)
  have hleast : 1 ≤ commitCount cfg (s.dev.jobs j) c := Nat.le_max_left _ _
  rw [hhist, startsOn_append]
  by_cases hcall : eff.calls.count (.subcoreCommit j c) = 0
  · omega
  · obtain ⟨rfl, -⟩ | ⟨rfl, hmore⟩ :=
      calls_subcoreCommit heff (List.count_pos_iff.mp (Nat.pos_of_ne_zero hcall))
    · simp only [if_true, if_false, reduceCtorEq] at hcalls hstart hpend
      have hcommit := Multiset.count_pos.mpr hmem
      have hzero : startsOn j c s.hist = 0 := by
        by_contra hpos
        have hin := List.count_pos_iff.mpr (hn.begun (Nat.pos_of_ne_zero hpos)).1
        omega
      omega
    · simp only [if_true, if_false, reduceCtorEq] at hcalls hstart hpend
      rw [(hi.submitted j c).1] at hmore
      unfold commitCount at hold hleast ⊢
      omega

theorem Chained.windows_exec (hn : Chained cfg j c s) (hcfg : cfg.Sound) (hk : Known cfg s)
    (hi : Issued s) (hmem : op ∈ s.todo) (heff : jobExec cfg s.dev o op = some eff)
    (hhist : t.hist = s.hist ++ eff.events)
    (hwindow : j ∈ enqueues s.hist →
      commitWindow cfg (t.dev.jobs j) c = commitWindow cfg (s.dev.jobs j) c) :
    windowsOn j c t.hist =
      (List.range (startsOn j c t.hist)).map fun k : ℕ => commitWindow cfg (t.dev.jobs j) c k := by
  rw [hhist, windowsOn_append, startsOn_append, events_windowsOn heff, events_startsOn heff,
    hn.windows]
  split_ifs with hstart
  · obtain ⟨rfl, -⟩ := hstart
    have hc := hk.taken.core _ hmem j c rfl
    have hcore : c < rknpuMaxCores := (mem_coresOf.mp hc).1.trans_le hcfg.numIrqs_le
    rw [hwindow (hk.taken.worked _ hmem j rfl).1, List.range_succ, List.map_append,
      List.map_singleton, commitWindow_eq_batchWindow hcore, (hn.submitCount_eq hk hi hmem).1]
  · rw [List.append_nil, Nat.add_zero]
    by_cases hj : j ∈ enqueues s.hist
    · rw [hwindow hj]
    · rw [hn.startsOn_of_unqueued hk hj, List.range_zero, List.map_nil, List.map_nil]

theorem Chained.exec (hn : Chained cfg j c s) (hcfg : cfg.Sound) (hk : Known cfg s)
    (hi : Issued s) (h : Stepped cfg s t a) (hop : s.todo = op ::ₘ others)
    (heff : jobExec cfg s.dev o op = some eff) (hdev : t.dev = eff.dev)
    (htodo : t.todo = (eff.calls : Multiset JobOp) + others)
    (hhist : t.hist = s.hist ++ eff.events) (hok : paired j s op = true) :
    Chained cfg j c t := by
  have hmem : op ∈ s.todo := by simp [hop]
  have hstarts : startsOn j c t.hist = startsOn j c s.hist + startsOn j c eff.events := by
    rw [hhist, startsOn_append]
  have hcompletes : completesOn j c t.hist =
      completesOn j c s.hist + if op = .doneCount j c then 1 else 0 := by
    rw [hhist, completesOn_append, events_complete heff]
  have hpaired : op = .doneCount j c → completesOn j c s.hist < startsOn j c s.hist := by
    rintro rfl
    exact of_decide_eq_true hok rfl
  have hsame : j ∈ enqueues s.hist ∨ op = .enqueue j →
      commitWindow cfg (t.dev.jobs j) c = commitWindow cfg (s.dev.jobs j) c ∧
        commitCount cfg (t.dev.jobs j) c = commitCount cfg (s.dev.jobs j) c := by
    intro hj
    rw [hdev]
    exact (hk.sameTasks_exec hmem heff hj).commits c
  refine ⟨?_, fun hpos => ?_, fun hj => ?_, ?_, fun hj => ?_⟩
  · have hcount := hn.counted
    rw [hcompletes, hstarts]
    split_ifs with hdone
    · have hlt := hpaired hdone
      omega
    · omega
  · have hold : .commit j ∈ s.hist ∧ c ∈ coresOf cfg (s.dev.jobs j).args.coreMask := by
      rw [hstarts, events_startsOn heff] at hpos
      split_ifs at hpos with hstart
      · obtain ⟨rfl, -⟩ := hstart
        exact ⟨(hn.completesOn_eq hk hi hmem).1, hk.taken.core _ hmem j c rfl⟩
      · exact hn.begun hpos
    rw [hhist, ((hk.taken.past j (hk.queued_of_commit hold.1)).stepped h).2]
    exact ⟨List.mem_append_left _ hold.1, hold.2⟩
  · rw [hhist, enqueues_append, List.mem_append, events_enqueue heff] at hj
    rw [(hsame hj).2]
    by_cases hq : j ∈ enqueues s.hist
    · exact hn.bounded_exec hk hi hop heff htodo hhist hq
    · obtain rfl := hj.resolve_left hq
      have hzero := hn.startsOn_of_unqueued hk hq
      have hnone : .subcoreCommit j c ∉ t.todo := by
        intro hx
        rw [htodo, Multiset.mem_add] at hx
        obtain hx | hx := hx
        · obtain ⟨hcon, -⟩ | ⟨hcon, -⟩ := calls_subcoreCommit heff (Multiset.mem_coe.mp hx)
          · cases hcon
          · cases hcon
        · have hold : .subcoreCommit j c ∈ s.todo := by simp [hop, hx]
          exact hq (hk.taken.worked _ hold j rfl).1
      rw [hstarts, hzero, events_startsOn heff, if_neg (by simp), Multiset.count_eq_zero.mpr hnone]
      exact Nat.zero_le _
  · exact hn.windows_exec hcfg hk hi hmem heff hhist fun hj => (hsame (Or.inl hj)).1
  · rw [htodo, Multiset.mem_add] at hj
    rw [hcompletes]
    obtain hj | hj := hj
    · obtain ⟨rfl, hlast⟩ := calls_doneClear heff (Multiset.mem_coe.mp hj)
      have hq := (hk.taken.worked _ hmem j rfl).1
      have hbound := hn.bounded hq
      have hlt := hpaired rfl
      rw [(hi.submitted j c).1] at hlast
      rw [(hsame (Or.inl hq)).2, if_pos rfl]
      unfold commitCount at hbound ⊢
      omega
    · have hx : .doneClear j c ∈ s.todo := by simp [hop, hj]
      have hq := (hk.taken.worked _ hx j rfl).1
      have hall := hn.leaves hx
      have hbound := hn.bounded hq
      rw [(hsame (Or.inl hq)).2]
      split_ifs with hdone
      · have hlt := hpaired hdone
        omega
      · exact hall

theorem Chained.submit (hn : Chained cfg j c s) (hk : Known cfg s) {args : Submit}
    {useDrmGem : Bool} (hdev : t.dev = s.dev.addJob (rknpuJobAlloc s.dev args useDrmGem))
    (htodo : t.todo = .fenceIn s.dev.numJobs ::ₘ s.todo)
    (hhist : t.hist = s.hist ++
      if useDrmGem ∧ args.taskObjAddr ≠ 0 then [.gemGet args.taskObjAddr] else []) :
    Chained cfg j c t := by
  have hgets := OnlyGets.of_submit hhist
  have hwindows : windowsOn j c t.hist = windowsOn j c s.hist := hgets.filterMap _ fun _ => rfl
  have hjob : j ∈ enqueues s.hist → t.dev.jobs j = s.dev.jobs j := by
    intro hj
    rw [hdev, Dev.addJob_jobs, if_neg (Nat.ne_of_lt (hk.taken.past j hj).1)]
  refine ⟨?_, fun hpos => ?_, fun hj => ?_, ?_, fun hj => ?_⟩
  · rw [hgets.completesOn, hgets.startsOn]
    exact hn.counted
  · rw [hgets.startsOn] at hpos
    obtain ⟨hcommit, hc⟩ := hn.begun hpos
    rw [hgets.mem_iff (by simp), hjob (hk.queued_of_commit hcommit)]
    exact ⟨hcommit, hc⟩
  · rw [hgets.enqueues] at hj
    rw [hjob hj, hgets.startsOn, htodo, Multiset.count_cons_of_ne (by simp)]
    exact hn.bounded hj
  · rw [hwindows, hgets.startsOn, hn.windows]
    by_cases hj : j ∈ enqueues s.hist
    · rw [hjob hj]
    · rw [hn.startsOn_of_unqueued hk hj, List.range_zero, List.map_nil, List.map_nil]
  · rw [htodo, Multiset.mem_cons] at hj
    obtain hj | hj := hj
    · cases hj
    · rw [hjob (hk.taken.worked _ hj j rfl).1, hgets.completesOn]
      exact hn.leaves hj

theorem Chained.spawn (hn : Chained cfg j c s) (hm : Spawned s t) : Chained cfg j c t := by
  obtain ⟨new, htodo, hnew⟩ := hm.todo
  refine ⟨?_, ?_, fun hj => ?_, ?_, fun hj => ?_⟩
  · rw [hm.hist]
    exact hn.counted
  · rw [hm.hist, hm.jobs]
    exact hn.begun
  · have hnone : .subcoreCommit j c ∉ new := fun hx => hnew _ hx
    rw [hm.hist] at hj ⊢
    rw [hm.jobs, htodo, Multiset.count_add, Multiset.count_eq_zero.mpr hnone, zero_add]
    exact hn.bounded hj
  · rw [hm.hist, hm.jobs]
    exact hn.windows
  · rw [hm.hist, hm.jobs]
    exact hn.leaves ((hm.mem_todo hj).resolve_right id)

theorem Chained.step (hn : Chained cfg j c s) (hcfg : cfg.Sound) (hk : Known cfg s)
    (hi : Issued s) (h : Stepped cfg s t a)
    (hok : onBlock (fun _ _ => paired j s) s a = true) : Chained cfg j c t := by
  cases h.moved with
  | submit hmask hdev htodo hhist => exact hn.submit hk hdev htodo hhist
  | exec hnext heff hop hdev htodo hhist =>
    exact hn.exec hcfg hk hi h hop heff hdev htodo hhist
      ((onBlock_exec hnext).symm.trans hok)
  | spawn hm => exact hn.spawn hm

theorem chained_init {now : ℕ} : Chained cfg j c ⟨.probed now, [], []⟩ where
  counted := Nat.le_refl 0
  begun hpos := (Nat.lt_irrefl 0 hpos).elim
  bounded hj := (List.not_mem_nil hj).elim
  windows := rfl
  leaves hj := (Multiset.notMem_zero _ hj).elim

theorem chained_run (hcfg : cfg.Sound) (hs : (chainSystem cfg j).Reachable s) :
    Known cfg s ∧ Issued s ∧ ∀ c, Chained cfg j c s := by
  refine hs.invariant (fun s => Known cfg s ∧ Issued s ∧ ∀ c, Chained cfg j c s) ?_ ?_
  · rintro s ⟨now, rfl⟩
    exact ⟨known_init, issued_init, fun c => chained_init⟩
  · rintro s a t ⟨hk, hi, hn⟩ h
    obtain ⟨hok, h⟩ := System.guarded_step.mp h
    exact ⟨hk.step hcfg (stepped h), hi.step hk (stepped h),
      fun c => (hn c).step hcfg hk hi (stepped h) hok⟩

/-! ## The batches of a job -/

theorem pcWrites_taskControl (pc : PcConfig) (taskBase : ℤ → RknpuTask) (taskBaseAddr : UInt64)
    (job : RknpuJob) (c : ℕ) :
    (pcWrites pc taskBase taskBaseAddr job c).filter (fun w => w.1 = rknpuOffsetPcTaskControl) =
      [(rknpuOffsetPcTaskControl, pcTaskControl pc job.args.flags
        (commitWindow pc.toConfig job c (job.submitCount c)).taskNumber)] := by
  unfold pcWrites
  split_ifs <;> rfl

theorem tasks_of_commit (hc : c < rknpuMaxCores)
    (h : jobExec cfg dev o (.subcoreCommit j c) = some eff) (hstart : startsOn j c eff.events = 1) :
    (eff.dev.jobs j).firstTask =
        some (commitWindow cfg (dev.jobs j) c ((dev.jobs j).submitCount c)).taskStart ∧
      (eff.dev.jobs j).lastTask =
        some (commitWindow cfg (dev.jobs j) c ((dev.jobs j).submitCount c)).taskEnd := by
  have hwindow : batchWindow cfg (dev.jobs j) c = _ := commitWindow_eq_batchWindow hc
  rw [events_startsOn h] at hstart
  split_ifs at hstart with hok
  obtain ⟨-, hpc, herr⟩ := hok
  cases h
  simp only [rknpuJobSubcoreCommit, if_neg hpc, herr, hwindow]
  exact ⟨by simp, by simp [Window.taskEnd]⟩

/-- How a job uses a core, in a state of a run: the batches that were written are the first slices
of its tasks. -/
structure Covered (pc : PcConfig) (j c : ℕ) (s : JobState) : Prop where
  windows : windowsOn j c s.hist = (List.range (startsOn j c s.hist)).map
    (sliceWindow pc.toConfig (s.dev.jobs j) c)
  startsOn_le : startsOn j c s.hist ≤ batchCount pc.toConfig (s.dev.jobs j) c
  number : ∀ k < batchCount pc.toConfig (s.dev.jobs j) c,
    1 ≤ (sliceWindow pc.toConfig (s.dev.jobs j) c k).taskNumber ∧
      (sliceWindow pc.toConfig (s.dev.jobs j) c k).taskNumber ≤ pc.maxSubmitNumber
  next : ∀ k, k + 1 < batchCount pc.toConfig (s.dev.jobs j) c →
    (sliceWindow pc.toConfig (s.dev.jobs j) c (k + 1)).taskStart =
      (sliceWindow pc.toConfig (s.dev.jobs j) c k).taskStart +
        (sliceWindow pc.toConfig (s.dev.jobs j) c k).taskNumber
  /-- Every task of the job is in one slice, and no other task is. -/
  cover : ∀ x : ℤ, (taskStart pc.toConfig (s.dev.jobs j) c ≤ x ∧
      x < taskStart pc.toConfig (s.dev.jobs j) c +
        rknpuGetTaskNumber pc.toConfig (s.dev.jobs j) c) ↔
    ∃! k, k < batchCount pc.toConfig (s.dev.jobs j) c ∧
      (sliceWindow pc.toConfig (s.dev.jobs j) c k).taskStart ≤ x ∧
      x < (sliceWindow pc.toConfig (s.dev.jobs j) c k).taskStart +
        (sliceWindow pc.toConfig (s.dev.jobs j) c k).taskNumber
  /-- The next batch is the next slice, from `first_task` to `last_task`. -/
  commit : ∀ o eff, .subcoreCommit j c ∈ s.todo →
    jobExec pc.toConfig s.dev o (.subcoreCommit j c) = some eff → startsOn j c eff.events = 1 →
      (eff.dev.jobs j).firstTask =
        some (sliceWindow pc.toConfig (s.dev.jobs j) c (startsOn j c s.hist)).taskStart ∧
      (eff.dev.jobs j).lastTask =
        some ((sliceWindow pc.toConfig (s.dev.jobs j) c (startsOn j c s.hist)).taskStart +
          (sliceWindow pc.toConfig (s.dev.jobs j) c (startsOn j c s.hist)).taskNumber - 1)
  /-- Its value of `PC_TASK_CONTROL` is the mode above the count. -/
  control : .subcoreCommit j c ∈ s.todo → ∀ taskBase taskBaseAddr, ∃ v,
    (pcWrites pc taskBase taskBaseAddr (s.dev.jobs j) c).filter
        (fun w => w.1 = rknpuOffsetPcTaskControl) = [(rknpuOffsetPcTaskControl, v)] ∧
      v.toNat / 2 ^ pc.pcTaskNumberBits = pcMode (s.dev.jobs j).args.flags ∧
      (v.toNat % 2 ^ pc.pcTaskNumberBits : ℕ) =
        (sliceWindow pc.toConfig (s.dev.jobs j) c (startsOn j c s.hist)).taskNumber
  /-- The interrupt of the last batch ends the job on the core, each other one starts a batch. -/
  done : ∀ o eff, .doneCount j c ∈ s.todo → completesOn j c s.hist < startsOn j c s.hist →
    jobExec pc.toConfig s.dev o (.doneCount j c) = some eff →
      eff.calls = if completesOn j c s.hist + 1 = batchCount pc.toConfig (s.dev.jobs j) c
        then [.doneClear j c] else [.subcoreCommit j c]
  leaves : .doneClear j c ∈ s.todo →
    startsOn j c s.hist = batchCount pc.toConfig (s.dev.jobs j) c ∧
      completesOn j c s.hist = batchCount pc.toConfig (s.dev.jobs j) c

/-- **A job covers its tasks**: on each core of a queued job the batches are the slices of its task
range, and the job leaves the core with the interrupt of the last of them. -/
theorem batches_cover {pc : PcConfig} (hpc : pc.Sound)
    (hs : (chainSystem pc.toConfig j).Reachable s) (hj : j ∈ enqueues s.hist)
    (hc : c ∈ coresOf pc.toConfig (s.dev.jobs j).args.coreMask)
    (hok : TasksOk pc.toConfig (s.dev.jobs j) c) : Covered pc j c s := by
  obtain ⟨hk, hi, hn⟩ := chained_run hpc.config hs
  have hn := hn c
  have hmax := hpc.config.maxSubmitNumber_pos
  have hcore : c < rknpuMaxCores := (mem_coresOf.mp hc).1.trans_le hpc.config.numIrqs_le
  have hle := hok.le
  have hcount : commitCount pc.toConfig (s.dev.jobs j) c = _ :=
    commitCount_eq hmax hok.pos (by omega)
  have hbound := hn.bounded hj
  rw [hcount] at hbound
  have hwindow : .subcoreCommit j c ∈ s.todo →
      startsOn j c s.hist < batchCount pc.toConfig (s.dev.jobs j) c ∧
        commitWindow pc.toConfig (s.dev.jobs j) c ((s.dev.jobs j).submitCount c) =
          sliceWindow pc.toConfig (s.dev.jobs j) c (startsOn j c s.hist) := by
    intro hmem
    obtain ⟨hindex, hlt⟩ := hn.submitCount_eq hk hi hmem
    rw [hcount] at hlt
    rw [hindex]
    exact ⟨hlt, commitWindow_eq hmax hcore hok hlt⟩
  refine ⟨?_, by omega, fun k hk => sliceWindow_taskNumber hmax hk,
    fun k hk => sliceWindow_succ hmax hk, sliceWindow_cover hmax hok, ?_, ?_, ?_, fun hleave => ?_⟩
  · rw [hn.windows]
    apply List.map_congr_left
    intro k hstart
    have hlt := List.mem_range.mp hstart
    exact commitWindow_eq hmax hcore hok (by omega)
  · intro o eff hmem heff hstart
    obtain ⟨hlt, hwindow⟩ := hwindow hmem
    obtain ⟨hfirst, hlast⟩ := tasks_of_commit hcore heff hstart
    rw [hwindow] at hfirst hlast
    rw [sliceWindow_taskEnd hmax hok hlt] at hlast
    exact ⟨hfirst, hlast⟩
  · intro hmem taskBase taskBaseAddr
    obtain ⟨hlt, hwindow⟩ := hwindow hmem
    obtain ⟨hone, hle⟩ := sliceWindow_taskNumber hmax hlt
    refine ⟨_, pcWrites_taskControl pc taskBase taskBaseAddr _ c, ?_⟩
    rw [hwindow]
    exact pcTaskControl_decode hpc (by omega) hle
  · intro o eff hmem hlt heff
    have hbatches : batches pc.toConfig (s.dev.jobs j) c = _ :=
      batches_eq hmax hok.pos (by omega)
    cases heff
    simp only [rknpuJobDone]
    rw [(hi.submitted j c).1, hbatches]
    split_ifs <;> first | rfl | omega
  · have hall := hn.leaves hleave
    have hcounted := hn.counted
    omega

end

/-- A job of `5000` tasks, from task `7`, whose second batch was counted. -/
def twoBatches : List JobLabel :=
  .submit { oneTask rknpuJobPc rknpuCore0Mask with subcoreTask := fun _ => ⟨7, 5000⟩ } false true ::
    List.replicate 13 (.exec 0 calm) ++ .irq 0 true :: List.replicate 4 (.exec 1 calm) ++
      .irq 0 true :: List.replicate 3 (.exec 2 calm)

theorem batches_cover_two : ∃ s, (chainSystem rk3588PcConfig.toConfig 0).Reachable s ∧
    .doneClear 0 0 ∈ s.todo ∧ windowsOn 0 0 s.hist = [⟨7, 4095⟩, ⟨4102, 905⟩] ∧
    Covered rk3588PcConfig 0 0 s := by
  obtain ⟨s, hs, h⟩ := System.Reachable.of_run_any (S := chainSystem rk3588PcConfig.toConfig 0)
    (p := fun s => decide (0 ∈ enqueues s.hist ∧
      0 ∈ coresOf rk3588PcConfig.toConfig (s.dev.jobs 0).args.coreMask ∧
      (rknpuGetTaskNumber rk3588PcConfig.toConfig (s.dev.jobs 0) 0 = 5000 ∧
        taskStart rk3588PcConfig.toConfig (s.dev.jobs 0) 0 = 7) ∧
      .doneClear 0 0 ∈ s.threads.flatten ∧ windowsOn 0 0 s.hist = [⟨7, 4095⟩, ⟨4102, 905⟩]))
    (l := twoBatches) ⟨1, rfl⟩ (by decide +kernel)
  obtain ⟨hj, hc, ⟨hnum, hstart⟩, hclear, hwindows⟩ := of_decide_eq_true h
  refine ⟨s, hs, Multiset.mem_coe.mpr hclear, hwindows,
    batches_cover (pcConfigs_sound (by decide)) hs hj hc ⟨?_, ?_, ?_⟩⟩
  · rw [hnum]
    decide
  · rw [hnum]
    decide
  · rw [hnum, hstart]
    decide

end RknpuDriver.Job
