import RknpuDriver.Job.Runs
import Mathlib.Algebra.BigOperators.Group.List.Basic
import Mathlib.Tactic.SplitIfs

/-! # What a block can do

For each part of the device, which blocks change it; and which blocks a block calls for. The
blocks are only unfolded here: the proofs about runs use these lemmas.

* `before`, `after`: the blocks of `rknpu_submit` before a job is queued, and from the queuing
  on. Together they say where the submitter of a job is.
* `helper`: the blocks in which other threads work on a job.
-/

namespace RknpuDriver.Job
set_option autoImplicit false
open RknpuDriver.Lib

def before : JobOp → Option ℕ
  | .fenceIn j | .fenceOut j | .fenceInit j _ | .dispatch j | .schedule j | .autoRead j _ _ _
  | .domainGet j | .enqueue j => some j
  | _ => none

def after : JobOp → Option ℕ
  | .scanMask j _ | .nonblockRet j | .blockRet j | .waitEvent j _ | .waitCheck j _
  | .waitLast j _ | .waitRemove j _ | .waitEnd j _ | .waitRet j _ | .abortClear j
  | .abortReport j | .free j => some j
  | _ => none

def helper : JobOp → Option ℕ
  | .decRunCount j | .commit j | .subcoreCommit j _ | .irqStatus j _ | .doneCount j _
  | .doneClear j _ | .doneDec j | .setDone j | .setRet j | .fenceSignal j | .asyncWork j
  | .timeoutCheck _ _ j | .timeoutClear _ j | .timeoutWork _ j | .cleanupWork j => some j
  | _ => none

/-- The blocks that only run when all cores of a job have taken it, unless an interrupt was
accepted too early. -/
def committing : JobOp → Option ℕ
  | .commit j | .subcoreCommit j _ | .doneCount j _ => some j
  | _ => none

/-- The blocks of `rknpu_submit` between the last look at the lists and the end. -/
def leaving : JobOp → Option ℕ
  | .waitEnd j _ | .waitRet j _ | .abortClear j | .abortReport j | .free j => some j
  | _ => none

/-- The blocks of `rknpu_job_next`, `rknpu_job_commit`, `rknpu_irq_handler` and
`rknpu_job_done`, and of the loop that `rknpu_job_schedule` ends with. -/
def scheduling : JobOp → Bool
  | .scanMask _ _ | .next _ | .pop _ | .decRunCount _ | .commit _ | .subcoreCommit _ _
  | .irqEntry _ | .irqStatus _ _ | .doneCount _ _ | .doneClear _ _ | .doneDec _
  | .setDone _ => true
  | _ => false

/-- The blocks that change no list, no current job, no counter and no batch. -/
def unseen : JobOp → Bool
  | .autoRead _ _ _ _ | .enqueue _ | .pop _ | .decRunCount _ | .commit _ | .subcoreCommit _ _
  | .doneCount _ _ | .doneClear _ _ | .doneDec _ | .setDone _ | .abortClear _ | .waitRemove _ _
  | .timeoutClear _ _ | .timeoutNext _ | .resetDeassert => false
  | _ => true

/-- The blocks of `rknpu_submit` in which a thread that submits without `RKNPU_JOB_NONBLOCK`
waits for its job. -/
def blocking : JobOp → Option ℕ
  | .blockRet j | .waitEvent j _ | .waitCheck j _ | .waitLast j _ | .waitRemove j _ | .waitEnd j _
  | .waitRet j _ => some j
  | _ => none

/-- One for a block that a job comes to after it is done, up to its end in the cleanup work. -/
def finishing (j : ℕ) : JobOp → ℕ
  | .setRet i | .fenceSignal i | .asyncWork i | .cleanupWork i => if i = j then 1 else 0
  | _ => 0

/-- One for a block of the submitter of `j`. -/
def submitter (j : ℕ) (op : JobOp) : ℕ :=
  if before op = some j ∨ after op = some j then 1 else 0

section
variable {cfg : Config} {dev : Dev} {o : Outcome} {op : JobOp} {eff : Effect}

attribute [grind =] Effect.goto submitFenceIn submitFenceOut rknpuFenceAlloc submitDispatch
  submitScheduled rknpuJobAbort submitNonblockRet submitBlockRet rknpuJobTimeoutClean
  timeoutCleanCheck timeoutCleanClear timeoutCleanWork timeoutCleanNext Dev.scheduleWork
  rknpuJobSchedule rknpuScheduleCoreIndex scheduleDomainGet scheduleEnqueue scheduleScanMask
  rknpuJobWait waitContinue waitLastTask waitRemoveLoop waitResult submitWaitRet rknpuJobNext
  jobNextPop jobNextDec rknpuJobCommit rknpuJobSubcoreCommit rknpuIrqHandler irqHandlerStatus
  rknpuJobDone jobDoneClear jobDoneDec jobSetDone jobSetRet jobFenceSignal jobAsyncWork
  jobAbortClear jobAbortReport rknpuJobFree softResetDeassert hrtimerTick jobExec

attribute [grind =] Dev.modifyJob_jobs Dev.modifyJob_numJobs Dev.modifyJob_freed
  Dev.modifyJob_subcoreDatas Dev.modifyJob_base Dev.modifyJob_softReseting Dev.modifyJob_works
  Dev.modifyJob_running Dev.modifyCore_jobs Dev.modifyCore_numJobs Dev.modifyCore_freed
  Dev.modifyCore_subcoreDatas Dev.modifyCore_base Dev.modifyCore_softReseting
  Dev.modifyCore_works Dev.modifyCore_running Dev.setRunning_jobs Dev.setRunning_numJobs
  Dev.setRunning_freed Dev.setRunning_subcoreDatas Dev.setRunning_base
  Dev.setRunning_softReseting Dev.setRunning_works Dev.setRunning_running

attribute [grind =] before after helper submitter

/-! ## Lists, current jobs and works -/

/-- What a block does to the `todo_list` of core `c`. -/
def todoListAfter (cfg : Config) (dev : Dev) (op : JobOp) (c : ℕ) : List ℕ :=
  let l := (dev.subcoreDatas c).todoList
  match op with
  | .enqueue j => if c < cfg.numIrqs ∧ onCore (dev.jobs j).args.coreMask c then l ++ [j] else l
  | .pop i => if c = i ∧ (dev.subcoreDatas i).job = none then l.tail else l
  | .timeoutNext i => if c = i then l.tail else l
  | .waitRemove j _ => if c < (dev.jobs j).useCoreNum then l.erase j else l
  | _ => l

theorem todoList_eq (h : jobExec cfg dev o op = some eff) (c : ℕ) :
    (eff.dev.subcoreDatas c).todoList = todoListAfter cfg dev op c := by
  cases op <;> grind -ring -linarith -order [todoListAfter]

/-- What a block does to the current job of core `c`. -/
def currentAfter (cfg : Config) (dev : Dev) (op : JobOp) (c : ℕ) : Option ℕ :=
  let cur := (dev.subcoreDatas c).job
  match op with
  | .pop i => if c = i ∧ cur = none then (dev.subcoreDatas c).todoList.head? else cur
  | .doneClear _ i | .timeoutClear i _ => if c = i then none else cur
  | .abortClear j => if c < cfg.numIrqs ∧ onCore (dev.jobs j).args.coreMask c ∧ cur = some j ∧
      (dev.jobs j).irqEntry c = false then none else cur
  | _ => cur

theorem current_eq (h : jobExec cfg dev o op = some eff) (c : ℕ) :
    (eff.dev.subcoreDatas c).job = currentAfter cfg dev op c := by
  cases op <;> grind -ring -linarith -order [currentAfter]

theorem mem_works (h : jobExec cfg dev o op = some eff) {j : ℕ} (hj : j ∈ eff.dev.works) :
    j ∈ dev.works ∨ (∃ c, op = .timeoutWork c j) ∨ op = .asyncWork j := by
  cases op <;> grind -ring -linarith -order

theorem numJobs_eq (h : jobExec cfg dev o op = some eff) : eff.dev.numJobs = dev.numJobs := by
  cases op <;> grind -ring -linarith -order

theorem base_eq (h : jobExec cfg dev o op = some eff) : eff.dev.base = dev.base := by
  cases op <;> grind -ring -linarith -order

theorem freed_eq (h : jobExec cfg dev o op = some eff) (j : ℕ) :
    eff.dev.freed j = (dev.freed j || (op = .free j ∨ op = .cleanupWork j)) := by
  cases op <;> grind -ring -linarith -order

/-- Only the start of a batch and a reset change what runs. -/
theorem running_eq (h : jobExec cfg dev o op = some eff) (hop : op ≠ .resetDeassert)
    (hstart : ∀ j c, op ≠ .subcoreCommit j c) : eff.dev.running = dev.running := by
  cases op <;> grind -ring -linarith -order

theorem awake_eq (h : jobExec cfg dev o op = some eff) (hop : op ≠ .resetBegin)
    (hs : dev.softReseting = false) : eff.dev.softReseting = false := by
  cases op <;> grind -ring -linarith -order

/-! ## Fields of jobs -/

theorem coreMask_eq (h : jobExec cfg dev o op = some eff) {j : ℕ} (hj : before op ≠ some j) :
    (eff.dev.jobs j).args.coreMask = (dev.jobs j).args.coreMask := by
  cases op <;> grind -ring -linarith -order

/-- Only the choice of a core changes the cores of a job. -/
theorem cores_eq (h : jobExec cfg dev o op = some eff) {j : ℕ}
    (hauto : ∀ i c n, op ≠ .autoRead j i c n) :
    (eff.dev.jobs j).args.coreMask = (dev.jobs j).args.coreMask ∧
      (eff.dev.jobs j).useCoreNum = (dev.jobs j).useCoreNum := by
  cases op <;> grind -ring -linarith -order

theorem flags_eq (h : jobExec cfg dev o op = some eff) (j : ℕ) :
    (eff.dev.jobs j).args.flags = (dev.jobs j).args.flags := by
  cases op <;> grind -ring -linarith -order

/-- What the task counts of a job are computed from. -/
theorem taskCounts_eq (h : jobExec cfg dev o op = some eff) (j : ℕ) :
    (eff.dev.jobs j).args.taskNumber = (dev.jobs j).args.taskNumber ∧
      (eff.dev.jobs j).args.subcoreTask = (dev.jobs j).args.subcoreTask := by
  cases op <;> grind -ring -linarith -order

theorem counters_eq (h : jobExec cfg dev o op = some eff) {j : ℕ}
    (hauto : ∀ i c n, op ≠ .autoRead j i c n) (hdec : op ≠ .decRunCount j)
    (hcount : ∀ c, op ≠ .doneCount j c) (hfinish : op ≠ .doneDec j) :
    (eff.dev.jobs j).runCount = (dev.jobs j).runCount ∧
      (eff.dev.jobs j).interruptCount = (dev.jobs j).interruptCount ∧
      (eff.dev.jobs j).submitCount = (dev.jobs j).submitCount ∧
      (eff.dev.jobs j).args.coreMask = (dev.jobs j).args.coreMask ∧
      (eff.dev.jobs j).useCoreNum = (dev.jobs j).useCoreNum ∧
      (eff.dev.jobs j).args.taskNumber = (dev.jobs j).args.taskNumber ∧
      (eff.dev.jobs j).args.subcoreTask = (dev.jobs j).args.subcoreTask := by
  cases op <;> grind -ring -linarith -order

theorem done_eq (h : jobExec cfg dev o op = some eff) (j : ℕ) :
    (eff.dev.jobs j).done = ((dev.jobs j).done || op = .setDone j) := by
  cases op <;> grind -ring -linarith -order

theorem async_of (h : jobExec cfg dev o op = some eff) {j : ℕ}
    (hj : (eff.dev.jobs j).async = true) :
    (dev.jobs j).async = true ∨ (dev.jobs j).args.flags &&& rknpuJobNonblock ≠ 0 := by
  cases op <;> grind -ring -linarith -order

theorem works_of (h : jobExec cfg dev o op = some eff) {j : ℕ} (hj : j ∈ eff.dev.works)
    (hop : ∀ i, op ≠ .timeoutWork i j) : j ∈ dev.works ∨ (dev.jobs j).async = true := by
  cases op <;> grind -ring -linarith -order

theorem runCount_eq (h : jobExec cfg dev o op = some eff) {j : ℕ} (hj : before op ≠ some j) :
    (eff.dev.jobs j).runCount =
      (dev.jobs j).runCount - if op = .decRunCount j then 1 else 0 := by
  cases op <;> grind -ring -linarith -order

theorem interruptCount_eq (h : jobExec cfg dev o op = some eff) {j : ℕ}
    (hj : before op ≠ some j) : (eff.dev.jobs j).interruptCount =
      (dev.jobs j).interruptCount - if op = .doneDec j then 1 else 0 := by
  cases op <;> grind -ring -linarith -order

theorem submitCount_eq (h : jobExec cfg dev o op = some eff) (j c : ℕ) :
    (eff.dev.jobs j).submitCount c =
      (dev.jobs j).submitCount c + if op = .doneCount j c then 1 else 0 := by
  cases op <;> grind -ring -linarith -order

theorem lastTask_of (h : jobExec cfg dev o op = some eff) {j : ℕ}
    (hj : (eff.dev.jobs j).lastTask ≠ none) :
    (dev.jobs j).lastTask ≠ none ∨ ∃ c, op = .subcoreCommit j c := by
  cases op <;> grind -ring -linarith -order

theorem lastTask_kept (h : jobExec cfg dev o op = some eff) {j : ℕ}
    (hj : (dev.jobs j).lastTask ≠ none) : (eff.dev.jobs j).lastTask ≠ none := by
  cases op <;> grind -ring -linarith -order

theorem ret_eq (h : jobExec cfg dev o op = some eff) {j : ℕ} (hget : op ≠ .domainGet j)
    (hcommit : ∀ c, op ≠ .subcoreCommit j c) (hwait : ∀ ret, op ≠ .waitRet j ret)
    (hset : op ≠ .setRet j) : (eff.dev.jobs j).ret = (dev.jobs j).ret := by
  cases op <;> grind -ring -linarith -order

theorem ret_of (h : jobExec cfg dev o op = some eff) {j : ℕ} (hj : (eff.dev.jobs j).ret ≠ 0) :
    (dev.jobs j).ret ≠ 0 ∨ op = .domainGet j ∧ o.ret ≠ 0 ∨ (∃ c, op = .subcoreCommit j c) ∨
      ∃ ret, op = .waitRet j ret := by
  cases op <;> grind -ring -linarith -order

/-- Before a job is queued, only the choice of a core changes its mask and its run count. -/
theorem before_eq (h : jobExec cfg dev o op = some eff) {j : ℕ} (hj : before op = some j) :
    (eff.dev.jobs j).args.coreMask = (dev.jobs j).args.coreMask ∧
        (eff.dev.jobs j).runCount = (dev.jobs j).runCount ∨
      ∃ i, (eff.dev.jobs j).args.coreMask = rknpuCoreMask i ∧ (eff.dev.jobs j).runCount = 1 := by
  cases op <;> grind -ring -linarith -order

/-! ## Events -/

theorem events_silent (h : jobExec cfg dev o op = some eff) (hop : unseen op = true) {e : Event}
    (he : e ∈ eff.events) : silent e = true := by
  cases op <;> grind -ring -linarith -order [unseen, silent]

theorem events_enqueue (h : jobExec cfg dev o op = some eff) {j : ℕ} :
    j ∈ enqueues eff.events ↔ op = .enqueue j := by
  cases op <;> grind -ring -linarith -order [enqueues]

theorem events_complete (h : jobExec cfg dev o op = some eff) (j c : ℕ) :
    completesOn j c eff.events = if op = .doneCount j c then 1 else 0 := by
  cases op <;> grind -ring -linarith -order [completesOn]

theorem events_done (h : jobExec cfg dev o op = some eff) {j : ℕ} :
    .done j ∈ eff.events ↔ op = .setDone j := by
  cases op <;> grind -ring -linarith -order

theorem events_start (h : jobExec cfg dev o op = some eff) {j c : ℕ}
    (hj : 0 < startsOn j c eff.events) : (eff.dev.jobs j).lastTask ≠ none := by
  cases op <;> grind -ring -linarith -order [startsOn]

theorem events_abort (h : jobExec cfg dev o op = some eff) {j : ℕ}
    (hj : .abort j ∈ eff.events) : op = .abortClear j := by
  cases op <;> grind -ring -linarith -order

/-! ## Calls -/

theorem calls_before (h : jobExec cfg dev o op = some eff) {x : JobOp} (hx : x ∈ eff.calls)
    {j : ℕ} (hj : before x = some j) : before op = some j := by
  cases op <;> grind -ring -linarith -order

theorem calls_scheduling (h : jobExec cfg dev o op = some eff) (hop : scheduling op = false)
    (hb : before op = none) {x : JobOp} (hx : x ∈ eff.calls) : scheduling x = false := by
  cases op <;> grind -ring -linarith -order [scheduling]

/-- A job that cannot get its domain is not queued. -/
theorem calls_domainGet {j : ℕ} (h : jobExec cfg dev o (.domainGet j) = some eff) (ho : o.ret ≠ 0)
    {x : JobOp} (hx : x ∈ eff.calls) (i : ℕ) : before x ≠ some i := by
  grind -ring -linarith -order

theorem calls_helper (h : jobExec cfg dev o op = some eff) {x : JobOp} (hx : x ∈ eff.calls)
    {j : ℕ} (hj : helper x = some j) :
    helper op = some j ∨ ∃ c, (dev.subcoreDatas c).job = some j ∨
      j ∈ (dev.subcoreDatas c).todoList := by
  cases op with
  | timeoutClear i k =>
    cases h
    rw [List.mem_singleton.mp hx] at hj
    exact Or.inl hj
  | setRet k =>
    cases h
    rw [List.mem_singleton.mp hx] at hj
    exact Or.inl hj
  | _ => grind -ring -linarith -order

/-- The job that a block takes from a list to make it the current one. -/
def pops (dev : Dev) : JobOp → Option ℕ
  | .pop c => if (dev.subcoreDatas c).job = none then (dev.subcoreDatas c).todoList.head? else none
  | _ => none

/-- `rknpu_job_commit` calls for nothing but the starts on its cores. -/
theorem calls_commit_eq_zero {k : ℕ} (h : jobExec cfg dev o (.commit k) = some eff) {x : JobOp}
    (hx : ∀ c, x ≠ .subcoreCommit k c) : eff.calls.count x = 0 := by
  cases h
  refine List.count_eq_zero.mpr fun hmem => ?_
  obtain ⟨c, -, hc⟩ := List.mem_map.mp hmem
  exact hx c hc.symm

theorem calls_dec (h : jobExec cfg dev o op = some eff) (j : ℕ) :
    eff.calls.count (.decRunCount j) = if pops dev op = some j then 1 else 0 := by
  cases op with
  | commit k => simp [calls_commit_eq_zero h, pops]
  | doneClear k c =>
    cases h
    rfl
  | _ => grind -ring -linarith -order [pops]

theorem calls_committing (h : jobExec cfg dev o op = some eff) {x : JobOp} (hx : x ∈ eff.calls)
    {j : ℕ} (hj : committing x = some j) :
    committing op = some j ∨ op = .decRunCount j ∧ (dev.jobs j).runCount - 1 = 0 ∨
      ∃ c, op = .irqStatus j c ∧ rknpuFuzzStatus o.status = (dev.jobs j).intMask c := by
  cases op <;> grind -ring -linarith -order [committing]

theorem calls_leaving (h : jobExec cfg dev o op = some eff) {x : JobOp} (hx : x ∈ eff.calls)
    {j : ℕ} (hj : leaving x = some j) :
    leaving op = some j ∨ (∃ ret, op = .waitLast j ret ∧ (dev.jobs j).lastTask ≠ none) ∨
      (∃ ret, op = .waitRemove j ret) ∨ op = .nonblockRet j ∧ (dev.jobs j).ret ≠ 0 ∨
      op = .blockRet j ∨ op = .fenceOut j := by
  cases op with
  | waitLast k ret =>
    simp only [jobExec, Option.some.injEq, waitLastTask, Effect.goto] at h
    split at h
    · rw [← h] at hx
      rw [List.mem_singleton.mp hx] at hj
      cases hj
    · rename_i last hlast
      rw [← h] at hx
      rw [List.mem_singleton.mp hx] at hj
      obtain rfl : k = j := Option.some.inj hj
      exact Or.inr (Or.inl ⟨ret, rfl, by simp [hlast]⟩)
  | _ => grind -ring -linarith -order [leaving]

theorem calls_blockRet (h : jobExec cfg dev o op = some eff) {j : ℕ}
    (hj : .blockRet j ∈ eff.calls) :
    (∃ ret, op = .waitRet j ret) ∨ (dev.jobs j).args.flags &&& rknpuJobPc = 0 := by
  cases op with
  | waitRet k ret =>
    cases h
    cases List.mem_singleton.mp hj
    exact Or.inl ⟨ret, rfl⟩
  | doneClear k c =>
    cases h
    simp [jobDoneClear, Effect.goto] at hj
  | _ => grind -ring -linarith -order

theorem calls_blocking (h : jobExec cfg dev o op = some eff) {x : JobOp} (hx : x ∈ eff.calls)
    {j : ℕ} (hj : blocking x = some j) :
    blocking op = some j ∨ (dev.jobs j).args.flags &&& rknpuJobNonblock = 0 := by
  cases op with
  | waitRet k ret =>
    cases h
    rw [List.mem_singleton.mp hx] at hj
    exact Or.inl hj
  | _ => grind -ring -linarith -order [blocking]

theorem calls_free (h : jobExec cfg dev o op = some eff) {j : ℕ} (hj : .free j ∈ eff.calls) :
    op = .fenceOut j ∨ op = .blockRet j ∨ op = .abortReport j := by
  cases op with
  | doneClear k c =>
    cases h
    simp [jobDoneClear, Effect.goto] at hj
  | _ => grind -ring -linarith -order

theorem calls_cleanupWork (h : jobExec cfg dev o op = some eff) (j : ℕ) :
    .cleanupWork j ∉ eff.calls := by
  cases op with
  | doneClear k c =>
    cases h
    simp [jobDoneClear, Effect.goto]
  | _ => grind -ring -linarith -order

theorem calls_finishing (h : jobExec cfg dev o op = some eff) (j : ℕ)
    (hop : ∀ i, op ≠ .timeoutWork i j) :
    (eff.calls.map (finishing j)).sum + eff.dev.works.count j ≤
      finishing j op + dev.works.count j + if op = .setDone j then 1 else 0 := by
  cases op with
  | commit k =>
    cases h
    have hzero : ((commitCores (dev.jobs k).args.coreMask).map
        (finishing j ∘ JobOp.subcoreCommit k)).sum = 0 := by
      refine List.sum_eq_zero fun n hn => ?_
      obtain ⟨c, -, rfl⟩ := List.mem_map.mp hn
      rfl
    simp [rknpuJobCommit, hzero, finishing]
  | timeoutClear i k | waitRet k ret | doneClear k c =>
    cases h
    simp [timeoutCleanClear, submitWaitRet, jobDoneClear, Effect.goto, finishing]
  | _ => grind -ring -linarith -order [finishing]

theorem calls_submitter (h : jobExec cfg dev o op = some eff) (j : ℕ) :
    (eff.calls.map (submitter j)).sum ≤ submitter j op := by
  cases op with
  | commit k =>
    cases h
    have hzero : ∀ l : List ℕ, ((l.map (JobOp.subcoreCommit k)).map (submitter j)).sum = 0 := by
      intro l
      induction l with
      | nil => rfl
      | cons c l ih => rw [List.map_cons, List.map_cons, List.sum_cons, ih]; rfl
    rw [rknpuJobCommit, hzero]
    exact Nat.zero_le _
  | _ => grind -ring -linarith -order

end
end RknpuDriver.Job
