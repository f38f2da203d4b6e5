import RknpuDriver.Job.Device

/-! # The atomic blocks of `rknpu_job.c`

A block is a critical section, one atomic operation, or the code between two of them that
reads or writes shared memory once. `jobExec` runs a block: it gives the device after it, the
blocks its thread runs next (before what the thread still has to run), and the events that a
specification talks about. It is `none` when the block cannot be taken yet: a thread asleep in
`wait_event_timeout` whose condition is false and whose timer has not expired.

Where `rknpu_submit` has got to with a job is always one block that names the job: a function
that returns to it ends with the block that comes after the call.

The label of the step chooses, in `Outcome`, what the code reads from outside: the results of
calls that are not in this file, status registers, and the task memory that user space writes.
Threads asleep may look at their condition at any time, so `wake_up` needs no block.
-/

namespace RknpuDriver.Job
set_option autoImplicit false

inductive JobOp where
  -- rknpu_submit, after the job is allocated
  | fenceIn (j : ℕ)
  | fenceOut (j : ℕ)
  | fenceInit (j seqno : ℕ)
  | dispatch (j : ℕ)
  | nonblockRet (j : ℕ)
  | blockRet (j : ℕ)
  -- rknpu_job_timeout_clean
  | timeoutClean (coreMask : UInt32) (i : ℕ)
  | timeoutCheck (coreMask : UInt32) (i j : ℕ)
  | timeoutClear (i j : ℕ)
  | timeoutWork (i j : ℕ)
  | timeoutNext (i : ℕ)
  -- rknpu_job_schedule
  | schedule (j : ℕ)
  | autoRead (j i coreIndex : ℕ) (taskNum : ℤ)
  | domainGet (j : ℕ)
  | enqueue (j : ℕ)
  | scanMask (j i : ℕ)
  -- rknpu_job_wait
  | waitEvent (j waitCount : ℕ)
  | waitCheck (j waitCount : ℕ)
  | waitLast (j : ℕ) (ret : ℤ)
  | waitRemove (j : ℕ) (ret : ℤ)
  | waitEnd (j : ℕ) (ret : ℤ)
  | waitRet (j : ℕ) (ret : ℤ)
  -- rknpu_job_next, rknpu_job_commit, rknpu_job_subcore_commit
  | next (c : ℕ)
  | pop (c : ℕ)
  | decRunCount (j : ℕ)
  | commit (j : ℕ)
  | subcoreCommit (j c : ℕ)
  -- rknpu_irq_handler, rknpu_job_done
  | irqEntry (c : ℕ)
  | irqStatus (j c : ℕ)
  | doneCount (j c : ℕ)
  | doneClear (j c : ℕ)
  | doneDec (j : ℕ)
  | domainPut (j : ℕ)
  | setDone (j : ℕ)
  | setRet (j : ℕ)
  | fenceSignal (j : ℕ)
  | asyncWork (j : ℕ)
  -- rknpu_job_abort, rknpu_job_free, rknpu_job_cleanup_work
  | abortClear (j : ℕ)
  | abortReport (j : ℕ)
  | free (j : ℕ)
  | cleanupWork (j : ℕ)
  -- rknpu_soft_reset
  | resetBegin
  | resetAssert
  | resetDeassert
  | resetEnd
  -- hrtimer_handler
  | timerTick (i : ℕ)
  deriving DecidableEq, Repr

/-- What a specification observes. `start` is a batch written to a core: its first task and
its number of tasks; `complete` is the count of its interrupt. -/
inductive Event where
  | enqueue (j : ℕ)
  | pop (c j : ℕ)
  | commit (j : ℕ)
  | start (j c : ℕ) (taskStart taskNumber : ℤ)
  | complete (j c : ℕ)
  | done (j : ℕ)
  | deref (j : ℕ) (taskObjAddr : UInt64)
  | gemGet (taskObjAddr : UInt64)
  | gemPut (taskObjAddr : UInt64)
  | domainGet (j : ℕ)
  | domainPut (j : ℕ)
  | fenceSignal (j seqno : ℕ)
  | fencePut (j seqno : ℕ)
  | ret (j : ℕ) (ret : ℤ)
  | abort (j : ℕ)
  | free (j : ℕ)
  deriving DecidableEq, Repr

/-- `ret` is the result of the block's fallible call, `timedOut` an expired timer, `kvAddr`
whether the task object is mapped, `intMask` the field of the batch's last task, `status` and
`taskStatus` the registers. -/
structure Outcome where
  ret : ℤ
  timedOut : Bool
  kvAddr : Bool
  intMask : UInt32
  status : UInt32
  taskStatus : UInt32
  deriving DecidableEq, Repr

structure Effect where
  dev : Dev
  calls : List JobOp
  events : List Event

/-- A block that changes nothing and calls `ops`. -/
def Effect.goto (dev : Dev) (ops : List JobOp) : Effect := ⟨dev, ops, []⟩

@[simp] theorem Effect.goto_dev (dev : Dev) (ops : List JobOp) :
    (Effect.goto dev ops).dev = dev := rfl

@[simp] theorem Effect.goto_calls (dev : Dev) (ops : List JobOp) :
    (Effect.goto dev ops).calls = ops := rfl

@[simp] theorem Effect.goto_events (dev : Dev) (ops : List JobOp) :
    (Effect.goto dev ops).events = [] := rfl

/-! ## `rknpu_submit` -/

/-- `rknpu_job_alloc`, with the assignment of `use_drm_gem` after it. -/
def rknpuJobAlloc (dev : Dev) (args : Submit) (useDrmGem : Bool) : RknpuJob where
  args := args
  argsOwner := args.flags &&& rknpuJobNonblock != 0
  useDrmGem := useDrmGem
  useCoreNum := useCoreNum args.coreMask
  runCount := useCoreNum args.coreMask
  interruptCount := useCoreNum args.coreMask
  submitCount := fun _ => 0
  irqEntry := fun _ => false
  done := false
  async := false
  ret := 0
  firstTask := none
  lastTask := none
  intMask := fun _ => 0
  intStatus := fun _ => 0
  fence := none
  timestamp := dev.now
  hwCommitTime := 0
  hwRecoderTime := 0
  hwElapseTime := 0

/-- `rknpu_submit`, up to the reference on the task object: an error, or the new job's
thread. -/
def rknpuSubmit (cfg : Config) (dev : Dev) (args : Submit) (useDrmGem allocOk : Bool) :
    Except ℤ Effect :=
  if args.taskNumber = 0 then .error (-einval)
  else if cfg.coreMask < args.coreMask then .error (-einval)
  else if !allocOk then .error (-enomem)
  else .ok {
    dev := dev.addJob (rknpuJobAlloc dev args useDrmGem)
    calls := [.fenceIn dev.numJobs]
    events := if useDrmGem ∧ args.taskObjAddr ≠ 0 then [.gemGet args.taskObjAddr] else [] }

/-- The in-fence: `ret` is `-EINVAL` for a bad descriptor and the result of the wait else. The
job is not freed on an error. -/
def submitFenceIn (dev : Dev) (o : Outcome) (j : ℕ) : Effect :=
  if (dev.jobs j).args.flags &&& rknpuJobFenceIn = 0 then .goto dev [.fenceOut j]
  else if o.ret < 0 then ⟨dev, [], [.ret j o.ret]⟩
  else .goto dev [.fenceOut j]

/-- The out-fence, up to the read of `fence_ctx->seqno` by `rknpu_fence_alloc`. -/
def submitFenceOut (dev : Dev) (o : Outcome) (j : ℕ) : Effect :=
  if (dev.jobs j).args.flags &&& rknpuJobFenceOut = 0 then .goto dev [.dispatch j]
  else if o.ret ≠ 0 then ⟨dev, [.free j], [.ret j o.ret]⟩
  else .goto dev [.fenceInit j dev.fenceSeqno]

/-- `++fence_ctx->seqno`, an `unsigned int`. -/
def nextSeqno (seqno : ℕ) : ℕ := (seqno + 1) % 2 ^ 32

/-- The rest of `rknpu_fence_alloc`, which increments the number without a lock, and
`rknpu_fence_get_fd`. -/
def rknpuFenceAlloc (dev : Dev) (j seqno : ℕ) : Effect :=
  ⟨{ dev with fenceSeqno := nextSeqno seqno }.modifyJob j fun job =>
    { job with fence := some (nextSeqno seqno) }, [.dispatch j], []⟩

/-- The branch on `RKNPU_JOB_NONBLOCK`, up to the call of `rknpu_job_schedule`. -/
def submitDispatch (dev : Dev) (j : ℕ) : Effect :=
  let args := (dev.jobs j).args
  if args.flags &&& rknpuJobNonblock ≠ 0 then
    .goto (dev.modifyJob j fun job => { job with async := true })
      [.timeoutClean args.coreMask 0, .schedule j]
  else .goto dev [.schedule j]

/-- The same branch, from the return of `rknpu_job_schedule` on. -/
def submitScheduled (args : Submit) (j : ℕ) : JobOp :=
  if args.flags &&& rknpuJobNonblock ≠ 0 then .nonblockRet j
  else if args.flags &&& rknpuJobPc ≠ 0 then .waitEvent j 0
  else .blockRet j

/-- `rknpu_job_abort`. -/
def rknpuJobAbort (j : ℕ) : List JobOp := [.domainPut j, .abortClear j]

def submitNonblockRet (dev : Dev) (j : ℕ) : Effect :=
  let ret := (dev.jobs j).ret
  ⟨dev, if ret ≠ 0 then rknpuJobAbort j else [], [.ret j ret]⟩

def submitBlockRet (dev : Dev) (j : ℕ) : Effect :=
  let ret := (dev.jobs j).ret
  ⟨dev, if ret ≠ 0 then rknpuJobAbort j else [.free j], [.ret j ret]⟩

/-! ## `rknpu_job_timeout_clean` -/

/-- `ktime_us_delta`. -/
def ktimeUsDelta (later earlier : ℕ) : ℤ := ((later : ℤ) - earlier).tdiv 1000

/-- The running job of a core has timed out, as `rknpu_job_timeout_clean` finds. -/
def timeoutHit (dev : Dev) (j : ℕ) : Bool :=
  ((dev.jobs j).args.timeout.toNat : ℤ) ≤ ktimeUsDelta dev.now (dev.jobs j).timestamp

/-- One turn of the loop: the current job is read without `irq_lock`, and its fields after
it. -/
def rknpuJobTimeoutClean (cfg : Config) (dev : Dev) (coreMask : UInt32) (i : ℕ) : Effect :=
  if i < cfg.numIrqs then
    if onCore coreMask i then
      match (dev.subcoreDatas i).job with
      | some j => .goto dev [.timeoutCheck coreMask i j]
      | none => .goto dev [.timeoutClean coreMask (i + 1)]
    else .goto dev [.timeoutClean coreMask (i + 1)]
  else .goto dev []

def timeoutCleanCheck (dev : Dev) (coreMask : UInt32) (i j : ℕ) : Effect :=
  .goto dev ((if timeoutHit dev j then [.resetBegin, .timeoutClear i j] else []) ++
    [.timeoutClean coreMask (i + 1)])

def timeoutCleanClear (dev : Dev) (i j : ℕ) : Effect :=
  .goto (dev.modifyCore i fun core => { core with job := none }) [.timeoutWork i j]

/-- `schedule_work`: a work that is queued already stays queued once. -/
def Dev.scheduleWork (dev : Dev) (j : ℕ) : Dev :=
  { dev with works := if j ∈ dev.works then dev.works else dev.works ++ [j] }

def timeoutCleanWork (dev : Dev) (i j : ℕ) : Effect :=
  .goto (dev.scheduleWork j) [.timeoutNext i]

def timeoutCleanNext (dev : Dev) (i : ℕ) : Effect :=
  match (dev.subcoreDatas i).todoList with
  | j :: rest =>
    .goto (dev.modifyCore i fun core => { core with todoList := rest }) [.timeoutWork i j]
  | [] => .goto dev []

/-! ## `rknpu_job_schedule` -/

def rknpuJobSchedule (dev : Dev) (j : ℕ) : Effect :=
  if (dev.jobs j).args.coreMask = rknpuCoreAutoMask then
    .goto dev [.autoRead j 1 0 (toInt32 (dev.subcoreDatas 0).taskNum)]
  else .goto dev [.domainGet j]

/-- One turn of the loop of `rknpu_schedule_core_index`, which takes no lock, or the end of it
with the assignments that follow. -/
def rknpuScheduleCoreIndex (cfg : Config) (dev : Dev) (j i coreIndex : ℕ) (taskNum : ℤ) :
    Effect :=
  if i < cfg.numIrqs then
    if (dev.subcoreDatas i).taskNum < taskNum then
      .goto dev [.autoRead j (i + 1) i (toInt32 (dev.subcoreDatas i).taskNum)]
    else .goto dev [.autoRead j (i + 1) coreIndex taskNum]
  else .goto (dev.modifyJob j fun job =>
    { job with
      args := { job.args with coreMask := rknpuCoreMask coreIndex }
      useCoreNum := 1
      runCount := 1
      interruptCount := 1 }) [.domainGet j]

def scheduleDomainGet (dev : Dev) (o : Outcome) (j : ℕ) : Effect :=
  if o.ret ≠ 0 then
    .goto (dev.modifyJob j fun job => { job with ret := -einval })
      [submitScheduled (dev.jobs j).args j]
  else ⟨dev, [.enqueue j], [.domainGet j]⟩

/-- The block under `irq_lock`; the loop after it reads the mask again for each core. -/
def scheduleEnqueue (cfg : Config) (dev : Dev) (j : ℕ) : Effect where
  dev := {
    dev with
    subcoreDatas := fun i =>
      let core := dev.subcoreDatas i
      if i < cfg.numIrqs ∧ onCore (dev.jobs j).args.coreMask i then
        { core with
          todoList := core.todoList ++ [j]
          taskNum := core.taskNum + rknpuGetTaskNumber cfg (dev.jobs j) i }
      else core }
  calls := [.scanMask j 0]
  events := [.enqueue j]

/-- One turn of the loop, or the return to `rknpu_submit`. -/
def scheduleScanMask (cfg : Config) (dev : Dev) (j i : ℕ) : Effect :=
  if i < cfg.numIrqs then
    .goto dev ((if onCore (dev.jobs j).args.coreMask i then [.next i] else []) ++
      [.scanMask j (i + 1)])
  else .goto dev [submitScheduled (dev.jobs j).args j]

/-! ## `rknpu_job_wait` -/

/-- `MAX_JIFFY_OFFSET`, for a `long` of 64 bits. -/
def maxJiffyOffset : ℕ := 2 ^ 62 - 2

/-- The most that `msecs_to_jiffies` can give, with at most 1000 jiffies in a second: a number
that is negative as an `int` stands for an infinite timeout. -/
def msecsToJiffies (m : UInt32) : ℕ := if m.toNat < 2 ^ 31 then m.toNat else maxJiffyOffset

/-- `wait_event_timeout`, with its `long` result stored in the `int ret`: the jiffies that are
left, which `Outcome.ret` chooses, and at least `1`, or `0` after the timeout. -/
def waitEventTimeout (dev : Dev) (o : Outcome) (j : ℕ) : Option ℤ :=
  if (dev.jobs j).done || dev.softReseting then
    some (toInt32 (max 1 (min o.ret.toNat (msecsToJiffies (dev.jobs j).args.timeout)) : ℕ))
  else if o.timedOut then some 0
  else none

def rknpuJobWait (dev : Dev) (o : Outcome) (j waitCount : ℕ) : Option Effect :=
  match waitEventTimeout dev o j with
  | none => none
  | some ret =>
    if 3 ≤ waitCount + 1 then some (.goto dev [.waitLast j ret])
    else if ret = 0 then some (.goto dev [.waitCheck j (waitCount + 1)])
    else some (.goto dev [.waitLast j ret])

/-- The computation of `continue_wait`; `args->timeout * 1000` is computed in 32 bits. -/
def continueWait (dev : Dev) (job : RknpuJob) : Bool :=
  if job.hwCommitTime = 0 then true
  else ktimeUsDelta dev.now job.hwCommitTime < ((job.args.timeout * 1000).toNat : ℤ)

def waitContinue (dev : Dev) (j waitCount : ℕ) : Effect :=
  if continueWait dev (dev.jobs j) then .goto dev [.waitEvent j waitCount]
  else .goto dev [.waitLast j 0]

def waitLastTask (dev : Dev) (j : ℕ) (ret : ℤ) : Effect :=
  match (dev.jobs j).lastTask with
  | none => .goto dev [.waitRemove j ret]
  | some _ => .goto dev [.waitEnd j ret]

/-- The removal loop, over the lists `0` to `use_core_num - 1`. -/
def waitRemoveLoop (dev : Dev) (j : ℕ) (ret : ℤ) : Effect :=
  .goto {
    dev with
    subcoreDatas := fun i =>
      let core := dev.subcoreDatas i
      if i < (dev.jobs j).useCoreNum then { core with todoList := core.todoList.erase j }
      else core } [.waitRet j (if ret < 0 then ret else -einval)]

def waitResult (cfg : Config) (dev : Dev) (o : Outcome) (j : ℕ) (ret : ℤ) : Effect :=
  let job := dev.jobs j
  if ret ≤ 0 then
    let counter :=
      if job.args.flags &&& rknpuJobPc ≠ 0 then o.taskStatus &&& cfg.pcTaskNumberMask else 0
    .goto (dev.modifyJob j fun job => { job with args := { job.args with taskCounter := counter } })
      [.waitRet j (if ret < 0 then ret else -etimedout)]
  else if !job.done then .goto dev [.waitRet j (-einval)]
  else
    .goto (dev.modifyJob j fun job => { job with
      args := { job.args with
        taskCounter := job.args.taskNumber
        hwElapseTime := job.hwElapseTime } }) [.waitRet j 0]

/-- The assignment of the result of `rknpu_job_wait` in `rknpu_submit`. -/
def submitWaitRet (dev : Dev) (j : ℕ) (ret : ℤ) : Effect :=
  .goto (dev.modifyJob j fun job => { job with ret := ret }) [.blockRet j]

/-! ## `rknpu_job_next` and `rknpu_job_commit` -/

def rknpuJobNext (dev : Dev) (c : ℕ) : Effect :=
  if dev.softReseting then .goto dev [] else .goto dev [.pop c]

def jobNextPop (dev : Dev) (c : ℕ) : Effect :=
  if (dev.subcoreDatas c).job ≠ none then .goto dev []
  else
    match (dev.subcoreDatas c).todoList with
    | [] => .goto dev []
    | j :: rest =>
      ⟨(dev.modifyCore c fun core => { core with job := some j, todoList := rest }).modifyJob j
        fun job => { job with hwCommitTime := dev.now, hwRecoderTime := dev.now },
        [.decRunCount j], [.pop c j]⟩

def jobNextDec (dev : Dev) (j : ℕ) : Effect :=
  .goto (dev.modifyJob j fun job => { job with runCount := job.runCount - 1 })
    (if (dev.jobs j).runCount - 1 = 0 then [.commit j] else [])

def rknpuJobCommit (dev : Dev) (j : ℕ) : Effect :=
  ⟨dev, (commitCores (dev.jobs j).args.coreMask).map (.subcoreCommit j), [.commit j]⟩

/-- The first task of a job on a core, before batches are counted off. -/
def taskStart (cfg : Config) (job : RknpuJob) (c : ℕ) : ℤ :=
  if 1 < cfg.numIrqs then
    if job.useCoreNum = 1 ∨ job.useCoreNum = 2 then
      toInt32 (job.args.subcoreTask c).taskStart.toNat
    else if job.useCoreNum = 3 then toInt32 (job.args.subcoreTask (c + 2)).taskStart.toNat
    else toInt32 job.args.taskStart.toNat
  else toInt32 job.args.taskStart.toNat

/-- The batch `rknpu_job_subcore_commit_pc` programs: its first task and its task count. -/
def batchWindow (cfg : Config) (job : RknpuJob) (c : ℕ) : ℤ × ℤ :=
  let index := job.submitCount c
  let start := toInt32 (taskStart cfg job c + index * cfg.maxSubmitNumber)
  let number := toInt32 (rknpuGetTaskNumber cfg job c - index * cfg.maxSubmitNumber)
  (start, if cfg.maxSubmitNumber < number then cfg.maxSubmitNumber else number)

/-- The error of `rknpu_job_subcore_commit_pc`, if it returns one. -/
def commitError (cfg : Config) (dev : Dev) (o : Outcome) (job : RknpuJob) (c : ℕ) : Option ℤ :=
  if cfg.numIrqs ≤ c then some (-einval)
  else if !dev.base c then some (-eio)
  else if job.args.taskObjAddr = 0 ∨ !o.kvAddr then some (-einval)
  else none

/-- `rknpu_job_subcore_commit` with `rknpu_job_subcore_commit_pc`. -/
def rknpuJobSubcoreCommit (cfg : Config) (dev : Dev) (o : Outcome) (j c : ℕ) : Effect :=
  let job := dev.jobs j
  if job.args.flags &&& rknpuJobPc = 0 then
    .goto (dev.modifyJob j fun job => { job with ret := -einval }) []
  else
    let derefs := if job.args.taskObjAddr = 0 then [] else [Event.deref j job.args.taskObjAddr]
    match commitError cfg dev o job c with
    | some ret => ⟨dev.modifyJob j fun job => { job with ret := ret }, [], derefs⟩
    | none =>
      let (start, number) := batchWindow cfg job c
      ⟨(dev.modifyJob j fun job => { job with
          firstTask := some start
          lastTask := some (toInt32 (start + number - 1))
          intMask := fun i => if i = c then o.intMask else job.intMask i }).setRunning c (some j),
        [], derefs ++ [.start j c start number]⟩

/-! ## `rknpu_irq_handler` and `rknpu_job_done` -/

def rknpuIrqHandler (dev : Dev) (c : ℕ) : Effect :=
  match (dev.subcoreDatas c).job with
  | none => .goto dev [.next c]
  | some j =>
    .goto (dev.modifyJob j fun job =>
      { job with irqEntry := fun i => if i = c then true else job.irqEntry i }) [.irqStatus j c]

def irqHandlerStatus (dev : Dev) (o : Outcome) (j c : ℕ) : Effect :=
  .goto (dev.modifyJob j fun job =>
      { job with intStatus := fun i => if i = c then o.status else job.intStatus i })
    (if rknpuFuzzStatus o.status ≠ (dev.jobs j).intMask c then [] else [.doneCount j c])

/-- The comparison of `submit_count` with the number of batches. -/
def rknpuJobDone (cfg : Config) (dev : Dev) (j c : ℕ) : Effect :=
  ⟨dev.modifyJob j fun job =>
      { job with
        submitCount := fun i => if i = c then job.submitCount i + 1 else job.submitCount i },
    if (dev.jobs j).submitCount c + 1 < batches cfg (dev.jobs j) c then [.subcoreCommit j c]
    else [.doneClear j c],
    [.complete j c]⟩

def jobDoneClear (cfg : Config) (dev : Dev) (j c : ℕ) : Effect :=
  let job := dev.jobs j
  .goto ((dev.modifyCore c fun core =>
      { core with
        job := none
        taskNum := core.taskNum - rknpuGetTaskNumber cfg job c
        busyTime := core.busyTime + ((dev.now : ℤ) - job.hwRecoderTime) }).modifyJob j fun job =>
      { job with hwElapseTime := (dev.now : ℤ) - job.hwCommitTime })
    [.doneDec j, .next c]

/-- The decrement of `interrupt_count`; the last core's handler finishes the job. -/
def jobDoneDec (dev : Dev) (j : ℕ) : Effect :=
  .goto (dev.modifyJob j fun job => { job with interruptCount := job.interruptCount - 1 })
    (if (dev.jobs j).interruptCount - 1 = 0 then [.domainPut j, .setDone j] else [])

def jobSetDone (dev : Dev) (j : ℕ) : Effect :=
  ⟨dev.modifyJob j fun job => { job with done := true }, [.setRet j], [.done j]⟩

/-- `rknpu_irq_handler` calls `rknpu_job_done` with the result `0`. -/
def jobSetRet (dev : Dev) (j : ℕ) : Effect :=
  .goto (dev.modifyJob j fun job => { job with ret := 0 }) [.fenceSignal j]

def jobFenceSignal (dev : Dev) (j : ℕ) : Effect :=
  match (dev.jobs j).fence with
  | none => .goto dev [.asyncWork j]
  | some n =>
    ⟨{ dev with fenceSignaled := fun i => if i = j then true else dev.fenceSignaled i },
      [.asyncWork j], [.fenceSignal j n]⟩

def jobAsyncWork (dev : Dev) (j : ℕ) : Effect :=
  if (dev.jobs j).async then .goto (dev.scheduleWork j) [] else .goto dev []

/-! ## `rknpu_job_abort`, `rknpu_job_free` and `rknpu_soft_reset` -/

def jobAbortClear (cfg : Config) (dev : Dev) (j : ℕ) : Effect where
  dev := {
    dev with
    subcoreDatas := fun i =>
      let core := dev.subcoreDatas i
      if i < cfg.numIrqs ∧ onCore (dev.jobs j).args.coreMask i ∧ core.job = some j ∧
          (dev.jobs j).irqEntry i = false then
        { core with
          job := none
          taskNum := core.taskNum - rknpuGetTaskNumber cfg (dev.jobs j) i }
      else core }
  calls := [.abortReport j]
  events := [.abort j]

def jobAbortReport (dev : Dev) (j : ℕ) : Effect :=
  .goto dev ((if (dev.jobs j).ret = -etimedout then [.resetBegin] else []) ++ [.free j])

def rknpuJobFree (dev : Dev) (j : ℕ) : Effect :=
  let job := dev.jobs j
  ⟨{ dev with freed := fun i => if i = j then true else dev.freed i }, [],
    (if job.useDrmGem ∧ job.args.taskObjAddr ≠ 0 then [.gemPut job.args.taskObjAddr] else []) ++
      (match job.fence with | some n => [.fencePut j n] | none => []) ++ [.free j]⟩

/-- A reset whose lines fail returns with `soft_reseting` still set. -/
def softResetDeassert (dev : Dev) (o : Outcome) : Effect :=
  let dev := { dev with asserted := dev.asserted - 1 }
  if o.ret ≠ 0 then .goto dev []
  else .goto { dev with running := fun _ => none } [.resetEnd]

/-! ## `hrtimer_handler` -/

def hrtimerTick (cfg : Config) (dev : Dev) (i : ℕ) : Effect :=
  if i < cfg.numIrqs then
    match (dev.subcoreDatas i).job with
    | some j =>
      .goto ((dev.modifyJob j fun job => { job with hwRecoderTime := dev.now }).modifyCore i
        fun core => { core with
          totalBusyTime := core.busyTime + ((dev.now : ℤ) - (dev.jobs j).hwRecoderTime)
          busyTime := 0 }) [.timerTick (i + 1)]
    | none =>
      .goto (dev.modifyCore i fun core =>
        { core with totalBusyTime := core.busyTime, busyTime := 0 }) [.timerTick (i + 1)]
  else .goto dev []

/-! ## One block -/

def jobExec (cfg : Config) (dev : Dev) (o : Outcome) : JobOp → Option Effect
  | .fenceIn j => some (submitFenceIn dev o j)
  | .fenceOut j => some (submitFenceOut dev o j)
  | .fenceInit j seqno => some (rknpuFenceAlloc dev j seqno)
  | .dispatch j => some (submitDispatch dev j)
  | .nonblockRet j => some (submitNonblockRet dev j)
  | .blockRet j => some (submitBlockRet dev j)
  | .timeoutClean coreMask i => some (rknpuJobTimeoutClean cfg dev coreMask i)
  | .timeoutCheck coreMask i j => some (timeoutCleanCheck dev coreMask i j)
  | .timeoutClear i j => some (timeoutCleanClear dev i j)
  | .timeoutWork i j => some (timeoutCleanWork dev i j)
  | .timeoutNext i => some (timeoutCleanNext dev i)
  | .schedule j => some (rknpuJobSchedule dev j)
  | .autoRead j i coreIndex taskNum =>
    some (rknpuScheduleCoreIndex cfg dev j i coreIndex taskNum)
  | .domainGet j => some (scheduleDomainGet dev o j)
  | .enqueue j => some (scheduleEnqueue cfg dev j)
  | .scanMask j i => some (scheduleScanMask cfg dev j i)
  | .waitEvent j waitCount => rknpuJobWait dev o j waitCount
  | .waitCheck j waitCount => some (waitContinue dev j waitCount)
  | .waitLast j ret => some (waitLastTask dev j ret)
  | .waitRemove j ret => some (waitRemoveLoop dev j ret)
  | .waitEnd j ret => some (waitResult cfg dev o j ret)
  | .waitRet j ret => some (submitWaitRet dev j ret)
  | .next c => some (rknpuJobNext dev c)
  | .pop c => some (jobNextPop dev c)
  | .decRunCount j => some (jobNextDec dev j)
  | .commit j => some (rknpuJobCommit dev j)
  | .subcoreCommit j c => some (rknpuJobSubcoreCommit cfg dev o j c)
  | .irqEntry c => some (rknpuIrqHandler dev c)
  | .irqStatus j c => some (irqHandlerStatus dev o j c)
  | .doneCount j c => some (rknpuJobDone cfg dev j c)
  | .doneClear j c => some (jobDoneClear cfg dev j c)
  | .doneDec j => some (jobDoneDec dev j)
  | .domainPut j => some ⟨dev, [], [.domainPut j]⟩
  | .setDone j => some (jobSetDone dev j)
  | .setRet j => some (jobSetRet dev j)
  | .fenceSignal j => some (jobFenceSignal dev j)
  | .asyncWork j => some (jobAsyncWork dev j)
  | .abortClear j => some (jobAbortClear cfg dev j)
  | .abortReport j => some (jobAbortReport dev j)
  | .free j => some (rknpuJobFree dev j)
  | .cleanupWork j => some (rknpuJobFree dev j)
  | .resetBegin => some (.goto { dev with softReseting := true } [.resetAssert])
  | .resetAssert => some (.goto { dev with asserted := dev.asserted + 1 } [.resetDeassert])
  | .resetDeassert => some (softResetDeassert dev o)
  | .resetEnd => some (.goto { dev with softReseting := false } [])
  | .timerTick i => some (hrtimerTick cfg dev i)

end RknpuDriver.Job
