import RknpuDriver.Basic
import Mathlib.Data.Int.Notation
import Mathlib.Data.Nat.Notation
import Mathlib.Logic.Basic
import Mathlib.Tactic.Simps.Basic

/-! # Jobs and the device of `rknpu_job.c`

* `Submit`, `RknpuJob`, `SubcoreData`, `Dev`: the structures of `rknpu_ioctl.h`, `rknpu_job.h`
  and `rknpu_drv.h`, with the fields that the job code uses. A job is known by its number, the
  place of its allocation; a `todo_list` is the list of the numbers linked on it.
* `Config`: the entries of the device tables that the job code reads, and the seven tables.
* The pure functions on masks and task counts.

`int` and `s64` values are integers, reduced with `toInt32` where the source stores them in an
`int`; times are nanoseconds, with `0` for a `ktime_t` that was never set.
-/

namespace RknpuDriver.Job
set_option autoImplicit false

/-! ## Constants -/

abbrev rknpuMaxCores : ℕ := 3

abbrev rknpuJobPc : UInt32 := 1
abbrev rknpuJobNonblock : UInt32 := 2
abbrev rknpuJobFenceIn : UInt32 := 8
abbrev rknpuJobFenceOut : UInt32 := 16

abbrev rknpuCoreAutoMask : UInt32 := 0
abbrev rknpuCore0Mask : UInt32 := 1
abbrev rknpuCore1Mask : UInt32 := 2
abbrev rknpuCore2Mask : UInt32 := 4

/-- A conversion to `int`. -/
def toInt32 (n : ℤ) : ℤ := Int.bmod n (2 ^ 32)

theorem toInt32_of_lt {n : ℤ} (h0 : 0 ≤ n) (h : n < 2 ^ 31) : toInt32 n = n := by
  unfold toInt32
  rw [Int.bmod_def]
  omega

/-! ## Device tables -/

structure Config where
  numIrqs : ℕ
  maxSubmitNumber : ℤ
  pcTaskNumberMask : UInt32
  coreMask : UInt32
  deriving DecidableEq, Repr

def rk356xRknpuConfig : Config := ⟨1, 4095, 0xfff, 0x1⟩
def rk3588RknpuConfig : Config := ⟨3, 4095, 0xfff, 0x7⟩
def rk3583RknpuConfig : Config := ⟨2, 4095, 0xfff, 0x3⟩
def rv1106RknpuConfig : Config := ⟨1, 65535, 0xffff, 0x1⟩
def rk3562RknpuConfig : Config := ⟨1, 65535, 0xffff, 0x1⟩
def rk3576RknpuConfig : Config := ⟨2, 65535, 0xffff, 0x3⟩
def rv1126bRknpuConfig : Config := ⟨1, 65535, 0xffff, 0x1⟩

/-- The tables of `rknpu_of_match`. -/
def rknpuConfigs : List Config :=
  [rk356xRknpuConfig, rk3588RknpuConfig, rk3583RknpuConfig, rv1106RknpuConfig,
    rk3562RknpuConfig, rk3576RknpuConfig, rv1126bRknpuConfig]

/-! ## Data -/

structure SubcoreTask where
  taskStart : UInt32
  taskNumber : UInt32
  deriving DecidableEq, Repr

/-- `struct rknpu_submit`; `subcoreTask` is indexed below `5`. -/
structure Submit where
  flags : UInt32
  timeout : UInt32
  taskStart : UInt32
  taskNumber : UInt32
  taskCounter : UInt32
  taskObjAddr : UInt64
  iommuDomainId : UInt32
  hwElapseTime : ℤ
  coreMask : UInt32
  subcoreTask : ℕ → SubcoreTask

/-- `struct rknpu_job`. `done` and `async` are the bits `RKNPU_JOB_DONE` and `RKNPU_JOB_ASYNC`
of `flags`; tasks are given by their index in the task object; `fence` is the `seqno` of the
out-fence. -/
structure RknpuJob where
  args : Submit
  argsOwner : Bool
  useDrmGem : Bool
  useCoreNum : ℕ
  runCount : ℤ
  interruptCount : ℤ
  submitCount : ℕ → ℤ
  irqEntry : ℕ → Bool
  done : Bool
  async : Bool
  ret : ℤ
  firstTask : Option ℤ
  lastTask : Option ℤ
  intMask : ℕ → UInt32
  intStatus : ℕ → UInt32
  fence : Option ℕ
  timestamp : ℕ
  hwCommitTime : ℕ
  hwRecoderTime : ℕ
  hwElapseTime : ℤ

/-- `struct rknpu_subcore_data`. -/
structure SubcoreData where
  todoList : List ℕ
  job : Option ℕ
  taskNum : ℤ
  busyTime : ℤ
  totalBusyTime : ℤ

/-- The part of `struct rknpu_device` that the job code uses, with the jobs in memory and the
hardware: `works` are the queued `cleanup_work`s, `freed` tells which jobs were given back,
`fenceSignaled` which jobs' out-fences are signaled, `running c` is the job whose batch executes
on core `c`, `asserted` counts the resets between their assert and their deassert. -/
structure Dev where
  jobs : ℕ → RknpuJob
  numJobs : ℕ
  freed : ℕ → Bool
  subcoreDatas : ℕ → SubcoreData
  base : ℕ → Bool
  softReseting : Bool
  works : List ℕ
  fenceSeqno : ℕ
  fenceSignaled : ℕ → Bool
  running : ℕ → Option ℕ
  asserted : ℕ
  now : ℕ

namespace Dev

/-- The device with one more job. -/
@[simps] def addJob (dev : Dev) (job : RknpuJob) : Dev :=
  { dev with
    jobs := fun i => if i = dev.numJobs then job else dev.jobs i
    numJobs := dev.numJobs + 1 }

@[simps] def modifyJob (dev : Dev) (j : ℕ) (f : RknpuJob → RknpuJob) : Dev :=
  { dev with jobs := fun i => if i = j then f (dev.jobs i) else dev.jobs i }

@[simps] def modifyCore (dev : Dev) (c : ℕ) (f : SubcoreData → SubcoreData) : Dev :=
  { dev with
    subcoreDatas := fun i => if i = c then f (dev.subcoreDatas i) else dev.subcoreDatas i }

@[simps] def setRunning (dev : Dev) (c : ℕ) (batch : Option ℕ) : Dev :=
  { dev with running := fun i => if i = c then batch else dev.running i }

end Dev

/-! ## Masks and task counts -/

/-- `rknpu_wait_core_index`. -/
def rknpuWaitCoreIndex (coreMask : UInt32) : ℕ :=
  if coreMask = rknpuCore1Mask then 1
  else if coreMask = rknpuCore2Mask then 2
  else 0

/-- `rknpu_core_mask`. -/
def rknpuCoreMask : ℕ → UInt32
  | 0 => rknpuCore0Mask
  | 1 => rknpuCore1Mask
  | 2 => rknpuCore2Mask
  | _ => rknpuCoreAutoMask

/-- The test `core_mask & rknpu_core_mask(i)`. -/
def onCore (coreMask : UInt32) (i : ℕ) : Bool := coreMask &&& rknpuCoreMask i != 0

/-- The cores `rknpu_job_commit` starts, in order: none for a mask it does not know. -/
def commitCores (coreMask : UInt32) : List ℕ :=
  if coreMask = rknpuCore0Mask then [0]
  else if coreMask = rknpuCore1Mask then [1]
  else if coreMask = rknpuCore2Mask then [2]
  else if coreMask = rknpuCore0Mask ||| rknpuCore1Mask then [0, 1]
  else if coreMask = rknpuCore0Mask ||| rknpuCore1Mask ||| rknpuCore2Mask then [0, 1, 2]
  else []

/-- `use_core_num`, as `rknpu_job_alloc` computes it. -/
def useCoreNum (coreMask : UInt32) : ℕ :=
  ((coreMask &&& rknpuCore0Mask) + ((coreMask &&& rknpuCore1Mask) >>> 1) +
    ((coreMask &&& rknpuCore2Mask) >>> 2)).toNat

/-- `rknpu_get_task_number`, of the arguments and the number of cores it reads. -/
def taskNumber (cfg : Config) (args : Submit) (useCores coreIndex : ℕ) : ℤ :=
  if rknpuMaxCores ≤ coreIndex then 0
  else if 1 < cfg.numIrqs then
    if useCores = 1 ∨ useCores = 2 then toInt32 (args.subcoreTask coreIndex).taskNumber.toNat
    else if useCores = 3 then toInt32 (args.subcoreTask (coreIndex + 2)).taskNumber.toNat
    else toInt32 args.taskNumber.toNat
  else toInt32 args.taskNumber.toNat

/-- `rknpu_get_task_number`. -/
def rknpuGetTaskNumber (cfg : Config) (job : RknpuJob) (coreIndex : ℕ) : ℤ :=
  taskNumber cfg job.args job.useCoreNum coreIndex

/-- The number of batches `rknpu_job_done` compares `submit_count` with. -/
def batches (cfg : Config) (job : RknpuJob) (coreIndex : ℕ) : ℤ :=
  (toInt32 (rknpuGetTaskNumber cfg job coreIndex + cfg.maxSubmitNumber - 1)).tdiv
    cfg.maxSubmitNumber

/-- `rknpu_fuzz_status`: a pair of status bits counts as set when one of them is. -/
def rknpuFuzzStatus (status : UInt32) : UInt32 :=
  (if status &&& 0x3 ≠ 0 then 0x3 else 0) ||| (if status &&& 0xc ≠ 0 then 0xc else 0) |||
    (if status &&& 0x30 ≠ 0 then 0x30 else 0) ||| (if status &&& 0xc0 ≠ 0 then 0xc0 else 0) |||
    (if status &&& 0x300 ≠ 0 then 0x300 else 0) ||| (if status &&& 0xc00 ≠ 0 then 0xc00 else 0)

end RknpuDriver.Job
