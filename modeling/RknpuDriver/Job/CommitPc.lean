import RknpuDriver.Job.Blocks
import RknpuDriver.Job.Masks
import RknpuDriver.Lib.Slices
import Mathlib.Data.Nat.Bitwise

/-! # `rknpu_job_subcore_commit_pc`

The function takes the tasks of a core from the arguments by a `switch` of its own, cuts off the
batches that `submit_count` stands for, and programs the rest, up to `max_submit_number` tasks.

* `commitTasks`, `commitWindow`: the tasks of a core, and the window of a batch.
* `pcWrites`: the registers that are written for a batch.
* `commitWindow_eq`, `commitCount_eq`: the batches are the slices of the task range.
* `pcTaskControl_decode`: the fields of `PC_TASK_CONTROL`.
-/

namespace RknpuDriver.Job
set_option autoImplicit false
open RknpuDriver.Lib

abbrev rknpuJobPingpong : UInt32 := 4

abbrev rknpuPcDataExtraAmount : UInt32 := 4

/-- The offset of a register. -/
abbrev Offset := ℕ

abbrev rknpuOffsetPcOpEn : Offset := 0x8
abbrev rknpuOffsetPcDataAddr : Offset := 0x10
abbrev rknpuOffsetPcDataAmount : Offset := 0x14
abbrev rknpuOffsetPcTaskControl : Offset := 0x30
abbrev rknpuOffsetPcDmaBaseAddr : Offset := 0x34
abbrev rknpuOffsetIntMask : Offset := 0x20
abbrev rknpuOffsetIntClear : Offset := 0x24

/-! ## Data -/

/-- `struct rknpu_task`, which is packed. -/
structure RknpuTask where
  flags : UInt32
  opIdx : UInt32
  enableMask : UInt32
  intMask : UInt32
  intClear : UInt32
  intStatus : UInt32
  regcfgAmount : UInt32
  regcfgOffset : UInt32
  regcmdAddr : UInt64
  deriving DecidableEq, Repr

/-- `sizeof(struct rknpu_task)`. -/
abbrev taskSize : ℕ := 40

/-- A device table, with what is read of it to write a batch. -/
structure PcConfig extends Config where
  pcDataAmountScale : UInt32
  pcTaskNumberBits : ℕ
  deriving DecidableEq, Repr

def rk356xPcConfig : PcConfig := ⟨rk356xRknpuConfig, 1, 12⟩
def rk3588PcConfig : PcConfig := ⟨rk3588RknpuConfig, 2, 12⟩
def rk3583PcConfig : PcConfig := ⟨rk3583RknpuConfig, 2, 12⟩
def rv1106PcConfig : PcConfig := ⟨rv1106RknpuConfig, 2, 16⟩
def rk3562PcConfig : PcConfig := ⟨rk3562RknpuConfig, 2, 16⟩
def rk3576PcConfig : PcConfig := ⟨rk3576RknpuConfig, 2, 16⟩
def rv1126bPcConfig : PcConfig := ⟨rv1126bRknpuConfig, 2, 16⟩

def pcConfigs : List PcConfig :=
  [rk356xPcConfig, rk3588PcConfig, rk3583PcConfig, rv1106PcConfig, rk3562PcConfig,
    rk3576PcConfig, rv1126bPcConfig]

/-- The task count of a full batch fills its field of `PC_TASK_CONTROL`, which leaves room for the
mode. -/
structure PcConfig.Sound (pc : PcConfig) : Prop where
  config : pc.toConfig.Sound
  bits_le : pc.pcTaskNumberBits ≤ 29
  max_eq : pc.maxSubmitNumber = 2 ^ pc.pcTaskNumberBits - 1

/-! ## The window of a batch -/

/-- `task_start` and `task_number`, as the function takes them from the arguments. -/
def commitTasks (cfg : Config) (job : RknpuJob) (c : ℕ) : ℤ × ℤ :=
  let ofSubcore (task : SubcoreTask) : ℤ × ℤ :=
    (toInt32 task.taskStart.toNat, toInt32 task.taskNumber.toNat)
  let ofArgs : ℤ × ℤ := (toInt32 job.args.taskStart.toNat, toInt32 job.args.taskNumber.toNat)
  if 1 < cfg.numIrqs then
    if job.useCoreNum = 1 ∨ job.useCoreNum = 2 then ofSubcore (job.args.subcoreTask c)
    else if job.useCoreNum = 3 then ofSubcore (job.args.subcoreTask (c + 2))
    else ofArgs
  else ofArgs

/-- The tasks of a batch. -/
structure Window where
  taskStart : ℤ
  taskNumber : ℤ
  deriving DecidableEq, Repr

def Window.taskEnd (w : Window) : ℤ := toInt32 (w.taskStart + w.taskNumber - 1)

/-- The batch that is committed when `submit_count` is `submitIndex`. -/
def commitWindow (cfg : Config) (job : RknpuJob) (c : ℕ) (submitIndex : ℤ) : Window :=
  let (taskStart, taskNumber) := commitTasks cfg job c
  let taskStart := toInt32 (taskStart + submitIndex * cfg.maxSubmitNumber)
  let taskNumber := toInt32 (taskNumber - submitIndex * cfg.maxSubmitNumber)
  ⟨taskStart, if cfg.maxSubmitNumber < taskNumber then cfg.maxSubmitNumber else taskNumber⟩

/-! ## The registers -/

/-- `((0x6 | task_pp_en) << pc_task_number_bits) | task_number`. -/
def pcTaskControl (pc : PcConfig) (flags : UInt32) (taskNumber : ℤ) : UInt32 :=
  let taskPpEn : UInt32 := if flags &&& rknpuJobPingpong ≠ 0 then 1 else 0
  ((0x6 ||| taskPpEn) <<< UInt32.ofNat pc.pcTaskNumberBits) ||| UInt32.ofInt taskNumber

/-- What the function writes, in order, when it finds its core and the task object: `taskBase` is
the array of tasks, `taskBaseAddr` the field of the arguments. -/
def pcWrites (pc : PcConfig) (taskBase : ℤ → RknpuTask) (taskBaseAddr : UInt64) (job : RknpuJob)
    (c : ℕ) : List (Offset × UInt32) :=
  let w := commitWindow pc.toConfig job c (job.submitCount c)
  let firstTask := taskBase w.taskStart
  let lastTask := taskBase w.taskEnd
  let pointers : List (Offset × UInt32) :=
    if 1 < pc.numIrqs then
      [(0x1004, 0xe + 0x10000000 * UInt32.ofNat c), (0x3004, 0xe + 0x10000000 * UInt32.ofNat c)]
    else []
  pointers ++
    [(rknpuOffsetPcDataAddr, firstTask.regcmdAddr.toUInt32),
      (rknpuOffsetPcDataAmount, (firstTask.regcfgAmount + rknpuPcDataExtraAmount +
        pc.pcDataAmountScale - 1) / pc.pcDataAmountScale - 1),
      (rknpuOffsetIntMask, lastTask.intMask),
      (rknpuOffsetIntClear, firstTask.intMask),
      (rknpuOffsetPcTaskControl, pcTaskControl pc job.args.flags w.taskNumber),
      (rknpuOffsetPcDmaBaseAddr, taskBaseAddr.toUInt32),
      (rknpuOffsetPcOpEn, 0x1),
      (rknpuOffsetPcOpEn, 0x0)]

/-! ## The tables -/

theorem pcConfigs_sound {pc : PcConfig} (h : pc ∈ pcConfigs) : pc.Sound := by
  have hconfig : ∀ pc ∈ pcConfigs, pc.toConfig ∈ rknpuConfigs := by decide
  have hbits : ∀ pc ∈ pcConfigs, pc.pcTaskNumberBits ≤ 29 ∧
      pc.maxSubmitNumber = 2 ^ pc.pcTaskNumberBits - 1 := by decide
  exact ⟨rknpuConfigs_sound (hconfig pc h), (hbits pc h).1, (hbits pc h).2⟩

/-! ## Slices -/

theorem toInt32_of_range {n : ℤ} (h0 : -2 ^ 31 ≤ n) (h : n < 2 ^ 31) : toInt32 n = n := by
  unfold toInt32
  rw [Int.bmod_def]
  omega

theorem toInt32_range (n : ℤ) : -2 ^ 31 ≤ toInt32 n ∧ toInt32 n < 2 ^ 31 := by
  unfold toInt32
  rw [Int.bmod_def]
  omega

section
variable {cfg : Config} {job : RknpuJob} {c : ℕ}

/-- **The two selections agree**: `rknpu_get_task_number` counts the tasks that are committed. -/
theorem commitTasks_eq (hc : c < rknpuMaxCores) :
    commitTasks cfg job c = (taskStart cfg job c, rknpuGetTaskNumber cfg job c) := by
  unfold commitTasks taskStart rknpuGetTaskNumber taskNumber
  rw [if_neg (Nat.not_le.mpr hc)]
  split_ifs <;> rfl

theorem commitWindow_eq_batchWindow (hc : c < rknpuMaxCores) :
    batchWindow cfg job c = ((commitWindow cfg job c (job.submitCount c)).taskStart,
      (commitWindow cfg job c (job.submitCount c)).taskNumber) := by
  unfold commitWindow
  rw [commitTasks_eq hc]
  rfl

/-- The tasks of a core for which no `int` overflows. -/
structure TasksOk (cfg : Config) (job : RknpuJob) (c : ℕ) : Prop where
  pos : 1 ≤ rknpuGetTaskNumber cfg job c
  le : rknpuGetTaskNumber cfg job c ≤ 2 ^ 31 - 1 - cfg.maxSubmitNumber
  end_le : taskStart cfg job c + rknpuGetTaskNumber cfg job c ≤ 2 ^ 31 - 1

/-- The number of batches of a core. -/
def batchCount (cfg : Config) (job : RknpuJob) (c : ℕ) : ℕ :=
  sliceCount (rknpuGetTaskNumber cfg job c).toNat cfg.maxSubmitNumber.toNat

/-- Slice `k` of the tasks of a core. -/
def sliceWindow (cfg : Config) (job : RknpuJob) (c k : ℕ) : Window where
  taskStart := taskStart cfg job c + (k * cfg.maxSubmitNumber.toNat : ℕ)
  taskNumber := sliceLen (rknpuGetTaskNumber cfg job c).toNat cfg.maxSubmitNumber.toNat k

theorem taskStart_ge : -2 ^ 31 ≤ taskStart cfg job c := by
  unfold taskStart
  split_ifs <;> exact (toInt32_range _).1

/-- How many batches of a job are committed on a core: one, and then as long as `rknpu_job_done`
finds `submit_count` below the number of batches. -/
def commitCount (cfg : Config) (job : RknpuJob) (c : ℕ) : ℕ := max 1 (batches cfg job c).toNat

theorem batches_eq (hmax : 0 < cfg.maxSubmitNumber) (hpos : 1 ≤ rknpuGetTaskNumber cfg job c)
    (hle : rknpuGetTaskNumber cfg job c ≤ 2 ^ 31 - cfg.maxSubmitNumber) :
    batches cfg job c = batchCount cfg job c := by
  unfold batches batchCount sliceCount
  rw [toInt32_of_lt (by omega) (by omega), Int.tdiv_eq_ediv_of_nonneg (by omega)]
  rw [Int.natCast_ediv, Int.toNat_of_nonneg (by omega)]
  congr 1
  omega

theorem commitCount_eq (hmax : 0 < cfg.maxSubmitNumber) (hpos : 1 ≤ rknpuGetTaskNumber cfg job c)
    (hle : rknpuGetTaskNumber cfg job c ≤ 2 ^ 31 - cfg.maxSubmitNumber) :
    commitCount cfg job c = batchCount cfg job c := by
  have hone : 0 < batchCount cfg job c := sliceCount_pos (by omega) (by omega)
  unfold commitCount
  rw [batches_eq hmax hpos hle]
  omega

/-- **A batch is a slice** of the task range of its core. -/
theorem commitWindow_eq (hmax : 0 < cfg.maxSubmitNumber) (hc : c < rknpuMaxCores)
    (h : TasksOk cfg job c) {k : ℕ} (hk : k < batchCount cfg job c) :
    commitWindow cfg job c k = sliceWindow cfg job c k := by
  have hpos := h.pos
  have hle := h.le
  have hend := h.end_le
  have hstart : -2 ^ 31 ≤ taskStart cfg job c := taskStart_ge
  have hbegin := (lt_sliceCount (by omega)).mp hk
  have hprod : (k : ℤ) * cfg.maxSubmitNumber = (k * cfg.maxSubmitNumber.toNat : ℕ) := by
    push_cast
    rw [Int.toNat_of_nonneg (by omega)]
  unfold commitWindow sliceWindow sliceLen
  rw [commitTasks_eq hc]
  simp only [hprod]
  generalize k * cfg.maxSubmitNumber.toNat = skipped at hbegin
  rw [toInt32_of_range (by omega) (by omega), toInt32_of_range (by omega) (by omega)]
  congr 1
  split_ifs <;> omega

theorem sliceWindow_taskEnd (hmax : 0 < cfg.maxSubmitNumber) (h : TasksOk cfg job c) {k : ℕ}
    (hk : k < batchCount cfg job c) : (sliceWindow cfg job c k).taskEnd =
      (sliceWindow cfg job c k).taskStart + (sliceWindow cfg job c k).taskNumber - 1 := by
  have hend := h.end_le
  have hpos := h.pos
  have hstart : -2 ^ 31 ≤ taskStart cfg job c := taskStart_ge
  have hle := slice_end_le (by omega) hk
  have hlen := sliceLen_pos (by omega) hk
  unfold Window.taskEnd sliceWindow
  simp only
  rw [toInt32_of_range (by omega) (by omega)]

theorem sliceWindow_taskNumber (hmax : 0 < cfg.maxSubmitNumber) {k : ℕ}
    (hk : k < batchCount cfg job c) : 1 ≤ (sliceWindow cfg job c k).taskNumber ∧
      (sliceWindow cfg job c k).taskNumber ≤ cfg.maxSubmitNumber := by
  have hpos := sliceLen_pos (by omega) hk
  have hle := sliceLen_le (n := (rknpuGetTaskNumber cfg job c).toNat)
    (m := cfg.maxSubmitNumber.toNat) (k := k)
  unfold sliceWindow
  simp only
  omega

theorem sliceWindow_succ (hmax : 0 < cfg.maxSubmitNumber) {k : ℕ}
    (hk : k + 1 < batchCount cfg job c) : (sliceWindow cfg job c (k + 1)).taskStart =
      (sliceWindow cfg job c k).taskStart + (sliceWindow cfg job c k).taskNumber := by
  have hlen := sliceLen_of_succ_lt (by omega) hk
  unfold sliceWindow
  simp only
  rw [hlen, Nat.succ_mul]
  omega

/-- **The batches cover the tasks** of their core, each task once. -/
theorem sliceWindow_cover (hmax : 0 < cfg.maxSubmitNumber) (h : TasksOk cfg job c) (x : ℤ) :
    (taskStart cfg job c ≤ x ∧ x < taskStart cfg job c + rknpuGetTaskNumber cfg job c) ↔
      ∃! k, k < batchCount cfg job c ∧ (sliceWindow cfg job c k).taskStart ≤ x ∧
        x < (sliceWindow cfg job c k).taskStart + (sliceWindow cfg job c k).taskNumber := by
  have hpos := h.pos
  constructor
  · rintro ⟨hge, hlt⟩
    obtain ⟨y, rfl⟩ := Int.le.dest hge
    obtain ⟨k, ⟨hk, hbegin, hend⟩, hunique⟩ := existsUnique_slice (n :=
      (rknpuGetTaskNumber cfg job c).toNat) (m := cfg.maxSubmitNumber.toNat) (x := y) (by omega)
      (by omega)
    refine ⟨k, ⟨hk, ?_, ?_⟩, ?_⟩
    · unfold sliceWindow
      simp only
      omega
    · unfold sliceWindow
      simp only
      omega
    · rintro i ⟨hi, hbegin, hend⟩
      unfold sliceWindow at hbegin hend
      simp only at hbegin hend
      exact hunique i ⟨hi, by omega, by omega⟩
  · rintro ⟨k, ⟨hk, hbegin, hend⟩, -⟩
    have hle := slice_end_le (by omega) hk
    unfold sliceWindow at hbegin hend
    simp only at hbegin hend
    omega

end

/-! ## The fields of `PC_TASK_CONTROL` -/

/-- `0x6 | task_pp_en`. -/
def pcMode (flags : UInt32) : ℕ := if flags &&& rknpuJobPingpong ≠ 0 then 7 else 6

/-- **The register decodes**: above the bits of the task count is the mode, in them the count. -/
theorem pcTaskControl_decode {pc : PcConfig} (hpc : pc.Sound) {flags : UInt32} {n : ℤ} (h0 : 0 ≤ n)
    (hn : n ≤ pc.maxSubmitNumber) :
    (pcTaskControl pc flags n).toNat / 2 ^ pc.pcTaskNumberBits = pcMode flags ∧
      ((pcTaskControl pc flags n).toNat % 2 ^ pc.pcTaskNumberBits : ℕ) = n := by
  obtain ⟨m, rfl⟩ := Int.eq_ofNat_of_zero_le h0
  have hbits := hpc.bits_le
  have hm : m < 2 ^ pc.pcTaskNumberBits := by
    have hmax := hpc.max_eq
    have hcast : ((2 ^ pc.pcTaskNumberBits : ℕ) : ℤ) = 2 ^ pc.pcTaskNumberBits := by norm_cast
    omega
  have hpow : 2 ^ pc.pcTaskNumberBits ≤ 2 ^ 29 := Nat.pow_le_pow_right (by decide) hbits
  have hcount : (UInt32.ofInt (m : ℤ)).toNat = m := by
    have hmod : ((m : ℤ) % 2 ^ 32).toNat = m := by omega
    rw [UInt32.ofInt, hmod]
    exact UInt32.toNat_ofNat_of_lt' (show m < 2 ^ 32 by omega)
  have hvalue : (pcTaskControl pc flags m).toNat = pcMode flags <<< pc.pcTaskNumberBits ||| m := by
    unfold pcTaskControl
    rw [UInt32.toNat_or, hcount, UInt32.toNat_shiftLeft,
      UInt32.toNat_ofNat_of_lt' (by omega : pc.pcTaskNumberBits < 2 ^ 32),
      Nat.mod_eq_of_lt (by omega : pc.pcTaskNumberBits < 32)]
    congr 1
    have hmode : ((0x6 : UInt32) ||| (if flags &&& rknpuJobPingpong ≠ 0 then 1 else 0)).toNat =
        pcMode flags := by
      unfold pcMode
      split_ifs <;> rfl
    rw [hmode, Nat.shiftLeft_eq]
    apply Nat.mod_eq_of_lt
    have hle : pcMode flags ≤ 7 := by
      unfold pcMode
      split_ifs <;> decide
    have hprod := Nat.mul_le_mul hle hpow
    omega
  rw [hvalue, ← Nat.shiftLeft_add_eq_or_of_lt hm, Nat.shiftLeft_eq]
  constructor
  · rw [Nat.mul_comm, Nat.mul_add_div (Nat.two_pow_pos _), Nat.div_eq_of_lt hm, Nat.add_zero]
  · rw [Nat.mul_comm, Nat.mul_add_mod, Nat.mod_eq_of_lt hm]

end RknpuDriver.Job
