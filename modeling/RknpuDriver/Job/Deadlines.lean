import RknpuDriver.Job.Effects

/-! # Timeouts

`args->timeout` is in milliseconds, as `rknpu_job_wait` takes it. Two tests give a job up:
`rknpu_job_timeout_clean` compares the microseconds since `timestamp` with `args->timeout`, and
`continue_wait` compares those since `hw_commit_time` with `args->timeout * 1000`, an `u32`.

* `Patient`: neither gives the job up before the timeout.
* `patient_iff`: the clock readings for which that holds.
-/

namespace RknpuDriver.Job
set_option autoImplicit false
open RknpuDriver.Lib

/-- The timeout of job `j` has passed since `start`. -/
def passed (dev : Dev) (j start : ℕ) : Prop :=
  (dev.jobs j).args.timeout.toNat * 1000000 ≤ dev.now - start

/-- A job is given up only after its timeout. -/
structure Patient (cfg : Config) (dev : Dev) (j : ℕ) : Prop where
  clean : ∀ coreMask i o eff, jobExec cfg dev o (.timeoutCheck coreMask i j) = some eff →
    .timeoutClear i j ∈ eff.calls → passed dev j (dev.jobs j).timestamp
  wait : ∀ waitCount o eff, jobExec cfg dev o (.waitCheck j waitCount) = some eff →
    .waitLast j 0 ∈ eff.calls → passed dev j (dev.jobs j).hwCommitTime

/-- No start time of a job is in the future. -/
def Clocked (dev : Dev) : Prop :=
  ∀ j, (dev.jobs j).timestamp ≤ dev.now ∧ (dev.jobs j).hwCommitTime ≤ dev.now

/-! ## Readings of the clock -/

section
variable {cfg : Config} {dev : Dev} {o : Outcome} {op : JobOp} {eff : Effect} {j : ℕ}

theorem ktimeUsDelta_of_le {later earlier : ℕ} (h : earlier ≤ later) :
    ktimeUsDelta later earlier = ((later - earlier) / 1000 : ℕ) := by
  unfold ktimeUsDelta
  rw [Int.tdiv_eq_ediv_of_nonneg (by omega)]
  omega

theorem timeoutHit_iff (h : (dev.jobs j).timestamp ≤ dev.now) : timeoutHit dev j = true ↔
    (dev.jobs j).args.timeout.toNat * 1000 ≤ dev.now - (dev.jobs j).timestamp := by
  unfold timeoutHit
  rw [ktimeUsDelta_of_le h, decide_eq_true_iff]
  omega

theorem continueWait_iff (h : (dev.jobs j).hwCommitTime ≤ dev.now) :
    continueWait dev (dev.jobs j) = false ↔ (dev.jobs j).hwCommitTime ≠ 0 ∧
      (dev.jobs j).args.timeout.toNat * 1000 % 2 ^ 32 * 1000 ≤
        dev.now - (dev.jobs j).hwCommitTime := by
  have hmul : ((dev.jobs j).args.timeout * 1000).toNat =
      (dev.jobs j).args.timeout.toNat * 1000 % 2 ^ 32 := UInt32.toNat_mul _ _
  unfold continueWait
  split_ifs with hzero
  · simp [hzero]
  · rw [ktimeUsDelta_of_le h, hmul, decide_eq_false_iff_not]
    omega

theorem mem_timeoutCleanCheck {coreMask : UInt32} {i : ℕ} :
    .timeoutClear i j ∈ (timeoutCleanCheck dev coreMask i j).calls ↔ timeoutHit dev j = true := by
  unfold timeoutCleanCheck
  split_ifs with hhit <;> simp [hhit]

theorem mem_waitContinue {waitCount : ℕ} :
    .waitLast j 0 ∈ (waitContinue dev j waitCount).calls ↔
      continueWait dev (dev.jobs j) = false := by
  unfold waitContinue
  split_ifs with hwait <;> simp [hwait]

/-! ## Runs -/

attribute [grind =] Dev.modifyJob_now Dev.modifyCore_now Dev.setRunning_now

theorem timestamp_eq (h : jobExec cfg dev o op = some eff) (j : ℕ) :
    (eff.dev.jobs j).timestamp = (dev.jobs j).timestamp := by
  cases op <;> grind -ring -linarith -order

theorem now_eq (h : jobExec cfg dev o op = some eff) : eff.dev.now = dev.now := by
  cases op <;> grind -ring -linarith -order

theorem hwCommitTime_of (h : jobExec cfg dev o op = some eff) (j : ℕ) :
    (eff.dev.jobs j).hwCommitTime = (dev.jobs j).hwCommitTime ∨
      (eff.dev.jobs j).hwCommitTime = dev.now := by
  cases op <;> grind -ring -linarith -order

end

section
variable {cfg : Config} {s t : JobState} {a : JobLabel}

theorem Clocked.later {dev dev' : Dev} (hdev : Clocked dev) (hjobs : dev'.jobs = dev.jobs)
    (hnow : dev.now ≤ dev'.now) : Clocked dev' := by
  intro j
  obtain ⟨htimestamp, hcommit⟩ := hdev j
  rw [hjobs]
  exact ⟨htimestamp.trans hnow, hcommit.trans hnow⟩

theorem Clocked.step (hs : Clocked s.dev) (h : Stepped cfg s t a) : Clocked t.dev := by
  cases h with
  | refused ht =>
    rw [ht]
    exact hs
  | submit hmask hdev htodo hhist =>
    intro j
    rw [hdev, Dev.addJob_jobs, Dev.addJob_now]
    split_ifs
    · exact ⟨Nat.le_refl _, Nat.zero_le _⟩
    · exact hs j
  | exec hnext heff hop hdev htodo hhist =>
    intro j
    obtain ⟨htimestamp, hcommit⟩ := hs j
    rw [hdev, now_eq heff, timestamp_eq heff]
    refine ⟨htimestamp, ?_⟩
    obtain heq | heq := hwCommitTime_of heff j
    · rw [heq]
      exact hcommit
    · exact Nat.le_of_eq heq
  | irq hc hrunning hdev htodo hhist =>
    refine hs.later ?_ ?_ <;> rw [hdev] <;> split_ifs <;> rfl
  | runWork hj hdev htodo hhist =>
    rw [hdev]
    exact hs
  | actReset hdev htodo hhist | timer hdev htodo hhist =>
    rw [hdev]
    exact hs
  | tick hdev htodo hhist =>
    rw [hdev]
    exact hs.later rfl (Nat.le_add_right _ _)

theorem clocked_run (hs : (jobSystem cfg).Reachable s) : Clocked s.dev := by
  refine hs.invariant (fun s => Clocked s.dev) ?_ fun s a t hs h => hs.step (stepped h)
  rintro s ⟨now, rfl⟩ j
  exact ⟨Nat.zero_le _, Nat.zero_le _⟩

/-- The times at which no test gives a job up too early. -/
theorem patient_iff (hs : (jobSystem cfg).Reachable s) (j : ℕ) : Patient cfg s.dev j ↔
    (s.dev.now - (s.dev.jobs j).timestamp < (s.dev.jobs j).args.timeout.toNat * 1000 ∨
      passed s.dev j (s.dev.jobs j).timestamp) ∧
    ((s.dev.jobs j).hwCommitTime = 0 ∨
      s.dev.now - (s.dev.jobs j).hwCommitTime <
        (s.dev.jobs j).args.timeout.toNat * 1000 % 2 ^ 32 * 1000 ∨
      passed s.dev j (s.dev.jobs j).hwCommitTime) := by
  obtain ⟨htimestamp, hcommit⟩ := clocked_run hs j
  constructor
  · rintro ⟨hclean, hwait⟩
    constructor
    · by_cases hhit : timeoutHit s.dev j = true
      · exact Or.inr (hclean 0 0 calm _ rfl (mem_timeoutCleanCheck.mpr hhit))
      · rw [timeoutHit_iff htimestamp] at hhit
        exact Or.inl (by omega)
    · by_cases hgive : continueWait s.dev (s.dev.jobs j) = false
      · exact Or.inr (Or.inr (hwait 0 calm _ rfl (mem_waitContinue.mpr hgive)))
      · rw [continueWait_iff hcommit] at hgive
        omega
  · rintro ⟨hclean, hwait⟩
    refine ⟨fun coreMask i o eff h hmem => ?_, fun waitCount o eff h hmem => ?_⟩
    · cases h
      rw [mem_timeoutCleanCheck, timeoutHit_iff htimestamp] at hmem
      exact hclean.resolve_left (by omega)
    · cases h
      rw [mem_waitContinue, continueWait_iff hcommit] at hmem
      obtain ⟨hzero, hle⟩ := hmem
      exact (hwait.resolve_left hzero).resolve_left (by omega)

/-- A job with one task and the given timeout. -/
def timedTask (timeout : UInt32) : Submit :=
  { oneTask rknpuJobPc rknpuCoreAutoMask with timeout := timeout }

theorem exists_hasty (cfg : Config) {timeout : UInt32} (ht : timeout ≠ 0) :
    ∃ s, (jobSystem cfg).Reachable s ∧ (s.dev.jobs 0).args.timeout = timeout ∧
      ¬ Patient cfg s.dev 0 := by
  have hpos : timeout.toNat ≠ 0 := fun hzero => ht (UInt32.toNat_inj.mp hzero)
  have haccept : (jobSystem cfg).step ⟨.probed 0, [], []⟩ (.submit (timedTask timeout) false true) =
      some ⟨(Dev.probed 0).addJob (rknpuJobAlloc (.probed 0) (timedTask timeout) false),
        [[.fenceIn 0]], []⟩ := by
    simp [jobSystem, jobStep, rknpuSubmit, timedTask, oneTask, Dev.probed]
  have hs := (System.Reachable.init (S := jobSystem cfg) ⟨0, rfl⟩).step haccept
  have hs := hs.step (a := .tick (timeout.toNat * 1000)) rfl
  refine ⟨_, hs, rfl, fun hpatient => ?_⟩
  obtain hlt | hpassed := ((patient_iff hs 0).mp hpatient).1
  · have hlt : 0 + timeout.toNat * 1000 - 0 < timeout.toNat * 1000 := hlt
    omega
  · have hle : timeout.toNat * 1000000 ≤ 0 + timeout.toNat * 1000 - 0 := hpassed
    omega

/-- **When the timeouts are kept**: only a timeout of `0` always is. The others are, unless a test
is made between `args->timeout` microseconds and milliseconds after `timestamp`, or between the
product that overflows and the timeout after `hw_commit_time`. -/
theorem timeouts_kept (cfg : Config) (timeout : UInt32) :
    ((∀ s, (jobSystem cfg).Reachable s → ∀ j, (s.dev.jobs j).args.timeout = timeout →
      Patient cfg s.dev j) ↔ timeout = 0) ∧
    ∀ s, (jobSystem cfg).Reachable s → ∀ j, (s.dev.jobs j).args.timeout = timeout →
      (Patient cfg s.dev j ↔
        (s.dev.now - (s.dev.jobs j).timestamp < timeout.toNat * 1000 ∨
          passed s.dev j (s.dev.jobs j).timestamp) ∧
        ((s.dev.jobs j).hwCommitTime = 0 ∨
          s.dev.now - (s.dev.jobs j).hwCommitTime < timeout.toNat * 1000 % 2 ^ 32 * 1000 ∨
          passed s.dev j (s.dev.jobs j).hwCommitTime)) := by
  refine ⟨⟨fun hall => ?_, fun hzero s hs j ht => ?_⟩, fun s hs j ht => ?_⟩
  · by_contra hne
    obtain ⟨s, hs, ht, hhasty⟩ := exists_hasty cfg hne
    exact hhasty (hall s hs 0 ht)
  · have hpassed : ∀ start, passed s.dev j start := by
      intro start
      unfold passed
      rw [ht, hzero]
      exact Nat.zero_le _
    exact (patient_iff hs j).mpr ⟨Or.inr (hpassed _), Or.inr (Or.inr (hpassed _))⟩
  · rw [← ht]
    exact patient_iff hs j

end

/-- A job of one second that is cleaned after two milliseconds. -/
theorem timeouts_hasty : ∃ s, (jobSystem rk3588RknpuConfig).Reachable s ∧
    .timeoutClear 0 0 ∈ s.threads.flatten ∧ (s.dev.jobs 0).args.timeout = 1000 ∧
    s.dev.now - (s.dev.jobs 0).timestamp = 2000000 ∧ ¬ Patient rk3588RknpuConfig s.dev 0 := by
  obtain ⟨s, hs, h⟩ := System.Reachable.of_run_any (S := jobSystem rk3588RknpuConfig)
    (p := fun s => decide (.timeoutClear 0 0 ∈ s.threads.flatten ∧
      (s.dev.jobs 0).args.timeout = 1000 ∧ s.dev.now - (s.dev.jobs 0).timestamp = 2000000))
    (l := .submit (oneTask rknpuJobPc rknpuCore0Mask) false true ::
      List.replicate 15 (.exec 0 calm) ++
      .tick 2000000 ::
      .submit (oneTask (rknpuJobPc ||| rknpuJobNonblock) rknpuCore0Mask) false true ::
      List.replicate 5 (.exec 1 calm)) ⟨1, rfl⟩ (by decide +kernel)
  obtain ⟨hclear, htimeout, helapsed⟩ := of_decide_eq_true h
  refine ⟨s, hs, hclear, htimeout, helapsed, fun hpatient => ?_⟩
  obtain hlt | hpassed := ((patient_iff hs 0).mp hpatient).1
  · rw [htimeout, helapsed] at hlt
    revert hlt
    decide
  · unfold passed at hpassed
    rw [htimeout, helapsed] at hpassed
    revert hpassed
    decide

end RknpuDriver.Job
