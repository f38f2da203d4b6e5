import RknpuDriver.Job.Coverage

/-! # The task buffer

`rknpu_job_subcore_commit_pc` indexes the task object with what user space gives as `task_start` and
`task_number`, and `rknpu_job_wait` writes to the last task of the last batch. `rknpu_submit`
rejects a `task_number` of `0` and compares nothing with the size of the object.

* `Window.Inside`: a batch stays inside the object.
* `Fits`: the tasks of a core for which all batches do.
* `inside_iff`: these are the only ones.
* `submit_inside`: runs of a job whose tasks fit.
-/

namespace RknpuDriver.Job
set_option autoImplicit false
open RknpuDriver.Lib

/-- Entry `i` of `task_base` is wholly inside a task object of `size` bytes. -/
structure InBuffer (size : ℕ) (i : ℤ) : Prop where
  nonneg : 0 ≤ i
  le : (i + 1) * taskSize ≤ size

theorem InBuffer.of_lt {size : ℕ} {i n : ℤ} (h0 : 0 ≤ i) (hi : i < n)
    (hn : n * taskSize ≤ size) : InBuffer size i :=
  ⟨h0, le_trans (Int.mul_le_mul_of_nonneg_right (Int.add_one_le_of_lt hi) (by decide)) hn⟩

/-- The entries that a batch reads are inside the object, and it has a task. -/
structure Window.Inside (size : ℕ) (w : Window) : Prop where
  first : InBuffer size w.taskStart
  last : InBuffer size w.taskEnd
  pos : 1 ≤ w.taskNumber

/-- How many tasks the batches of a core reach: the sum in `rknpu_job_done` overflows for more, and
the job leaves the core after one batch. -/
def reach (cfg : Config) (job : RknpuJob) (c : ℕ) : ℤ :=
  if rknpuGetTaskNumber cfg job c ≤ 2 ^ 31 - cfg.maxSubmitNumber then rknpuGetTaskNumber cfg job c
  else cfg.maxSubmitNumber

/-- The tasks of a core stay inside a task object of `size` bytes. -/
structure Fits (cfg : Config) (size : ℕ) (job : RknpuJob) (c : ℕ) : Prop where
  start : 0 ≤ taskStart cfg job c
  pos : 1 ≤ rknpuGetTaskNumber cfg job c
  end_le : taskStart cfg job c + reach cfg job c ≤ 2 ^ 31
  inside : (taskStart cfg job c + reach cfg job c) * taskSize ≤ size

section
variable {cfg : Config} {job : RknpuJob} {size c k : ℕ}

/-! ## Batches inside the object -/

theorem toInt32_of_nonneg {n : ℤ} (h0 : 0 ≤ n) (h : n < 2 ^ 32) (hn : 0 ≤ toInt32 n) :
    toInt32 n = n := by
  unfold toInt32 at hn ⊢
  rw [Int.bmod_def] at hn ⊢
  omega

theorem taskStart_range (cfg : Config) (job : RknpuJob) (c : ℕ) :
    -2 ^ 31 ≤ taskStart cfg job c ∧ taskStart cfg job c < 2 ^ 31 := by
  unfold taskStart
  split_ifs <;> exact toInt32_range _

theorem taskNumber_range (cfg : Config) (job : RknpuJob) (c : ℕ) :
    -2 ^ 31 ≤ rknpuGetTaskNumber cfg job c ∧ rknpuGetTaskNumber cfg job c < 2 ^ 31 := by
  unfold rknpuGetTaskNumber taskNumber
  split_ifs <;> first | exact toInt32_range _ | decide

theorem batches_neg (hmax : 0 < cfg.maxSubmitNumber) (hle : cfg.maxSubmitNumber ≤ 2 ^ 30)
    (hlarge : ¬ rknpuGetTaskNumber cfg job c ≤ 2 ^ 31 - cfg.maxSubmitNumber) :
    batches cfg job c ≤ 0 := by
  obtain ⟨-, hnum⟩ := taskNumber_range cfg job c
  unfold batches
  have hsum : toInt32 (rknpuGetTaskNumber cfg job c + cfg.maxSubmitNumber - 1) ≤ 0 := by
    unfold toInt32
    rw [Int.bmod_def]
    omega
  have hneg := Int.tdiv_nonneg (Int.neg_nonneg_of_nonpos hsum) hmax.le
  rw [Int.neg_tdiv] at hneg
  exact Int.nonpos_of_neg_nonneg hneg

theorem commitWindow_zero (hc : c < rknpuMaxCores) : commitWindow cfg job c 0 =
    ⟨taskStart cfg job c, min cfg.maxSubmitNumber (rknpuGetTaskNumber cfg job c)⟩ := by
  obtain ⟨hstart, hstart'⟩ := taskStart_range cfg job c
  obtain ⟨hnum, hnum'⟩ := taskNumber_range cfg job c
  unfold commitWindow
  rw [commitTasks_eq hc]
  simp only [Int.zero_mul, Int.add_zero, Int.sub_zero]
  rw [toInt32_of_range hstart hstart', toInt32_of_range hnum hnum']
  congr 1
  split_ifs <;> omega

theorem commitWindow_of_lt (hmax : 0 < cfg.maxSubmitNumber) (hle : cfg.maxSubmitNumber ≤ 2 ^ 30)
    (hc : c < rknpuMaxCores) (hpos : 1 ≤ rknpuGetTaskNumber cfg job c)
    (hk : k < commitCount cfg job c) : k * cfg.maxSubmitNumber < reach cfg job c ∧
      commitWindow cfg job c k = ⟨toInt32 (taskStart cfg job c + k * cfg.maxSubmitNumber),
        min cfg.maxSubmitNumber (reach cfg job c - k * cfg.maxSubmitNumber)⟩ := by
  obtain ⟨-, hnum⟩ := taskNumber_range cfg job c
  by_cases hsmall : rknpuGetTaskNumber cfg job c ≤ 2 ^ 31 - cfg.maxSubmitNumber
  · have hreach : reach cfg job c = rknpuGetTaskNumber cfg job c := if_pos hsmall
    rw [commitCount_eq hmax hpos hsmall] at hk
    have hbegin := (lt_sliceCount (by omega)).mp hk
    have hprod : (k : ℤ) * cfg.maxSubmitNumber = (k * cfg.maxSubmitNumber.toNat : ℕ) := by
      push_cast
      rw [Int.toNat_of_nonneg (by omega)]
    rw [hreach, hprod]
    refine ⟨by omega, ?_⟩
    unfold commitWindow
    rw [commitTasks_eq hc]
    simp only [hprod]
    generalize k * cfg.maxSubmitNumber.toNat = skipped at hbegin
    rw [toInt32_of_range (n := rknpuGetTaskNumber cfg job c - _) (by omega) (by omega)]
    congr 1
    split_ifs <;> omega
  · have hreach : reach cfg job c = cfg.maxSubmitNumber := if_neg hsmall
    have hzero : k = 0 := by
      have hneg := batches_neg hmax hle hsmall
      unfold commitCount at hk
      omega
    rw [hzero]
    obtain ⟨hstart, hstart'⟩ := taskStart_range cfg job c
    rw [hreach, Int.ofNat_zero, Int.zero_mul, Int.add_zero, Int.sub_zero, commitWindow_zero hc,
      toInt32_of_range hstart hstart']
    refine ⟨hmax, ?_⟩
    congr 1
    omega

theorem exists_last (hmax : 0 < cfg.maxSubmitNumber)
    (hpos : 1 ≤ rknpuGetTaskNumber cfg job c) : ∃ k < commitCount cfg job c,
      reach cfg job c ≤ k * cfg.maxSubmitNumber + cfg.maxSubmitNumber := by
  by_cases hsmall : rknpuGetTaskNumber cfg job c ≤ 2 ^ 31 - cfg.maxSubmitNumber
  · have hreach : reach cfg job c = rknpuGetTaskNumber cfg job c := if_pos hsmall
    have hcount : 0 < batchCount cfg job c := sliceCount_pos (by omega) (by omega)
    rw [commitCount_eq hmax hpos hsmall, hreach]
    refine ⟨batchCount cfg job c - 1, by omega, ?_⟩
    have hend : ¬ batchCount cfg job c < batchCount cfg job c := Nat.lt_irrefl _
    unfold batchCount at hend hcount ⊢
    rw [lt_sliceCount (by omega)] at hend
    generalize sliceCount _ _ = n at hend hcount
    obtain ⟨k, rfl⟩ := Nat.exists_eq_succ_of_ne_zero (Nat.ne_of_gt hcount)
    have hprod : (k : ℤ) * cfg.maxSubmitNumber = (k * cfg.maxSubmitNumber.toNat : ℕ) := by
      push_cast
      rw [Int.toNat_of_nonneg (by omega)]
    rw [Nat.succ_mul] at hend
    rw [Nat.succ_sub_one, hprod]
    omega
  · have hreach : reach cfg job c = cfg.maxSubmitNumber := if_neg hsmall
    refine ⟨0, Nat.lt_of_lt_of_le Nat.zero_lt_one (Nat.le_max_left _ _), ?_⟩
    rw [hreach, Int.ofNat_zero, Int.zero_mul, Int.zero_add]

/-- **The batches stay inside the task object** exactly when the tasks fit. -/
theorem inside_iff (hmax : 0 < cfg.maxSubmitNumber) (hle : cfg.maxSubmitNumber ≤ 2 ^ 30)
    (hc : c < rknpuMaxCores) :
    (∀ k < commitCount cfg job c, (commitWindow cfg job c k).Inside size) ↔
      Fits cfg size job c := by
  obtain ⟨hstart, hstart'⟩ := taskStart_range cfg job c
  obtain ⟨hnum, hnum'⟩ := taskNumber_range cfg job c
  constructor
  · intro hall
    have hzero := hall 0 (Nat.lt_of_lt_of_le Nat.zero_lt_one (Nat.le_max_left _ _))
    rw [Int.ofNat_zero, commitWindow_zero hc] at hzero
    have hfirst : 0 ≤ taskStart cfg job c := hzero.first.nonneg
    have hpos : 1 ≤ min cfg.maxSubmitNumber (rknpuGetTaskNumber cfg job c) := hzero.pos
    have hpos : 1 ≤ rknpuGetTaskNumber cfg job c := by omega
    obtain ⟨k, hk, hlast⟩ := exists_last hmax hpos
    obtain ⟨hbegin, hwindow⟩ := commitWindow_of_lt hmax hle hc hpos hk
    have hbatch := hall k hk
    rw [hwindow] at hbatch
    have hreach : reach cfg job c < 2 ^ 31 := by
      unfold reach
      split_ifs <;> omega
    have hskip : 0 ≤ (k : ℤ) * cfg.maxSubmitNumber :=
      Int.mul_nonneg (Int.natCast_nonneg k) hmax.le
    generalize (k : ℤ) * cfg.maxSubmitNumber = skipped at *
    obtain ⟨⟨hbase, -⟩, ⟨hend, hsize⟩, -⟩ := hbatch
    have hlen : min cfg.maxSubmitNumber (reach cfg job c - skipped) =
        reach cfg job c - skipped := by
      omega
    unfold Window.taskEnd at hend hsize
    simp only [hlen] at hbase hend hsize
    rw [toInt32_of_nonneg (by omega) (by omega) hbase] at hend hsize
    have heq := toInt32_of_nonneg (by omega) (by omega) hend
    rw [heq] at hsize
    have hrange := toInt32_range (taskStart cfg job c + skipped + (reach cfg job c - skipped) - 1)
    have hsum : taskStart cfg job c + skipped + (reach cfg job c - skipped) - 1 + 1 =
        taskStart cfg job c + reach cfg job c := by omega
    rw [hsum] at hsize
    exact ⟨hfirst, hpos, by omega, hsize⟩
  · rintro ⟨hfirst, hpos, hend, hsize⟩ k hk
    obtain ⟨hbegin, hwindow⟩ := commitWindow_of_lt hmax hle hc hpos hk
    have hskip : 0 ≤ (k : ℤ) * cfg.maxSubmitNumber :=
      Int.mul_nonneg (Int.natCast_nonneg k) hmax.le
    rw [hwindow]
    generalize (k : ℤ) * cfg.maxSubmitNumber = skipped at *
    rw [toInt32_of_lt (by omega) (by omega)]
    refine ⟨InBuffer.of_lt ?_ ?_ hsize, ?_, ?_⟩
    · show 0 ≤ taskStart cfg job c + skipped
      omega
    · show taskStart cfg job c + skipped < taskStart cfg job c + reach cfg job c
      omega
    · unfold Window.taskEnd
      simp only
      rw [toInt32_of_lt (by omega) (by omega)]
      exact InBuffer.of_lt (by omega) (by omega) hsize
    · show 1 ≤ min _ _
      omega

end

/-! ## Runs -/

/-- `first_task` and `last_task` are the ends of batches that were written. -/
structure Pointed (j : ℕ) (s : JobState) : Prop where
  first : ∀ i, (s.dev.jobs j).firstTask = some i →
    ∃ c, ∃ w ∈ windowsOn j c s.hist, w.taskStart = i
  last : ∀ i, (s.dev.jobs j).lastTask = some i →
    ∃ c, ∃ w ∈ windowsOn j c s.hist, w.taskEnd = i

section
variable {cfg : Config} {s t : JobState} {a : JobLabel} {dev : Dev} {o : Outcome} {op : JobOp}
  {eff : Effect} {others : Multiset JobOp} {j : ℕ}

theorem pointers_of (h : jobExec cfg dev o op = some eff) (j : ℕ) :
    ((eff.dev.jobs j).firstTask = (dev.jobs j).firstTask ∧
      (eff.dev.jobs j).lastTask = (dev.jobs j).lastTask) ∨
    ∃ c w, op = .subcoreCommit j c ∧ windowsOn j c eff.events = [w] ∧
      (eff.dev.jobs j).firstTask = some w.taskStart ∧
      (eff.dev.jobs j).lastTask = some w.taskEnd := by
  cases op with
  | subcoreCommit k c =>
    by_cases hk : k = j
    · subst hk
      by_cases hok : (dev.jobs k).args.flags &&& rknpuJobPc ≠ 0 ∧
          commitError cfg dev o (dev.jobs k) c = none
      · right
        refine ⟨c, _, rfl, (events_windowsOn h k c).trans (if_pos ⟨rfl, hok⟩), ?_⟩
        obtain ⟨hpc, herr⟩ := hok
        cases h
        simp [rknpuJobSubcoreCommit, hpc, herr, Window.taskEnd]
      · left
        cases h
        grind -ring -linarith -order [rknpuJobSubcoreCommit]
    · left
      cases h
      grind -ring -linarith -order [rknpuJobSubcoreCommit]
  | _ => grind -ring -linarith -order

theorem Pointed.append {evs : List Event} (hn : Pointed j s) (hhist : t.hist = s.hist ++ evs)
    (hfirst : (t.dev.jobs j).firstTask = (s.dev.jobs j).firstTask)
    (hlast : (t.dev.jobs j).lastTask = (s.dev.jobs j).lastTask) : Pointed j t := by
  have hkept : ∀ {c w}, w ∈ windowsOn j c s.hist → w ∈ windowsOn j c t.hist := by
    intro c w hw
    rw [hhist, windowsOn_append]
    exact List.mem_append_left _ hw
  refine ⟨fun i hi => ?_, fun i hi => ?_⟩
  · rw [hfirst] at hi
    obtain ⟨c, w, hw, heq⟩ := hn.first i hi
    exact ⟨c, w, hkept hw, heq⟩
  · rw [hlast] at hi
    obtain ⟨c, w, hw, heq⟩ := hn.last i hi
    exact ⟨c, w, hkept hw, heq⟩

theorem Pointed.step (hn : Pointed j s) (h : Stepped cfg s t a) : Pointed j t := by
  cases h.moved with
  | submit hmask hdev htodo hhist =>
    by_cases hnew : j = s.dev.numJobs
    · have hnone : (t.dev.jobs j).firstTask = none ∧ (t.dev.jobs j).lastTask = none := by
        rw [hdev, Dev.addJob_jobs, if_pos hnew]
        exact ⟨rfl, rfl⟩
      refine ⟨fun i hi => ?_, fun i hi => ?_⟩
      · rw [hnone.1] at hi
        cases hi
      · rw [hnone.2] at hi
        cases hi
    · have hjob : t.dev.jobs j = s.dev.jobs j := by
        rw [hdev, Dev.addJob_jobs, if_neg hnew]
      exact hn.append hhist (by rw [hjob]) (by rw [hjob])
  | exec hnext heff hop hdev htodo hhist =>
    obtain ⟨hfirst, hlast⟩ | ⟨c, w, rfl, hw, hfirst, hlast⟩ := pointers_of heff j
    · rw [← hdev] at hfirst hlast
      exact hn.append hhist hfirst hlast
    · have hmem : w ∈ windowsOn j c t.hist := by
        rw [hhist, windowsOn_append, hw]
        exact List.mem_append_right _ (List.mem_singleton_self w)
      rw [← hdev] at hfirst hlast
      refine ⟨fun i hi => ⟨c, w, hmem, ?_⟩, fun i hi => ⟨c, w, hmem, ?_⟩⟩
      · exact Option.some.inj (hfirst.symm.trans hi)
      · exact Option.some.inj (hlast.symm.trans hi)
  | spawn hm =>
    have hjob : t.dev.jobs j = s.dev.jobs j := by rw [hm.jobs]
    exact hn.append (hm.hist.trans (List.append_nil _).symm) (by rw [hjob]) (by rw [hjob])

theorem pointed_run (hs : (jobSystem cfg).Reachable s) : Pointed j s := by
  refine hs.invariant (Pointed j) ?_ fun s a t hn h => hn.step (stepped h)
  rintro s ⟨now, rfl⟩
  refine ⟨fun i hi => ?_, fun i hi => ?_⟩
  · cases hi
  · cases hi

/-- What the driver does with the task object of a job, in a state of a run. -/
structure StaysInside (cfg : Config) (size j : ℕ) (s : JobState) : Prop where
  /-- The batches that were written. -/
  written : ∀ c, ∀ w ∈ windowsOn j c s.hist, w.Inside size
  /-- The batch that is about to be written. -/
  commit : ∀ c, .subcoreCommit j c ∈ s.todo →
    (commitWindow cfg (s.dev.jobs j) c ((s.dev.jobs j).submitCount c)).Inside size
  first : ∀ i, (s.dev.jobs j).firstTask = some i → InBuffer size i
  /-- The entry that `rknpu_job_wait` writes. -/
  last : ∀ i, (s.dev.jobs j).lastTask = some i → InBuffer size i

/-- **A job whose tasks fit stays inside its task object**, and a job that leaves a core fitted
there if all its batches stayed inside. -/
theorem submit_inside (hcfg : cfg ∈ rknpuConfigs) (hs : (chainSystem cfg j).Reachable s)
    (size : ℕ) :
    ((∀ c ∈ coresOf cfg (s.dev.jobs j).args.coreMask, Fits cfg size (s.dev.jobs j) c) →
      StaysInside cfg size j s) ∧
    ∀ c, .doneClear j c ∈ s.todo →
      ((∀ w ∈ windowsOn j c s.hist, w.Inside size) ↔ Fits cfg size (s.dev.jobs j) c) := by
  have hsound := rknpuConfigs_sound hcfg
  have hmax := hsound.maxSubmitNumber_pos
  have hall : ∀ cfg ∈ rknpuConfigs, cfg.maxSubmitNumber ≤ 2 ^ 30 := by decide
  have hle := hall cfg hcfg
  obtain ⟨hk, hi, hn⟩ := chained_run hsound hs
  have hp := pointed_run (j := j) hs.unguarded
  have hcore : ∀ c ∈ coresOf cfg (s.dev.jobs j).args.coreMask, c < rknpuMaxCores :=
    fun c hc => (mem_coresOf.mp hc).1.trans_le hsound.numIrqs_le
  constructor
  · intro hfits
    have hinside : ∀ c ∈ coresOf cfg (s.dev.jobs j).args.coreMask,
        ∀ k < commitCount cfg (s.dev.jobs j) c, (commitWindow cfg (s.dev.jobs j) c k).Inside size :=
      fun c hc => (inside_iff hmax hle (hcore c hc)).mpr (hfits c hc)
    have hwritten : ∀ c, ∀ w ∈ windowsOn j c s.hist, w.Inside size := by
      intro c w hw
      rw [(hn c).windows] at hw
      obtain ⟨k, hstart, rfl⟩ := List.mem_map.mp hw
      have hlt := List.mem_range.mp hstart
      obtain ⟨hcommit, hc⟩ := (hn c).begun (by omega)
      have hbound := (hn c).bounded (hk.queued_of_commit hcommit)
      exact hinside c hc k (by omega)
    refine ⟨hwritten, fun c hmem => ?_, fun i hi => ?_, fun i hi => ?_⟩
    · obtain ⟨hindex, hlt⟩ := (hn c).submitCount_eq hk hi hmem
      rw [hindex]
      exact hinside c (hk.taken.core _ hmem j c rfl) _ hlt
    · obtain ⟨c, w, hw, rfl⟩ := hp.first i hi
      exact (hwritten c w hw).first
    · obtain ⟨c, w, hw, rfl⟩ := hp.last i hi
      exact (hwritten c w hw).last
  · intro c hleave
    have hc := hk.taken.core _ hleave j c rfl
    have hall := (hn c).leaves hleave
    have hcounted := (hn c).counted
    have hbound := (hn c).bounded (hk.taken.worked _ hleave j rfl).1
    have hstarts : startsOn j c s.hist = commitCount cfg (s.dev.jobs j) c := by omega
    rw [← inside_iff hmax hle (hcore c hc), (hn c).windows, hstarts]
    simp

end

theorem submit_inside_two_batches : ∃ s, (chainSystem rk3588RknpuConfig 0).Reachable s ∧
    .doneClear 0 0 ∈ s.todo ∧ StaysInside rk3588RknpuConfig (5007 * taskSize) 0 s ∧
    ((∀ w ∈ windowsOn 0 0 s.hist, w.Inside (5007 * taskSize)) ↔
      Fits rk3588RknpuConfig (5007 * taskSize) (s.dev.jobs 0) 0) := by
  obtain ⟨s, hs, h⟩ := System.Reachable.of_run_any (S := chainSystem rk3588RknpuConfig 0)
    (p := fun s => decide (coresOf rk3588RknpuConfig (s.dev.jobs 0).args.coreMask = [0] ∧
      (rknpuGetTaskNumber rk3588RknpuConfig (s.dev.jobs 0) 0 = 5000 ∧
        taskStart rk3588RknpuConfig (s.dev.jobs 0) 0 = 7) ∧
      reach rk3588RknpuConfig (s.dev.jobs 0) 0 = 5000 ∧ .doneClear 0 0 ∈ s.threads.flatten))
    (l := twoBatches) ⟨1, rfl⟩ (by decide +kernel)
  obtain ⟨hcores, ⟨hnum, hstart⟩, hreach, hclear⟩ := of_decide_eq_true h
  have hleave : .doneClear 0 0 ∈ s.todo := Multiset.mem_coe.mpr hclear
  obtain ⟨hinside, hexact⟩ := submit_inside (by decide) hs (5007 * taskSize)
  refine ⟨s, hs, hleave, hinside fun c hc => ?_, hexact 0 hleave⟩
  rw [hcores, List.mem_singleton] at hc
  subst hc
  refine ⟨?_, ?_, ?_, ?_⟩
  · rw [hstart]
    decide
  · rw [hnum]
    decide
  · rw [hstart, hreach]
    decide
  · rw [hstart, hreach]
    decide

/-- `rknpu_submit` checks `task_number`, and the cores of this device take their tasks from
`subcore_task`: a count of `0` puts the last task before the first entry of the object. -/
theorem submit_before_start : ∃ s, (chainSystem rk3588RknpuConfig 0).Reachable s ∧
    (⟨0, 0⟩ : Window) ∈ windowsOn 0 0 s.hist ∧ (s.dev.jobs 0).lastTask = some (-1) ∧
    ∀ size, ¬ StaysInside rk3588RknpuConfig size 0 s := by
  obtain ⟨s, hs, h⟩ := System.Reachable.of_run_any (S := chainSystem rk3588RknpuConfig 0)
    (p := fun s => decide ((⟨0, 0⟩ : Window) ∈ windowsOn 0 0 s.hist ∧
      (s.dev.jobs 0).lastTask = some (-1)))
    (l := .submit { oneTask rknpuJobPc rknpuCore0Mask with subcoreTask := fun _ => ⟨0, 0⟩ }
      false true :: List.replicate 13 (.exec 0 calm)) ⟨1, rfl⟩ (by decide +kernel)
  obtain ⟨hwindow, hlast⟩ := of_decide_eq_true h
  refine ⟨s, hs, hwindow, hlast, fun size hinside => ?_⟩
  have hneg := (hinside.last (-1) hlast).nonneg
  omega

end RknpuDriver.Job
