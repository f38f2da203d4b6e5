import RknpuDriver.Job.Positions
import RknpuDriver.Job.Undisturbed

/-! # Undisturbed runs are gang scheduling

Every block of an undisturbed run is a step of gang scheduling (`exec_sim`). `Calm` is what has
to be known of the state for that, with the invariant of gang scheduling.
-/

namespace RknpuDriver.Job
set_option autoImplicit false
open RknpuDriver.Lib

/-! ## Jobs on their way to the lists -/

/-- The counters of a job that no core has taken. -/
structure Fresh (job : RknpuJob) : Prop where
  runCount : job.runCount = job.useCoreNum
  interruptCount : job.interruptCount = job.useCoreNum
  submitCount : ∀ c, job.submitCount c = 0

/-- A job for the scheduler to choose a core for. -/
structure Unsettled (job : RknpuJob) : Prop where
  pc : job.args.flags &&& rknpuJobPc ≠ 0
  auto : job.args.coreMask = rknpuCoreAutoMask
  submitCount : ∀ c, job.submitCount c = 0

/-- A job with cores that `rknpu_job_commit` starts. -/
structure Settled (cfg : Config) (job : RknpuJob) : Prop where
  pc : job.args.flags &&& rknpuJobPc ≠ 0
  cores : commitCores job.args.coreMask ≠ []
  mask : job.args.coreMask ≤ cfg.coreMask
  useCoreNum : job.useCoreNum = useCoreNum job.args.coreMask

theorem Settled.mem_cores {cfg : Config} {job : RknpuJob} (hcfg : cfg.Sound)
    (hjob : Settled cfg job) {c : ℕ} :
    c ∈ (toData cfg job).cores ↔ c < cfg.numIrqs ∧ onCore job.args.coreMask c = true := by
  rw [toData, mem_commitCores hjob.cores]
  exact (and_iff_right_of_imp (hcfg.masked _ hjob.mask c)).symm

theorem Settled.ready {cfg : Config} {job : RknpuJob} (hjob : Settled cfg job)
    (hfresh : Fresh job) : (toData cfg job).Ready where
  cores_ne := hjob.cores
  nodup := nodup_commitCores _
  runCount := by
    rw [toData, length_commitCores hjob.cores, ← hjob.useCoreNum]
    exact hfresh.runCount
  interruptCount := by
    rw [toData, length_commitCores hjob.cores, ← hjob.useCoreNum]
    exact hfresh.interruptCount
  submitCount := hfresh.submitCount
  batches _ _ := le_max_left _ _

def Prepared (cfg : Config) (job : RknpuJob) : JobOp → Prop
  | .fenceIn _ | .fenceOut _ | .fenceInit _ _ | .dispatch _ | .schedule _ =>
    Unsettled job ∨ Settled cfg job ∧ Fresh job
  | .autoRead _ _ coreIndex _ => Unsettled job ∧ coreIndex < cfg.numIrqs
  | .domainGet _ | .enqueue _ => Settled cfg job ∧ Fresh job
  | _ => True

/-- The blocks for timeouts and resets are never reached, and those that have waited for a job to
be done, or give one up, have their reason: a wait whose timeout does not fit an `int` can end in
an error though the job is done. -/
def Quiet (dev : Dev) : JobOp → Prop
  | .timeoutClear _ _ | .timeoutWork _ _ | .timeoutNext _ | .waitRemove _ _
  | .resetAssert | .resetDeassert | .resetEnd => False
  | .waitCheck j _ | .waitLast j _ | .waitEnd j _ | .waitRet j _
  | .blockRet j | .setRet j | .fenceSignal j | .asyncWork j => (dev.jobs j).done = true
  | .scanMask j _ => (dev.jobs j).args.flags &&& rknpuJobPc ≠ 0
  | .abortClear j => (dev.jobs j).ret ≠ 0 ∨ (dev.jobs j).done = true
  | _ => True

structure Calm (cfg : Config) (s : JobState) : Prop where
  placed : Placed cfg s
  inv : (s.gang cfg).Inv
  awake : s.dev.softReseting = false
  prepared : ∀ op ∈ s.todo, ∀ j, before op = some j → Prepared cfg (s.dev.jobs j) op
  settled : ∀ j ∈ enqueues s.hist, Settled cfg (s.dev.jobs j) ∧ Past s j
  quiet : ∀ op ∈ s.todo, Quiet s.dev op
  failed : ∀ j, (s.dev.jobs j).ret ≠ 0 →
    (j ∉ enqueues s.hist ∨ (s.dev.jobs j).done = true) ∧ Past s j
  done : ∀ j, (s.dev.jobs j).done = true ↔ .done j ∈ s.hist
  programmed : ∀ j c, 0 < startsOn j c s.hist → (s.dev.jobs j).lastTask ≠ none
  counted : ∀ j c, 0 ≤ (s.dev.jobs j).submitCount c

section
variable {cfg : Config} {s t : JobState} {o : Outcome} {op : JobOp} {eff : Effect}
  {r : Multiset (Task ℕ ℕ)}

theorem toData_congr {job job' : RknpuJob} (hrun : job'.runCount = job.runCount)
    (hint : job'.interruptCount = job.interruptCount)
    (hsub : job'.submitCount = job.submitCount)
    (hmask : job'.args.coreMask = job.args.coreMask) (hcores : job'.useCoreNum = job.useCoreNum)
    (hnum : job'.args.taskNumber = job.args.taskNumber)
    (htask : job'.args.subcoreTask = job.args.subcoreTask) :
    toData cfg job' = toData cfg job := by
  unfold toData batches rknpuGetTaskNumber taskNumber
  rw [hrun, hint, hsub, hmask, hcores, hnum, htask]

theorem unseen_exec {dev : Dev} {hist : List Event} (h : jobExec cfg dev o op = some eff)
    (hop : unseen op = true) (tasks : Multiset (Task ℕ ℕ)) :
    toGang cfg eff.dev tasks (hist ++ eff.events) = toGang cfg dev tasks hist := by
  apply toGang_congr
  · intro j
    obtain ⟨hrun, hint, hsub, hmask, hcores, hnum, htask⟩ := counters_eq (j := j) h
      (fun _ _ _ hcon => by rw [hcon] at hop; cases hop)
      (fun hcon => by rw [hcon] at hop; cases hop)
      (fun _ hcon => by rw [hcon] at hop; cases hop)
      (fun hcon => by rw [hcon] at hop; cases hop)
    exact toData_congr hrun hint hsub hmask hcores hnum htask
  · intro c
    rw [todoList_eq h]
    cases op <;> first | rfl | cases hop
  · intro c
    rw [current_eq h]
    cases op <;> first | rfl | cases hop
  · apply running_eq h
    · rintro rfl
      cases hop
    · rintro j c rfl
      cases hop
  · rfl
  · exact fun e he => events_silent h hop he

theorem toGang_modifyJob (dev : Dev) (j : ℕ) (f : RknpuJob → RknpuJob)
    (tasks : Multiset (Task ℕ ℕ)) (hist : List Event) :
    toGang cfg (dev.modifyJob j f) tasks hist =
      (toGang cfg dev tasks hist).setData j (toData cfg (f (dev.jobs j))) := by
  apply Gang.ext
  case data =>
    funext i
    simp only [toGang, Dev.modifyJob_jobs, Gang.setData_data]
    split_ifs with h
    · rw [h]
    · rfl
  all_goals rfl

/-! ## The blocks that gang scheduling sees -/

variable {dev : Dev} {hist : List Event} {j c : ℕ}

theorem enqueue_sim (hcfg : cfg.Sound) (hjob : Settled cfg (dev.jobs j))
    (hfresh : Fresh (dev.jobs j)) :
    Gang.Step (toGang cfg dev (.prepare j ::ₘ r) hist)
      (toGang cfg (scheduleEnqueue cfg dev j).dev
        (callTasks cfg (scheduleEnqueue cfg dev j).calls + r)
        (hist ++ (scheduleEnqueue cfg dev j).events)) := by
  have hcores : ∀ {i}, i ∈ (toData cfg (dev.jobs j)).cores ↔
      i < cfg.numIrqs ∧ onCore (dev.jobs j).args.coreMask i = true := hjob.mem_cores hcfg
  have hstep := Gang.Step.enqueue (s := toGang cfg dev (.prepare j ::ₘ r) hist) j
    (List.range' 0 cfg.numIrqs) r rfl (hjob.ready hfresh) fun i hi => by
      rw [List.mem_range'_1]
      exact ⟨Nat.zero_le i, by simpa using (hcores.mp hi).1⟩
  convert hstep using 1
  apply Gang.ext
  case queue =>
    funext i
    simp only [toGang, scheduleEnqueue, hcores]
    split_ifs <;> rfl
  case current =>
    funext i
    simp only [toGang, scheduleEnqueue]
    split_ifs <;> rfl
  case tasks => simp [toGang, scheduleEnqueue, toTasks]
  case order => simp [toGang, scheduleEnqueue, enqueues]
  case popped =>
    funext i
    simp [toGang, scheduleEnqueue, popsOn]
  case starts =>
    funext i d
    simp [toGang, scheduleEnqueue, startsOn]
  all_goals
    simp [toGang, scheduleEnqueue]

theorem toTasks_scanMask (hc : c < cfg.numIrqs) :
    toTasks cfg (.scanMask j c) = .scan j c ::ₘ toTasks cfg (.scanMask j (c + 1)) := by
  have hlen : cfg.numIrqs - c = cfg.numIrqs - (c + 1) + 1 := by omega
  simp only [toTasks]
  rw [hlen, List.range'_succ, List.map_cons, Multiset.cons_coe]

theorem scan_sim (hcfg : cfg.Sound) (hjob : c < cfg.numIrqs → Settled cfg (dev.jobs j)) :
    Gang.Step (toGang cfg dev (toTasks cfg (.scanMask j c) + r) hist)
      (toGang cfg (scheduleScanMask cfg dev j c).dev
        (callTasks cfg (scheduleScanMask cfg dev j c).calls + r)
        (hist ++ (scheduleScanMask cfg dev j c).events)) := by
  unfold scheduleScanMask Effect.goto
  by_cases hc : c < cfg.numIrqs
  · have htasks : toTasks cfg (.scanMask j c) + r =
        .scan j c ::ₘ (toTasks cfg (.scanMask j (c + 1)) + r) := by
      rw [toTasks_scanMask hc, Multiset.cons_add]
    have hmem : c ∈ (toData cfg (dev.jobs j)).cores ↔ onCore (dev.jobs j).args.coreMask c = true :=
      ((hjob hc).mem_cores hcfg).trans (and_iff_right hc)
    convert Gang.Step.scan (s := toGang cfg dev (toTasks cfg (.scanMask j c) + r) hist) j c _
      htasks using 1
    rw [if_pos hc]
    apply Gang.ext
    case tasks =>
      have hrest : callTasks cfg [.scanMask j (c + 1)] = toTasks cfg (.scanMask j (c + 1)) := by
        rw [callTasks_cons, callTasks_nil, add_zero]
      simp only [toGang, hmem]
      rw [callTasks_append, hrest, add_assoc]
      split_ifs <;> rfl
    all_goals simp [toGang]
  · have hzero : toTasks cfg (.scanMask j c) = 0 := by
      have hlen : cfg.numIrqs - c = 0 := by omega
      simp [toTasks, hlen]
    have hcalls : callTasks cfg [submitScheduled (dev.jobs j).args j] = 0 := by
      unfold submitScheduled
      split_ifs <;> simp [toTasks]
    rw [if_neg hc, hzero, List.append_nil, hcalls]
    exact .stutter

theorem pop_sim :
    Gang.Step (toGang cfg dev (.pop c ::ₘ r) hist)
      (toGang cfg (jobNextPop dev c).dev (callTasks cfg (jobNextPop dev c).calls + r)
        (hist ++ (jobNextPop dev c).events)) := by
  have hnone : (dev.subcoreDatas c).job ≠ none ∨ (dev.subcoreDatas c).todoList = [] →
      Gang.Step (toGang cfg dev (.pop c ::ₘ r) hist)
        (toGang cfg dev (callTasks cfg [] + r) (hist ++ [])) := by
    intro h
    rw [callTasks_nil, zero_add, List.append_nil]
    exact .popNone c r rfl h
  unfold jobNextPop Effect.goto
  by_cases hcur : (dev.subcoreDatas c).job = none
  · rw [if_neg (not_not.mpr hcur)]
    split
    · rename_i hlist
      exact hnone (Or.inr hlist)
    · rename_i j rest hlist
      convert Gang.Step.pop (s := toGang cfg dev (.pop c ::ₘ r) hist) c j rest r rfl hcur hlist
        using 1
      rw [toGang_modifyJob]
      apply Gang.ext
      case data => exact funext (Gang.setData_congr id rfl)
      case queue =>
        funext i
        simp only [toGang, Gang.setData, Dev.modifyCore_subcoreDatas, Function.update_apply]
        split_ifs <;> rfl
      case current =>
        funext i
        simp only [toGang, Gang.setData, Dev.modifyCore_subcoreDatas, Function.update_apply]
        split_ifs <;> rfl
      case tasks => simp [toGang, Gang.setData, toTasks]
      case order => simp [toGang, Gang.setData, enqueues]
      case popped =>
        funext i
        simp only [toGang, Gang.setData, popsOn_append, Function.update_apply]
        by_cases hi : i = c
        · subst hi
          simp [popsOn]
        · simp [popsOn, hi, Ne.symm hi]
      case starts =>
        funext i d
        simp [toGang, Gang.setData, startsOn]
      case running => rfl
      all_goals simp [toGang, Gang.setData]
  · rw [if_pos hcur]
    exact hnone (Or.inl hcur)

theorem dec_sim :
    Gang.Step (toGang cfg dev (.dec j ::ₘ r) hist)
      (toGang cfg (jobNextDec dev j).dev (callTasks cfg (jobNextDec dev j).calls + r)
        (hist ++ (jobNextDec dev j).events)) := by
  convert Gang.Step.dec (s := toGang cfg dev (.dec j ::ₘ r) hist) j r rfl using 1
  simp only [jobNextDec, Effect.goto, toGang_modifyJob, List.append_nil]
  apply Gang.ext
  case tasks =>
    by_cases hrun : (dev.jobs j).runCount - 1 = 0 <;>
      simp [toGang, Gang.setData, toData, toTasks, hrun]
  all_goals rfl

theorem commit_sim :
    Gang.Step (toGang cfg dev (.commit j ::ₘ r) hist)
      (toGang cfg (rknpuJobCommit dev j).dev (callTasks cfg (rknpuJobCommit dev j).calls + r)
        (hist ++ (rknpuJobCommit dev j).events)) := by
  have hcalls : ∀ l : List ℕ, callTasks cfg (l.map (.subcoreCommit j)) =
      (l.map (.start j) : List (Task ℕ ℕ)) := by
    intro l
    induction l with
    | nil => rfl
    | cons c l ih =>
      rw [List.map_cons, callTasks_cons, ih, List.map_cons, ← Multiset.cons_coe]
      exact Multiset.singleton_add _ _
  convert Gang.Step.commit (s := toGang cfg dev (.commit j ::ₘ r) hist) j r rfl using 1
  apply Gang.ext
  case tasks => simp only [toGang, rknpuJobCommit, hcalls, toData]
  case order => simp [toGang, rknpuJobCommit, enqueues]
  case popped =>
    funext i
    simp [toGang, rknpuJobCommit, popsOn]
  case commits =>
    funext i
    by_cases hi : i = j
    · subst hi
      simp [toGang, rknpuJobCommit]
    · simp [toGang, rknpuJobCommit, hi, Ne.symm hi]
  case starts =>
    funext i d
    simp [toGang, rknpuJobCommit, startsOn]
  all_goals simp [toGang, rknpuJobCommit]

theorem start_sim {o : Outcome} (hpc : (dev.jobs j).args.flags &&& rknpuJobPc ≠ 0)
    (hok : commitError cfg dev o (dev.jobs j) c = none) :
    Gang.Step (toGang cfg dev (.start j c ::ₘ r) hist)
      (toGang cfg (rknpuJobSubcoreCommit cfg dev o j c).dev
        (callTasks cfg (rknpuJobSubcoreCommit cfg dev o j c).calls + r)
        (hist ++ (rknpuJobSubcoreCommit cfg dev o j c).events)) := by
  have haddr : (dev.jobs j).args.taskObjAddr ≠ 0 := by
    intro hcon
    unfold commitError at hok
    rw [hcon] at hok
    split_ifs at hok with h0 h1 h2
    exact h2 (Or.inl rfl)
  convert Gang.Step.start (s := toGang cfg dev (.start j c ::ₘ r) hist) j c r rfl using 1
  simp only [rknpuJobSubcoreCommit, if_neg hpc, hok, if_neg haddr]
  apply Gang.ext
  case data =>
    funext i
    simp only [toGang, Dev.setRunning_jobs, Dev.modifyJob_jobs]
    split_ifs with h
    · rfl
    · rfl
  case running =>
    funext i
    simp [toGang, Function.update_apply]
  case tasks => simp [toGang]
  case order => simp [toGang, enqueues]
  case popped =>
    funext i
    simp [toGang, popsOn]
  case starts =>
    funext i d
    by_cases hi : i = j
    · subst hi
      by_cases hd : d = c
      · subst hd
        simp [toGang, startsOn]
      · simp [toGang, startsOn, hd, Ne.symm hd]
    · simp [toGang, startsOn, hi, Ne.symm hi]
  all_goals simp [toGang]

theorem irqEntry_sim :
    Gang.Step (toGang cfg dev (.irq c ::ₘ r) hist)
      (toGang cfg (rknpuIrqHandler dev c).dev (callTasks cfg (rknpuIrqHandler dev c).calls + r)
        (hist ++ (rknpuIrqHandler dev c).events)) := by
  unfold rknpuIrqHandler Effect.goto
  split
  · rename_i hcur
    convert Gang.Step.irqNone (s := toGang cfg dev (.irq c ::ₘ r) hist) c r rfl hcur using 1
    apply Gang.ext
    all_goals simp [toGang, toTasks]
  · rename_i j hcur
    convert Gang.Step.irq (s := toGang cfg dev (.irq c ::ₘ r) hist) c j r rfl hcur using 1
    rw [toGang_modifyJob]
    apply Gang.ext
    case data => exact funext (Gang.setData_congr id rfl)
    all_goals simp [toGang, Gang.setData, toTasks]

theorem doneCount_sim (hcount : 0 ≤ (dev.jobs j).submitCount c) :
    Gang.Step (toGang cfg dev (.complete j c ::ₘ r) hist)
      (toGang cfg (rknpuJobDone cfg dev j c).dev
        (callTasks cfg (rknpuJobDone cfg dev j c).calls + r)
        (hist ++ (rknpuJobDone cfg dev j c).events)) := by
  convert Gang.Step.complete (s := toGang cfg dev (.complete j c ::ₘ r) hist) j c r rfl using 1
  have hlt : (dev.jobs j).submitCount c + 1 < max 1 (batches cfg (dev.jobs j) c) ↔
      (dev.jobs j).submitCount c + 1 < batches cfg (dev.jobs j) c := by
    rw [lt_max_iff]
    exact or_iff_right (by omega)
  simp only [rknpuJobDone, toGang_modifyJob]
  apply Gang.ext
  case data =>
    funext i
    rw [Gang.setData_data, Gang.setData_data]
    by_cases h : i = j
    · rw [if_pos h, if_pos h]
      have hsub : (fun d => if d = c then (dev.jobs j).submitCount d + 1
          else (dev.jobs j).submitCount d) =
          Function.update (dev.jobs j).submitCount c ((dev.jobs j).submitCount c + 1) := by
        funext d
        by_cases hd : d = c
        · subst hd
          simp
        · simp [hd]
      simp only [toData, hsub]
      rfl
    · rw [if_neg h, if_neg h]
      rfl
  case tasks =>
    by_cases h : (dev.jobs j).submitCount c + 1 < batches cfg (dev.jobs j) c <;>
      simp [toGang, Gang.setData, toData, toTasks, hlt, h]
  case order => simp [toGang, Gang.setData, enqueues]
  case popped =>
    funext i
    simp [toGang, Gang.setData, popsOn]
  case starts =>
    funext i d
    simp [toGang, Gang.setData, startsOn]
  all_goals simp [toGang, Gang.setData]

theorem doneClear_sim :
    Gang.Step (toGang cfg dev (.clear j c ::ₘ r) hist)
      (toGang cfg (jobDoneClear cfg dev j c).dev
        (callTasks cfg (jobDoneClear cfg dev j c).calls + r)
        (hist ++ (jobDoneClear cfg dev j c).events)) := by
  convert Gang.Step.clear (s := toGang cfg dev (.clear j c ::ₘ r) hist) j c r rfl using 1
  simp only [jobDoneClear, Effect.goto, toGang_modifyJob, List.append_nil]
  apply Gang.ext
  case data => exact funext (Gang.setData_congr id rfl)
  case queue =>
    funext i
    simp only [toGang, Gang.setData, Dev.modifyCore_subcoreDatas]
    split_ifs <;> rfl
  case current =>
    funext i
    simp only [toGang, Gang.setData, Dev.modifyCore_subcoreDatas, Function.update_apply]
    split_ifs <;> rfl
  case tasks => simp [toGang, Gang.setData, toTasks]
  all_goals rfl

theorem doneDec_sim :
    Gang.Step (toGang cfg dev (.finish j ::ₘ r) hist)
      (toGang cfg (jobDoneDec dev j).dev (callTasks cfg (jobDoneDec dev j).calls + r)
        (hist ++ (jobDoneDec dev j).events)) := by
  convert Gang.Step.finish (s := toGang cfg dev (.finish j ::ₘ r) hist) j r rfl using 1
  simp only [jobDoneDec, Effect.goto, toGang_modifyJob, List.append_nil]
  apply Gang.ext
  case tasks =>
    by_cases hint : (dev.jobs j).interruptCount - 1 = 0 <;>
      simp [toGang, Gang.setData, toData, toTasks, hint]
  all_goals rfl

theorem setDone_sim :
    Gang.Step (toGang cfg dev (.setDone j ::ₘ r) hist)
      (toGang cfg (jobSetDone dev j).dev (callTasks cfg (jobSetDone dev j).calls + r)
        (hist ++ (jobSetDone dev j).events)) := by
  convert Gang.Step.setDone (s := toGang cfg dev (.setDone j ::ₘ r) hist) j r rfl using 1
  simp only [jobSetDone, toGang_modifyJob]
  apply Gang.ext
  case data => exact funext (Gang.setData_congr id rfl)
  case order => simp [toGang, Gang.setData, enqueues]
  case popped =>
    funext i
    simp [toGang, Gang.setData, popsOn]
  case dones =>
    funext i
    by_cases hi : i = j
    · subst hi
      simp [toGang, Gang.setData]
    · simp [toGang, Gang.setData, hi, Ne.symm hi]
  case starts =>
    funext i d
    simp [toGang, Gang.setData, startsOn]
  all_goals simp [toGang, Gang.setData, toTasks]

theorem autoRead_sim {i coreIndex : ℕ} {taskNum : ℤ}
    (hj : j ∉ enqueues hist) :
    Gang.Step (toGang cfg dev (.prepare j ::ₘ r) hist)
      (toGang cfg (rknpuScheduleCoreIndex cfg dev j i coreIndex taskNum).dev
        (callTasks cfg (rknpuScheduleCoreIndex cfg dev j i coreIndex taskNum).calls + r)
        (hist ++ (rknpuScheduleCoreIndex cfg dev j i coreIndex taskNum).events)) := by
  unfold rknpuScheduleCoreIndex Effect.goto
  split_ifs
  · rw [List.append_nil]
    exact .stutter
  · rw [List.append_nil]
    exact .stutter
  · rw [List.append_nil, toGang_modifyJob]
    exact .adjust j _ hj

/-! ## All blocks -/

theorem toTasks_eq_zero (hop : scheduling op = false) (hb : before op = none) :
    toTasks cfg op = 0 := by
  cases op <;> first | rfl | exact (Bool.false_ne_true hop.symm).elim | simp [before] at hb

theorem callTasks_eq_zero {calls : List JobOp} (h : ∀ x ∈ calls, toTasks cfg x = 0) :
    callTasks cfg calls = 0 := by
  induction calls with
  | nil => rfl
  | cons x calls ih =>
    rw [callTasks_cons, h x List.mem_cons_self, zero_add]
    exact ih fun y hy => h y (List.mem_cons_of_mem _ hy)

theorem unseen_sim (h : jobExec cfg dev o op = some eff) (hop : unseen op = true)
    (htasks : callTasks cfg eff.calls = toTasks cfg op ∨
      callTasks cfg eff.calls = 0 ∧ ∃ j, toTasks cfg op = {.prepare j}) :
    Gang.Step (toGang cfg dev (toTasks cfg op + r) hist)
      (toGang cfg eff.dev (callTasks cfg eff.calls + r) (hist ++ eff.events)) := by
  rw [unseen_exec h hop]
  rcases htasks with htasks | ⟨htasks, j, hj⟩
  · rw [htasks]
    exact .stutter
  · rw [htasks, hj, zero_add]
    exact .drop j r (Multiset.singleton_add _ r)

/-- No core has the job, so that nothing is cleared. -/
theorem abortClear_sim (heff : jobExec cfg dev o (.abortClear j) = some eff)
    (hnone : ∀ c, (dev.subcoreDatas c).job ≠ some j) :
    Gang.Step (toGang cfg dev (toTasks cfg (.abortClear j) + r) hist)
      (toGang cfg eff.dev (callTasks cfg eff.calls + r) (hist ++ eff.events)) := by
  have hsame : toGang cfg eff.dev (callTasks cfg eff.calls + r) (hist ++ eff.events) =
      toGang cfg dev (0 + r) hist := by
    apply toGang_congr
    · cases heff
      exact fun _ => rfl
    · intro c
      rw [todoList_eq heff]
      rfl
    · intro c
      rw [current_eq heff]
      simp only [currentAfter, hnone, false_and, and_false, if_false]
    · exact running_eq heff (by simp) (by simp)
    · cases heff
      rw [callTasks_eq_zero]
      simp [jobAbortClear, toTasks]
    · cases heff
      simp [jobAbortClear, silent]
  rw [hsame]
  exact .stutter

theorem Calm.mem_order (hs : Calm cfg s) (hj : (s.dev.jobs j).done = true) :
    0 < (s.gang cfg).dones j ∧ j ∈ enqueues s.hist := by
  have hdone : 0 < (s.gang cfg).dones j := List.count_pos_iff.mpr ((hs.done j).mp hj)
  exact ⟨hdone, (hs.inv.finished (Nat.lt_of_lt_of_le hdone (Nat.le_add_right _ _))).1⟩

/-- A job that was never queued, or is done, is on no core. -/
theorem Calm.not_holds (hs : Calm cfg s) (hj : j ∉ enqueues s.hist ∨ (s.dev.jobs j).done = true)
    (c : ℕ) : ¬ Holds s.dev c j := by
  intro hc
  have horder : j ∈ enqueues s.hist ∧ c ∈ ((s.gang cfg).data j).cores := by
    rcases hc with hc | hc
    · exact hs.inv.lined.mem_queue hc
    · obtain ⟨hmem, hcore, -⟩ := hs.inv.lined.current (c := c) hc
      exact ⟨hmem, hcore⟩
  have hdone := hj.resolve_left (not_not.mpr horder.1)
  have hfinished := hs.inv.finished
    (Nat.lt_of_lt_of_le (hs.mem_order hdone).1 (Nat.le_add_right _ _))
  obtain ⟨hqueue, hcurrent⟩ := hs.inv.counted.gone hfinished.1 hfinished.2 horder.2
  exact hc.elim hqueue hcurrent

theorem exec_sim (hcfg : cfg.Sound) (hs : Calm cfg s) {others : Multiset JobOp}
    (hop : s.todo = op ::ₘ others) (heff : jobExec cfg s.dev o op = some eff)
    (hok : smooth cfg s.dev o op = true) :
    Gang.Step (s.gang cfg) (toGang cfg eff.dev
      (callTasks cfg eff.calls + others.bind (toTasks cfg)) (s.hist ++ eff.events)) := by
  have hmem : op ∈ s.todo := by simp [hop]
  have hgang : s.gang cfg =
      toGang cfg s.dev (toTasks cfg op + others.bind (toTasks cfg)) s.hist := by
    rw [JobState.gang, hop, Multiset.cons_bind]
  have hsettled : ∀ {j}, (∃ x ∈ (s.gang cfg).tasks, Gang.queuedJob x = some j) →
      Settled cfg (s.dev.jobs j) := by
    rintro j ⟨x, hx, hj⟩
    exact (hs.settled j (hs.inv.lined.named x hx j hj)).1
  have hinv := hs.inv
  rw [hgang] at hinv hsettled ⊢
  cases op with
  | enqueue j =>
    obtain ⟨hjob, hfresh⟩ := hs.prepared _ hmem j rfl
    cases heff
    exact enqueue_sim hcfg hjob hfresh
  | autoRead j i coreIndex taskNum =>
    cases heff
    exact autoRead_sim (hinv.lined.fresh j (by simp [toGang, toTasks]))
  | scanMask j c =>
    cases heff
    refine scan_sim hcfg fun hc => hsettled ⟨.scan j c, ?_, rfl⟩
    rw [toTasks_scanMask hc]
    simp [toGang]
  | pop c =>
    cases heff
    exact pop_sim
  | decRunCount j =>
    cases heff
    exact dec_sim
  | commit j =>
    cases heff
    exact commit_sim
  | subcoreCommit j c =>
    have hjob := hsettled ⟨.start j c, by simp [toGang, toTasks], rfl⟩
    cases heff
    exact start_sim hjob.pc (by simpa [smooth] using hok)
  | irqEntry c =>
    cases heff
    exact irqEntry_sim
  | doneCount j c =>
    cases heff
    exact doneCount_sim (hs.counted j c)
  | doneClear j c =>
    cases heff
    exact doneClear_sim
  | doneDec j =>
    cases heff
    exact doneDec_sim
  | setDone j =>
    cases heff
    exact setDone_sim
  | abortClear j =>
    have hthrough : j ∉ enqueues s.hist ∨ (s.dev.jobs j).done = true := by
      rcases hs.quiet _ hmem with hret | hdone
      · exact (hs.failed j hret).1
      · exact Or.inr hdone
    exact abortClear_sim heff fun c hc => hs.not_holds hthrough c (Or.inr hc)
  | fenceIn j =>
    refine unseen_sim heff rfl ?_
    cases heff
    unfold submitFenceIn Effect.goto
    split_ifs <;> simp [toTasks]
  | fenceOut j =>
    refine unseen_sim heff rfl ?_
    cases heff
    unfold submitFenceOut Effect.goto
    split_ifs <;> simp [toTasks]
  | fenceInit j seqno =>
    refine unseen_sim heff rfl (Or.inl ?_)
    cases heff
    simp [rknpuFenceAlloc, toTasks]
  | dispatch j =>
    refine unseen_sim heff rfl (Or.inl ?_)
    cases heff
    simp only [submitDispatch, Effect.goto]
    split_ifs <;> simp [toTasks]
  | schedule j =>
    refine unseen_sim heff rfl (Or.inl ?_)
    cases heff
    unfold rknpuJobSchedule Effect.goto
    split_ifs <;> simp [toTasks]
  | domainGet j =>
    refine unseen_sim heff rfl ?_
    cases heff
    unfold scheduleDomainGet submitScheduled Effect.goto
    split_ifs <;> simp [toTasks]
  | next c =>
    refine unseen_sim heff rfl (Or.inl ?_)
    cases heff
    unfold rknpuJobNext Effect.goto
    rw [hs.awake]
    simp [toTasks]
  | irqStatus j c =>
    refine unseen_sim heff rfl (Or.inl ?_)
    cases heff
    have hmatch : rknpuFuzzStatus o.status = (s.dev.jobs j).intMask c := by
      simpa [smooth] using hok
    unfold irqHandlerStatus Effect.goto
    rw [if_neg (not_not.mpr hmatch)]
    simp [toTasks]
  | timeoutClear _ _ | timeoutNext _ | waitRemove _ _ | resetDeassert =>
    exact (hs.quiet _ hmem).elim
  | _ =>
    refine unseen_sim heff rfl (Or.inl ?_)
    refine callTasks_eq_zero fun x hx => toTasks_eq_zero (calls_scheduling heff rfl rfl hx) ?_
    cases hb : before x with
    | none => rfl
    | some j => cases calls_before heff hx hb

end
end RknpuDriver.Job
