import RknpuDriver.Job.Coverage
import Mathlib.Algebra.BigOperators.Group.List.Basic
import Mathlib.Algebra.Ring.Int.Defs

/-! # Queue depths

`task_num` of a core is raised when a job is queued there, and lowered by `rknpu_job_done` and
`rknpu_job_abort`. `rknpu_job_wait` and `rknpu_job_timeout_clean` take jobs from a core and leave it
as it is.

* `backlog`: the tasks of the jobs on a core.
* `leak`: by how much a block takes more from the backlog than from `task_num`.
* `taskNum_exec`: a block changes the difference of the two by that much.
* `taskNum_eq_backlog`: runs whose blocks leak nothing.
* `autoRead_exec`: the blocks that look for the core with the fewest tasks find `coreIndexFrom`.
* `coreIndexFrom_least`: what that gives for the choice of a core.
-/

namespace RknpuDriver.Job
set_option autoImplicit false
open RknpuDriver.Lib

/-- The tasks of the jobs that are on core `c` or wait for it. -/
def backlog (cfg : Config) (dev : Dev) (c : ℕ) : ℤ :=
  ((queueOn dev c).map fun j => rknpuGetTaskNumber cfg (dev.jobs j) c).sum

/-- The tasks that a block takes from core `c`, less those that it takes from `task_num`. -/
def leak (cfg : Config) (dev : Dev) (op : JobOp) (c : ℕ) : ℤ :=
  let core := dev.subcoreDatas c
  let number j := rknpuGetTaskNumber cfg (dev.jobs j) c
  match op with
  | .waitRemove j _ => if c < (dev.jobs j).useCoreNum ∧ j ∈ core.todoList then number j else 0
  | .timeoutClear i _ => if c = i then core.job.elim 0 number else 0
  | .timeoutNext i => if c = i then core.todoList.head?.elim 0 number else 0
  | .doneClear j i => if c = i then core.job.elim 0 number - number j else 0
  | _ => 0

def leaksNothing (cfg : Config) (dev : Dev) (_ : Outcome) (op : JobOp) : Bool :=
  ∀ c < cfg.numIrqs, leak cfg dev op c = 0

def accountingSystem (cfg : Config) : System JobState JobLabel :=
  (jobSystem cfg).guarded fun s a => onBlock (leaksNothing cfg) s a = true

/-- What a block does to `task_num` of core `c`. -/
def taskNumAfter (cfg : Config) (dev : Dev) (op : JobOp) (c : ℕ) : ℤ :=
  let core := dev.subcoreDatas c
  let number j := rknpuGetTaskNumber cfg (dev.jobs j) c
  match op with
  | .enqueue j => if c < cfg.numIrqs ∧ onCore (dev.jobs j).args.coreMask c then
      core.taskNum + number j else core.taskNum
  | .doneClear j i => if c = i then core.taskNum - number j else core.taskNum
  | .abortClear j => if c < cfg.numIrqs ∧ onCore (dev.jobs j).args.coreMask c ∧ core.job = some j ∧
      (dev.jobs j).irqEntry c = false then core.taskNum - number j else core.taskNum
  | _ => core.taskNum

section
variable {cfg : Config} {s t : JobState} {a : JobLabel} {dev : Dev} {o : Outcome} {op : JobOp}
  {eff : Effect} {others : Multiset JobOp} {j c : ℕ}

/-! ## Blocks -/

theorem taskNum_eq (h : jobExec cfg dev o op = some eff) (c : ℕ) :
    (eff.dev.subcoreDatas c).taskNum = taskNumAfter cfg dev op c := by
  cases op <;> grind -ring -linarith -order [taskNumAfter]

theorem sum_queueOn (f : ℕ → ℤ) (dev : Dev) (c : ℕ) : ((queueOn dev c).map f).sum =
    (dev.subcoreDatas c).job.elim 0 f + ((dev.subcoreDatas c).todoList.map f).sum := by
  unfold queueOn
  rw [List.map_append, List.sum_append]
  cases (dev.subcoreDatas c).job <;> simp

theorem sum_map_tail (f : ℕ → ℤ) (l : List ℕ) :
    (l.tail.map f).sum = (l.map f).sum - l.head?.elim 0 f := by
  cases l with
  | nil => rfl
  | cons x l => simp

theorem sum_map_erase (f : ℕ → ℤ) (l : List ℕ) (j : ℕ) :
    ((l.erase j).map f).sum = (l.map f).sum - if j ∈ l then f j else 0 := by
  split_ifs with hj
  · have hperm := (List.perm_cons_erase hj).map f
    rw [hperm.sum_eq, List.map_cons, List.sum_cons]
    omega
  · rw [List.erase_of_not_mem hj, Int.sub_zero]

theorem sum_queueOn_exec (h : jobExec cfg dev o op = some eff) (c : ℕ) :
    (eff.dev.subcoreDatas c).taskNum -
        ((queueOn eff.dev c).map fun j => rknpuGetTaskNumber cfg (dev.jobs j) c).sum =
      (dev.subcoreDatas c).taskNum - backlog cfg dev c + leak cfg dev op c := by
  unfold backlog
  rw [sum_queueOn, sum_queueOn, taskNum_eq h, todoList_eq h, current_eq h]
  obtain ⟨f, hf⟩ : ∃ f : ℕ → ℤ, ∀ j, rknpuGetTaskNumber cfg (dev.jobs j) c = f j :=
    ⟨_, fun _ => rfl⟩
  cases op with
  | enqueue k =>
    simp only [taskNumAfter, todoListAfter, currentAfter, leak, hf]
    split_ifs
    · simp only [List.map_append, List.sum_append, List.map_singleton, List.sum_singleton]
      omega
    · omega
  | pop i =>
    simp only [taskNumAfter, todoListAfter, currentAfter, leak, hf]
    by_cases hi : c = i ∧ (dev.subcoreDatas c).job = none
    · obtain ⟨rfl, hcur⟩ := hi
      simp only [hcur, and_self, if_true, sum_map_tail, Option.elim_none]
      omega
    · have hi' : ¬ (c = i ∧ (dev.subcoreDatas i).job = none) := by
        rintro ⟨rfl, hcur⟩
        exact hi ⟨rfl, hcur⟩
      rw [if_neg hi, if_neg hi']
      omega
  | timeoutNext i =>
    simp only [taskNumAfter, todoListAfter, currentAfter, leak, hf]
    split_ifs
    · rw [sum_map_tail]
      omega
    · omega
  | waitRemove k ret =>
    simp only [taskNumAfter, todoListAfter, currentAfter, leak, hf]
    by_cases hcore : c < (dev.jobs k).useCoreNum
    · simp only [hcore, true_and, if_true, sum_map_erase]
      omega
    · simp only [hcore, false_and, if_false]
      omega
  | doneClear k i | timeoutClear i k =>
    simp only [taskNumAfter, todoListAfter, currentAfter, leak, hf]
    split_ifs
    · simp only [Option.elim_none]
      omega
    · omega
  | abortClear k =>
    simp only [taskNumAfter, todoListAfter, currentAfter, leak, hf]
    split_ifs with hcond
    · rw [hcond.2.2.1]
      simp only [Option.elim_none, Option.elim_some]
      omega
    · omega
  | _ =>
    simp only [taskNumAfter, todoListAfter, currentAfter, leak]
    omega

theorem Known.taskNumber_exec (hk : Known cfg s) (hmem : op ∈ s.todo)
    (heff : jobExec cfg s.dev o op = some eff) (hj : j ∈ queueOn eff.dev c) :
    rknpuGetTaskNumber cfg (eff.dev.jobs j) c = rknpuGetTaskNumber cfg (s.dev.jobs j) c := by
  have hqueued : j ∈ enqueues s.hist ∨ op = .enqueue j := by
    have hheld : Holds eff.dev c j := by
      unfold queueOn at hj
      rw [List.mem_append, Option.mem_toList] at hj
      exact hj.symm
    obtain hold | ⟨hop, -⟩ := holds_exec heff hheld
    · exact Or.inl (hk.taken.held c j hold)
    · exact Or.inr hop
  obtain ⟨hcores, -, hnum, htask⟩ := hk.sameTasks_exec hmem heff hqueued
  unfold rknpuGetTaskNumber taskNumber
  rw [hcores, hnum, htask]

/-- **What a block leaks**: it changes the difference between `task_num` and the backlog by that. -/
theorem taskNum_exec (hk : Known cfg s) (hmem : op ∈ s.todo)
    (heff : jobExec cfg s.dev o op = some eff) (c : ℕ) :
    (eff.dev.subcoreDatas c).taskNum - backlog cfg eff.dev c =
      (s.dev.subcoreDatas c).taskNum - backlog cfg s.dev c + leak cfg s.dev op c := by
  have hmap : ((queueOn eff.dev c).map fun j => rknpuGetTaskNumber cfg (eff.dev.jobs j) c) =
      (queueOn eff.dev c).map fun j => rknpuGetTaskNumber cfg (s.dev.jobs j) c :=
    List.map_congr_left fun j hj => hk.taskNumber_exec hmem heff hj
  rw [← sum_queueOn_exec heff c]
  conv_lhs => rw [backlog, hmap]

theorem backlog_congr (hk : Known cfg s) (hcores : t.dev.subcoreDatas = s.dev.subcoreDatas)
    (hjob : ∀ j < s.dev.numJobs, t.dev.jobs j = s.dev.jobs j) (c : ℕ) :
    backlog cfg t.dev c = backlog cfg s.dev c := by
  have hqueue : queueOn t.dev c = queueOn s.dev c := by
    unfold queueOn
    rw [hcores]
  have hmap : ((queueOn s.dev c).map fun j => rknpuGetTaskNumber cfg (t.dev.jobs j) c) =
      (queueOn s.dev c).map fun j => rknpuGetTaskNumber cfg (s.dev.jobs j) c := by
    refine List.map_congr_left fun j hj => ?_
    unfold queueOn at hj
    rw [List.mem_append, Option.mem_toList] at hj
    rw [hjob j (hk.placed.held c j hj.symm).1.1]
  unfold backlog
  rw [hqueue, hmap]

def Balanced (cfg : Config) (dev : Dev) : Prop :=
  ∀ c < cfg.numIrqs, (dev.subcoreDatas c).taskNum = backlog cfg dev c

theorem Balanced.step (hn : Balanced cfg s.dev) (hk : Known cfg s) (h : Stepped cfg s t a)
    (hok : onBlock (leaksNothing cfg) s a = true) : Balanced cfg t.dev := by
  intro c hc
  have hold := hn c hc
  cases h.moved with
  | submit hmask hdev htodo hhist =>
    have hcores : t.dev.subcoreDatas = s.dev.subcoreDatas := by
      rw [hdev]
      rfl
    rw [backlog_congr hk hcores (fun j hj => ?_), hcores]
    · exact hold
    · rw [hdev, Dev.addJob_jobs, if_neg (Nat.ne_of_lt hj)]
  | exec hnext heff hop hdev htodo hhist =>
    have hnone := of_decide_eq_true ((onBlock_exec hnext).symm.trans hok) c hc
    have hexec := taskNum_exec hk (by simp [hop]) heff c
    rw [hdev]
    omega
  | spawn hm =>
    rw [backlog_congr hk hm.subcoreDatas (fun j _ => by rw [hm.jobs]), hm.subcoreDatas]
    exact hold

theorem balanced_run (hcfg : cfg.Sound) (hs : (accountingSystem cfg).Reachable s) :
    Known cfg s ∧ Balanced cfg s.dev := by
  refine hs.invariant (fun s => Known cfg s ∧ Balanced cfg s.dev) ?_ ?_
  · rintro s ⟨now, rfl⟩
    exact ⟨known_init, fun c _ => rfl⟩
  · rintro s a t ⟨hk, hn⟩ h
    obtain ⟨hok, h⟩ := System.guarded_step.mp h
    exact ⟨hk.step hcfg (stepped h), hn.step hk (stepped h) hok⟩

end

/-! ## The choice of a core -/

/-- The loop of `rknpu_schedule_core_index` over the cores of a list. -/
def coreIndexFrom (dev : Dev) : List ℕ → ℕ → ℤ → ℕ
  | [], coreIndex, _ => coreIndex
  | i :: rest, coreIndex, taskNum =>
    if (dev.subcoreDatas i).taskNum < taskNum then
      coreIndexFrom dev rest i (toInt32 (dev.subcoreDatas i).taskNum)
    else coreIndexFrom dev rest coreIndex taskNum

/-- What `rknpu_schedule_core_index` returns when `task_num` does not change while it runs. -/
def rknpuScheduleCore (cfg : Config) (dev : Dev) : ℕ :=
  coreIndexFrom dev (List.range' 1 (cfg.numIrqs - 1)) 0 (toInt32 (dev.subcoreDatas 0).taskNum)

section
variable {cfg : Config} {s : JobState} {dev : Dev} {o : Outcome} {eff : Effect}
  {i j coreIndex : ℕ} {taskNum : ℤ}

/-- A turn of the loop, or the mask of the core that it has chosen. -/
theorem autoRead_exec (h : jobExec cfg dev o (.autoRead j i coreIndex taskNum) = some eff) :
    (i < cfg.numIrqs ∧ eff.dev = dev ∧ ∃ coreIndex' taskNum',
      eff.calls = [.autoRead j (i + 1) coreIndex' taskNum'] ∧
      coreIndexFrom dev (List.range' (i + 1) (cfg.numIrqs - (i + 1))) coreIndex' taskNum' =
        coreIndexFrom dev (List.range' i (cfg.numIrqs - i)) coreIndex taskNum) ∨
    (eff.dev.jobs j).args.coreMask = rknpuCoreMask
      (coreIndexFrom dev (List.range' i (cfg.numIrqs - i)) coreIndex taskNum) := by
  cases h
  unfold rknpuScheduleCoreIndex
  by_cases hi : i < cfg.numIrqs
  · left
    have hrange : List.range' i (cfg.numIrqs - i) =
        i :: List.range' (i + 1) (cfg.numIrqs - (i + 1)) := by
      rw [← List.range'_succ]
      congr 1
      omega
    rw [if_pos hi, hrange, coreIndexFrom]
    split_ifs
    · exact ⟨hi, rfl, _, _, rfl, rfl⟩
    · exact ⟨hi, rfl, _, _, rfl, rfl⟩
  · right
    rw [if_neg hi, Nat.sub_eq_zero_of_le (Nat.le_of_not_lt hi)]
    simp [coreIndexFrom]

theorem coreIndexFrom_least {l : List ℕ}
    (hfits : ∀ c ∈ l,
      -2 ^ 31 ≤ (dev.subcoreDatas c).taskNum ∧ (dev.subcoreDatas c).taskNum < 2 ^ 31)
    (htask : taskNum = (dev.subcoreDatas coreIndex).taskNum) :
    (coreIndexFrom dev l coreIndex taskNum = coreIndex ∨
        coreIndexFrom dev l coreIndex taskNum ∈ l) ∧
    ∀ c ∈ coreIndex :: l, (dev.subcoreDatas (coreIndexFrom dev l coreIndex taskNum)).taskNum ≤
      (dev.subcoreDatas c).taskNum := by
  induction l generalizing coreIndex taskNum with
  | nil =>
    refine ⟨Or.inl rfl, fun c hc => ?_⟩
    rw [List.mem_singleton.mp hc]
    exact Int.le_refl _
  | cons x rest ih =>
    have hrest := fun c hc => hfits c (List.mem_cons_of_mem x hc)
    obtain ⟨hge, hlt⟩ := hfits x List.mem_cons_self
    unfold coreIndexFrom
    split_ifs with hless
    · obtain ⟨hmem, hle⟩ := ih hrest (toInt32_of_range hge hlt)
      have hx := hle x List.mem_cons_self
      refine ⟨Or.inr (List.mem_cons.mpr hmem), fun c hc => ?_⟩
      obtain rfl | hc := List.mem_cons.mp hc
      · omega
      · exact hle c hc
    · obtain ⟨hmem, hle⟩ := ih hrest htask
      have hcore := hle coreIndex List.mem_cons_self
      refine ⟨hmem.imp_right (List.mem_cons_of_mem x), fun c hc => ?_⟩
      obtain rfl | hc := List.mem_cons.mp hc
      · exact hcore
      · obtain rfl | hc := List.mem_cons.mp hc
        · omega
        · exact hle c (List.mem_cons_of_mem coreIndex hc)

/-- **Queue depths are the backlogs**: in such a run `task_num` of each core is the number of tasks
of its jobs, so it is `0` on a core without jobs, and a job that is left to the scheduler gets a
core with the least backlog, if the backlogs are `int`s. -/
theorem taskNum_eq_backlog (hcfg : cfg ∈ rknpuConfigs) (hs : (accountingSystem cfg).Reachable s) :
    (∀ c < cfg.numIrqs, (s.dev.subcoreDatas c).taskNum = backlog cfg s.dev c) ∧
    (∀ c < cfg.numIrqs, queueOn s.dev c = [] → (s.dev.subcoreDatas c).taskNum = 0) ∧
    ((∀ c < cfg.numIrqs, -2 ^ 31 ≤ backlog cfg s.dev c ∧ backlog cfg s.dev c < 2 ^ 31) →
      rknpuScheduleCore cfg s.dev < cfg.numIrqs ∧ ∀ c < cfg.numIrqs,
        backlog cfg s.dev (rknpuScheduleCore cfg s.dev) ≤ backlog cfg s.dev c) := by
  have hsound := rknpuConfigs_sound hcfg
  obtain ⟨-, hn⟩ := balanced_run hsound hs
  refine ⟨hn, fun c hc hidle => ?_, fun hfits => ?_⟩
  · rw [hn c hc, backlog, hidle]
    rfl
  · have hpos := hsound.numIrqs_pos
    have hlt : ∀ c ∈ List.range' 1 (cfg.numIrqs - 1), c < cfg.numIrqs := by
      intro c hc
      have hrange := List.mem_range'_1.mp hc
      omega
    obtain ⟨hzero, hzero'⟩ := hfits 0 hpos
    rw [← hn 0 hpos] at hzero hzero'
    have hints : ∀ c ∈ List.range' 1 (cfg.numIrqs - 1),
        -2 ^ 31 ≤ (s.dev.subcoreDatas c).taskNum ∧ (s.dev.subcoreDatas c).taskNum < 2 ^ 31 := by
      intro c hc
      rw [hn c (hlt c hc)]
      exact hfits c (hlt c hc)
    obtain ⟨hmem, hle⟩ := coreIndexFrom_least hints (toInt32_of_range hzero hzero')
    have hchosen : rknpuScheduleCore cfg s.dev < cfg.numIrqs := by
      unfold rknpuScheduleCore
      obtain heq | hmem := hmem
      · rw [heq]
        exact hpos
      · exact hlt _ hmem
    refine ⟨hchosen, fun c hc => ?_⟩
    rw [← hn _ hchosen, ← hn c hc]
    refine hle c ?_
    rw [List.mem_cons, List.mem_range'_1]
    omega

end

/-- A job that hangs on core `0`, and one given up by its submitter while it waits for the core. -/
def givenUp : List JobLabel :=
  .submit (oneTask (rknpuJobPc ||| rknpuJobNonblock) rknpuCore0Mask) false true ::
    List.replicate 20 (.exec 0 calm) ++
    .submit (oneTask rknpuJobPc rknpuCore0Mask) false true :: List.replicate 12 (.exec 1 calm) ++
    List.replicate 13 (.exec 1 expired)

theorem taskNum_eq_backlog_hung : ∃ s, (accountingSystem rk3588RknpuConfig).Reachable s ∧
    queueOn s.dev 0 = [0, 1] ∧
      (s.dev.subcoreDatas 0).taskNum = backlog rk3588RknpuConfig s.dev 0 := by
  obtain ⟨s, hs, h⟩ := System.Reachable.of_run_any (S := accountingSystem rk3588RknpuConfig)
    (p := fun s => decide (queueOn s.dev 0 = [0, 1])) (l := givenUp.take 34) ⟨1, rfl⟩
    (by decide +kernel)
  exact ⟨s, hs, of_decide_eq_true h, (taskNum_eq_backlog (by decide) hs).1 0 (by decide)⟩

/-- `rknpu_job_wait` takes the second job from the list, and leaves its task in `task_num`. -/
theorem taskNum_ne_backlog : ∃ s, (jobSystem rk3588RknpuConfig).Reachable s ∧
    s.threads.flatten = [] ∧ queueOn s.dev 0 = [0] ∧ (s.dev.subcoreDatas 0).taskNum = 2 ∧
    backlog rk3588RknpuConfig s.dev 0 = 1 := by
  obtain ⟨s, hs, h⟩ := System.Reachable.of_run_any (S := jobSystem rk3588RknpuConfig)
    (p := fun s => decide (s.threads.flatten = [] ∧ queueOn s.dev 0 = [0] ∧
      (s.dev.subcoreDatas 0).taskNum = 2 ∧ backlog rk3588RknpuConfig s.dev 0 = 1))
    (l := givenUp) ⟨1, rfl⟩ (by decide +kernel)
  exact ⟨s, hs, of_decide_eq_true h⟩

end RknpuDriver.Job
