import RknpuDriver.Job.Calm

/-! # Safety and progress of the scheduler

What gang scheduling gives for undisturbed runs of the job code: `scheduler_safe` says that jobs
are committed, started and finished in order and once, `cores_deadlock_free` that jobs with
several cores do not wait for each other in a circle.
-/

namespace RknpuDriver.Job
set_option autoImplicit false
open RknpuDriver.Lib

/-! ## Task counts -/

/-- A job that is queued has between `1` and `INT_MAX - max_submit_number` tasks on each of its
cores. -/
def counted (cfg : Config) (dev : Dev) (_ : Outcome) : JobOp → Bool
  | .enqueue j => ∀ c ∈ commitCores (dev.jobs j).args.coreMask,
      countOk cfg (dev.jobs j).args (dev.jobs j).useCoreNum c = true
  | _ => true

def countedSystem (cfg : Config) : System JobState JobLabel :=
  (undisturbedSystem cfg).guarded fun s a => onBlock (counted cfg) s a = true

/-- `submit_count` counts the interrupts. -/
structure Tally (cfg : Config) (s : JobState) : Prop where
  completes : ∀ j c, (completesOn j c s.hist : ℤ) = (s.dev.jobs j).submitCount c
  fresh : ∀ j, j ∉ enqueues s.hist → ∀ c, completesOn j c s.hist = 0
  counts : ∀ j ∈ enqueues s.hist, ∀ c ∈ commitCores (s.dev.jobs j).args.coreMask,
    countOk cfg (s.dev.jobs j).args (s.dev.jobs j).useCoreNum c = true

section
variable {cfg : Config} {s t : JobState} {a : JobLabel}

theorem countOk_congr {args args' : Submit} (hnum : args'.taskNumber = args.taskNumber)
    (htask : args'.subcoreTask = args.subcoreTask) (useCores c : ℕ) :
    countOk cfg args' useCores c = countOk cfg args useCores c := by
  unfold countOk taskNumber
  rw [hnum, htask]

theorem Tally.exec (hs : Calm cfg s) (hn : Tally cfg s) {o : Outcome} {op : JobOp} {eff : Effect}
    (hmem : op ∈ s.todo) (heff : jobExec cfg s.dev o op = some eff) (hdev : t.dev = eff.dev)
    (hhist : t.hist = s.hist ++ eff.events) (hok : counted cfg s.dev o op = true) :
    Tally cfg t := by
  have hcompletes : ∀ j c, completesOn j c t.hist =
      completesOn j c s.hist + if op = .doneCount j c then 1 else 0 := by
    intro j c
    rw [← events_complete heff j c, hhist]
    exact List.count_append
  refine ⟨fun j c => ?_, fun j hj c => ?_, fun j hj c hc => ?_⟩
  · rw [hcompletes, hdev, submitCount_eq heff, ← hn.completes]
    split_ifs <;> rfl
  · rw [hhist, enqueues_append, List.mem_append, not_or] at hj
    rw [hcompletes, hn.fresh j hj.1, Nat.zero_add, if_neg]
    rintro rfl
    exact hj.1 (hs.inv.lined.named (.complete j c)
      (mem_gang_tasks.mpr ⟨_, hmem, Multiset.mem_singleton_self _⟩) j rfl)
  · rw [hdev] at hc ⊢
    rw [hhist, enqueues_append, List.mem_append, events_enqueue heff] at hj
    have hauto : ∀ i c n, op ≠ .autoRead j i c n := by
      rintro i c n rfl
      rcases hj with hj | hj
      · exact (hs.settled j hj).2.2 _ hmem rfl
      · cases hj
    obtain ⟨hmask, hcores⟩ := cores_eq heff hauto
    obtain ⟨hnum, htask⟩ := taskCounts_eq heff j
    rw [hmask] at hc
    rw [hcores, countOk_congr hnum htask]
    rcases hj with hj | rfl
    · exact hn.counts j hj c hc
    · simp only [counted, decide_eq_true_eq] at hok
      exact hok c hc

theorem Tally.step (hs : Calm cfg s) (hn : Tally cfg s) (h : Stepped cfg s t a)
    (hok : onBlock (counted cfg) s a = true) : Tally cfg t := by
  have hsame : t.dev.jobs = s.dev.jobs → t.hist = s.hist → Tally cfg t := by
    intro hjobs hhist
    refine ⟨?_, ?_, ?_⟩
    · rw [hjobs, hhist]
      exact hn.completes
    · rw [hhist]
      exact hn.fresh
    · rw [hjobs, hhist]
      exact hn.counts
  cases h with
  | refused ht =>
    rw [ht]
    exact hn
  | @submit args useDrmGem hmask hdev htodo hhist =>
    have hgets := OnlyGets.of_submit hhist
    have hunknown : s.dev.numJobs ∉ enqueues s.hist :=
      fun hcon => Nat.lt_irrefl _ (hs.settled _ hcon).2.1
    refine ⟨fun j c => ?_, fun j hj c => ?_, fun j hj => ?_⟩
    · rw [hgets.completesOn, hdev, Dev.addJob_jobs]
      split_ifs with hj
      · rw [hj, hn.fresh _ hunknown]
        rfl
      · exact hn.completes j c
    · rw [hgets.completesOn]
      exact hn.fresh j (hgets.enqueues ▸ hj) c
    · rw [hgets.enqueues] at hj
      rw [hdev, Dev.addJob_jobs, if_neg (Nat.ne_of_lt (hs.settled j hj).2.1)]
      exact hn.counts j hj
  | exec hnext heff hop hdev htodo hhist =>
    rw [onBlock_exec hnext] at hok
    exact hn.exec hs (by simp [hop]) heff hdev hhist hok
  | irq hc hrunning hdev htodo hhist =>
    refine hsame ?_ hhist
    rw [hdev]
    split_ifs <;> rfl
  | _ =>
    rename_i hdev htodo hhist
    exact hsame (by rw [hdev]) hhist

theorem tally (hcfg : cfg.Sound) (hs : (countedSystem cfg).Reachable s) :
    Calm cfg s ∧ Tally cfg s := by
  refine hs.invariant (fun s => Calm cfg s ∧ Tally cfg s) ?_ ?_
  · rintro s ⟨now, rfl⟩
    exact ⟨calm_init, fun _ _ => rfl, fun _ _ _ => rfl, fun _ hj => (List.not_mem_nil hj).elim⟩
  · intro s a t hs h
    obtain ⟨hcounted, h⟩ := System.guarded_step.mp h
    obtain ⟨hok, h⟩ := System.guarded_step.mp h
    exact ⟨hs.1.step hcfg (stepped h) hok, hs.2.step hs.1 (stepped h) hcounted⟩

/-! ## Safety -/

/-- In what order, and how often, jobs are committed, started and finished. -/
structure SchedulerSafe (cfg : Config) (s : JobState) : Prop where
  commit_once : ∀ j, s.hist.count (.commit j) + s.todo.count (.commit j) ≤ 1
  commit_current : ∀ j, .commit j ∈ s.todo → ∀ c < cfg.numIrqs,
    onCore (s.dev.jobs j).args.coreMask c = true → (s.dev.subcoreDatas c).job = some j
  start_current : ∀ j c, .subcoreCommit j c ∈ s.todo → (s.dev.subcoreDatas c).job = some j
  start_idle : ∀ j c, .subcoreCommit j c ∈ s.todo →
    s.dev.running c = none ∧ ∀ i, startsOn i c s.hist = completesOn i c s.hist
  enqueued_once : (enqueues s.hist).Nodup
  fifo : ∀ c < cfg.numIrqs, popsOn c s.hist ++ (s.dev.subcoreDatas c).todoList =
    (enqueues s.hist).filter fun j => onCore (s.dev.jobs j).args.coreMask c
  done_once : ∀ j, s.hist.count (.done j) + s.todo.count (.setDone j) ≤ 1
  done_iff : ∀ j, (s.dev.jobs j).done = true ↔ s.hist.count (.done j) = 1
  done_last : ∀ j, .setDone j ∈ s.todo ∨ (s.dev.jobs j).done = true → ∀ c < cfg.numIrqs,
    onCore (s.dev.jobs j).args.coreMask c = true →
      startsOn j c s.hist = batches cfg (s.dev.jobs j) c ∧
      completesOn j c s.hist = batches cfg (s.dev.jobs j) c
  done_all : (∀ op ∈ s.todo, scheduling op = false) →
    (∀ c < cfg.numIrqs, s.dev.running c = none) →
      ∀ j ∈ enqueues s.hist, (s.dev.jobs j).done = true

theorem count_le_count_tasks {op : JobOp} {x : Task ℕ ℕ} (hop : toTasks cfg op = {x}) :
    s.todo.count op ≤ (s.gang cfg).tasks.count x := by
  have h : ∀ m : Multiset JobOp, m.count op ≤ (m.bind (toTasks cfg)).count x := by
    intro m
    induction m using Multiset.induction_on with
    | empty => exact Nat.zero_le _
    | cons y m ih =>
      rw [Multiset.cons_bind, Multiset.count_add]
      by_cases hy : op = y
      · subst hy
        rw [Multiset.count_cons_self, hop, Multiset.count_singleton_self]
        omega
      · rw [Multiset.count_cons_of_ne hy]
        omega
  exact h s.todo

theorem tasks_prepare (h : ∀ op ∈ s.todo, scheduling op = false) :
    ∀ x ∈ (s.gang cfg).tasks, ∃ j, x = .prepare j := by
  intro x hx
  obtain ⟨op, hop, hx⟩ := mem_gang_tasks.mp hx
  have hno := h op hop
  cases hb : before op with
  | none =>
    rw [toTasks_eq_zero hno hb] at hx
    exact (Multiset.notMem_zero x hx).elim
  | some j =>
    cases op <;> first | exact ⟨_, Multiset.mem_singleton.mp hx⟩ | cases hb

theorem Calm.starts_eq (hs : Calm cfg s) (hn : Tally cfg s) {j c : ℕ}
    (h : (s.gang cfg).active c = 0) : startsOn j c s.hist = completesOn j c s.hist := by
  by_cases hj : j ∈ enqueues s.hist
  · have hstarts := hs.inv.batched.starts j hj c
    have hzero : ((0 : ℕ) : ℤ) = 0 := rfl
    rw [h, hzero, ite_self, add_zero] at hstarts
    exact Int.ofNat.inj (hstarts.trans (hn.completes j c).symm)
  · rw [hn.fresh j hj]
    exact hs.inv.batched.zero j hj c

theorem Calm.running_none (hs : Calm cfg s) (h : ∀ c < cfg.numIrqs, s.dev.running c = none)
    (c : ℕ) : s.dev.running c = none := by
  by_contra hne
  obtain ⟨j, hj⟩ := Option.ne_none_iff_exists'.mp hne
  have hcurrent : (s.dev.subcoreDatas c).job = some j := hs.inv.gathered.running c j hj
  exact hne (h c (hs.placed.held c j (Or.inr hcurrent)).2.1)

/-- **The scheduler is safe** on undisturbed runs, for any number of submitting threads and in any
order of their steps. -/
theorem scheduler_safe (hcfg : cfg ∈ rknpuConfigs) (hs : (countedSystem cfg).Reachable s) :
    SchedulerSafe cfg s := by
  have hsound := rknpuConfigs_sound hcfg
  obtain ⟨hs, hn⟩ := tally hsound hs
  have hcores : ∀ {j c}, j ∈ enqueues s.hist →
      (c ∈ commitCores (s.dev.jobs j).args.coreMask ↔
        c < cfg.numIrqs ∧ onCore (s.dev.jobs j).args.coreMask c = true) :=
    fun hj => (hs.settled _ hj).1.mem_cores hsound
  have htask : ∀ {op x}, op ∈ s.todo → toTasks cfg op = {x} → x ∈ (s.gang cfg).tasks := by
    intro op x hop hx
    exact mem_gang_tasks.mpr ⟨op, hop, hx ▸ Multiset.mem_singleton_self x⟩
  refine ⟨fun j => ?_, fun j hj c hc hon => ?_, fun j c hj => ?_, fun j c hj => ?_,
    hs.inv.lined.nodup, fun c hc => ?_, fun j => ?_, fun j => ?_, fun j hj c hc hon => ?_,
    fun htodo hrunning j hj => ?_⟩
  · have hcommits : s.hist.count (.commit j) + (s.gang cfg).tasks.count (.commit j) ≤ 1 :=
      hs.inv.commit_once j
    have hle : s.todo.count (.commit j) ≤ (s.gang cfg).tasks.count (.commit j) :=
      count_le_count_tasks rfl
    omega
  · have hmem := htask hj rfl
    have horder := hs.inv.lined.named _ hmem j rfl
    exact hs.inv.gathered.all j hmem c ((hcores horder).mpr ⟨hc, hon⟩)
  · exact hs.inv.gathered.owner _ (htask hj rfl) j c rfl
  · obtain ⟨hrunning, hbatch⟩ := hs.inv.start_idle (htask hj rfl)
    refine ⟨hrunning, fun i => hs.starts_eq hn ?_⟩
    rw [Gang.active, Gang.sum_map_eq_zero hbatch, hrunning]
    rfl
  · refine (hs.inv.lined.fifo c).trans (List.filter_congr fun j hj => ?_)
    simp [hcores hj, hc, toData, JobState.gang, toGang]
  · have hdones : s.hist.count (.done j) + (s.gang cfg).tasks.count (.setDone j) ≤ 1 :=
      hs.inv.done_once j
    have hle : s.todo.count (.setDone j) ≤ (s.gang cfg).tasks.count (.setDone j) :=
      count_le_count_tasks rfl
    omega
  · have hdones : s.hist.count (.done j) + (s.gang cfg).tasks.count (.setDone j) ≤ 1 :=
      hs.inv.done_once j
    rw [hs.done j, ← List.count_pos_iff]
    omega
  · have hfinished : 0 < (s.gang cfg).dones j + (s.gang cfg).tasks.count (.setDone j) := by
      rcases hj with hj | hj
      · have := Multiset.count_pos.mpr (htask hj rfl)
        omega
      · have := (hs.mem_order hj).1
        omega
    have horder := (hs.inv.finished hfinished).1
    have hmem := (hcores horder).mpr ⟨hc, hon⟩
    obtain ⟨hcount, hstarts⟩ := hs.inv.finished_batches hfinished hmem
    have hmax : max 1 (batches cfg (s.dev.jobs j) c) = batches cfg (s.dev.jobs j) c :=
      max_eq_right (one_le_batches hsound.maxSubmitNumber_pos (hn.counts j horder c hmem))
    exact ⟨hstarts.trans hmax, (hn.completes j c).trans (hcount.trans hmax)⟩
  · have hdone : s.hist.count (.done j) = 1 :=
      hs.inv.quiescent_done (tasks_prepare htodo) (hs.running_none hrunning) hj
    exact (hs.done j).mpr (List.count_pos_iff.mp (hdone ▸ Nat.one_pos))

/-! ## Deadlock -/

/-- A core's current job and those behind it. -/
def Dev.line (dev : Dev) (c : ℕ) : List ℕ :=
  (dev.subcoreDatas c).job.toList ++ (dev.subcoreDatas c).todoList

/-- **Jobs with several cores cannot deadlock the cores**: two jobs stand in the same order
wherever they stand both, and when no thread is in the scheduler and no batch runs, no core has
a job and no job is queued. -/
theorem cores_deadlock_free (hcfg : cfg ∈ rknpuConfigs)
    (hs : (undisturbedSystem cfg).Reachable s) :
    (∀ c c' i j, [i, j].Sublist (s.dev.line c) → i ∈ s.dev.line c' → j ∈ s.dev.line c' →
      [i, j].Sublist (s.dev.line c')) ∧
    ((∀ op ∈ s.todo, scheduling op = false) → (∀ c < cfg.numIrqs, s.dev.running c = none) →
      ∀ c, (s.dev.subcoreDatas c).todoList = [] ∧ (s.dev.subcoreDatas c).job = none) := by
  have hcalm := undisturbed_calm (rknpuConfigs_sound hcfg) hs
  have hinv := hcalm.inv
  have hline : ∀ c, (s.dev.line c).Sublist (enqueues s.hist) := hinv.lined.line_sublist
  refine ⟨fun c c' i j hij hi hj => ?_, fun htodo hrunning c => ?_⟩
  · exact same_order hinv.lined.nodup (hline c) (hline c') hij hi hj
  · exact hinv.quiescent (tasks_prepare htodo) (hcalm.running_none hrunning) c

end

/-- A job for the cores `0` and `1` is running, one for core `0` waits behind it, and core `0`
has finished the first. -/
def twoJobs : List JobLabel :=
  .submit (oneTask rknpuJobPc 3) false true :: List.replicate 19 (.exec 0 calm) ++
    .submit (oneTask rknpuJobPc rknpuCore0Mask) false true :: List.replicate 12 (.exec 1 calm) ++
    .irq 0 true :: List.replicate 8 (.exec 2 calm)

/-- Core `0` is about to commit the second job. -/
theorem scheduler_safe_two : ∃ s, (countedSystem rk3588RknpuConfig).Reachable s ∧
    .commit 1 ∈ s.todo ∧ SchedulerSafe rk3588RknpuConfig s := by
  obtain ⟨s, hs, h⟩ := System.Reachable.of_run_any (S := countedSystem rk3588RknpuConfig)
    (p := fun s => decide (.commit 1 ∈ s.todo)) (l := twoJobs) ⟨1, rfl⟩ (by decide +kernel)
  exact ⟨s, hs, of_decide_eq_true h, scheduler_safe (by decide) hs⟩

/-- Both jobs have run, and all cores are empty. -/
theorem cores_deadlock_free_two : ∃ s, (undisturbedSystem rk3588RknpuConfig).Reachable s ∧
    enqueues s.hist = [0, 1] ∧
    ∀ c, (s.dev.subcoreDatas c).todoList = [] ∧ (s.dev.subcoreDatas c).job = none := by
  obtain ⟨s, hs, h⟩ := System.Reachable.of_run_any (S := undisturbedSystem rk3588RknpuConfig)
    (p := fun s => decide (enqueues s.hist = [0, 1] ∧
      (∀ op ∈ s.threads.flatten, scheduling op = false) ∧ ∀ c < (3 : ℕ), s.dev.running c = none))
    (l := twoJobs ++ List.replicate 2 (.exec 2 calm) ++
      .irq 1 true :: List.replicate 12 (.exec 3 calm) ++
      .irq 0 true :: List.replicate 12 (.exec 4 calm)) ⟨1, rfl⟩ (by decide +kernel)
  obtain ⟨horder, htodo, hrunning⟩ := of_decide_eq_true h
  refine ⟨s, hs, horder, (cores_deadlock_free (by decide) hs).2 (fun op hop => ?_) hrunning⟩
  exact htodo op (Multiset.mem_coe.mp hop)

end RknpuDriver.Job
