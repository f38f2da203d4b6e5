import RknpuDriver.Job.Positions
import Mathlib.Algebra.BigOperators.Intervals
import Mathlib.Algebra.Order.BigOperators.Group.Finset

/-! # The work the driver does by itself

Every block that runs was called for by another one, or by a submission, an interrupt, the
workqueue, a reset or the timer. The loops of the job code end, and it calls none of its functions
recursively, so each of these events is followed by a bounded number of blocks only.

* `JobOp.cost`: the blocks that a block leads to in its thread, itself included.
* `calls_cost`, `entries_exec`: a block that runs costs one. `rknpu_job_timeout_clean` empties a list,
  which the blocks that filled it have paid for.
* `blocks_bounded`: what holds for a run.
-/

namespace RknpuDriver.Job
set_option autoImplicit false
open RknpuDriver.Lib

/-- The most blocks that a block leads to on a device with `n` cores, itself included. A block that
queues a job pays two blocks for each entry, for the loop that may take it off again. -/
def JobOp.cost (n : ℕ) : JobOp → ℕ
  | .fenceIn _ => 20 * n + 27
  | .fenceOut _ => 20 * n + 26
  | .fenceInit _ _ => 20 * n + 25
  | .dispatch _ => 20 * n + 24
  | .nonblockRet _ | .blockRet _ => 9
  | .timeoutClean _ i => 9 * (n - i) + 1
  | .timeoutCheck _ i _ => 9 * (n - (i + 1)) + 9
  | .timeoutClear _ _ => 3
  | .timeoutWork _ _ => 2
  | .timeoutNext _ => 1
  | .schedule _ => 11 * n + 22
  | .autoRead _ i _ _ => n - i + (10 * n + 21)
  | .domainGet _ => 10 * n + 20
  | .enqueue _ => 10 * n + 19
  | .scanMask _ i => 8 * (n - i) + 18
  | .waitEvent _ waitCount => 2 * (2 - waitCount) + 13
  | .waitCheck _ waitCount => 2 * (2 - waitCount) + 14
  | .waitLast _ _ => 12
  | .waitRemove _ _ | .waitEnd _ _ => 11
  | .waitRet _ _ => 10
  | .next _ => 7
  | .pop _ => 6
  | .decRunCount _ => 5
  | .commit _ => 4
  | .subcoreCommit _ _ => 1
  | .irqEntry _ => 17
  | .irqStatus _ _ => 16
  | .doneCount _ _ => 15
  | .doneClear _ _ => 14
  | .doneDec _ => 6
  | .domainPut _ | .asyncWork _ | .free _ | .cleanupWork _ => 1
  | .setDone _ => 4
  | .setRet _ => 3
  | .fenceSignal _ => 2
  | .abortClear _ => 7
  | .abortReport _ => 6
  | .resetBegin => 4
  | .resetAssert => 3
  | .resetDeassert => 2
  | .resetEnd => 1
  | .timerTick i => n - i + 1

/-- The list entries that a block adds at most. -/
def listedBy (n : ℕ) : JobOp → ℕ
  | .enqueue _ => n
  | _ => 0

/-- The list entry that `rknpu_job_timeout_clean` takes off, if there is one. -/
def unlistedBy (dev : Dev) : JobOp → ℕ
  | .timeoutNext i => if (dev.subcoreDatas i).todoList = [] then 0 else 1
  | _ => 0

/-- The entries of all `todo_list`s. -/
def entries (cfg : Config) (dev : Dev) : ℕ :=
  ∑ c ∈ Finset.range cfg.numIrqs, (dev.subcoreDatas c).todoList.length

/-- What the threads still have to do, and what is paid for the lists. -/
def JobState.work (cfg : Config) (s : JobState) : ℕ :=
  weigh (JobOp.cost cfg.numIrqs) s.threads + 2 * entries cfg s.dev

def JobLabel.isBlock : JobLabel → Bool
  | .exec _ _ => true
  | _ => false

/-- A thread starts. -/
def JobLabel.isEvent : JobLabel → Bool
  | .exec _ _ | .tick _ => false
  | _ => true

/-! ## One block -/

section
variable {cfg : Config} {dev : Dev} {o : Outcome} {op : JobOp} {eff : Effect}

theorem cost_pos (n : ℕ) (op : JobOp) : 1 ≤ op.cost n := by
  cases op with
  | timeoutCheck coreMask i j => exact Nat.le_add_left 1 _
  | _ => simp only [JobOp.cost]; omega

theorem length_commitCores_le (m : UInt32) : (commitCores m).length ≤ 3 := by
  unfold commitCores
  split_ifs <;> simp

theorem cost_subcoreCommits (n j : ℕ) (cores : List ℕ) :
    ((cores.map (JobOp.subcoreCommit j)).map (JobOp.cost n)).sum = cores.length := by
  induction cores with
  | nil => rfl
  | cons c cores ih =>
    rw [List.map_cons, List.map_cons, List.sum_cons, ih, List.length_cons, Nat.add_comm]
    rfl

/-- The blocks that a block calls for cost less than itself. -/
theorem calls_cost (h : jobExec cfg dev o op = some eff) :
    (eff.calls.map (JobOp.cost cfg.numIrqs)).sum + 1 + 2 * listedBy cfg.numIrqs op ≤
      op.cost cfg.numIrqs + 2 * unlistedBy dev op := by
  cases op with
  | commit j =>
    cases h
    have hcores := length_commitCores_le (dev.jobs j).args.coreMask
    simp only [rknpuJobCommit, cost_subcoreCommits, JobOp.cost, listedBy, unlistedBy]
    omega
  | timeoutClear i j | waitRet j ret | doneClear j c | setRet j =>
    cases h
    exact le_refl _
  | _ => grind -ring -order [JobOp.cost, listedBy, unlistedBy]

theorem length_todoListAfter (c : ℕ) (hop : ∀ j, op ≠ .enqueue j) :
    (todoListAfter cfg dev op c).length ≤ (dev.subcoreDatas c).todoList.length := by
  cases op with
  | enqueue j => exact absurd rfl (hop j)
  | pop i =>
    simp only [todoListAfter]
    split_ifs
    · rw [List.length_tail]
      exact Nat.sub_le _ _
    · exact le_refl _
  | timeoutNext i =>
    simp only [todoListAfter]
    split_ifs
    · rw [List.length_tail]
      exact Nat.sub_le _ _
    · exact le_refl _
  | waitRemove j ret =>
    simp only [todoListAfter]
    split_ifs
    · exact List.length_erase_le
    · exact le_refl _
  | _ => exact le_refl _

/-- Only `rknpu_job_schedule` makes the lists longer, and `rknpu_job_timeout_clean` makes one
shorter. -/
theorem entries_exec (hlisted : ∀ c, (dev.subcoreDatas c).todoList ≠ [] → c < cfg.numIrqs)
    (h : jobExec cfg dev o op = some eff) :
    entries cfg eff.dev + unlistedBy dev op ≤ entries cfg dev + listedBy cfg.numIrqs op := by
  unfold entries
  simp only [todoList_eq h]
  by_cases henq : ∃ j, op = .enqueue j
  · obtain ⟨j, rfl⟩ := henq
    have hone : ∀ c ∈ Finset.range cfg.numIrqs, (todoListAfter cfg dev (.enqueue j) c).length ≤
        (dev.subcoreDatas c).todoList.length + 1 := by
      intro c _
      simp only [todoListAfter]
      split_ifs
      · rw [List.length_append, List.length_singleton]
      · exact Nat.le_succ _
    calc ∑ c ∈ Finset.range cfg.numIrqs, (todoListAfter cfg dev (.enqueue j) c).length + 0
        ≤ ∑ c ∈ Finset.range cfg.numIrqs, ((dev.subcoreDatas c).todoList.length + 1) :=
          Finset.sum_le_sum hone
      _ = _ := by
          rw [Finset.sum_add_distrib, ← Finset.card_eq_sum_ones, Finset.card_range]
          rfl
  · push Not at henq
    have hle : ∀ c ∈ Finset.range cfg.numIrqs, (todoListAfter cfg dev op c).length ≤
        (dev.subcoreDatas c).todoList.length := fun c _ => length_todoListAfter c henq
    have hnone : listedBy cfg.numIrqs op = 0 := by
      cases op with
      | enqueue j => exact absurd rfl (henq j)
      | _ => rfl
    rw [hnone, Nat.add_zero]
    by_cases htake : unlistedBy dev op = 0
    · rw [htake]
      exact Finset.sum_le_sum hle
    · cases op with
      | timeoutNext i =>
        simp only [unlistedBy] at htake ⊢
        split_ifs at htake ⊢ with hempty
        · exact absurd rfl htake
        · refine Finset.sum_lt_sum hle ⟨i, Finset.mem_range.mpr (hlisted i hempty), ?_⟩
          simp only [todoListAfter, if_true, List.length_tail]
          have hpos := List.length_pos_iff.mpr hempty
          omega
      | _ => exact absurd rfl htake

end

/-! ## Runs -/

section
variable {cfg : Config} {s t : JobState} {label : JobLabel}

/-- The most blocks that an event is followed by. -/
def JobLabel.brings (n : ℕ) (label : JobLabel) : ℕ := if label.isEvent then 20 * n + 27 else 0

theorem work_spawn {dev : Dev} {op : JobOp} (hdev : dev.subcoreDatas = s.dev.subcoreDatas) :
    (s.spawn dev op).work cfg = s.work cfg + op.cost cfg.numIrqs := by
  unfold JobState.work JobState.spawn entries
  rw [weigh_spawn, hdev, List.map_singleton, List.sum_singleton]
  omega

theorem work_exec {tid : ℕ} {o : Outcome} (hs : (jobSystem cfg).Reachable s)
    (h : jobStep cfg s (.exec tid o) = some t) : t.work cfg + 1 ≤ s.work cfg := by
  simp only [jobStep] at h
  split at h
  · cases h
  · rename_i op rest hnext
    obtain ⟨eff, heff, rfl⟩ := Option.map_eq_some_iff.mp h
    have hlisted : ∀ c, (s.dev.subcoreDatas c).todoList ≠ [] → c < cfg.numIrqs := by
      intro c hne
      obtain ⟨j, hj⟩ := List.exists_mem_of_ne_nil _ hne
      exact ((placed hs).held c j (Or.inl hj)).2.1
    have hentries := entries_exec hlisted heff
    have hcalls := calls_cost heff
    have hweigh := weigh_advance hnext (JobOp.cost cfg.numIrqs) eff.calls
    show weigh _ (advance s.threads tid eff.calls rest) + 2 * entries cfg eff.dev + 1 ≤
      weigh _ s.threads + 2 * entries cfg s.dev
    omega

theorem work_step (hs : (jobSystem cfg).Reachable s) (h : (jobSystem cfg).step s label = some t) :
    t.work cfg + (if label.isBlock then 1 else 0) ≤ s.work cfg + label.brings cfg.numIrqs := by
  cases label with
  | exec tid o => exact work_exec hs h
  | submit args useDrmGem allocOk =>
    simp only [jobSystem, jobStep] at h
    split at h
    · cases h
      exact Nat.le_add_right _ _
    · rename_i eff heff
      obtain ⟨-, -, rfl⟩ := rknpuSubmit_ok heff
      cases h
      unfold JobState.work
      rw [weigh_spawn, List.map_singleton, List.sum_singleton]
      show _ + (20 * cfg.numIrqs + 27) + 2 * entries cfg s.dev + 0 ≤
        _ + 2 * entries cfg s.dev + (20 * cfg.numIrqs + 27)
      omega
  | irq c completed =>
    simp only [jobSystem, jobStep] at h
    split_ifs at h with hc hcompleted
    · cases h
      rw [@work_spawn cfg s (s.dev.setRunning c none) (.irqEntry c) rfl]
      show _ + 17 + 0 ≤ _ + (20 * cfg.numIrqs + 27)
      omega
    · cases h
      rw [work_spawn rfl]
      show _ + 17 + 0 ≤ _ + (20 * cfg.numIrqs + 27)
      omega
  | runWork j =>
    simp only [jobSystem, jobStep] at h
    split_ifs at h
    cases h
    rw [@work_spawn cfg s { s.dev with works := s.dev.works.erase j } (.cleanupWork j) rfl]
    show _ + 1 + 0 ≤ _ + (20 * cfg.numIrqs + 27)
    omega
  | actReset =>
    cases h
    rw [work_spawn rfl]
    show _ + 4 + 0 ≤ _ + (20 * cfg.numIrqs + 27)
    omega
  | timer =>
    cases h
    rw [work_spawn rfl]
    show _ + (cfg.numIrqs - 0 + 1) + 0 ≤ _ + (20 * cfg.numIrqs + 27)
    omega
  | tick ns =>
    cases h
    exact le_refl _

theorem sum_map_ite {α : Type} (p : α → Bool) (k : ℕ) (l : List α) :
    (l.map fun a => if p a then k else 0).sum = k * l.countP p := by
  induction l with
  | nil => rfl
  | cons a l ih =>
    rw [List.map_cons, List.sum_cons, ih, List.countP_cons, Nat.mul_add, Nat.add_comm]
    split_ifs
    · rw [Nat.mul_one]
    · rfl

theorem card_todo_le (cfg : Config) (s : JobState) : s.todo.card ≤ s.work cfg := by
  have hone : (s.todo.map fun _ => 1).sum ≤ (s.todo.map (JobOp.cost cfg.numIrqs)).sum :=
    Multiset.sum_map_le_sum_map _ _ fun op _ => cost_pos cfg.numIrqs op
  have hcard : (s.todo.map fun _ => 1).sum = s.todo.card := by
    rw [Multiset.map_const', Multiset.sum_replicate]
    exact Nat.mul_one _
  rw [hcard] at hone
  exact hone.trans (Nat.le_add_right _ _)

/-- **The driver never runs on by itself**: in every run the blocks that were run, with those that
the threads wait to run, are at most `20 * num_irqs + 27` for each submission, interrupt, cleanup
work, reset action and expiry of the timer. -/
theorem blocks_bounded {labels : List JobLabel} (hinit : (jobSystem cfg).init s)
    (hrun : (jobSystem cfg).run s labels = some t) :
    labels.countP JobLabel.isBlock + t.todo.card ≤
      (20 * cfg.numIrqs + 27) * labels.countP JobLabel.isEvent := by
  have hbudget := System.run_budget (Φ := JobState.work cfg) (fun s label t => work_step)
    (.init hinit) hrun
  have hzero : s.work cfg = 0 := by
    obtain ⟨now, rfl⟩ := hinit
    show 0 + 2 * entries cfg (Dev.probed now) = 0
    have hnone : entries cfg (Dev.probed now) = 0 := Finset.sum_eq_zero fun c _ => rfl
    rw [hnone]
  have hused := sum_map_ite JobLabel.isBlock 1 labels
  have hbrings := sum_map_ite JobLabel.isEvent (20 * cfg.numIrqs + 27) labels
  have hpending := card_todo_le cfg t
  unfold JobLabel.brings at hbudget
  rw [hused, hbrings] at hbudget
  omega

end

/-- A job that is submitted, executes and is waited for. -/
theorem blocks_bounded_job : ∃ t, (jobSystem rk356xRknpuConfig).run ⟨.probed 1, [], []⟩
    (.submit (oneTask rknpuJobPc rknpuCore0Mask) false true :: List.replicate 13 (.exec 0 calm) ++
      .irq 0 true :: List.replicate 10 (.exec 1 calm)) = some t ∧
    23 + t.todo.card ≤ 47 * 2 := by
  obtain ⟨t, ht⟩ : ∃ t, (jobSystem rk356xRknpuConfig).run ⟨.probed 1, [], []⟩
    (.submit (oneTask rknpuJobPc rknpuCore0Mask) false true :: List.replicate 13 (.exec 0 calm) ++
      .irq 0 true :: List.replicate 10 (.exec 1 calm)) = some t := ⟨_, rfl⟩
  exact ⟨t, ht, blocks_bounded ⟨1, rfl⟩ ht⟩

end RknpuDriver.Job
