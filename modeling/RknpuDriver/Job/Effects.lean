import RknpuDriver.Job.Frames

/-! # What a block can do to batches, fences and task objects

As in `Frames`: which blocks start batches, change the out-fences of jobs, or read their task
objects, and which block comes before each of those that finish a job.

* `stage`: the blocks of an interrupt handler that has found the current job of its core.
* `dying`: the blocks that end with the job being freed.
* `Moved`: what a step can do, with the steps together that only start a thread.
-/

namespace RknpuDriver.Job
set_option autoImplicit false
open RknpuDriver.Lib

/-- The blocks of `rknpu_irq_handler` and `rknpu_job_done` that work for a job, up to the signal
of its fence. -/
def stage : JobOp → Option ℕ
  | .irqStatus j _ | .doneCount j _ | .doneClear j _ | .doneDec j | .setDone j | .setRet j
  | .fenceSignal j => some j
  | _ => none

/-- The blocks after which a job that was queued is given back. -/
def dying : JobOp → Option ℕ
  | .asyncWork j | .abortClear j | .abortReport j | .free j | .cleanupWork j => some j
  | _ => none

section
variable {cfg : Config} {dev : Dev} {o : Outcome} {op : JobOp} {eff : Effect}

attribute [grind =] Dev.modifyJob_fenceSeqno Dev.modifyCore_fenceSeqno Dev.setRunning_fenceSeqno
  Dev.modifyJob_fenceSignaled Dev.modifyCore_fenceSignaled Dev.setRunning_fenceSignaled

/-! ## Task objects -/

theorem taskObjAddr_eq (h : jobExec cfg dev o op = some eff) (j : ℕ) :
    (eff.dev.jobs j).args.taskObjAddr = (dev.jobs j).args.taskObjAddr := by
  cases op <;> grind -ring -linarith -order

theorem events_deref (h : jobExec cfg dev o op = some eff) {j : ℕ} {a : UInt64}
    (hj : .deref j a ∈ eff.events) :
    (∃ c, op = .subcoreCommit j c) ∧ a = (dev.jobs j).args.taskObjAddr ∧ a ≠ 0 := by
  cases op <;> grind -ring -linarith -order

/-! ## Batches -/

theorem events_pop (h : jobExec cfg dev o op = some eff) (c : ℕ) :
    popsOn c eff.events = if op = .pop c then (pops dev op).toList else [] := by
  cases op <;> grind -ring -linarith -order [popsOn, pops]

theorem events_commit (h : jobExec cfg dev o op = some eff) {j : ℕ} :
    .commit j ∈ eff.events ↔ op = .commit j := by
  cases op <;> grind -ring -linarith -order

/-- A batch is started by a commit that does not fail. -/
theorem events_startsOn (h : jobExec cfg dev o op = some eff) (j c : ℕ) :
    startsOn j c eff.events = if op = .subcoreCommit j c ∧
      (dev.jobs j).args.flags &&& rknpuJobPc ≠ 0 ∧ commitError cfg dev o (dev.jobs j) c = none
      then 1 else 0 := by
  cases op <;> grind -ring -linarith -order [startsOn]

theorem events_startsOn_le (h : jobExec cfg dev o op = some eff) (j c : ℕ) :
    startsOn j c eff.events ≤ if op = .subcoreCommit j c then 1 else 0 := by
  rw [events_startsOn h]
  by_cases hop : op = .subcoreCommit j c
  · rw [if_pos hop]
    split_ifs
    · exact Nat.le_refl _
    · exact Nat.zero_le _
  · rw [if_neg fun hcon => hop hcon.1]
    exact Nat.zero_le _

/-! ## Fences -/

theorem fence_eq (h : jobExec cfg dev o op = some eff) {j : ℕ}
    (hop : ∀ n, op ≠ .fenceInit j n) : (eff.dev.jobs j).fence = (dev.jobs j).fence := by
  cases op <;> grind -ring -linarith -order

theorem fenceSeqno_eq (h : jobExec cfg dev o op = some eff)
    (hop : ∀ j n, op ≠ .fenceInit j n) : eff.dev.fenceSeqno = dev.fenceSeqno := by
  cases op <;> grind -ring -linarith -order

theorem fenceSignaled_eq (h : jobExec cfg dev o op = some eff) (j : ℕ) :
    eff.dev.fenceSignaled j = (dev.fenceSignaled j || (op = .fenceSignal j ∧
      (dev.jobs j).fence ≠ none)) := by
  cases op <;> grind -ring -linarith -order

theorem events_fenceSignal (h : jobExec cfg dev o op = some eff) {j n : ℕ} :
    .fenceSignal j n ∈ eff.events ↔ op = .fenceSignal j ∧ (dev.jobs j).fence = some n := by
  cases op <;> grind -ring -linarith -order

theorem events_fencePut (h : jobExec cfg dev o op = some eff) {j n : ℕ} :
    .fencePut j n ∈ eff.events ↔
      (op = .free j ∨ op = .cleanupWork j) ∧ (dev.jobs j).fence = some n := by
  cases op <;> grind -ring -linarith -order

/-! ## Calls -/

theorem calls_stage (h : jobExec cfg dev o op = some eff) {x : JobOp} (hx : x ∈ eff.calls)
    {j : ℕ} (hj : stage x = some j) :
    stage op = some j ∨ ∃ c, op = .irqEntry c ∧ (dev.subcoreDatas c).job = some j ∧
      x = .irqStatus j c := by
  cases op with
  | setRet k =>
    cases h
    rw [List.mem_singleton.mp hx] at hj
    exact Or.inl hj
  | _ => grind -ring -linarith -order [stage]

/-! One lemma for each block between the last core of a job and its end. -/

theorem calls_decRunCount (h : jobExec cfg dev o op = some eff) {j : ℕ}
    (hj : .decRunCount j ∈ eff.calls) : pops dev op = some j := by
  by_contra hne
  have hzero := calls_dec h j
  rw [if_neg hne] at hzero
  exact List.count_eq_zero.mp hzero hj

theorem calls_commit (h : jobExec cfg dev o op = some eff) {j : ℕ} (hj : .commit j ∈ eff.calls) :
    op = .decRunCount j ∧ (dev.jobs j).runCount - 1 = 0 := by
  cases op with
  | doneClear k i =>
    cases h
    simp [jobDoneClear, Effect.goto] at hj
  | _ => grind -ring -linarith -order

theorem calls_subcoreCommit (h : jobExec cfg dev o op = some eff) {j c : ℕ}
    (hj : .subcoreCommit j c ∈ eff.calls) :
    op = .commit j ∧ c ∈ commitCores (dev.jobs j).args.coreMask ∨
      op = .doneCount j c ∧ (dev.jobs j).submitCount c + 1 < batches cfg (dev.jobs j) c := by
  cases op with
  | doneClear k i =>
    cases h
    simp [jobDoneClear, Effect.goto] at hj
  | _ => grind -ring -linarith -order

theorem calls_irqStatus (h : jobExec cfg dev o op = some eff) {j c : ℕ}
    (hj : .irqStatus j c ∈ eff.calls) :
    op = .irqEntry c ∧ (dev.subcoreDatas c).job = some j := by
  cases op with
  | doneClear k i =>
    cases h
    simp [jobDoneClear, Effect.goto] at hj
  | _ => grind -ring -linarith -order

theorem calls_doneCount (h : jobExec cfg dev o op = some eff) {j c : ℕ}
    (hj : .doneCount j c ∈ eff.calls) :
    op = .irqStatus j c ∧ rknpuFuzzStatus o.status = (dev.jobs j).intMask c := by
  cases op with
  | doneClear k i =>
    cases h
    simp [jobDoneClear, Effect.goto] at hj
  | _ => grind -ring -linarith -order

theorem calls_doneClear (h : jobExec cfg dev o op = some eff) {j c : ℕ}
    (hj : .doneClear j c ∈ eff.calls) :
    op = .doneCount j c ∧ ¬ (dev.jobs j).submitCount c + 1 < batches cfg (dev.jobs j) c := by
  cases op with
  | doneClear k i =>
    cases h
    simp [jobDoneClear, Effect.goto] at hj
  | _ => grind -ring -linarith -order

theorem calls_asyncWork (h : jobExec cfg dev o op = some eff) {j : ℕ}
    (hj : .asyncWork j ∈ eff.calls) : op = .fenceSignal j := by
  cases op with
  | doneClear k i =>
    cases h
    simp [jobDoneClear, Effect.goto] at hj
  | _ => grind -ring -linarith -order

/-- Nothing but `rknpu_submit` itself comes to the out-fence. -/
theorem calls_fence (h : jobExec cfg dev o op = some eff) (j : ℕ) :
    .fenceIn j ∉ eff.calls ∧ (.fenceOut j ∈ eff.calls → op = .fenceIn j) := by
  refine ⟨fun hj => ?_, fun hj => ?_⟩
  · have hop := calls_before h hj (j := j) rfl
    cases op with
    | doneClear k c => cases hop
    | _ => grind -ring -linarith -order
  · have hop := calls_before h hj (j := j) rfl
    cases op with
    | doneClear k c => cases hop
    | _ => grind -ring -linarith -order

theorem calls_dying (h : jobExec cfg dev o op = some eff) {x : JobOp} (hx : x ∈ eff.calls)
    {j : ℕ} (hj : dying x = some j) :
    dying op = some j ∨ op = .fenceOut j ∨ op = .blockRet j ∨
      op = .nonblockRet j ∧ (dev.jobs j).ret ≠ 0 ∨ op = .fenceSignal j := by
  cases op <;> grind -ring -linarith -order [dying]

end

/-! ## Steps -/

/-- The blocks that threads start with, other than those that submit. -/
def starting (dev : Dev) : JobOp → Prop
  | .irqEntry _ | .resetBegin | .timerTick _ => True
  | .cleanupWork j => j ∈ dev.works
  | _ => False

/-- A step that changes no job and no core, and starts at most a thread. -/
structure Spawned (s t : JobState) : Prop where
  jobs : t.dev.jobs = s.dev.jobs
  numJobs : t.dev.numJobs = s.dev.numJobs
  freed : t.dev.freed = s.dev.freed
  subcoreDatas : t.dev.subcoreDatas = s.dev.subcoreDatas
  base : t.dev.base = s.dev.base
  softReseting : t.dev.softReseting = s.dev.softReseting
  fenceSeqno : t.dev.fenceSeqno = s.dev.fenceSeqno
  fenceSignaled : t.dev.fenceSignaled = s.dev.fenceSignaled
  asserted : t.dev.asserted = s.dev.asserted
  works : ∀ j ∈ t.dev.works, j ∈ s.dev.works
  todo : ∃ new : Multiset JobOp, t.todo = new + s.todo ∧ ∀ op ∈ new, starting s.dev op
  hist : t.hist = s.hist

inductive Moved (cfg : Config) (s t : JobState) : JobLabel → Prop where
  | submit {args : Submit} {useDrmGem allocOk : Bool} (hmask : args.coreMask ≤ cfg.coreMask)
      (hdev : t.dev = s.dev.addJob (rknpuJobAlloc s.dev args useDrmGem))
      (htodo : t.todo = .fenceIn s.dev.numJobs ::ₘ s.todo)
      (hhist : t.hist = s.hist ++
        if useDrmGem ∧ args.taskObjAddr ≠ 0 then [.gemGet args.taskObjAddr] else []) :
      Moved cfg s t (.submit args useDrmGem allocOk)
  | exec {tid : ℕ} {o : Outcome} {op : JobOp} {rest : List JobOp} {eff : Effect}
      {others : Multiset JobOp} (hnext : nextBlock s.threads tid = some (op, rest))
      (heff : jobExec cfg s.dev o op = some eff) (hop : s.todo = op ::ₘ others)
      (hdev : t.dev = eff.dev) (htodo : t.todo = (eff.calls : Multiset JobOp) + others)
      (hhist : t.hist = s.hist ++ eff.events) : Moved cfg s t (.exec tid o)
  | spawn {a : JobLabel} (h : Spawned s t) : Moved cfg s t a

section
variable {cfg : Config} {s t : JobState} {a : JobLabel}

/-- A step that starts a thread with `op`. -/
theorem Spawned.of_cons {op : JobOp} (hjobs : t.dev.jobs = s.dev.jobs)
    (hnum : t.dev.numJobs = s.dev.numJobs) (hfreed : t.dev.freed = s.dev.freed)
    (hcores : t.dev.subcoreDatas = s.dev.subcoreDatas) (hbase : t.dev.base = s.dev.base)
    (hreset : t.dev.softReseting = s.dev.softReseting)
    (hseqno : t.dev.fenceSeqno = s.dev.fenceSeqno)
    (hsignaled : t.dev.fenceSignaled = s.dev.fenceSignaled)
    (hasserted : t.dev.asserted = s.dev.asserted) (hworks : ∀ j ∈ t.dev.works, j ∈ s.dev.works)
    (htodo : t.todo = op ::ₘ s.todo) (hop : starting s.dev op) (hhist : t.hist = s.hist) :
    Spawned s t := by
  refine ⟨hjobs, hnum, hfreed, hcores, hbase, hreset, hseqno, hsignaled, hasserted, hworks, ?_,
    hhist⟩
  refine ⟨{op}, htodo.trans (Multiset.singleton_add op _).symm, fun x hx => ?_⟩
  rw [Multiset.mem_singleton.mp hx]
  exact hop

theorem Stepped.moved (h : Stepped cfg s t a) : Moved cfg s t a := by
  cases h with
  | refused ht =>
    rw [ht]
    exact .spawn ⟨rfl, rfl, rfl, rfl, rfl, rfl, rfl, rfl, rfl, fun _ hj => hj,
      ⟨0, (zero_add _).symm, fun op hop => (Multiset.notMem_zero op hop).elim⟩, rfl⟩
  | submit hmask hdev htodo hhist => exact .submit hmask hdev htodo hhist
  | exec hnext heff hop hdev htodo hhist => exact .exec hnext heff hop hdev htodo hhist
  | irq hc hrunning hdev htodo hhist =>
    refine .spawn ?_
    split_ifs at hdev
    · exact .of_cons (by rw [hdev]; rfl) (by rw [hdev]; rfl) (by rw [hdev]; rfl)
        (by rw [hdev]; rfl) (by rw [hdev]; rfl) (by rw [hdev]; rfl) (by rw [hdev]; rfl)
        (by rw [hdev]; rfl) (by rw [hdev]; rfl) (by rw [hdev]; exact fun _ hj => hj) htodo trivial
        hhist
    · exact .of_cons (by rw [hdev]) (by rw [hdev]) (by rw [hdev]) (by rw [hdev]) (by rw [hdev])
        (by rw [hdev]) (by rw [hdev]) (by rw [hdev]) (by rw [hdev])
        (by rw [hdev]; exact fun _ hj => hj) htodo trivial hhist
  | runWork hj hdev htodo hhist =>
    exact .spawn (.of_cons (by rw [hdev]) (by rw [hdev]) (by rw [hdev]) (by rw [hdev])
      (by rw [hdev]) (by rw [hdev]) (by rw [hdev]) (by rw [hdev]) (by rw [hdev])
      (by rw [hdev]; exact fun _ hj => List.mem_of_mem_erase hj) htodo hj hhist)
  | actReset hdev htodo hhist | timer hdev htodo hhist =>
    exact .spawn (.of_cons (by rw [hdev]) (by rw [hdev]) (by rw [hdev]) (by rw [hdev])
      (by rw [hdev]) (by rw [hdev]) (by rw [hdev]) (by rw [hdev]) (by rw [hdev])
      (by rw [hdev]; exact fun _ hj => hj) htodo trivial hhist)
  | tick hdev htodo hhist =>
    exact .spawn ⟨by rw [hdev], by rw [hdev], by rw [hdev], by rw [hdev], by rw [hdev],
      by rw [hdev], by rw [hdev], by rw [hdev], by rw [hdev], by rw [hdev]; exact fun _ hj => hj,
      ⟨0, htodo.trans (zero_add _).symm, fun op hop => (Multiset.notMem_zero op hop).elim⟩, hhist⟩

/-- No thread starts with a block that works for a job, other than a cleanup work. -/
theorem Spawned.mem_todo (h : Spawned s t) {op : JobOp} (hop : op ∈ t.todo) :
    op ∈ s.todo ∨ starting s.dev op := by
  obtain ⟨new, htodo, hnew⟩ := h.todo
  rw [htodo, Multiset.mem_add] at hop
  exact hop.symm.imp_right (hnew op)

end
end RknpuDriver.Job
