import RknpuDriver.Job.Exclusive
import RknpuDriver.Job.Taken
import RknpuDriver.Lib.WaitQueues

/-! # The wake-ups of `job_done_wq`

In `Job.Runs` a thread inside `wait_event_timeout` looks at its condition at any time. Here it
sleeps: it goes on the queue of `rknpu_wait_core_index`, looks, and sleeps until a `wake_up` of that
queue or the end of its timer. `rknpu_job_done` wakes one queue, after the end of the job is written
down; `rknpu_soft_reset` wakes them all, after it has set `soft_reseting`.

* `wakeSystem`: the runs of `jobSystem` with the queues.
* `coming`: the queues that the handlers under way are still to wake.
* `no_lost_wakeup`: a thread asleep whose condition holds has a `wake_up` of its queue coming.
-/

namespace RknpuDriver.Job
set_option autoImplicit false
open RknpuDriver.Lib

structure WakeState where
  job : JobState
  waits : WaitQueues ℕ ℕ

inductive WakeLabel where
  | job (label : JobLabel)
  | wait (label : WaitLabel ℕ ℕ)

/-- The queue on which `rknpu_job_wait` sleeps, and what it waits for. -/
def waitsOn (dev : Dev) (j : ℕ) : ℕ := rknpuWaitCoreIndex (dev.jobs j).args.coreMask

def waitCondition (dev : Dev) (j : ℕ) : Bool := (dev.jobs j).done || dev.softReseting

/-- The queue that `rknpu_job_done` wakes when it ends a job on core `c`. -/
def wakesQueue (job : RknpuJob) (c : ℕ) : ℕ := if 1 < job.useCoreNum then 0 else c

/-- The calls of `wake_up` that come after a block. `rknpu_job_done` goes on with `rknpu_job_next`
on its core. -/
def wakesAfter (cfg : Config) (dev : Dev) : JobOp → List JobOp → List ℕ
  | .asyncWork j, .next c :: _ => [wakesQueue (dev.jobs j) c]
  | .resetBegin, _ => List.range cfg.numIrqs
  | _, _ => []

/-- The submitter of job `j` is in `wait_event_timeout`. -/
def inWait (s : JobState) (j : ℕ) : Bool :=
  s.threads.any fun thread =>
    match thread.head? with
    | some (.waitEvent i _) => i = j
    | _ => false

/-- A thread that rests leaves `wait_event_timeout` only when its timer ends. -/
def onTime (s : WakeState) : JobLabel → Bool
  | .exec tid o =>
    match nextBlock s.job.threads tid with
    | some (.waitEvent j _, _) => !(s.waits.stage j).resting || o.timedOut
    | _ => true
  | _ => true

def waitsNext (cfg : Config) (s : WakeState) : JobLabel → WaitQueues ℕ ℕ
  | .exec tid _ =>
    match nextBlock s.job.threads tid with
    | some (.waitEvent j _, _) =>
      { s.waits with stage := Function.update s.waits.stage j .running }
    | some (op, rest) =>
      { s.waits with wakes := s.waits.wakes ++ wakesAfter cfg s.job.dev op rest }
    | none => s.waits
  | _ => s.waits

/-- Whether a step of a wait is one of a thread in `wait_event_timeout`. -/
def mayWait (s : JobState) : WaitLabel ℕ ℕ → Bool
  | .prepare j => inWait s j
  | _ => true

def wakeStep (cfg : Config) (s : WakeState) : WakeLabel → Option WakeState
  | .job label =>
    if onTime s label then
      (jobStep cfg s.job label).map fun job => ⟨job, waitsNext cfg s label⟩
    else none
  | .wait label =>
    if mayWait s.job label then
      (waitStep (waitsOn s.job.dev) (waitCondition s.job.dev) s.waits label).map fun waits =>
        { s with waits := waits }
    else none

def wakeSystem (cfg : Config) : System WakeState WakeLabel where
  init s := ∃ now, s = ⟨⟨.probed now, [], []⟩, ⟨fun _ => .running, []⟩⟩
  step := wakeStep cfg

/-! ## Who is still to wake a queue -/

/-- The blocks of `rknpu_job_done` between the end of a job and its `wake_up`. -/
def ringer : JobOp → Option ℕ
  | .setRet j | .fenceSignal j | .asyncWork j => some j
  | _ => none

/-- The blocks that `rknpu_job_done` runs before it calls `rknpu_job_next`. -/
def finisher : JobOp → Option ℕ
  | .doneDec j | .setDone j | .setRet j | .fenceSignal j | .asyncWork j => some j
  | _ => none

/-- The queues that a thread will wake, by the blocks that it still has to run. -/
def coming (dev : Dev) : List JobOp → List ℕ
  | [] => []
  | op :: rest =>
    (match ringer op, rest with
      | some j, .next c :: _ => [wakesQueue (dev.jobs j) c]
      | _, _ => []) ++ coming dev rest

/-- The `wake_up`s that are under way. -/
def WakeState.owed (s : WakeState) : List ℕ :=
  s.waits.wakes ++ s.job.threads.flatMap (coming s.job.dev)

/-- A handler that ends a job goes on with `rknpu_job_next`, on a core of the job. -/
def Followed (cfg : Config) (dev : Dev) : List JobOp → Prop
  | [] => True
  | op :: rest =>
    (∀ j, finisher op = some j → ∃ c tail, rest = .next c :: tail ∧
      c ∈ coresOf cfg (dev.jobs j).args.coreMask) ∧ Followed cfg dev rest

section
variable {cfg : Config} {dev dev' : Dev} {o : Outcome} {op : JobOp} {eff : Effect}
  {ops rest thread : List JobOp}

theorem helper_of_finisher {j : ℕ} (h : finisher op = some j) : helper op = some j := by
  cases op <;> first | exact h | cases h

theorem finisher_of_ringer {j : ℕ} (h : ringer op = some j) : finisher op = some j := by
  cases op <;> first | exact h | cases h

theorem Followed.congr (h : Followed cfg dev thread)
    (hmask : ∀ op ∈ thread, ∀ j, finisher op = some j →
      (dev'.jobs j).args.coreMask = (dev.jobs j).args.coreMask) : Followed cfg dev' thread := by
  induction thread with
  | nil => trivial
  | cons op rest ih =>
    obtain ⟨hop, hrest⟩ := h
    refine ⟨fun j hj => ?_, ih hrest fun x hx => hmask x (List.mem_cons_of_mem op hx)⟩
    rw [hmask op List.mem_cons_self j hj]
    exact hop j hj

theorem Followed.append (h : Followed cfg dev rest) (hops : ∀ x ∈ ops, finisher x = none) :
    Followed cfg dev (ops ++ rest) := by
  induction ops with
  | nil => exact h
  | cons x ops ih =>
    rw [List.cons_append]
    refine ⟨fun j hj => ?_, ih fun y hy => hops y (List.mem_cons_of_mem x hy)⟩
    rw [hops x List.mem_cons_self] at hj
    cases hj

theorem Followed.mem (h : Followed cfg dev thread) (hop : op ∈ thread) {j : ℕ}
    (hj : ringer op = some j) : ∃ c ∈ coresOf cfg (dev.jobs j).args.coreMask,
      wakesQueue (dev.jobs j) c ∈ coming dev thread := by
  induction thread with
  | nil => exact absurd hop List.not_mem_nil
  | cons x rest ih =>
    obtain ⟨hx, hrest⟩ := h
    obtain rfl | hop := List.mem_cons.mp hop
    · obtain ⟨c, tail, rfl, hc⟩ := hx j (finisher_of_ringer hj)
      refine ⟨c, hc, ?_⟩
      simp only [coming, hj]
      exact List.mem_append_left _ (List.mem_singleton_self _)
    · obtain ⟨c, hc, hmem⟩ := ih hrest hop
      exact ⟨c, hc, List.mem_append_right _ hmem⟩

/-- `rknpu_job_done` runs its blocks one after the other, and then `rknpu_job_next`. -/
theorem calls_finisher (h : jobExec cfg dev o op = some eff) :
    (∀ x ∈ eff.calls, finisher x = none) ∨
      (∃ j c, op = .doneClear j c ∧ eff.calls = [.doneDec j, .next c]) ∨
      (∃ j, op = .doneDec j ∧ eff.calls = [.domainPut j, .setDone j]) ∨
      ∃ j x, finisher op = some j ∧ finisher x = some j ∧ eff.calls = [x] := by
  cases op with
  | doneClear j c =>
    cases h
    exact Or.inr (Or.inl ⟨j, c, rfl, rfl⟩)
  | setDone j | setRet j =>
    cases h
    exact Or.inr (Or.inr (Or.inr ⟨j, _, rfl, rfl, rfl⟩))
  | fenceSignal j =>
    cases h
    refine Or.inr (Or.inr (Or.inr ⟨j, .asyncWork j, rfl, rfl, ?_⟩))
    unfold jobFenceSignal
    split <;> rfl
  | doneDec j =>
    cases h
    simp only [jobDoneDec, Effect.goto_calls]
    split_ifs
    · exact Or.inr (Or.inr (Or.inl ⟨j, rfl, rfl⟩))
    · exact Or.inl fun x hx => absurd hx List.not_mem_nil
  | _ =>
    refine Or.inl ?_
    grind -ring -linarith -order [finisher]

theorem Followed.exec (h : Followed cfg dev (op :: rest)) (heff : jobExec cfg dev o op = some eff)
    (hclear : ∀ j c, op = .doneClear j c → c ∈ coresOf cfg (dev.jobs j).args.coreMask) :
    Followed cfg dev (eff.calls ++ rest) := by
  obtain ⟨hop, hrest⟩ := h
  obtain hnone | ⟨j, c, rfl, hcalls⟩ | ⟨j, rfl, hcalls⟩ | ⟨j, x, hj, hx, hcalls⟩ :=
    calls_finisher heff
  · exact hrest.append hnone
  · rw [hcalls]
    refine ⟨fun i hi => ?_, nofun, hrest⟩
    cases hi
    exact ⟨c, rest, rfl, hclear j c rfl⟩
  · rw [hcalls]
    refine ⟨nofun, fun i hi => ?_, hrest⟩
    cases hi
    exact hop j rfl
  · rw [hcalls]
    refine ⟨fun i hi => ?_, hrest⟩
    rw [hx] at hi
    cases hi
    exact hop j hj

theorem autoRead_cores {j i coreIndex : ℕ} {n : ℤ}
    (h : jobExec cfg dev o (.autoRead j i coreIndex n) = some eff) :
    ((eff.dev.jobs j).args.coreMask = (dev.jobs j).args.coreMask ∧
        (eff.dev.jobs j).useCoreNum = (dev.jobs j).useCoreNum) ∨
      (eff.dev.jobs j).args.coreMask = rknpuCoreMask coreIndex ∧
        (eff.dev.jobs j).useCoreNum = 1 := by
  grind -ring -linarith -order

end

/-- Where the masks of the tables are concerned, `rknpu_job_done` wakes the queue on which the
submitter sleeps. -/
theorem wakesQueue_eq {cfg : Config} {job : RknpuJob} {c : ℕ} (hcfg : cfg ∈ rknpuConfigs)
    (hmask : job.args.coreMask ≤ cfg.coreMask)
    (hcount : job.useCoreNum = useCoreNum job.args.coreMask)
    (hc : c ∈ coresOf cfg job.args.coreMask) :
    wakesQueue job c = rknpuWaitCoreIndex job.args.coreMask := by
  have hall : ∀ n : Fin 8, ∀ c : Fin 3, onCore (UInt32.ofNat n.val) c.val = true →
      (if 1 < useCoreNum (UInt32.ofNat n.val) then 0 else c.val) =
        rknpuWaitCoreIndex (UInt32.ofNat n.val) := by decide
  have hbound : ∀ cfg ∈ rknpuConfigs, cfg.coreMask.toNat < 8 := by decide
  obtain ⟨-, hon⟩ := mem_coresOf.mp hc
  have hlt : job.args.coreMask.toNat < 8 :=
    (UInt32.le_iff_toNat_le.mp hmask).trans_lt (hbound cfg hcfg)
  have h := hall ⟨_, hlt⟩ ⟨c, onCore_lt hon⟩
  rw [UInt32.ofNat_toNat] at h
  unfold wakesQueue
  rw [hcount]
  exact h hon

/-! ## The invariant -/

/-- A handler of a job that sleeps on queue `q` has not come to its `wake_up`. -/
def Rings (s : JobState) (q : ℕ) : Prop :=
  ∃ op ∈ s.todo, ∃ j, ringer op = some j ∧ waitsOn s.dev j = q

/-- `use_core_num` counts the cores of the mask. -/
def Numbered (dev : Dev) : Prop :=
  ∀ j < dev.numJobs, (dev.jobs j).useCoreNum = useCoreNum (dev.jobs j).args.coreMask

structure Wakeful (cfg : Config) (s : WakeState) : Prop where
  known : Known cfg s.job
  numbered : Numbered s.job.dev
  followed : ∀ thread ∈ s.job.threads, Followed cfg s.job.dev thread
  waits : ∀ j, s.waits.stage j ≠ .running → ∃ n, .waitEvent j n ∈ s.job.todo
  attended : Attended (waitsOn s.job.dev) (waitCondition s.job.dev)
    (fun q => q ∈ s.waits.wakes ∨ Rings s.job q) s.waits.stage

section
variable {cfg : Config} {s t : JobState} {a : JobLabel} {tid : ℕ} {o : Outcome} {op : JobOp}
  {rest : List JobOp} {eff : Effect} {others : Multiset JobOp}

theorem Numbered.step (hn : Numbered s.dev) (hcfg : cfg.Sound) (hk : Known cfg s)
    (h : Stepped cfg s t a) : Numbered t.dev := by
  intro j hj
  cases h with
  | refused ht =>
    rw [ht] at hj ⊢
    exact hn j hj
  | submit hmask hdev htodo hhist =>
    rw [hdev] at hj ⊢
    rw [Dev.addJob_jobs]
    rw [Dev.addJob_numJobs] at hj
    split_ifs with hnew
    · rfl
    · exact hn j (by omega)
  | exec hnext heff hop hdev htodo hhist =>
    rw [hdev] at hj ⊢
    rw [numJobs_eq heff] at hj
    rename_i tid o op rest eff others
    by_cases hauto : ∃ i c n, op = .autoRead j i c n
    · obtain ⟨i, c, n, rfl⟩ := hauto
      have hlt := hk.chosen.auto j i c n (by rw [hop]; exact Multiset.mem_cons_self _ _)
      obtain ⟨hmask, hcount⟩ | ⟨hmask, hcount⟩ := autoRead_cores heff
      · rw [hmask, hcount]
        exact hn j hj
      · rw [hmask, hcount, useCoreNum_rknpuCoreMask (hlt.trans_le hcfg.numIrqs_le)]
    · obtain ⟨hmask, hcount⟩ := cores_eq heff (j := j) fun i c n hcon => hauto ⟨i, c, n, hcon⟩
      rw [hmask, hcount]
      exact hn j hj
  | irq hc hrunning hdev htodo hhist =>
    rw [hdev] at hj ⊢
    split_ifs at hj ⊢
    · exact hn j hj
    · exact hn j hj
  | runWork hmem hdev htodo hhist =>
    rw [hdev] at hj ⊢
    exact hn j hj
  | actReset hdev htodo hhist | timer hdev htodo hhist =>
    rw [hdev] at hj ⊢
    exact hn j hj
  | tick hdev htodo hhist =>
    rw [hdev] at hj ⊢
    exact hn j hj

/-- A step starts a thread with one block, or runs the first block of one. -/
theorem threads_step (h : jobStep cfg s a = some t) :
    (∀ thread ∈ t.threads, thread ∈ s.threads ∨ ∃ op, thread = [op] ∧ finisher op = none) ∨
      ∃ tid o op rest eff, a = .exec tid o ∧ nextBlock s.threads tid = some (op, rest) ∧
        jobExec cfg s.dev o op = some eff ∧ t.threads = advance s.threads tid eff.calls rest := by
  have hspawn : ∀ {op : JobOp}, finisher op = none → ∀ thread ∈ s.threads ++ [[op]],
      thread ∈ s.threads ∨ ∃ op, thread = [op] ∧ finisher op = none := by
    intro op hop thread hthread
    obtain hold | hnew := List.mem_append.mp hthread
    · exact Or.inl hold
    · exact Or.inr ⟨op, List.mem_singleton.mp hnew, hop⟩
  cases a with
  | submit args useDrmGem allocOk =>
    simp only [jobStep] at h
    split at h
    · cases h
      exact Or.inl fun _ hthread => Or.inl hthread
    · rename_i eff heff
      obtain ⟨-, -, rfl⟩ := rknpuSubmit_ok heff
      cases h
      exact Or.inl (hspawn rfl)
  | exec tid o =>
    simp only [jobStep] at h
    split at h
    · cases h
    · rename_i op rest hnext
      obtain ⟨eff, heff, rfl⟩ := Option.map_eq_some_iff.mp h
      exact Or.inr ⟨tid, o, op, rest, eff, rfl, hnext, heff, rfl⟩
  | irq c completed =>
    simp only [jobStep] at h
    split_ifs at h
    · cases h
      exact Or.inl (hspawn rfl)
    · cases h
      exact Or.inl (hspawn rfl)
  | runWork j =>
    simp only [jobStep] at h
    split_ifs at h
    cases h
    exact Or.inl (hspawn rfl)
  | actReset | timer =>
    cases h
    exact Or.inl (hspawn rfl)
  | tick ns =>
    cases h
    exact Or.inl fun _ hthread => Or.inl hthread

theorem mask_calls (hk : Known cfg s) (hmem : op ∈ s.todo) (heff : jobExec cfg s.dev o op = some eff)
    (h : Stepped cfg s t a) {x : JobOp} (hx : x ∈ eff.calls) {j : ℕ} (hj : helper x = some j) :
    (t.dev.jobs j).args.coreMask = (s.dev.jobs j).args.coreMask := by
  obtain hop | ⟨c, hcur | hlist⟩ := calls_helper heff hx hj
  · exact ((hk.placed.helped op hmem j hop).stepped h).2
  · exact ((hk.placed.held c j (Or.inr hcur)).1.stepped h).2
  · exact ((hk.placed.held c j (Or.inl hlist)).1.stepped h).2

theorem followed_step (hf : ∀ thread ∈ s.threads, Followed cfg s.dev thread) (hk : Known cfg s)
    (h : jobStep cfg s a = some t) : ∀ thread ∈ t.threads, Followed cfg t.dev thread := by
  have hmask : ∀ thread ∈ s.threads, ∀ op ∈ thread, ∀ j, finisher op = some j →
      (t.dev.jobs j).args.coreMask = (s.dev.jobs j).args.coreMask := by
    intro thread hthread op hop j hj
    have hpast := hk.placed.helped op (mem_pending.mpr ⟨thread, hthread, hop⟩) j
      (helper_of_finisher hj)
    exact (hpast.stepped (stepped h)).2
  intro thread hthread
  obtain hold | ⟨tid, o, op, rest, eff, rfl, hnext, heff, hthreads⟩ := threads_step h
  · obtain hthread | ⟨op, rfl, hop⟩ := hold thread hthread
    · exact (hf thread hthread).congr (hmask thread hthread)
    · refine ⟨fun j hj => ?_, trivial⟩
      rw [hop] at hj
      cases hj
  · have hmem := List.mem_of_getElem? (getElem_of_nextBlock hnext)
    have htodo : op ∈ s.todo := mem_pending_of_nextBlock hnext
    rw [hthreads] at hthread
    obtain hthread | rfl := List.mem_or_eq_of_mem_set hthread
    · exact (hf thread hthread).congr (hmask thread hthread)
    · refine Followed.congr ((hf _ hmem).exec heff ?_) fun x hx j hj => ?_
      · rintro j c rfl
        exact hk.taken.core _ htodo j c rfl
      · obtain hx | hx := List.mem_append.mp hx
        · exact mask_calls hk htodo heff (stepped h) hx (helper_of_finisher hj)
        · exact hmask _ hmem x (List.mem_cons_of_mem op hx) j hj

theorem waitsOn_lt (hcfg : cfg.Sound) (hk : Known cfg s) {j : ℕ} (hj : j < s.dev.numJobs) :
    waitsOn s.dev j < cfg.numIrqs := by
  have hmask := hk.chosen.masks j hj
  unfold waitsOn rknpuWaitCoreIndex
  split_ifs with h1 h2
  · exact hcfg.masked _ hmask 1 (by rw [h1]; rfl)
  · exact hcfg.masked _ hmask 2 (by rw [h2]; rfl)
  · exact hcfg.numIrqs_pos

end

/-! ## The steps -/

section
variable {cfg : Config} {s t : WakeState} {tid : ℕ} {o : Outcome} {op : JobOp} {rest : List JobOp}

theorem waitsNext_wakes (hnext : nextBlock s.job.threads tid = some (op, rest)) :
    (waitsNext cfg s (.exec tid o)).wakes = s.waits.wakes ++ wakesAfter cfg s.job.dev op rest := by
  simp only [waitsNext, hnext]
  cases op with
  | waitEvent j n => exact (List.append_nil _).symm
  | _ => rfl

theorem waitsNext_stage (hnext : nextBlock s.job.threads tid = some (op, rest)) {j : ℕ}
    (hj : (waitsNext cfg s (.exec tid o)).stage j ≠ .running) :
    (waitsNext cfg s (.exec tid o)).stage j = s.waits.stage j ∧ ∀ n, op ≠ .waitEvent j n := by
  simp only [waitsNext, hnext] at hj ⊢
  cases op with
  | waitEvent i n =>
    simp only [Function.update_apply] at hj ⊢
    split_ifs at hj ⊢ with hi
    · exact absurd rfl hj
    · refine ⟨rfl, fun m hm => ?_⟩
      cases hm
      exact hi rfl
  | _ => exact ⟨rfl, nofun⟩

theorem Wakeful.past (hs : Wakeful cfg s) {j : ℕ} (hj : s.waits.stage j ≠ .running) :
    Past s.job j := by
  obtain ⟨n, hop⟩ := hs.waits j hj
  exact hs.known.placed.past_of_after hop rfl

theorem raised_exec {dev : Dev} {eff : Effect} (heff : jobExec cfg dev o op = some eff) {j : ℕ}
    (hcond : waitCondition eff.dev j = true) :
    waitCondition dev j = true ∨ op = .setDone j ∨ op = .resetBegin := by
  unfold waitCondition at hcond ⊢
  simp only [done_eq heff, Bool.or_eq_true, decide_eq_true_eq] at hcond ⊢
  rw [resetting_eq heff] at hcond
  obtain (hdone | hop) | (hop | ⟨-, hreset⟩) := hcond
  · exact Or.inl (Or.inl hdone)
  · exact Or.inr (Or.inl hop)
  · exact Or.inr (Or.inr hop)
  · exact Or.inl (Or.inr hreset)

theorem Wakeful.rings_exec (hs : Wakeful cfg s) (hcfg : cfg ∈ rknpuConfigs) {eff : Effect}
    {others : Multiset JobOp} {label : JobLabel} {job : JobState}
    (hnext : nextBlock s.job.threads tid = some (op, rest))
    (heff : jobExec cfg s.job.dev o op = some eff) (hop : s.job.todo = op ::ₘ others)
    (htodo : job.todo = (eff.calls : Multiset JobOp) + others)
    (h : Stepped cfg s.job job label) {q : ℕ} (hrings : Rings s.job q) :
    q ∈ wakesAfter cfg s.job.dev op rest ∨ Rings job q := by
  obtain ⟨x, hx, j, hj, rfl⟩ := hrings
  have hpast := hs.known.placed.helped x hx j (helper_of_finisher (finisher_of_ringer hj))
  have hsame : waitsOn job.dev j = waitsOn s.job.dev j := by
    unfold waitsOn
    rw [(hpast.stepped h).2]
  have hcalled : ∀ y ∈ eff.calls, ringer y = some j → Rings job (waitsOn s.job.dev j) := by
    intro y hy hyj
    refine ⟨y, ?_, j, hyj, hsame⟩
    rw [htodo]
    exact Multiset.mem_add.mpr (Or.inl (Multiset.mem_coe.mpr hy))
  rw [hop, Multiset.mem_cons] at hx
  obtain rfl | hx := hx
  · cases x with
    | setRet i =>
      cases hj
      cases heff
      exact Or.inr (hcalled (.fenceSignal j) (List.mem_singleton_self _) rfl)
    | fenceSignal i =>
      cases hj
      cases heff
      refine Or.inr (hcalled (.asyncWork j) ?_ rfl)
      unfold jobFenceSignal
      split <;> exact List.mem_singleton_self _
    | asyncWork i =>
      cases hj
      have hmem := List.mem_of_getElem? (getElem_of_nextBlock hnext)
      obtain ⟨c, tail, rfl, hc⟩ := (hs.followed _ hmem).1 j rfl
      refine Or.inl (List.mem_singleton.mpr ?_)
      exact (wakesQueue_eq hcfg (hs.known.chosen.masks j hpast.1) (hs.numbered j hpast.1) hc).symm
    | _ => cases hj
  · refine Or.inr ⟨x, ?_, j, hj, hsame⟩
    rw [htodo]
    exact Multiset.mem_add.mpr (Or.inr hx)

theorem Wakeful.exec (hs : Wakeful cfg s) (hcfg : cfg ∈ rknpuConfigs) {job : JobState}
    (h : jobStep cfg s.job (.exec tid o) = some job) :
    (∀ j, (waitsNext cfg s (.exec tid o)).stage j ≠ .running →
        ∃ n, .waitEvent j n ∈ job.todo) ∧
      Attended (waitsOn job.dev) (waitCondition job.dev)
        (fun q => q ∈ (waitsNext cfg s (.exec tid o)).wakes ∨ Rings job q)
        (waitsNext cfg s (.exec tid o)).stage := by
  cases stepped h with
  | exec hnext heff hop hdev htodo hhist =>
    have hmem : _ ∈ s.job.todo := mem_pending_of_nextBlock hnext
    have hkept : ∀ j, (waitsNext cfg s (.exec tid o)).stage j ≠ .running →
        ∃ n, .waitEvent j n ∈ job.todo := by
      intro j hj
      obtain ⟨hsame, hne⟩ := waitsNext_stage hnext hj
      rw [hsame] at hj
      obtain ⟨n, hwait⟩ := hs.waits j hj
      rw [hop, Multiset.mem_cons] at hwait
      refine ⟨n, ?_⟩
      rw [htodo]
      exact Multiset.mem_add.mpr (Or.inr (hwait.resolve_left (hne n).symm))
    refine ⟨hkept, hs.attended.raise ?_ ?_⟩
    · intro j hrest
      have hrun : (waitsNext cfg s (.exec tid o)).stage j ≠ .running := by
        intro hcon
        rw [hcon] at hrest
        cases hrest
      have hsame := (waitsNext_stage hnext hrun).1
      rw [hsame] at hrest hrun
      have hpast := hs.past hrun
      have hqueue : waitsOn job.dev j = waitsOn s.job.dev j := by
        unfold waitsOn
        rw [(hpast.stepped (stepped h)).2]
      refine ⟨hrest, hqueue, fun hcond => ?_⟩
      obtain hold | rfl | rfl := raised_exec heff (by rw [← hdev]; exact hcond)
      · exact Or.inl hold
      · cases heff
        refine Or.inr (Or.inr ⟨.setRet j, ?_, j, rfl, hqueue⟩)
        rw [htodo]
        exact Multiset.mem_add.mpr (Or.inl (Multiset.mem_coe.mpr (List.mem_singleton_self _)))
      · refine Or.inr (Or.inl ?_)
        rw [waitsNext_wakes hnext]
        refine List.mem_append_right _ (List.mem_range.mpr ?_)
        exact waitsOn_lt (rknpuConfigs_sound hcfg) hs.known hpast.1
    · intro q howed
      rw [waitsNext_wakes hnext, List.mem_append]
      obtain hwakes | hrings := howed
      · exact Or.inl (Or.inl hwakes)
      · obtain hwake | hrings := hs.rings_exec hcfg hnext heff hop htodo (stepped h) hrings
        · exact Or.inl (Or.inr hwake)
        · exact Or.inr hrings

/-- The other steps of `jobSystem` start a thread at most, and change no job. -/
theorem stepped_idle {s t : JobState} {label : JobLabel} (h : Stepped cfg s t label)
    (hlabel : ∀ tid o, label ≠ .exec tid o) : (∀ op ∈ s.todo, op ∈ t.todo) ∧
      t.dev.softReseting = s.dev.softReseting ∧
      ∀ j < s.dev.numJobs, t.dev.jobs j = s.dev.jobs j := by
  cases h with
  | refused ht =>
    rw [ht]
    exact ⟨fun _ hop => hop, rfl, fun _ _ => rfl⟩
  | submit hmask hdev htodo hhist =>
    rw [hdev, htodo]
    refine ⟨fun _ hop => Multiset.mem_cons_of_mem hop, rfl, fun j hj => ?_⟩
    rw [Dev.addJob_jobs, if_neg (Nat.ne_of_lt hj)]
  | exec hnext heff hop hdev htodo hhist => exact absurd rfl (hlabel _ _)
  | irq hc hrunning hdev htodo hhist =>
    rw [hdev, htodo]
    refine ⟨fun _ hop => Multiset.mem_cons_of_mem hop, ?_, fun j _ => ?_⟩
    · split_ifs <;> rfl
    · split_ifs <;> rfl
  | runWork hj hdev htodo hhist | actReset hdev htodo hhist | timer hdev htodo hhist =>
    rw [hdev, htodo]
    exact ⟨fun _ hop => Multiset.mem_cons_of_mem hop, rfl, fun _ _ => rfl⟩
  | tick hdev htodo hhist =>
    rw [hdev, htodo]
    exact ⟨fun _ hop => hop, rfl, fun _ _ => rfl⟩

theorem Wakeful.idle (hs : Wakeful cfg s) {job : JobState} {label : JobLabel}
    (h : Stepped cfg s.job job label) (hlabel : ∀ tid o, label ≠ .exec tid o) :
    (∀ j, s.waits.stage j ≠ .running → ∃ n, .waitEvent j n ∈ job.todo) ∧
      Attended (waitsOn job.dev) (waitCondition job.dev)
        (fun q => q ∈ s.waits.wakes ∨ Rings job q) s.waits.stage := by
  obtain ⟨htodo, hreset, hjobs⟩ := stepped_idle h hlabel
  refine ⟨fun j hj => ?_, hs.attended.raise ?_ ?_⟩
  · obtain ⟨n, hwait⟩ := hs.waits j hj
    exact ⟨n, htodo _ hwait⟩
  · intro j hrest
    have hpast : Past s.job j := by
      apply hs.past
      intro hcon
      rw [hcon] at hrest
      cases hrest
    unfold waitsOn waitCondition
    rw [hjobs j hpast.1, hreset]
    exact ⟨hrest, rfl, Or.inl⟩
  · intro q howed
    refine howed.imp_right ?_
    rintro ⟨op, hop, j, hj, hq⟩
    have hpast := hs.known.placed.helped op hop j (helper_of_finisher (finisher_of_ringer hj))
    refine ⟨op, htodo op hop, j, hj, ?_⟩
    unfold waitsOn at hq ⊢
    rw [hjobs j hpast.1]
    exact hq

theorem Wakeful.wait (hs : Wakeful cfg s) {label : WaitLabel ℕ ℕ} {waits : WaitQueues ℕ ℕ}
    (hmay : mayWait s.job label = true)
    (h : waitStep (waitsOn s.job.dev) (waitCondition s.job.dev) s.waits label = some waits) :
    Wakeful cfg { s with waits := waits } where
  known := hs.known
  numbered := hs.numbered
  followed := hs.followed
  waits j hj := by
    obtain hold | rfl := stage_step h hj
    · exact hs.waits j hold
    · obtain ⟨thread, hthread, hhead⟩ := List.any_eq_true.mp hmay
      cases thread with
      | nil => cases hhead
      | cons op rest =>
        cases op with
        | waitEvent i n =>
          obtain rfl : i = j := of_decide_eq_true hhead
          exact ⟨n, mem_pending.mpr ⟨_, hthread, List.mem_cons_self⟩⟩
        | _ => cases hhead
  attended := hs.attended.step h

theorem Wakeful.step (hs : Wakeful cfg s) (hcfg : cfg ∈ rknpuConfigs) {label : WakeLabel}
    (h : wakeStep cfg s label = some t) : Wakeful cfg t := by
  cases label with
  | wait label =>
    simp only [wakeStep] at h
    split_ifs at h with hmay
    obtain ⟨waits, hstep, rfl⟩ := Option.map_eq_some_iff.mp h
    exact hs.wait hmay hstep
  | job label =>
    simp only [wakeStep] at h
    split_ifs at h
    obtain ⟨job, hjob, rfl⟩ := Option.map_eq_some_iff.mp h
    have hsound := rknpuConfigs_sound hcfg
    have hknown := hs.known.step hsound (stepped hjob)
    have hnumbered := hs.numbered.step hsound hs.known (stepped hjob)
    have hfollowed := followed_step hs.followed hs.known hjob
    cases label with
    | exec tid o =>
      obtain ⟨hwaits, hattended⟩ := hs.exec hcfg hjob
      exact ⟨hknown, hnumbered, hfollowed, hwaits, hattended⟩
    | submit | irq | runWork | actReset | timer | tick =>
      obtain ⟨hwaits, hattended⟩ := hs.idle (stepped hjob) nofun
      exact ⟨hknown, hnumbered, hfollowed, hwaits, hattended⟩

theorem wakeful (hcfg : cfg ∈ rknpuConfigs) (hs : (wakeSystem cfg).Reachable s) :
    Wakeful cfg s := by
  refine hs.invariant (Wakeful cfg) ?_ fun s label t hs h => hs.step hcfg h
  rintro s ⟨now, rfl⟩
  refine ⟨known_init, fun j hj => absurd hj (Nat.not_lt_zero j), nofun, ?_, attended_running⟩
  intro j hj
  exact absurd rfl hj

/-- **No wake-up is lost**: a submitter that is asleep while its job is done, or while a reset is
under way, sleeps on a queue that a handler or a reset is still to wake. -/
theorem no_lost_wakeup (hcfg : cfg ∈ rknpuConfigs) (hs : (wakeSystem cfg).Reachable s) {j : ℕ}
    (hasleep : s.waits.stage j = .asleep) (hcond : waitCondition s.job.dev j = true) :
    waitsOn s.job.dev j ∈ s.owed := by
  have hwakeful := wakeful hcfg hs
  have hrest : (s.waits.stage j).resting = true := by rw [hasleep]; rfl
  unfold WakeState.owed
  obtain hwake | ⟨op, hop, i, hi, hqueue⟩ := hwakeful.attended j hrest hcond
  · exact List.mem_append_left _ hwake
  · apply List.mem_append_right
    obtain ⟨thread, hthread, hmem⟩ := mem_pending.mp hop
    have hlt := (hwakeful.known.placed.helped op hop i (helper_of_finisher
      (finisher_of_ringer hi))).1
    obtain ⟨c, hc, hcoming⟩ := (hwakeful.followed thread hthread).mem hmem hi
    rw [wakesQueue_eq hcfg (hwakeful.known.chosen.masks i hlt) (hwakeful.numbered i hlt) hc]
      at hcoming
    rw [← hqueue]
    exact List.mem_flatMap.mpr ⟨thread, hthread, hcoming⟩

end

/-- A job whose submitter has gone to sleep. -/
def sleptOn : List WakeLabel :=
  .job (.submit (oneTask rknpuJobPc rknpuCore0Mask) false true) ::
    List.replicate 15 (.job (.exec 0 calm)) ++
      [.wait (.prepare 0), .wait (.check 0), .wait (.sleep 0)]

/-- The interrupt handler has written that the job is done. -/
theorem no_lost_wakeup_done : ∃ s, (wakeSystem rk3588RknpuConfig).Reachable s ∧
    (s.job.dev.jobs 0).done = true ∧ s.waits.stage 0 = .asleep ∧ s.waits.wakes = [] ∧
      waitsOn s.job.dev 0 ∈ s.owed := by
  obtain ⟨s, hs, h⟩ := System.Reachable.of_run_any (S := wakeSystem rk3588RknpuConfig)
    (p := fun s => decide ((s.job.dev.jobs 0).done = true ∧ s.waits.stage 0 = .asleep ∧
      s.waits.wakes = []))
    (l := sleptOn ++ .job (.irq 0 true) :: List.replicate 7 (.job (.exec 1 calm)))
    ⟨1, rfl⟩ (by decide +kernel)
  obtain ⟨hdone, hasleep, hwakes⟩ := of_decide_eq_true h
  refine ⟨s, hs, hdone, hasleep, hwakes, no_lost_wakeup (by decide) hs hasleep ?_⟩
  unfold waitCondition
  rw [hdone]
  rfl

end RknpuDriver.Job
