import RknpuDriver.Job.Frames
import RknpuDriver.Job.Masks
import RknpuDriver.Lib.Gang.Quiescence
import Mathlib.Data.Multiset.Bind

/-! # Undisturbed runs

`undisturbedSystem` takes the steps in which nothing goes wrong: jobs that `rknpu_job_commit`
knows how to start, commits that succeed, one matching interrupt for each batch, no timeout and
no reset. Everything else is as in `jobSystem`: any number of threads, in any order.

`toGang` forgets of a state what gang scheduling does not need.
-/

namespace RknpuDriver.Job
set_option autoImplicit false
open RknpuDriver.Lib

/-! ## The assumptions -/

/-- A PC job for the scheduler to place, or for cores that `rknpu_job_commit` starts. -/
def regular (args : Submit) : Bool :=
  args.flags &&& rknpuJobPc ≠ 0 ∧
    (args.coreMask = rknpuCoreAutoMask ∨ commitCores args.coreMask ≠ [])

/-- A commit succeeds, an interrupt matches, nothing times out, and nothing is reset. -/
def smooth (cfg : Config) (dev : Dev) (o : Outcome) : JobOp → Bool
  | .subcoreCommit j c => commitError cfg dev o (dev.jobs j) c = none
  | .irqStatus j c => rknpuFuzzStatus o.status = (dev.jobs j).intMask c
  | .timeoutCheck _ _ j => !timeoutHit dev j
  | .waitEvent _ _ => !o.timedOut
  | .resetBegin => false
  | _ => true

def undisturbed (cfg : Config) (s : JobState) : JobLabel → Bool
  | .submit args _ _ => regular args
  | .exec tid o => onBlock (smooth cfg) s (.exec tid o)
  | .irq _ completed => completed
  | .actReset => false
  | .runWork _ | .timer | .tick _ => true

def undisturbedSystem (cfg : Config) : System JobState JobLabel :=
  (jobSystem cfg).guarded fun s a => undisturbed cfg s a = true

/-! ## The abstraction -/

/-- A core is given up after one batch at least, whatever the number of tasks. -/
def toData (cfg : Config) (job : RknpuJob) : JobData ℕ where
  runCount := job.runCount
  interruptCount := job.interruptCount
  submitCount := job.submitCount
  cores := commitCores job.args.coreMask
  batches c := max 1 (batches cfg job c)

def toTasks (cfg : Config) : JobOp → Multiset (Task ℕ ℕ)
  | .fenceIn j | .fenceOut j | .fenceInit j _ | .dispatch j | .schedule j | .autoRead j _ _ _
  | .domainGet j | .enqueue j => {.prepare j}
  | .scanMask j i => ((List.range' i (cfg.numIrqs - i)).map (.scan j) : List (Task ℕ ℕ))
  | .next c | .pop c => {.pop c}
  | .decRunCount j => {.dec j}
  | .commit j => {.commit j}
  | .subcoreCommit j c => {.start j c}
  | .irqEntry c => {.irq c}
  | .irqStatus j c | .doneCount j c => {.complete j c}
  | .doneClear j c => {.clear j c}
  | .doneDec j => {.finish j}
  | .setDone j => {.setDone j}
  | _ => 0

/-- What is left to do for all blocks of a list. -/
def callTasks (cfg : Config) (calls : List JobOp) : Multiset (Task ℕ ℕ) :=
  (calls : Multiset JobOp).bind (toTasks cfg)

@[simp] theorem callTasks_nil (cfg : Config) : callTasks cfg [] = 0 := rfl

@[simp] theorem callTasks_cons (cfg : Config) (op : JobOp) (calls : List JobOp) :
    callTasks cfg (op :: calls) = toTasks cfg op + callTasks cfg calls := by
  rw [callTasks, ← Multiset.cons_coe, Multiset.cons_bind]
  rfl

@[simp] theorem callTasks_append (cfg : Config) (l l' : List JobOp) :
    callTasks cfg (l ++ l') = callTasks cfg l + callTasks cfg l' := by
  rw [callTasks, ← Multiset.coe_add, Multiset.add_bind]
  rfl

def toGang (cfg : Config) (dev : Dev) (tasks : Multiset (Task ℕ ℕ)) (hist : List Event) :
    Gang ℕ ℕ where
  data j := toData cfg (dev.jobs j)
  queue c := (dev.subcoreDatas c).todoList
  current c := (dev.subcoreDatas c).job
  running := dev.running
  tasks := tasks
  order := enqueues hist
  popped c := popsOn c hist
  commits j := hist.count (.commit j)
  dones j := hist.count (.done j)
  starts j c := startsOn j c hist

def JobState.gang (cfg : Config) (s : JobState) : Gang ℕ ℕ :=
  toGang cfg s.dev (s.todo.bind (toTasks cfg)) s.hist

theorem toGang_congr {cfg : Config} {dev dev' : Dev} {tasks tasks' : Multiset (Task ℕ ℕ)}
    {hist evs : List Event} (hdata : ∀ j, toData cfg (dev'.jobs j) = toData cfg (dev.jobs j))
    (hqueue : ∀ c, (dev'.subcoreDatas c).todoList = (dev.subcoreDatas c).todoList)
    (hcurrent : ∀ c, (dev'.subcoreDatas c).job = (dev.subcoreDatas c).job)
    (hrunning : dev'.running = dev.running) (htasks : tasks' = tasks)
    (hevs : ∀ e ∈ evs, silent e = true) :
    toGang cfg dev' tasks' (hist ++ evs) = toGang cfg dev tasks hist := by
  have horder : enqueues evs = [] := by
    refine List.filterMap_eq_nil_iff.mpr fun e he => ?_
    have hsilent := hevs e he
    cases e <;> first | rfl | cases hsilent
  have hpops : ∀ c, popsOn c evs = [] := by
    intro c
    refine List.filterMap_eq_nil_iff.mpr fun e he => ?_
    have hsilent := hevs e he
    cases e <;> first | rfl | cases hsilent
  have hstarts : ∀ j c, startsOn j c evs = 0 := by
    intro j c
    refine List.countP_eq_zero.mpr fun e he => ?_
    have hsilent := hevs e he
    cases e <;> first | exact Bool.false_ne_true | cases hsilent
  have hcommits : ∀ j, evs.count (.commit j) = 0 :=
    fun j => List.count_eq_zero.mpr fun hmem => Bool.false_ne_true (hevs _ hmem)
  have hdones : ∀ j, evs.count (.done j) = 0 :=
    fun j => List.count_eq_zero.mpr fun hmem => Bool.false_ne_true (hevs _ hmem)
  apply Gang.ext
  · exact funext hdata
  · exact funext hqueue
  · exact funext hcurrent
  · exact hrunning
  · exact htasks
  · simp [toGang, horder]
  · funext c
    simp [toGang, hpops]
  · funext j
    simp [toGang, hcommits]
  · funext j
    simp [toGang, hdones]
  · funext j c
    simp [toGang, hstarts]

end RknpuDriver.Job
