import RknpuDriver.Job.Blocks
import RknpuDriver.Lib.System
import RknpuDriver.Lib.Threads
import Mathlib.Tactic.SplitIfs

/-! # Runs of the job code

The threads are the submitting threads, the interrupt handlers, the workqueue and the timer;
each is the list of the blocks it still has to run. A step starts a thread or runs the next
block of one. `hist` records the events.

* `jobSystem`: all runs.
* `Stepped`, `stepped`: what a step can do.
* `touches`: the jobs of which a block reads or writes a field.
-/

namespace RknpuDriver.Job
set_option autoImplicit false
open RknpuDriver.Lib

structure JobState where
  dev : Dev
  threads : List (List JobOp)
  hist : List Event

/-- `irq c true` is the interrupt of the batch that runs on core `c`, `irq c false` any other
interrupt of its line. `runWork j` is the workqueue taking the cleanup work of job `j`,
`actReset` the action `RKNPU_ACT_RESET`. -/
inductive JobLabel where
  | submit (args : Submit) (useDrmGem allocOk : Bool)
  | exec (tid : ℕ) (o : Outcome)
  | irq (c : ℕ) (completed : Bool)
  | runWork (j : ℕ)
  | actReset
  | timer
  | tick (ns : ℕ)

/-- The blocks that are waiting to run. -/
def JobState.todo (s : JobState) : Multiset JobOp := pending s.threads

/-- The state after the event that starts a thread which runs `op`. -/
def JobState.spawn (s : JobState) (dev : Dev) (op : JobOp) : JobState :=
  { s with dev := dev, threads := s.threads ++ [[op]] }

def jobStep (cfg : Config) (s : JobState) : JobLabel → Option JobState
  | .submit args useDrmGem allocOk =>
    match rknpuSubmit cfg s.dev args useDrmGem allocOk with
    | .error _ => some s
    | .ok eff => some ⟨eff.dev, s.threads ++ [eff.calls], s.hist ++ eff.events⟩
  | .exec tid o =>
    match nextBlock s.threads tid with
    | none => none
    | some (op, rest) => (jobExec cfg s.dev o op).map fun eff =>
        ⟨eff.dev, advance s.threads tid eff.calls rest, s.hist ++ eff.events⟩
  | .irq c completed =>
    if c < cfg.numIrqs ∧ (completed = true → s.dev.running c ≠ none) then
      some (s.spawn (if completed then s.dev.setRunning c none else s.dev) (.irqEntry c))
    else none
  | .runWork j =>
    if j ∈ s.dev.works then
      some (s.spawn { s.dev with works := s.dev.works.erase j } (.cleanupWork j))
    else none
  | .actReset => some (s.spawn s.dev .resetBegin)
  | .timer => some (s.spawn s.dev (.timerTick 0))
  | .tick ns => some { s with dev := { s.dev with now := s.dev.now + ns } }

def RknpuJob.zero : RknpuJob where
  args := ⟨0, 0, 0, 0, 0, 0, 0, 0, 0, fun _ => ⟨0, 0⟩⟩
  argsOwner := false
  useDrmGem := false
  useCoreNum := 0
  runCount := 0
  interruptCount := 0
  submitCount := fun _ => 0
  irqEntry := fun _ => false
  done := false
  async := false
  ret := 0
  firstTask := none
  lastTask := none
  intMask := fun _ => 0
  intStatus := fun _ => 0
  fence := none
  timestamp := 0
  hwCommitTime := 0
  hwRecoderTime := 0
  hwElapseTime := 0

/-- The device after a successful `rknpu_probe`, at time `now`. -/
def Dev.probed (now : ℕ) : Dev where
  jobs := fun _ => .zero
  numJobs := 0
  freed := fun _ => false
  subcoreDatas := fun _ => ⟨[], none, 0, 0, 0⟩
  base := fun _ => true
  softReseting := false
  works := []
  fenceSeqno := 0
  fenceSignaled := fun _ => false
  running := fun _ => none
  asserted := 0
  now := now

def jobSystem (cfg : Config) : System JobState JobLabel where
  init s := ∃ now, s = ⟨.probed now, [], []⟩
  step := jobStep cfg

/-- A job with one task for each core it can run on. -/
def oneTask (flags coreMask : UInt32) : Submit where
  flags := flags
  timeout := 1000
  taskStart := 0
  taskNumber := 1
  taskCounter := 0
  taskObjAddr := 0x1000
  iommuDomainId := 0
  hwElapseTime := 0
  coreMask := coreMask
  subcoreTask := fun _ => ⟨0, 1⟩

/-- Calls succeed, no timer expires, and the status is that of a finished batch. -/
def calm : Outcome := ⟨0, false, true, 0x300, 0x300, 0⟩

def expired : Outcome := { calm with timedOut := true }

/-! ## Histories -/

/-- The jobs in the order in which they were queued. -/
def enqueues (hist : List Event) : List ℕ :=
  hist.filterMap fun
    | .enqueue j => some j
    | _ => none

/-- The jobs that a core took from its list, in order. -/
def popsOn (c : ℕ) (hist : List Event) : List ℕ :=
  hist.filterMap fun
    | .pop i j => if i = c then some j else none
    | _ => none

/-- How many batches of a job were started on a core. -/
def startsOn (j c : ℕ) (hist : List Event) : ℕ :=
  hist.countP fun
    | .start i d _ _ => i = j ∧ d = c
    | _ => false

/-- How many interrupts of a job were counted on a core. -/
def completesOn (j c : ℕ) (hist : List Event) : ℕ := hist.count (.complete j c)

/-- An event that gang scheduling does not see. -/
def silent : Event → Bool
  | .enqueue _ | .pop _ _ | .commit _ | .start _ _ _ _ | .done _ => false
  | _ => true

@[simp] theorem enqueues_append (hist evs : List Event) :
    enqueues (hist ++ evs) = enqueues hist ++ enqueues evs := List.filterMap_append

@[simp] theorem popsOn_append (c : ℕ) (hist evs : List Event) :
    popsOn c (hist ++ evs) = popsOn c hist ++ popsOn c evs := List.filterMap_append

@[simp] theorem startsOn_append (j c : ℕ) (hist evs : List Event) :
    startsOn j c (hist ++ evs) = startsOn j c hist + startsOn j c evs := List.countP_append

/-- A history that goes on with references on task objects only, as by a submit. -/
def OnlyGets (hist hist' : List Event) : Prop :=
  ∃ evs : List Event, hist' = hist ++ evs ∧ ∀ e ∈ evs, ∃ a, e = .gemGet a

section
variable {hist hist' : List Event}

theorem OnlyGets.of_eq (h : hist' = hist) : OnlyGets hist hist' :=
  ⟨[], by rw [h, List.append_nil], fun _ he => (List.not_mem_nil he).elim⟩

theorem OnlyGets.of_submit {p : Prop} [Decidable p] {a : UInt64}
    (h : hist' = hist ++ if p then [.gemGet a] else []) : OnlyGets hist hist' := by
  refine ⟨_, h, fun e he => ?_⟩
  split_ifs at he
  · exact ⟨a, List.mem_singleton.mp he⟩
  · exact (List.not_mem_nil he).elim

theorem OnlyGets.filterMap (h : OnlyGets hist hist') {α : Type} (f : Event → Option α)
    (hf : ∀ a, f (.gemGet a) = none) : hist'.filterMap f = hist.filterMap f := by
  obtain ⟨evs, rfl, hevs⟩ := h
  have hnil : evs.filterMap f = [] := by
    refine List.filterMap_eq_nil_iff.mpr fun e he => ?_
    obtain ⟨a, rfl⟩ := hevs e he
    exact hf a
  rw [List.filterMap_append, hnil, List.append_nil]

theorem OnlyGets.countP (h : OnlyGets hist hist') (p : Event → Bool)
    (hp : ∀ a, p (.gemGet a) = false) : hist'.countP p = hist.countP p := by
  obtain ⟨evs, rfl, hevs⟩ := h
  have hzero : evs.countP p = 0 := by
    refine List.countP_eq_zero.mpr fun e he => ?_
    obtain ⟨a, rfl⟩ := hevs e he
    rw [hp a]
    exact Bool.false_ne_true
  rw [List.countP_append, hzero, Nat.add_zero]

theorem OnlyGets.count (h : OnlyGets hist hist') {e : Event} (he : ∀ a, e ≠ .gemGet a) :
    hist'.count e = hist.count e :=
  h.countP _ fun a => beq_false_of_ne (he a).symm

theorem OnlyGets.mem_iff (h : OnlyGets hist hist') {e : Event} (he : ∀ a, e ≠ .gemGet a) :
    e ∈ hist' ↔ e ∈ hist := by
  rw [← List.count_pos_iff, ← List.count_pos_iff, h.count he]

theorem OnlyGets.enqueues (h : OnlyGets hist hist') : enqueues hist' = enqueues hist :=
  h.filterMap _ fun _ => rfl

theorem OnlyGets.popsOn (h : OnlyGets hist hist') (c : ℕ) : popsOn c hist' = popsOn c hist :=
  h.filterMap _ fun _ => rfl

theorem OnlyGets.startsOn (h : OnlyGets hist hist') (j c : ℕ) :
    startsOn j c hist' = startsOn j c hist :=
  h.countP _ fun _ => rfl

theorem OnlyGets.completesOn (h : OnlyGets hist hist') (j c : ℕ) :
    completesOn j c hist' = completesOn j c hist :=
  h.count fun _ hcon => by cases hcon

end

/-! ## Steps -/

/-- What a step can do. The threads are given by the blocks that are waiting to run. -/
inductive Stepped (cfg : Config) (s t : JobState) : JobLabel → Prop where
  | refused {args : Submit} {useDrmGem allocOk : Bool} (ht : t = s) :
      Stepped cfg s t (.submit args useDrmGem allocOk)
  | submit {args : Submit} {useDrmGem : Bool} (hmask : args.coreMask ≤ cfg.coreMask)
      (hdev : t.dev = s.dev.addJob (rknpuJobAlloc s.dev args useDrmGem))
      (htodo : t.todo = .fenceIn s.dev.numJobs ::ₘ s.todo)
      (hhist : t.hist = s.hist ++
        if useDrmGem ∧ args.taskObjAddr ≠ 0 then [.gemGet args.taskObjAddr] else []) :
      Stepped cfg s t (.submit args useDrmGem true)
  | exec {tid : ℕ} {o : Outcome} {op : JobOp} {rest : List JobOp} {eff : Effect}
      {others : Multiset JobOp} (hnext : nextBlock s.threads tid = some (op, rest))
      (heff : jobExec cfg s.dev o op = some eff) (hop : s.todo = op ::ₘ others)
      (hdev : t.dev = eff.dev) (htodo : t.todo = (eff.calls : Multiset JobOp) + others)
      (hhist : t.hist = s.hist ++ eff.events) : Stepped cfg s t (.exec tid o)
  | irq {c : ℕ} {completed : Bool} (hc : c < cfg.numIrqs)
      (hrunning : completed = true → s.dev.running c ≠ none)
      (hdev : t.dev = if completed then s.dev.setRunning c none else s.dev)
      (htodo : t.todo = .irqEntry c ::ₘ s.todo) (hhist : t.hist = s.hist) :
      Stepped cfg s t (.irq c completed)
  | runWork {j : ℕ} (hj : j ∈ s.dev.works)
      (hdev : t.dev = { s.dev with works := s.dev.works.erase j })
      (htodo : t.todo = .cleanupWork j ::ₘ s.todo) (hhist : t.hist = s.hist) :
      Stepped cfg s t (.runWork j)
  | actReset (hdev : t.dev = s.dev) (htodo : t.todo = .resetBegin ::ₘ s.todo)
      (hhist : t.hist = s.hist) : Stepped cfg s t .actReset
  | timer (hdev : t.dev = s.dev) (htodo : t.todo = .timerTick 0 ::ₘ s.todo)
      (hhist : t.hist = s.hist) : Stepped cfg s t .timer
  | tick {ns : ℕ} (hdev : t.dev = { s.dev with now := s.dev.now + ns }) (htodo : t.todo = s.todo)
      (hhist : t.hist = s.hist) : Stepped cfg s t (.tick ns)

theorem todo_of_threads {s t : JobState} {op : JobOp} (h : t.threads = s.threads ++ [[op]]) :
    t.todo = {op} + s.todo := by
  unfold JobState.todo
  rw [h, pending_spawn, Multiset.coe_singleton, Multiset.add_comm]

theorem mem_todo_of_threads {s t : JobState} {op x : JobOp}
    (h : t.threads = s.threads ++ [[op]]) (hx : x ∈ t.todo) : x ∈ s.todo ∨ x = op := by
  rw [todo_of_threads h, Multiset.mem_add, Multiset.mem_singleton] at hx
  exact hx.symm

theorem todo_spawn (s : JobState) (dev : Dev) (op : JobOp) :
    (s.spawn dev op).todo = op ::ₘ s.todo := by
  unfold JobState.todo JobState.spawn
  rw [pending_spawn, Multiset.coe_singleton, Multiset.add_comm, Multiset.singleton_add]

theorem rknpuSubmit_ok {cfg : Config} {dev : Dev} {args : Submit} {useDrmGem allocOk : Bool}
    {eff : Effect} (h : rknpuSubmit cfg dev args useDrmGem allocOk = .ok eff) :
    args.coreMask ≤ cfg.coreMask ∧ allocOk = true ∧
      eff = ⟨dev.addJob (rknpuJobAlloc dev args useDrmGem), [.fenceIn dev.numJobs],
        if useDrmGem ∧ args.taskObjAddr ≠ 0 then [.gemGet args.taskObjAddr] else []⟩ := by
  unfold rknpuSubmit at h
  by_cases hnum : args.taskNumber = 0
  · rw [if_pos hnum] at h
    cases h
  · by_cases hmask : cfg.coreMask < args.coreMask
    · rw [if_neg hnum, if_pos hmask] at h
      cases h
    · rw [if_neg hnum, if_neg hmask] at h
      cases allocOk with
      | false => cases h
      | true =>
        cases h
        exact ⟨UInt32.not_lt.mp hmask, rfl, rfl⟩

theorem stepped {cfg : Config} {s t : JobState} {a : JobLabel} (h : jobStep cfg s a = some t) :
    Stepped cfg s t a := by
  cases a with
  | submit args useDrmGem allocOk =>
    simp only [jobStep] at h
    split at h
    · exact .refused (Option.some.inj h).symm
    · rename_i eff heff
      obtain ⟨hmask, rfl, rfl⟩ := rknpuSubmit_ok heff
      cases h
      refine .submit hmask rfl ?_ rfl
      unfold JobState.todo
      rw [pending_spawn, Multiset.coe_singleton, Multiset.add_comm, Multiset.singleton_add]
  | exec tid o =>
    simp only [jobStep] at h
    split at h
    · cases h
    · rename_i op rest hnext
      obtain ⟨eff, heff, rfl⟩ := Option.map_eq_some_iff.mp h
      obtain ⟨others, hop, hadv⟩ := pending_advance hnext
      exact .exec hnext heff hop rfl (hadv eff.calls) rfl
  | irq c completed =>
    simp only [jobStep] at h
    split_ifs at h with hc hcompleted
    · cases h
      exact .irq hc.1 hc.2 (if_pos hcompleted).symm (todo_spawn ..) rfl
    · cases h
      exact .irq hc.1 hc.2 (if_neg hcompleted).symm (todo_spawn ..) rfl
  | runWork j =>
    simp only [jobStep] at h
    split_ifs at h with hj
    cases h
    exact .runWork hj rfl (todo_spawn ..) rfl
  | actReset =>
    cases h
    exact .actReset rfl (todo_spawn ..) rfl
  | timer =>
    cases h
    exact .timer rfl (todo_spawn ..) rfl
  | tick ns =>
    cases h
    exact .tick rfl rfl rfl

/-- A condition on the block that a step runs. -/
def onBlock (g : Dev → Outcome → JobOp → Bool) (s : JobState) : JobLabel → Bool
  | .exec tid o =>
    match nextBlock s.threads tid with
    | some (op, _) => g s.dev o op
    | none => true
  | _ => true

theorem onBlock_exec {g : Dev → Outcome → JobOp → Bool} {s : JobState} {tid : ℕ} {o : Outcome}
    {op : JobOp} {rest : List JobOp} (hnext : nextBlock s.threads tid = some (op, rest)) :
    onBlock g s (.exec tid o) = g s.dev o op := by
  simp only [onBlock, hnext]

/-- The jobs of which a block reads or writes a field. To put a job on a list, or to take one
from it, writes its neighbours too. -/
def touches (cfg : Config) (dev : Dev) : JobOp → List ℕ
  | .fenceIn _ | .domainPut _ | .timeoutClean _ _ | .timeoutClear _ _ | .next _
  | .resetBegin | .resetAssert | .resetDeassert | .resetEnd => []
  | .fenceOut j | .fenceInit j _ | .dispatch j | .nonblockRet j | .blockRet j | .timeoutCheck _ _ j
  | .timeoutWork _ j | .schedule j | .autoRead j _ _ _ | .domainGet j | .waitEvent j _
  | .waitCheck j _ | .waitLast j _ | .waitEnd j _ | .waitRet j _ | .decRunCount j | .commit j
  | .subcoreCommit j _ | .irqStatus j _ | .doneCount j _ | .doneClear j _ | .doneDec j
  | .setDone j | .setRet j | .fenceSignal j | .asyncWork j | .abortClear j | .abortReport j
  | .free j | .cleanupWork j => [j]
  | .scanMask j i => if i < cfg.numIrqs then [j] else []
  | .enqueue j => j :: (List.range cfg.numIrqs).flatMap fun i =>
      (dev.subcoreDatas i).todoList.getLast?.toList
  | .waitRemove j _ => j :: (List.range (dev.jobs j).useCoreNum).flatMap fun i =>
      (dev.subcoreDatas i).todoList
  | .timeoutNext c => (dev.subcoreDatas c).todoList.take 2
  | .pop c => (dev.subcoreDatas c).todoList.take 2
  | .irqEntry c | .timerTick c => (dev.subcoreDatas c).job.toList

end RknpuDriver.Job
