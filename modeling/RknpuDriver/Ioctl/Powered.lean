import RknpuDriver.Job.Waited
import RknpuDriver.Power.Hardware

/-! # Jobs and the power they run on

`RKNPU_IOCTL` and `rknpu_ioctl` put `rknpu_power_get` before an action or a submit and
`rknpu_power_put_delay` after it; the frequency node of `rknpu_debugger.c` uses `rknpu_power_put`.
The jobs of `rknpu_job.c` run in interrupt handlers and in other submitters' threads as well,
which do not get the power themselves.

The system puts together the threads of `Job.Runs`, the power functions of `Power.Refcount` with
the counts of `Power.Hardware`, and the callers that go through get, body and put.

* `Served`: the gets that are held are those of the callers inside, and each submitter of a job is
  one of them.
* `powered_at_work`: when every submitter waits for its job, the NPU is powered while a job is
  queued or on a core, and when registers are read or written for it.
* `unpowered_nonblock`: a job that nobody waits for is switched off while it runs.
-/

namespace RknpuDriver.Ioctl
open RknpuDriver.Lib RknpuDriver.Power RknpuDriver.Job
set_option autoImplicit false

/-! ## The system -/

/-- What is done between the get and the put: a submit, the action `RKNPU_ACT_RESET`, or something
that starts no block of `rknpu_job.c`. -/
inductive Body where
  | submit (args : Submit) (useDrmGem allocOk : Bool)
  | reset
  | other

/-- The step that begins a body in `jobSystem`. -/
def Body.label : Body → Option JobLabel
  | .submit args useDrmGem allocOk => some (.submit args useDrmGem allocOk)
  | .reset => some .actReset
  | .other => none

/-- `running tid` is the body's thread in `jobSystem`. -/
inductive Phase where
  | waiting
  | entered
  | running (tid : ℕ)
  | returned
  | left
  deriving DecidableEq

/-- A call; `delayed` tells whether it ends with `rknpu_power_put_delay` or `rknpu_power_put`. -/
structure Caller where
  body : Body
  delayed : Bool
  phase : Phase

/-- The call has its get and has not begun its put. -/
def Caller.inside (c : Caller) : Bool := c.phase ≠ .waiting ∧ c.phase ≠ .left

structure IoctlState where
  job : JobState
  power : PowerState
  hw : PowerHw
  callers : List Caller

/-- A call begins, caller `i` runs `rknpu_power_get`, begins its body, or begins its put; thread
`tid` runs the next block of a put or of `power_off_work`; somebody writes `power_put_delay`, the
work's timer expires, or a step of `jobSystem` that no call begins is taken. -/
inductive IoctlLabel where
  | call (body : Body) (delayed : Bool)
  | enter (i : ℕ) (o : PowerOutcome)
  | run (i : ℕ)
  | leave (i : ℕ)
  | power (tid : ℕ) (o : PowerOutcome)
  | setDelay (ms : ℕ)
  | fire
  | job (label : JobLabel)

def IoctlState.setPhase (s : IoctlState) (i : ℕ) (c : Caller) (phase : Phase) : IoctlState :=
  { s with callers := s.callers.set i { c with phase := phase } }

/-- What a submit or an action returns from `rknpu_power_get` is ignored. -/
def callerEnter (domains : PowerDomains) (s : IoctlState) (i : ℕ) (c : Caller)
    (o : PowerOutcome) : Option IoctlState :=
  if c.phase = .waiting then
    let (hw, ret) := powerCall domains s.power.dev s.hw o .get
    (powerSystem.run s.power [.get, .exec s.power.threads.length ret]).map fun power =>
      { s with power := power, hw := hw }.setPhase i c .entered
  else none

/-- A submit that returns an error at once starts no thread. -/
def callerRun (cfg : Config) (s : IoctlState) (i : ℕ) (c : Caller) : Option IoctlState :=
  if c.phase = .entered then
    match c.body.label with
    | none => some (s.setPhase i c .returned)
    | some label => (jobStep cfg s.job label).map fun job =>
        { s with job := job }.setPhase i c
          (if job.threads.length = s.job.threads.length then .returned
          else .running s.job.threads.length)
  else none

/-- The body has returned. -/
def Caller.finished (c : Caller) (job : JobState) : Bool :=
  match c.phase with
  | .running tid => job.threads[tid]? = some []
  | .returned => true
  | _ => false

def callerLeave (s : IoctlState) (i : ℕ) (c : Caller) : Option IoctlState :=
  if c.finished s.job then
    (powerStep s.power (if c.delayed then .putDelay else .put)).map fun power =>
      { s with power := power }.setPhase i c .left
  else none

/-- A step of `jobSystem` that belongs to no call. -/
def ownStep : JobLabel → Bool
  | .submit _ _ _ | .actReset => false
  | _ => true

def ioctlStep (cfg : Config) (domains : PowerDomains) (s : IoctlState) :
    IoctlLabel → Option IoctlState
  | .call body delayed => some { s with callers := s.callers ++ [⟨body, delayed, .waiting⟩] }
  | .enter i o => s.callers[i]?.bind fun c => callerEnter domains s i c o
  | .run i => s.callers[i]?.bind fun c => callerRun cfg s i c
  | .leave i => s.callers[i]?.bind fun c => callerLeave s i c
  | .power tid o =>
    (nextBlock s.power.threads tid).bind fun next =>
      let (hw, ret) := powerCall domains s.power.dev s.hw o next.1
      (powerStep s.power (.exec tid ret)).map fun power => { s with power := power, hw := hw }
  | .setDelay ms => (powerStep s.power (.setDelay ms)).map fun power => { s with power := power }
  | .fire => (powerStep s.power .fire).map fun power => { s with power := power }
  | .job label =>
    if ownStep label then (jobStep cfg s.job label).map fun job => { s with job := job }
    else none

/-- All histories of a device that `rknpu_probe` has left powered off. -/
def ioctlSystem (cfg : Config) (domains : PowerDomains) : System IoctlState IoctlLabel where
  init s := ∃ now delay, s =
    ⟨⟨.probed now, [], []⟩, ⟨⟨0, delay, false, false, 0⟩, 0, []⟩, domains.counts 0, []⟩
  step := ioctlStep cfg domains

/-! ## Ordinary runs -/

/-- The condition of `waitingSystem` on a step of `jobSystem`. -/
def jobOrdinary (cfg : Config) (s : JobState) (label : JobLabel) : Bool :=
  undisturbed cfg s label && onBlock (fun _ => releases s) s label && Job.waiting label

/-- Submitters wait for their jobs, nothing goes wrong in the jobs, and the power comes up. -/
def ordinary (cfg : Config) (domains : PowerDomains) (s : IoctlState) : IoctlLabel → Bool
  | .enter _ o => s.power.dev.powerRefcount = 0 → o.PowersOn domains
  | .run i => (s.callers[i]?.bind fun c => c.body.label).all (jobOrdinary cfg s.job)
  | .job label => jobOrdinary cfg s.job label
  | _ => true

/-- The runs all of whose steps are ordinary. -/
def ordinarySystem (cfg : Config) (domains : PowerDomains) : System IoctlState IoctlLabel :=
  (ioctlSystem cfg domains).guarded fun s a => ordinary cfg domains s a = true

/-! ## The invariant -/

/-- The thread of `jobSystem` with this number is the body of a call. -/
def Running (callers : List Caller) (tid : ℕ) : Prop := ∃ c ∈ callers, c.phase = .running tid

structure Served (domains : PowerDomains) (s : IoctlState) : Prop where
  exact : Exact s.power
  balanced : Balanced domains s.power.dev s.hw
  gets : .get ∉ pending s.power.threads
  held : s.power.held = s.callers.countP Caller.inside
  attended : Located (fun tid op => (∃ j, before op = some j ∨ after op = some j) →
    Running s.callers tid) s.job.threads

section
variable {cfg : Config} {domains : PowerDomains} {s t : IoctlState} {i tid : ℕ} {c d : Caller}
  {callers : List Caller}

theorem Running.set (h : Running callers tid) (hi : callers[i]? = some c)
    (hc : c.phase ≠ .running tid) : Running (callers.set i d) tid := by
  obtain ⟨x, hx, hphase⟩ := h
  obtain ⟨k, hk⟩ := List.mem_iff_getElem?.mp hx
  have hne : i ≠ k := by
    rintro rfl
    cases hi.symm.trans hk
    exact hc hphase
  refine ⟨x, List.mem_of_getElem? (i := k) ?_, hphase⟩
  rw [List.getElem?_set_ne hne]
  exact hk

theorem Running.new {callers : List Caller} (hi : callers[i]? = some c)
    (hd : d.phase = .running tid) : Running (callers.set i d) tid := by
  obtain ⟨hlt, -⟩ := List.getElem?_eq_some_iff.mp hi
  exact ⟨d, List.mem_set hlt d, hd⟩

theorem countP_set (hi : callers[i]? = some c) :
    (callers.set i d).countP Caller.inside + (if c.inside then 1 else 0) =
      callers.countP Caller.inside + if d.inside then 1 else 0 := by
  obtain ⟨hlt, hget⟩ := List.getElem?_eq_some_iff.mp hi
  rw [List.countP_set hlt, hget]
  split_ifs with hc
  · have hpos := List.countP_pos_iff.mpr ⟨c, List.mem_of_getElem? hi, hc⟩
    omega
  · have hpos := List.countP_pos_iff.mpr ⟨c, List.mem_of_getElem? hi, hc⟩
    omega
  · omega
  · omega

/-! ## Each step -/

theorem run_get (s : PowerState) (ret : ℤ) :
    powerSystem.run s [.get, .exec s.threads.length ret] =
      some ⟨rknpuPowerGet s.dev ret, s.held + 1,
        advance (s.threads ++ [[.get]]) s.threads.length [] []⟩ := by
  have hnext : nextBlock (s.threads ++ [[PowerOp.get]]) s.threads.length = some (.get, []) := by
    unfold nextBlock
    rw [List.getElem?_append_right (le_refl _), Nat.sub_self]
    rfl
  simp only [System.run_cons, System.run_nil, powerSystem, powerStep, Option.bind_some, hnext,
    powerExec, if_true]

theorem pending_get (threads : List (List PowerOp)) :
    pending (advance (threads ++ [[PowerOp.get]]) threads.length [] []) = pending threads := by
  have hset : advance (threads ++ [[PowerOp.get]]) threads.length [] [] = threads ++ [[]] := by
    unfold advance
    rw [List.set_append_right _ _ (le_refl _), Nat.sub_self]
    rfl
  rw [hset, pending_spawn]
  exact add_zero _

theorem Served.enter (hs : Served domains s) (hi : s.callers[i]? = some c) {o : PowerOutcome}
    (hok : s.power.dev.powerRefcount = 0 → o.PowersOn domains)
    (h : callerEnter domains s i c o = some t) : Served domains t := by
  unfold callerEnter at h
  split_ifs at h with hphase
  simp only [run_get, Option.map_some] at h
  cases h
  have hcount := countP_set (d := { c with phase := .entered }) hi
  simp only [Caller.inside, hphase] at hcount
  refine ⟨?_, (balanced_get hs.balanced hok).1, ?_, ?_, ?_⟩
  · exact System.run_invariant (fun _ _ _ => exact_step) (run_get s.power _) hs.exact
  · intro hmem
    rw [IoctlState.setPhase, pending_get] at hmem
    exact hs.gets hmem
  · show s.power.held + 1 = (s.callers.set i _).countP Caller.inside
    rw [hs.held]
    simpa using hcount.symm
  · exact hs.attended.imp fun tid thread op _ _ hrun hop =>
      (hrun hop).set hi (by rw [hphase]; exact nofun)

theorem body_step {body : Body} {label : JobLabel} {job job' : JobState}
    (hbody : body.label = some label) (h : jobStep cfg job label = some job') :
    job' = job ∨ ∃ thread, job'.threads = job.threads ++ [thread] := by
  cases body with
  | submit args useDrmGem allocOk =>
    cases hbody
    simp only [jobStep] at h
    split at h
    · exact Or.inl (Option.some.inj h).symm
    · cases h
      exact Or.inr ⟨_, rfl⟩
  | reset =>
    cases hbody
    cases h
    exact Or.inr ⟨_, rfl⟩
  | other => cases hbody

theorem Served.setPhase (hs : Served domains s) (hi : s.callers[i]? = some c) {phase : Phase}
    (hinside : c.inside = ({ c with phase := phase } : Caller).inside)
    (hrun : ∀ tid, c.phase ≠ .running tid) : Served domains (s.setPhase i c phase) := by
  have hcount := countP_set (d := { c with phase := phase }) hi
  refine ⟨hs.exact, hs.balanced, hs.gets, ?_, ?_⟩
  · show s.power.held = (s.callers.set i _).countP Caller.inside
    rw [hs.held]
    rw [hinside] at hcount
    omega
  · exact hs.attended.imp fun tid thread op _ _ hrunning hop => (hrunning hop).set hi (hrun tid)

theorem Served.run (hs : Served domains s) (hi : s.callers[i]? = some c)
    (h : callerRun cfg s i c = some t) : Served domains t := by
  unfold callerRun at h
  split_ifs at h with hphase
  have hrun : ∀ tid, c.phase ≠ .running tid := fun tid => by rw [hphase]; exact nofun
  have hinside : c.inside = true := by rw [Caller.inside, hphase]; rfl
  cases hbody : c.body.label with
  | none =>
    simp only [hbody] at h
    cases h
    exact hs.setPhase hi hinside hrun
  | some label =>
    simp only [hbody] at h
    obtain ⟨job, hjob, rfl⟩ := Option.map_eq_some_iff.mp h
    obtain rfl | ⟨thread, hthread⟩ := body_step hbody hjob
    · rw [if_pos rfl]
      exact hs.setPhase hi hinside hrun
    · have hlen : job.threads.length ≠ s.job.threads.length := by
        rw [hthread, List.length_append]
        exact Nat.succ_ne_self _
      rw [if_neg hlen]
      have hnew : Served domains (s.setPhase i c (.running s.job.threads.length)) :=
        hs.setPhase hi hinside hrun
      refine ⟨hnew.exact, hnew.balanced, hnew.gets, hnew.held, ?_⟩
      show Located _ job.threads
      rw [hthread]
      exact hnew.attended.spawn fun op _ _ => Running.new hi rfl

theorem powerExec_calls {dev : PowerDev} {ret : ℤ} {op : PowerOp} :
    .get ∉ (powerExec dev ret op).2 := by
  cases op with
  | get => exact List.not_mem_nil
  | put | offDelayWork =>
    simp only [powerExec, rknpuPowerPut, rknpuPowerOffDelayWork, releaseLast]
    split_ifs <;> simp
  | putDelay =>
    simp only [powerExec, rknpuPowerPutDelay]
    split_ifs <;> simp
  | putDelayLocked => exact List.not_mem_nil

theorem put_starts {p p' : PowerState} {delayed : Bool}
    (h : powerStep p (if delayed then .putDelay else .put) = some p') :
    ∃ op, op ≠ .get ∧ 0 < p.held ∧
      p' = { p with held := p.held - 1, threads := p.threads ++ [[op]] } := by
  cases delayed with
  | true =>
    simp only [if_true, powerStep] at h
    split_ifs at h with hheld
    refine ⟨.putDelay, ?_, hheld, (Option.some.inj h).symm⟩
    intro hget
    cases hget
  | false =>
    simp only [Bool.false_eq_true, if_false, powerStep] at h
    split_ifs at h with hheld
    refine ⟨.put, ?_, hheld, (Option.some.inj h).symm⟩
    intro hget
    cases hget

theorem Caller.finished_inside {job : JobState} (h : c.finished job = true) : c.inside = true := by
  unfold Caller.finished at h
  unfold Caller.inside
  split at h
  · rename_i tid hphase
    simp [hphase]
  · rename_i hphase
    simp [hphase]
  · cases h

/-- The body of a call that has finished has no block left to run. -/
theorem Caller.finished_running {job : JobState} (h : c.finished job = true) {thread : List JobOp}
    (hthread : job.threads[tid]? = some thread) (hop : thread ≠ []) : c.phase ≠ .running tid := by
  intro hphase
  rw [Caller.finished, hphase] at h
  have hnil : job.threads[tid]? = some [] := of_decide_eq_true h
  exact hop (Option.some.inj (hthread.symm.trans hnil))

theorem callerLeave_some (h : callerLeave s i c = some t) : c.finished s.job = true ∧
    (powerStep s.power (if c.delayed then .putDelay else .put)).map (fun power =>
      { s with power := power }.setPhase i c .left) = some t := by
  unfold callerLeave at h
  by_cases hfinished : c.finished s.job = true
  · rw [if_pos hfinished] at h
    exact ⟨hfinished, h⟩
  · rw [if_neg hfinished] at h
    cases h

theorem Served.leave (hs : Served domains s) (hi : s.callers[i]? = some c)
    (h : callerLeave s i c = some t) : Served domains t := by
  obtain ⟨hfinished, h⟩ := callerLeave_some h
  obtain ⟨power, hpower, rfl⟩ := Option.map_eq_some_iff.mp h
  have hexact := exact_step hs.exact hpower
  obtain ⟨op, hop, hheld, rfl⟩ := put_starts hpower
  have hcount := countP_set (d := { c with phase := .left }) hi
  rw [Caller.finished_inside hfinished] at hcount
  refine ⟨hexact, hs.balanced, ?_, ?_, ?_⟩
  · intro hmem
    have hget : PowerOp.get ∈ pending (s.power.threads ++ [[op]]) := hmem
    rw [pending_spawn, Multiset.mem_add] at hget
    exact hget.elim hs.gets fun hnew => hop (Multiset.mem_singleton.mp hnew).symm
  · show s.power.held - 1 = (s.callers.set i _).countP Caller.inside
    have hsame := hs.held
    simp only [Caller.inside, if_true] at hcount
    simp at hcount
    omega
  · refine hs.attended.imp fun tid thread x hthread hx hrun hafter => ?_
    exact (hrun hafter).set hi (Caller.finished_running hfinished hthread (List.ne_nil_of_mem hx))

theorem Served.power (hs : Served domains s) {o : PowerOutcome} {op : PowerOp}
    {rest : List PowerOp} {power : PowerState}
    (hnext : nextBlock s.power.threads tid = some (op, rest))
    (h : powerStep s.power (.exec tid (powerCall domains s.power.dev s.hw o op).2) = some power) :
    Served domains { s with
      power := power
      hw := (powerCall domains s.power.dev s.hw o op).1 } := by
  have hexact := exact_step hs.exact h
  obtain ⟨op', rest', hnext', rfl⟩ := powerStep_exec h
  cases hnext.symm.trans hnext'
  obtain ⟨others, hpending, hadv⟩ := pending_advance hnext
  have hget : op ≠ .get := by
    rintro rfl
    exact hs.gets (by rw [hpending]; exact Multiset.mem_cons_self _ _)
  refine ⟨hexact, hs.balanced.exec fun hop => absurd hop hget, ?_, ?_, hs.attended⟩
  · intro hmem
    rw [hadv, Multiset.mem_add, Multiset.mem_coe] at hmem
    obtain hmem | hmem := hmem
    · exact powerExec_calls hmem
    · exact hs.gets (by rw [hpending]; exact Multiset.mem_cons_of_mem hmem)
  · show (if op = .get then s.power.held + 1 else s.power.held) = s.callers.countP Caller.inside
    rw [if_neg hget]
    exact hs.held

/-- A block that `rknpu_job.c` runs stays in its thread; a handler, the workqueue and the timer
work for nobody. -/
theorem Served.job (hs : Served domains s) {label : JobLabel} {job : JobState}
    (hown : ownStep label = true) (h : jobStep cfg s.job label = some job) :
    Served domains { s with job := job } := by
  refine ⟨hs.exact, hs.balanced, hs.gets, hs.held, ?_⟩
  have hspawn : ∀ {op : JobOp}, before op = none → after op = none →
      job.threads = s.job.threads ++ [[op]] → Located (fun tid op =>
        (∃ j, before op = some j ∨ after op = some j) → Running s.callers tid) job.threads := by
    intro op hbefore hafter hthreads
    rw [hthreads]
    apply hs.attended.spawn
    rintro x hx ⟨j, hj⟩
    obtain rfl := List.mem_singleton.mp hx
    rw [hbefore, hafter] at hj
    cases hj with
    | inl hj => cases hj
    | inr hj => cases hj
  cases label with
  | submit args useDrmGem allocOk | actReset => cases hown
  | exec tid o =>
    simp only [jobStep] at h
    split at h
    · cases h
    · rename_i op rest hnext
      obtain ⟨eff, heff, rfl⟩ := Option.map_eq_some_iff.mp h
      apply hs.attended.advance hnext
      rintro x hx ⟨j, hj⟩
      exact hs.attended.next hnext ⟨j, submitter_of_call heff hx hj⟩
  | irq c completed =>
    simp only [jobStep] at h
    split_ifs at h with hc hcompleted
    · exact hspawn rfl rfl (by rw [← Option.some.inj h]; rfl)
    · exact hspawn rfl rfl (by rw [← Option.some.inj h]; rfl)
  | runWork j =>
    simp only [jobStep] at h
    split_ifs at h with hj
    exact hspawn rfl rfl (by rw [← Option.some.inj h]; rfl)
  | timer => exact hspawn rfl rfl (by rw [← Option.some.inj h]; rfl)
  | tick ns =>
    cases h
    exact hs.attended

theorem served_step {label : IoctlLabel} (hs : Served domains s)
    (hok : ordinary cfg domains s label = true) (h : ioctlStep cfg domains s label = some t) :
    Served domains t := by
  cases label with
  | call body delayed =>
    cases h
    refine ⟨hs.exact, hs.balanced, hs.gets, ?_,
      hs.attended.imp fun tid thread op _ _ hrun hop => ?_⟩
    · rw [List.countP_append, hs.held]
      exact (add_zero _).symm
    · obtain ⟨x, hx, hphase⟩ := hrun hop
      exact ⟨x, List.mem_append_left _ hx, hphase⟩
  | enter i o =>
    obtain ⟨c, hi, h⟩ := Option.bind_eq_some_iff.mp h
    exact hs.enter hi (of_decide_eq_true hok) h
  | run i =>
    obtain ⟨c, hi, h⟩ := Option.bind_eq_some_iff.mp h
    exact hs.run hi h
  | leave i =>
    obtain ⟨c, hi, h⟩ := Option.bind_eq_some_iff.mp h
    exact hs.leave hi h
  | power tid o =>
    obtain ⟨⟨op, rest⟩, hnext, h⟩ := Option.bind_eq_some_iff.mp h
    obtain ⟨power, hpower, rfl⟩ := Option.map_eq_some_iff.mp h
    exact hs.power hnext hpower
  | setDelay ms =>
    cases h
    exact ⟨⟨hs.exact.count, hs.exact.once⟩, ⟨hs.balanced.nonneg, hs.balanced.counts⟩, hs.gets,
      hs.held, hs.attended⟩
  | fire =>
    obtain ⟨power, hpower, rfl⟩ := Option.map_eq_some_iff.mp h
    have hexact := exact_step hs.exact hpower
    simp only [powerStep] at hpower
    split_ifs at hpower with hpending
    cases hpower
    refine ⟨hexact, ⟨hs.balanced.nonneg, hs.balanced.counts⟩, ?_, hs.held, hs.attended⟩
    rw [pending_spawn, Multiset.mem_add]
    exact fun hmem => hmem.elim hs.gets (by simp)
  | job label =>
    simp only [ioctlStep] at h
    split_ifs at h with hown
    obtain ⟨job, hjob, rfl⟩ := Option.map_eq_some_iff.mp h
    exact hs.job hown hjob

theorem served_init (now delay : ℕ) : Served domains
    ⟨⟨.probed now, [], []⟩, ⟨⟨0, delay, false, false, 0⟩, 0, []⟩, domains.counts 0, []⟩ :=
  ⟨⟨rfl, Nat.zero_le 1⟩, Balanced.of_zero rfl rfl, Multiset.notMem_zero _, rfl,
    fun _ _ hget => by cases hget⟩

/-! ## The power at work -/

theorem waiting_step {job job' : JobState} {label : JobLabel}
    (hok : jobOrdinary cfg job label = true) (h : jobStep cfg job label = some job') :
    (waitingSystem cfg).step job label = some job' := by
  simp only [jobOrdinary, Bool.and_eq_true] at hok
  obtain ⟨⟨hundisturbed, hreleases⟩, hwaiting⟩ := hok
  exact System.guarded_step.mpr ⟨hwaiting,
    System.guarded_step.mpr ⟨hreleases, System.guarded_step.mpr ⟨hundisturbed, h⟩⟩⟩

/-- The jobs of an ordinary run are those of a run of `waitingSystem`. -/
theorem waiting_job (hs : (ordinarySystem cfg domains).Reachable s) :
    (waitingSystem cfg).Reachable s.job := by
  refine hs.map (f := IoctlState.job) ?_ ?_
  · rintro s ⟨now, delay, rfl⟩
    exact ⟨now, rfl⟩
  · intro s label t h
    obtain ⟨hok, h⟩ := System.guarded_step.mp h
    cases label with
    | call body delayed =>
      cases h
      exact Or.inl rfl
    | enter i o =>
      obtain ⟨c, -, h⟩ := Option.bind_eq_some_iff.mp h
      unfold callerEnter at h
      split_ifs at h
      obtain ⟨power, -, rfl⟩ := Option.map_eq_some_iff.mp h
      exact Or.inl rfl
    | run i =>
      obtain ⟨c, hi, h⟩ := Option.bind_eq_some_iff.mp h
      unfold callerRun at h
      split_ifs at h
      split at h
      · cases h
        exact Or.inl rfl
      · rename_i label hbody
        obtain ⟨job, hjob, rfl⟩ := Option.map_eq_some_iff.mp h
        refine Or.inr ⟨label, waiting_step ?_ hjob⟩
        simpa [ordinary, hi, hbody] using hok
    | leave i =>
      obtain ⟨c, -, h⟩ := Option.bind_eq_some_iff.mp h
      obtain ⟨-, h⟩ := callerLeave_some h
      obtain ⟨power, -, rfl⟩ := Option.map_eq_some_iff.mp h
      exact Or.inl rfl
    | power tid o =>
      obtain ⟨next, -, h⟩ := Option.bind_eq_some_iff.mp h
      obtain ⟨power, -, rfl⟩ := Option.map_eq_some_iff.mp h
      exact Or.inl rfl
    | setDelay ms =>
      cases h
      exact Or.inl rfl
    | fire =>
      obtain ⟨power, -, rfl⟩ := Option.map_eq_some_iff.mp h
      exact Or.inl rfl
    | job label =>
      replace h : ioctlStep cfg domains s (.job label) = some t := h
      simp only [ioctlStep] at h
      split_ifs at h
      obtain ⟨job, hjob, rfl⟩ := Option.map_eq_some_iff.mp h
      exact Or.inr ⟨label, waiting_step hok hjob⟩

theorem served (hs : (ordinarySystem cfg domains).Reachable s) : Served domains s := by
  refine hs.invariant (Served domains) ?_ ?_
  · rintro s ⟨now, delay, rfl⟩
    exact served_init now delay
  · intro s label t hs h
    obtain ⟨hok, h⟩ := System.guarded_step.mp h
    exact served_step hs hok h

/-- **The NPU is powered while a job is queued or on a core**, and when its registers are read or
written for one. -/
theorem powered_at_work (hcfg : cfg ∈ rknpuConfigs)
    (hs : (ordinarySystem cfg domains).Reachable s) {j : ℕ}
    (hj : (∃ c, Holds s.job.dev c j) ∨ ∃ op ∈ s.job.todo, registers op = some j) :
    0 < s.power.dev.powerRefcount ∧ s.hw = domains.counts 1 := by
  have hserved := served hs
  obtain ⟨op, hop, hafter⟩ := Job.attended (rknpuConfigs_sound hcfg) (waiting_job hs) hj
  obtain ⟨tid, hrunning⟩ := hserved.attended.pending hop
  obtain ⟨c, hc, hphase⟩ := hrunning ⟨j, Or.inr hafter⟩
  have hinside : c.inside = true := by simp [Caller.inside, hphase]
  have hheld : 0 < s.power.held := by
    rw [hserved.held]
    exact List.countP_pos_iff.mpr ⟨c, hc, hinside⟩
  have hcount := hserved.exact.count
  unfold PowerState.outstanding at hcount
  have hpos : 0 < s.power.dev.powerRefcount := by omega
  exact ⟨hpos, hserved.balanced.hw_eq_one hpos⟩

end

/-! ## A job that nobody waits for -/

/-- A submit that has its get and has run the first `n` blocks of its thread. -/
def submitted (flags : UInt32) (n : ℕ) : List IoctlLabel :=
  [.call (.submit (oneTask flags rknpuCore0Mask) false true) true, .enter 0 allResume, .run 0] ++
    List.replicate n (.job (.exec 0 calm))

theorem powered_at_work_committed :
    ∃ s, (ordinarySystem rk3588RknpuConfig threeDomains).Reachable s ∧
      (s.job.dev.subcoreDatas 0).job = some 0 ∧ 0 < s.power.dev.powerRefcount ∧
      s.hw = threeDomains.counts 1 := by
  obtain ⟨s, hs, h⟩ := System.Reachable.of_run_any
    (S := ordinarySystem rk3588RknpuConfig threeDomains)
    (p := fun s => decide ((s.job.dev.subcoreDatas 0).job = some 0)) (l := submitted rknpuJobPc 15)
    ⟨1, 500, rfl⟩ (by decide +kernel)
  have hjob := of_decide_eq_true h
  exact ⟨s, hs, hjob, powered_at_work (by decide) hs (Or.inl ⟨0, Or.inr hjob⟩)⟩

/-- With `RKNPU_JOB_NONBLOCK` the put follows at once, and `power_off_work` finds the core in the
middle of the batch. -/
theorem unpowered_nonblock : ∃ s, (ioctlSystem rk3588RknpuConfig threeDomains).Reachable s ∧
    (s.job.dev.subcoreDatas 0).job = some 0 ∧ s.job.dev.running 0 = some 0 ∧
    s.power.dev.powerRefcount = 0 ∧ s.hw.clks = 0 ∧ s.hw.dev = 0 ∧ ∀ i, s.hw.genpd i = 0 := by
  obtain ⟨s, hs, h⟩ := System.Reachable.of_run_any
    (S := ioctlSystem rk3588RknpuConfig threeDomains)
    (p := fun s => decide ((s.job.dev.subcoreDatas 0).job = some 0 ∧
      s.job.dev.running 0 = some 0 ∧ s.power.dev.powerRefcount = 0 ∧ s.hw.clks = 0 ∧
      s.hw.dev = 0 ∧ ∀ i, s.hw.genpd i = 0))
    (l := submitted (rknpuJobPc ||| rknpuJobNonblock) 20 ++
      [.leave 0, .power 1 allResume, .power 1 allResume, .fire, .power 2 allResume])
    ⟨1, 500, rfl⟩ (by decide +kernel)
  exact ⟨s, hs, of_decide_eq_true h⟩

end RknpuDriver.Ioctl
