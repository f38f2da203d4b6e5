import RknpuDriver.Iommu.Switching
import RknpuDriver.Job.PutsOnce

/-! # Jobs in their address spaces

`rknpu_job_schedule` gets a reference on the IOMMU domain of its job with
`rknpu_iommu_domain_get_and_switch`, and `rknpu_job_done` or `rknpu_job_abort` puts it. Buffers are
mapped and synced under references of their own. Here the jobs of `Job.PutsOnce` call into the
protocol of `Iommu.Domains`, next to any number of other callers, while soft resets attach the
device to anything at any time.

* `spaceStep`: a job's thread enters the call, runs its blocks, and goes on with what it returns;
  its put is the put of the reference it got.
* `Isolated`: a job with a reference has the put of its own domain to run.
* `batch_in_own_space_iff`: while a batch of a job executes, the device is in the address space of
  the job exactly when it is attached to the current domain and there are several domains or the job
  is of the first one; with several, all other references are on that domain too.
-/

namespace RknpuDriver.Job
set_option autoImplicit false
open RknpuDriver.Lib RknpuDriver.Iommu

/-- `job->iommu_domain_id`, an `int`. -/
def domainOf (dev : Dev) (j : ℕ) : ℤ := toInt32 (dev.jobs j).args.iommuDomainId.toNat

/-- `call j` is the thread of `domain` in which job `j` gets its reference. -/
structure SpaceState where
  line : LineState
  domain : DomainState
  call : ℕ → Option ℕ

/-- `enter tid` starts the call of a job's thread, `turn j o` runs a block of the call of job `j`.
`other` is a step of a caller that is no job. A soft reset takes no `domain_lock` and reads none of
the fields under it: its calls of the IOMMU core are `reattach`, also those that come between the
calls of a switch, whose step leaves the device where the core says. -/
inductive SpaceLabel where
  | line (a : LineLabel)
  | enter (tid : ℕ)
  | turn (j : ℕ) (o : DomainOutcome)
  | other (label : DomainLabel)
  | reattach (domain : Option ℕ)

/-- The block that a step of the lines runs. -/
def LineState.block (s : LineState) : LineLabel → Option (JobOp × Outcome)
  | .job (.exec tid o) => (nextBlock s.job.threads tid).map fun p => (p.1, o)
  | _ => none

/-- What the call of job `j` still has to run. -/
def SpaceState.callOf (s : SpaceState) (j : ℕ) : Option (List DomainOp) :=
  (s.call j).bind fun d => s.domain.threads[d]?

/-- `rknpu_job_schedule` goes on when its call has returned, with the result of the call. -/
def SpaceState.returns (s : SpaceState) : Option (JobOp × Outcome) → Bool
  | some (.domainGet j, o) =>
    match s.callOf j with
    | some [.put _] => o.ret = 0
    | some [] => o.ret ≠ 0
    | _ => false
  | _ => true

/-- The domains after `rknpu_iommu_domain_put` of job `j`. -/
def SpaceState.put (s : SpaceState) (j : ℕ) : DomainState where
  dev := rknpuIommuDomainPut s.domain.dev
  threads :=
    match s.call j with
    | some d => s.domain.threads.set d []
    | none => s.domain.threads

def SpaceState.domainAfter (s : SpaceState) : Option (JobOp × Outcome) → DomainState
  | some (.domainPut j, _) => s.put j
  | _ => s.domain

/-- The next block of thread `d` is still inside the call. -/
def inCall (s : DomainState) (d : ℕ) : Bool :=
  match nextBlock s.threads d with
  | some (.put _, _) => false
  | _ => true

/-- No job runs the thread. -/
def SpaceState.foreign (s : SpaceState) : DomainLabel → Bool
  | .exec d _ => ∀ j < s.line.job.dev.numJobs, s.call j ≠ some d
  | .call _ => true

def spaceStep (cfg : Config) (s : SpaceState) : SpaceLabel → Option SpaceState
  | .line a =>
    if s.returns (s.line.block a) then
      (lineStep cfg s.line a).map fun line =>
        { s with line := line, domain := s.domainAfter (s.line.block a) }
    else none
  | .enter tid =>
    match nextBlock s.line.job.threads tid with
    | some (.domainGet j, _) =>
      if s.call j = none then
        (domainStep s.domain (.call (domainOf s.line.job.dev j))).map fun domain =>
          { s with
            domain := domain
            call := Function.update s.call j (some s.domain.threads.length) }
      else none
    | _ => none
  | .turn j o =>
    match s.call j with
    | some d =>
      if inCall s.domain d then
        (domainStep s.domain (.exec d o)).map fun domain => { s with domain := domain }
      else none
    | none => none
  | .other label =>
    if s.foreign label then
      (domainStep s.domain label).map fun domain => { s with domain := domain }
    else none
  | .reattach domain => some { s with domain := s.domain.reattach domain }

/-- Nobody has a reference on a domain. -/
def spaceSystem (cfg : Config) : System SpaceState SpaceLabel where
  init s := (puttingSystem cfg).init s.line ∧ Unused s.domain ∧ s.call = fun _ => none
  step := spaceStep cfg

def isolates (cfg : Config) (s : SpaceState) : SpaceLabel → Bool
  | .line a => onLineBlock (putsOnce cfg s.line) s.line a
  | _ => true

/-- The runs in which each job puts what it got, once. -/
def isolatedSystem (cfg : Config) : System SpaceState SpaceLabel :=
  (spaceSystem cfg).guarded fun s label => isolates cfg s label = true

/-! ## The steps of the job code -/

section
variable {cfg : Config} {s t : LineState} {a : LineLabel} {o : Outcome} {op : JobOp} {eff : Effect}
  {j c : ℕ}

theorem iommuDomainId_eq {dev : Dev} (h : jobExec cfg dev o op = some eff) (j : ℕ) :
    (eff.dev.jobs j).args.iommuDomainId = (dev.jobs j).args.iommuDomainId := by
  cases op <;> grind -ring -linarith -order

theorem domainOf_step {s t : JobState} {label : JobLabel} (h : Stepped cfg s t label)
    (hj : j < s.dev.numJobs) : domainOf t.dev j = domainOf s.dev j ∧ j < t.dev.numJobs := by
  unfold domainOf
  cases h with
  | refused ht =>
    rw [ht]
    exact ⟨rfl, hj⟩
  | submit hmask hdev htodo hhist =>
    rw [hdev, Dev.addJob_jobs, if_neg (Nat.ne_of_lt hj), Dev.addJob_numJobs]
    exact ⟨rfl, hj.trans (Nat.lt_succ_self _)⟩
  | exec hnext heff hop hdev htodo hhist =>
    rw [hdev, iommuDomainId_eq heff, numJobs_eq heff]
    exact ⟨rfl, hj⟩
  | irq hc hrunning hdev htodo hhist =>
    rw [hdev]
    split_ifs
    · exact ⟨rfl, hj⟩
    · exact ⟨rfl, hj⟩
  | runWork hmem hdev htodo hhist | actReset hdev htodo hhist | timer hdev htodo hhist
  | tick hdev htodo hhist =>
    rw [hdev]
    exact ⟨rfl, hj⟩

/-- What a step of the lines does to the references: nothing, or what its block does. -/
theorem line_references (h : lineStep cfg s a = some t) :
    (∀ j < s.job.dev.numJobs, domainOf t.job.dev j = domainOf s.job.dev j ∧
      j < t.job.dev.numJobs) ∧
    (s.block a = none ∧ OnlyGets s.job.hist t.job.hist ∨
      ∃ op o eff, s.block a = some (op, o) ∧ op ∈ s.job.todo ∧
        jobExec cfg s.job.dev o op = some eff ∧ t.job.hist = s.job.hist ++ eff.events) := by
  cases line_moved h with
  | complete hexec ht =>
    rw [ht]
    exact ⟨fun j hj => ⟨rfl, hj⟩, Or.inl ⟨rfl, .of_eq rfl⟩⟩
  | irq hstep hidle hdev hhist hthreads ht =>
    exact ⟨fun j hj => domainOf_step hstep hj, Or.inl ⟨rfl, .of_eq hhist⟩⟩
  | exec hstep hnext hstatus heff hop hdev htodo hhist hthreads ht =>
    refine ⟨fun j hj => domainOf_step hstep hj, Or.inr ⟨_, _, _, ?_, ?_, heff, hhist⟩⟩
    · simp only [LineState.block, hnext]
      rfl
    · rw [hop]
      exact Multiset.mem_cons_self _ _
  | submit hstep hmask hdev hhist hthreads ht =>
    exact ⟨fun j hj => domainOf_step hstep hj, Or.inl ⟨rfl, .of_submit hhist⟩⟩
  | @spawn b hstep hm hrunning hthreads ht =>
    refine ⟨fun j hj => domainOf_step hstep hj, ?_⟩
    cases b with
    | exec tid o =>
      cases hstep with
      | exec hnext heff hop hdev htodo hhist =>
        refine Or.inr ⟨_, _, _, ?_, ?_, heff, hhist⟩
        · simp only [LineState.block, hnext]
          rfl
        · rw [hop]
          exact Multiset.mem_cons_self _ _
    | _ => exact Or.inl ⟨rfl, .of_eq hm.hist⟩

theorem Put.held_of_executing (hs : Put cfg s) (hexec : s.executing c = true)
    (hrunning : s.job.dev.running c = some j) :
    getsOf j s.job.hist = 1 ∧ putsOf j s.job.hist = 0 := by
  obtain ⟨k, hcur, hk⟩ := hs.putting.batch c hexec
  obtain rfl : j = k := by
    rw [hrunning] at hk
    exact Option.some.inj hk
  have hheld : Holds s.job.dev c j := Or.inr hcur
  have hqueued := hs.worked.lined.known.taken.held c j hheld
  have hcount := List.count_pos_iff.mpr hqueued
  have hgets := hs.referenced.gets j
  have hone := hs.gets_le_one (j := j)
  have hputs := hs.referenced.puts j
  have hnotdone : ¬ (.done j ∈ s.job.hist ∨ .setDone j ∈ s.job.todo) := by
    intro hdone
    have hgone := (hs.worked.lined.cleared.of_done hdone).2 c
      (hs.worked.lined.known.placed.mem_coresOf_of_holds hheld)
    exact hs.worked.lined.cleared.gone j c hgone hheld
  have hnotaborted : ¬ (.abort j ∈ s.job.hist ∨ .abortClear j ∈ s.job.todo) := by
    intro habort
    have hquiet := (hs.putting.withdrawn j habort).2.idle c hcur
    rw [(quiet_iff.mp hquiet).1] at hexec
    cases hexec
  push Not at hnotaborted hnotdone
  rw [List.count_eq_zero.mpr hnotaborted.1, Multiset.count_eq_zero.mpr hnotaborted.2] at hputs
  rw [List.count_eq_zero.mpr hnotdone.1, Multiset.count_eq_zero.mpr hnotdone.2] at hputs
  omega

end

/-! ## Calls -/

section
variable {s : DomainState} {o : DomainOutcome} {op : DomainOp} {rest : List DomainOp} {id : ℤ}

theorem granted_current_iff {dev : DomainDev} : Granted dev dev.iommuDomainId ↔
    (0 ≤ dev.iommuDomainId ∧ dev.iommuDomainId < rknpuMaxIommuDomainNum) ∧
      dev.attached ≠ none ∧ dev.attached = dev.current := by
  constructor
  · rintro ⟨hpos, hlt, -, hattached⟩
    exact ⟨⟨hpos, hlt⟩, hattached⟩
  · rintro ⟨⟨hpos, hlt⟩, hattached⟩
    exact ⟨hpos, hlt, rfl, hattached⟩

/-- What the call of a job in domain `id` can have left to run. -/
def CallStage (id : ℤ) (ops : List DomainOp) : Prop :=
  ops = [] ∨ ops = [.get id] ∨ ops = [.fastInc id] ∨ ops = [.tryGet id] ∨ ops = [.put id]

theorem CallStage.exec {dev : DomainDev} (h : CallStage id (op :: rest)) :
    CallStage id ((domainExec dev o op).2 ++ rest) := by
  obtain h | h | h | h | h := h
  · cases h
  · cases h
    simp only [domainExec, rknpuIommuDomainGetAndSwitch]
    split_ifs
    · exact Or.inr (Or.inr (Or.inl rfl))
    · exact Or.inr (Or.inr (Or.inr (Or.inl rfl)))
  · cases h
    exact Or.inr (Or.inr (Or.inr (Or.inr rfl)))
  · cases h
    obtain ⟨dev', hd, -⟩ | ⟨dev', hd, -⟩ | hd := tryGet_cases dev o id
    · simp only [domainExec, hd]
      exact Or.inr (Or.inr (Or.inr (Or.inr rfl)))
    · simp only [domainExec, hd]
      exact Or.inl rfl
    · simp only [domainExec, hd]
      exact Or.inr (Or.inr (Or.inr (Or.inl rfl)))
  · cases h
    exact Or.inl rfl

theorem getElem_advance_ne {Op : Type} {threads : List (List Op)} {tid i : ℕ}
    (ops rest : List Op) (h : i ≠ tid) : (advance threads tid ops rest)[i]? = threads[i]? := by
  unfold advance
  exact List.getElem?_set_ne h.symm

end

/-! ## Jobs and domains together -/

/-- A job that has a reference has the put of its own domain to run. -/
structure Isolated (cfg : Config) (s : SpaceState) : Prop where
  put : Put cfg s.line
  paths : Paths s.domain
  calls : ∀ j d, s.call j = some d → j < s.line.job.dev.numJobs ∧
    ∃ ops, s.domain.threads[d]? = some ops ∧ CallStage (domainOf s.line.job.dev j) ops
  distinct : ∀ i j d, s.call i = some d → s.call j = some d → i = j
  held : ∀ j, getsOf j s.line.job.hist = 1 → putsOf j s.line.job.hist = 0 →
    s.callOf j = some [.put (domainOf s.line.job.dev j)]

section
variable {cfg : Config} {s t : SpaceState} {a : LineLabel} {o : DomainOutcome} {j d : ℕ} {id : ℤ}

/-- A call that is new is of no other job. -/
theorem update_distinct {call : ℕ → Option ℕ} {n i k : ℕ}
    (hdistinct : ∀ i k d, call i = some d → call k = some d → i = k)
    (hfresh : ∀ i, call i ≠ some n) (hi : Function.update call j (some n) i = some d)
    (hk : Function.update call j (some n) k = some d) : i = k := by
  by_cases hij : i = j
  · by_cases hkj : k = j
    · exact hij.trans hkj.symm
    · subst hij
      rw [Function.update_self] at hi
      rw [Function.update_of_ne hkj, ← hi] at hk
      exact absurd hk (hfresh k)
  · rw [Function.update_of_ne hij] at hi
    by_cases hkj : k = j
    · subst hkj
      rw [Function.update_self] at hk
      rw [← hk] at hi
      exact absurd hi (hfresh i)
    · rw [Function.update_of_ne hkj] at hk
      exact hdistinct i k d hi hk

theorem callOf_eq {ops : List DomainOp} :
    s.callOf j = some ops ↔ ∃ d, s.call j = some d ∧ s.domain.threads[d]? = some ops :=
  Option.bind_eq_some_iff

/-- A step of the domains that no job or a job inside its call takes. -/
theorem Isolated.moved (hs : Isolated cfg s) (hline : t.line = s.line) (hcall : t.call = s.call)
    (hpaths : Paths t.domain)
    (hthreads : ∀ j d, s.call j = some d → t.domain.threads[d]? = s.domain.threads[d]? ∨
      inCall s.domain d = true ∧ ∃ ops, t.domain.threads[d]? = some ops ∧
        CallStage (domainOf s.line.job.dev j) ops) : Isolated cfg t := by
  refine ⟨?_, hpaths, fun j d hj => ?_, ?_, fun j hgets hputs => ?_⟩
  · rw [hline]
    exact hs.put
  · rw [hcall] at hj
    rw [hline]
    obtain ⟨hlt, ops, hget, hstage⟩ := hs.calls j d hj
    obtain hsame | ⟨-, hnew⟩ := hthreads j d hj
    · exact ⟨hlt, ops, hsame.trans hget, hstage⟩
    · exact ⟨hlt, hnew⟩
  · rw [hcall]
    exact hs.distinct
  · rw [hline] at hgets hputs ⊢
    obtain ⟨d, hj, hget⟩ := callOf_eq.mp (hs.held j hgets hputs)
    rw [callOf_eq, hcall]
    obtain hsame | ⟨hin, -⟩ := hthreads j d hj
    · exact ⟨d, hj, hsame.trans hget⟩
    · simp only [inCall, nextBlock, hget] at hin
      cases hin

theorem Isolated.call_lt (hs : Isolated cfg s) (hj : s.call j = some d) :
    d < s.domain.threads.length := by
  obtain ⟨-, ops, hget, -⟩ := hs.calls j d hj
  exact (List.getElem?_eq_some_iff.mp hget).1

theorem Isolated.enter (hs : Isolated cfg s) (hlt : j < s.line.job.dev.numJobs)
    (hnone : s.call j = none)
    (h : domainStep s.domain (.call (domainOf s.line.job.dev j)) = some t.domain)
    (hline : t.line = s.line)
    (hcall : t.call = Function.update s.call j (some s.domain.threads.length)) :
    Isolated cfg t := by
  have hthreads : t.domain.threads = s.domain.threads ++ [[.get (domainOf s.line.job.dev j)]] := by
    rw [← Option.some.inj h]
  have hold : ∀ i d, s.call i = some d → t.domain.threads[d]? = s.domain.threads[d]? := by
    intro i d hi
    rw [hthreads, List.getElem?_append_left (hs.call_lt hi)]
  have hother : ∀ i, i ≠ j → t.call i = s.call i := by
    intro i hi
    rw [hcall, Function.update_of_ne hi]
  have hnew : t.call j = some s.domain.threads.length := by
    rw [hcall, Function.update_self]
  refine ⟨?_, hs.paths.step h, fun i d hi => ?_, fun i k d hi hk => ?_,
    fun i hgets hputs => ?_⟩
  · rw [hline]
    exact hs.put
  · rw [hline]
    by_cases hij : i = j
    · subst hij
      rw [hnew] at hi
      cases hi
      refine ⟨hlt, _, ?_, Or.inr (Or.inl rfl)⟩
      rw [hthreads, List.getElem?_concat_length]
    · rw [hother i hij] at hi
      obtain ⟨hlt', ops, hget, hstage⟩ := hs.calls i d hi
      exact ⟨hlt', ops, (hold i d hi).trans hget, hstage⟩
  · rw [hcall] at hi hk
    exact update_distinct hs.distinct (fun i hi => (hs.call_lt hi).ne rfl) hi hk
  · rw [hline] at hgets hputs ⊢
    obtain ⟨d, hi, hget⟩ := callOf_eq.mp (hs.held i hgets hputs)
    have hij : i ≠ j := by
      rintro rfl
      rw [hnone] at hi
      cases hi
    refine callOf_eq.mpr ⟨d, ?_, (hold i d hi).trans hget⟩
    rw [hother i hij]
    exact hi

theorem Isolated.put_step (hs : Isolated cfg s)
    (hj : s.callOf j = some [.put (domainOf s.line.job.dev j)]) :
    ∃ d, s.call j = some d ∧ (s.put j).threads = s.domain.threads.set d [] ∧
      Paths (s.put j) := by
  obtain ⟨d, hd, hget⟩ := callOf_eq.mp hj
  have hthreads : (s.put j).threads = s.domain.threads.set d [] := by
    simp only [SpaceState.put, hd]
  have hnext : nextBlock s.domain.threads d = some (.put (domainOf s.line.job.dev j), []) := by
    simp only [nextBlock, hget]
  have hstep : domainStep s.domain (.exec d noFailure) = some (s.put j) := by
    simp only [domainStep, hnext, domainExec, advance, List.append_nil, SpaceState.put, hd]
  exact ⟨d, hd, hthreads, hs.paths.step hstep⟩

theorem Isolated.held_line (hs : Isolated cfg s) {line : LineState}
    (h : lineStep cfg s.line a = some line) (hret : s.returns (s.line.block a) = true)
    (hgets : getsOf j line.job.hist = 1) (hputs : putsOf j line.job.hist = 0) :
    j < s.line.job.dev.numJobs ∧ s.callOf j = some [.put (domainOf s.line.job.dev j)] ∧
      ∀ o, s.line.block a ≠ some (.domainPut j, o) := by
  have hbefore : getsOf j s.line.job.hist = 1 → putsOf j s.line.job.hist = 0 →
      j < s.line.job.dev.numJobs ∧ s.callOf j = some [.put (domainOf s.line.job.dev j)] := by
    intro hone hzero
    refine ⟨hs.put.lt_numJobs ?_, hs.held j hone hzero⟩
    rw [hone]
    exact Nat.one_pos
  unfold getsOf at hgets hbefore
  unfold putsOf at hputs hbefore
  obtain ⟨hnone, hsame⟩ | ⟨op, o, eff, hblock, hmem, heff, hhist⟩ := (line_references h).2
  · rw [hsame.count (by simp)] at hgets hputs
    obtain ⟨hlt, hheld⟩ := hbefore hgets hputs
    refine ⟨hlt, hheld, fun o hcon => ?_⟩
    rw [hnone] at hcon
    cases hcon
  · rw [hhist, List.count_append, events_domainGet_count heff] at hgets
    rw [hhist, List.count_append, events_domainPut_count heff] at hputs
    have hnot : op ≠ .domainPut j := by
      intro hcon
      rw [if_pos hcon] at hputs
      omega
    rw [if_neg hnot, Nat.add_zero] at hputs
    have hblock' : ∀ o, s.line.block a ≠ some (.domainPut j, o) := by
      intro o' hcon
      rw [hblock] at hcon
      cases hcon
      exact hnot rfl
    by_cases hget : op = .domainGet j ∧ o.ret = 0
    · obtain ⟨rfl, hzero⟩ := hget
      have hlt := hs.put.worked.lined.known.placed.submitted _ hmem j (Or.inl rfl)
      refine ⟨hlt, ?_, hblock'⟩
      rw [hblock] at hret
      simp only [SpaceState.returns] at hret
      split at hret
      · rename_i id hcall
        obtain ⟨d, hd, hthread⟩ := callOf_eq.mp hcall
        obtain ⟨-, ops, hops, hstage⟩ := hs.calls j d hd
        rw [hthread] at hops
        cases hops
        obtain hcon | hcon | hcon | hcon | hcon := hstage
        · cases hcon
        · cases hcon
        · cases hcon
        · cases hcon
        · rw [hcall, hcon]
      · rw [hzero] at hret
        cases hret
      · cases hret
    · rw [if_neg hget, Nat.add_zero] at hgets
      obtain ⟨hlt, hheld⟩ := hbefore hgets hputs
      exact ⟨hlt, hheld, hblock'⟩

/-- The domains after a step of the lines: only a put of a job changes them. -/
theorem Isolated.domainAfter (hs : Isolated cfg s) {line : LineState}
    (h : lineStep cfg s.line a = some line) :
    Paths (s.domainAfter (s.line.block a)) ∧
    (s.domainAfter (s.line.block a) = s.domain ∨
      ∃ j o d, s.line.block a = some (.domainPut j, o) ∧ s.call j = some d ∧
        (s.domainAfter (s.line.block a)).threads = s.domain.threads.set d []) := by
  have hkept : s.domainAfter (s.line.block a) = s.domain →
      Paths (s.domainAfter (s.line.block a)) := by
    intro hsame
    rw [hsame]
    exact hs.paths
  obtain ⟨hnone, -⟩ | ⟨op, o, eff, hblock, hmem, -, -⟩ := (line_references h).2
  · have hsame : s.domainAfter (s.line.block a) = s.domain := by
      rw [hnone]
      rfl
    exact ⟨hkept hsame, Or.inl hsame⟩
  · by_cases hput : ∃ j, op = .domainPut j
    · obtain ⟨j, rfl⟩ := hput
      have hle := hs.put.puts_le_gets (j := j)
      have hone := hs.put.gets_le_one (j := j)
      have hpos := Multiset.count_pos.mpr hmem
      obtain ⟨d, hd, hthreads, hpaths⟩ := hs.put_step (hs.held j (by omega) (by omega))
      rw [hblock]
      exact ⟨hpaths, Or.inr ⟨j, o, d, rfl, hd, hthreads⟩⟩
    · have hsame : s.domainAfter (s.line.block a) = s.domain := by
        rw [hblock]
        cases op with
        | domainPut j => exact absurd ⟨j, rfl⟩ hput
        | _ => rfl
      exact ⟨hkept hsame, Or.inl hsame⟩

theorem Isolated.line (hs : Isolated cfg s) {line : LineState}
    (h : lineStep cfg s.line a = some line) (hret : s.returns (s.line.block a) = true)
    (hput : Put cfg line)
    (ht : t = { s with line := line, domain := s.domainAfter (s.line.block a) }) :
    Isolated cfg t := by
  obtain ⟨hpaths, hafter⟩ := hs.domainAfter h
  have hdomain := (line_references h).1
  subst ht
  refine ⟨hput, hpaths, fun j d hj => ?_, hs.distinct, fun j hgets hputs => ?_⟩
  · obtain ⟨hlt, ops, hget, hstage⟩ := hs.calls j d hj
    obtain ⟨hsame, hlt'⟩ := hdomain j hlt
    refine ⟨hlt', ?_⟩
    show ∃ ops, (s.domainAfter (s.line.block a)).threads[d]? = some ops ∧
      CallStage (domainOf line.job.dev j) ops
    rw [hsame]
    obtain hdom | ⟨k, o, e, -, hk, hthreads⟩ := hafter
    · rw [hdom]
      exact ⟨ops, hget, hstage⟩
    · rw [hthreads, List.getElem?_set]
      by_cases hed : e = d
      · subst hed
        rw [if_pos rfl, if_pos (List.getElem?_eq_some_iff.mp hget).1]
        exact ⟨[], rfl, Or.inl rfl⟩
      · rw [if_neg hed]
        exact ⟨ops, hget, hstage⟩
  · obtain ⟨hlt, hheld, hnot⟩ := hs.held_line h hret hgets hputs
    obtain ⟨d, hd, hget⟩ := callOf_eq.mp hheld
    refine callOf_eq.mpr ⟨d, hd, ?_⟩
    show (s.domainAfter (s.line.block a)).threads[d]? = some [.put (domainOf line.job.dev j)]
    rw [(hdomain j hlt).1]
    obtain hdom | ⟨k, o, e, hblock, hk, hthreads⟩ := hafter
    · rw [hdom]
      exact hget
    · have hed : e ≠ d := by
        rintro rfl
        obtain rfl := hs.distinct j k e hd hk
        exact hnot o hblock
      rw [hthreads, List.getElem?_set_ne hed]
      exact hget

theorem Isolated.turn (hs : Isolated cfg s) (hd : s.call j = some d)
    (hin : inCall s.domain d = true) (h : domainStep s.domain (.exec d o) = some t.domain)
    (hline : t.line = s.line) (hcall : t.call = s.call) : Isolated cfg t := by
  obtain ⟨op, rest, hnext, -, hthreads⟩ := domainStep_exec h
  have hget := getElem_of_nextBlock hnext
  refine hs.moved hline hcall (hs.paths.step h) fun i e hi => ?_
  rw [hthreads]
  by_cases hed : e = d
  · subst hed
    obtain rfl := hs.distinct i j e hi hd
    obtain ⟨-, ops, hops, hstage⟩ := hs.calls i e hi
    rw [hget] at hops
    cases hops
    refine Or.inr ⟨hin, (domainExec s.domain.dev o op).2 ++ rest, ?_, hstage.exec⟩
    rw [advance, List.getElem?_set, if_pos rfl, if_pos (List.getElem?_eq_some_iff.mp hget).1]
  · exact Or.inl (getElem_advance_ne _ rest hed)

theorem Isolated.other (hs : Isolated cfg s) {label : DomainLabel}
    (hforeign : s.foreign label = true) (h : domainStep s.domain label = some t.domain)
    (hline : t.line = s.line) (hcall : t.call = s.call) : Isolated cfg t := by
  refine hs.moved hline hcall (hs.paths.step h) fun i e hi => Or.inl ?_
  obtain ⟨hlt, ops, hget, -⟩ := hs.calls i e hi
  cases label with
  | call id =>
    rw [← Option.some.inj h, List.getElem?_append_left (List.getElem?_eq_some_iff.mp hget).1]
  | exec d o =>
    obtain ⟨op, rest, -, -, hthreads⟩ := domainStep_exec h
    simp only [SpaceState.foreign, decide_eq_true_eq] at hforeign
    have hed : e ≠ d := by
      rintro rfl
      exact hforeign i hlt hi
    rw [hthreads]
    exact getElem_advance_ne _ rest hed

theorem Isolated.step (hs : Isolated cfg s) {label : SpaceLabel}
    (h : spaceStep cfg s label = some t) (hput : Put cfg t.line) : Isolated cfg t := by
  cases label with
  | line a =>
    simp only [spaceStep] at h
    split_ifs at h with hret
    obtain ⟨line, hline, rfl⟩ := Option.map_eq_some_iff.mp h
    exact hs.line hline hret hput rfl
  | enter tid =>
    simp only [spaceStep] at h
    split at h
    · rename_i j rest hnext
      split_ifs at h with hnone
      obtain ⟨domain, hdomain, rfl⟩ := Option.map_eq_some_iff.mp h
      have hmem : .domainGet j ∈ s.line.job.todo := mem_pending_of_nextBlock hnext
      have hlt := hs.put.worked.lined.known.placed.submitted _ hmem j (Or.inl rfl)
      exact hs.enter hlt hnone hdomain rfl rfl
    · cases h
  | turn j o =>
    simp only [spaceStep] at h
    split at h
    · rename_i d hd
      split_ifs at h with hin
      obtain ⟨domain, hdomain, rfl⟩ := Option.map_eq_some_iff.mp h
      exact hs.turn hd hin hdomain rfl rfl
    · cases h
  | other label =>
    simp only [spaceStep] at h
    split_ifs at h with hforeign
    obtain ⟨domain, hdomain, rfl⟩ := Option.map_eq_some_iff.mp h
    exact hs.other hforeign hdomain rfl rfl
  | reattach domain =>
    cases h
    exact hs.moved rfl rfl (hs.paths.reattach domain) fun j d _ => Or.inl rfl

theorem Isolated.init (hcfg : cfg.Sound) (h : (spaceSystem cfg).init s) : Isolated cfg s := by
  obtain ⟨hline, hunused, hcall⟩ := h
  have hnone : ∀ j, s.call j = none := fun j => by rw [hcall]
  refine ⟨putting_run hcfg (.init hline), hunused.paths, fun j d hj => ?_, fun i j d hi => ?_,
    fun j hgets => ?_⟩
  · rw [hnone j] at hj
    cases hj
  · rw [hnone i] at hi
    cases hi
  · obtain ⟨now, hs⟩ := hline
    rw [hs] at hgets
    cases hgets

theorem isolated_run (hcfg : cfg.Sound) (hs : (isolatedSystem cfg).Reachable s) :
    Isolated cfg s := by
  suffices h : (puttingSystem cfg).Reachable s.line ∧ Isolated cfg s from h.2
  refine hs.invariant (fun s => (puttingSystem cfg).Reachable s.line ∧ Isolated cfg s) ?_ ?_
  · intro s h
    exact ⟨.init h.1, .init hcfg h⟩
  · intro s label t ⟨hline, hs⟩ h
    obtain ⟨hok, h⟩ := System.guarded_step.mp h
    have hline' : (puttingSystem cfg).Reachable t.line := by
      cases label with
      | line a =>
        simp only [spaceSystem, spaceStep] at h
        split_ifs at h
        obtain ⟨line, hstep, rfl⟩ := Option.map_eq_some_iff.mp h
        exact hline.step (System.guarded_step.mpr ⟨hok, hstep⟩)
      | enter tid | turn j o =>
        simp only [spaceSystem, spaceStep] at h
        split at h
        · split_ifs at h
          obtain ⟨domain, -, rfl⟩ := Option.map_eq_some_iff.mp h
          exact hline
        · cases h
      | other label =>
        simp only [spaceSystem, spaceStep] at h
        split_ifs at h
        obtain ⟨domain, -, rfl⟩ := Option.map_eq_some_iff.mp h
        exact hline
      | reattach domain =>
        cases h
        exact hline
    exact ⟨hline', hs.step h (putting_run hcfg hline')⟩

/-- **A batch executes in the address space of its job**, whoever else gets and puts domains,
exactly when the device is attached to the current domain, and there are several domains or the job
is of the first one. With several, nobody holds a reference on any other domain while it
executes. -/
theorem batch_in_own_space_iff (hcfg : cfg ∈ rknpuConfigs)
    (hs : (isolatedSystem cfg).Reachable s) {c : ℕ} (hexec : s.line.executing c = true)
    (hrunning : s.line.job.dev.running c = some j) :
    (Granted s.domain.dev (domainOf s.line.job.dev j) ↔
      (2 ≤ s.domain.dev.iommuDomainNum ∨ domainOf s.line.job.dev j = 0) ∧
        s.domain.dev.attached ≠ none ∧ s.domain.dev.attached = s.domain.dev.current) ∧
    (2 ≤ s.domain.dev.iommuDomainNum → ∀ id, .put id ∈ pending s.domain.threads →
      id = domainOf s.line.job.dev j) := by
  have hisolated := isolated_run (rknpuConfigs_sound hcfg) hs
  obtain ⟨hgets, hputs⟩ := hisolated.put.held_of_executing hexec hrunning
  obtain ⟨d, -, hget⟩ := callOf_eq.mp (hisolated.held j hgets hputs)
  have hheld : .put (domainOf s.line.job.dev j) ∈ pending s.domain.threads :=
    mem_pending_of_getElem hget List.mem_cons_self
  obtain ⟨hshared, hindex⟩ | hfast := hisolated.paths
  · have hcurrent := hshared.same _ hheld
    refine ⟨?_, fun _ id hid => ?_⟩
    · rw [hcurrent, granted_current_iff]
      constructor
      · exact fun h => ⟨Or.inl hshared.several, h.2⟩
      · exact fun h => ⟨hindex, h.2⟩
    · rw [hcurrent]
      exact hshared.same id hid
  · have hnum : ¬ 2 ≤ s.domain.dev.iommuDomainNum := by
      rw [hfast.num]
      decide
    refine ⟨?_, fun hcon => absurd hcon hnum⟩
    rw [or_iff_right hnum]
    constructor
    · intro h
      have hid : domainOf s.line.job.dev j = 0 := h.2.2.1.symm.trans hfast.current
      rw [hid, ← hfast.current, granted_current_iff] at h
      exact ⟨hid, h.2⟩
    · rintro ⟨hid, hattached⟩
      rw [hid, ← hfast.current, granted_current_iff, hfast.current]
      exact ⟨by decide, hattached⟩

end

/-- A job of domain `1`, from its submission to its batch, while another caller has a reference on
that domain. -/
def besideJob : List SpaceLabel :=
  .other (.call 1) ::
    .line (.job (.submit { oneTask rknpuJobPc rknpuCore0Mask with iommuDomainId := 1 } false true))
    :: List.replicate 4 (.line (.job (.exec 0 calm))) ++
    [.enter 0, .turn 0 noFailure, .turn 0 noFailure, .other (.exec 0 noFailure),
      .other (.exec 0 noFailure)] ++ List.replicate 8 (.line (.job (.exec 0 calm)))

theorem batch_in_own_space_iff_beside : ∃ s, (isolatedSystem rk356xRknpuConfig).Reachable s ∧
    s.line.executing 0 = true ∧ s.domain.references = 2 ∧ Granted s.domain.dev 1 := by
  obtain ⟨s, hs, h⟩ := System.Reachable.of_run_any (S := isolatedSystem rk356xRknpuConfig)
    (p := fun s => decide (s.line.executing 0 = true ∧ s.line.job.dev.running 0 = some 0 ∧
      s.domain.dev.attached ≠ none ∧ s.domain.dev.attached = s.domain.dev.current ∧
      domainOf s.line.job.dev 0 = 1 ∧ 2 ≤ s.domain.dev.iommuDomainNum ∧
      s.domain.references = 2))
    (s := ⟨⟨⟨.probed 1, [], []⟩, fun _ => none, fun _ => false, fun _ => none,
      fun _ _ => false⟩, twoDomains, fun _ => none⟩) (l := besideJob)
    ⟨⟨1, rfl⟩, Or.inr ⟨⟨by decide, rfl, rfl⟩, by decide, by decide, by decide⟩, rfl⟩
    (by decide +kernel)
  obtain ⟨hexec, hrunning, hattached, hcurrent, hid, hnum, hrefs⟩ := of_decide_eq_true h
  have hown := (batch_in_own_space_iff (by decide) hs hexec hrunning).1.mpr
    ⟨Or.inl hnum, hattached, hcurrent⟩
  rw [hid] at hown
  exact ⟨s, hs, hexec, hrefs, hown⟩

end RknpuDriver.Job
