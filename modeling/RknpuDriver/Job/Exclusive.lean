import RknpuDriver.Job.Matching

/-! # Exclusive cores

`rknpu_job_abort` clears the current job of a core before it resets the hardware, and
`rknpu_job_next` tests `soft_reseting` before it takes `irq_lock`. `exclusive` says when a batch is
written only to a core on which nothing executes, and not between the assert and the deassert of a
reset (`cores_exclusive`).
-/

namespace RknpuDriver.Job
set_option autoImplicit false
open RknpuDriver.Lib

/-- The blocks of `rknpu_job_next` after its test of `soft_reseting`, and those of
`rknpu_job_done` and `rknpu_job_commit`, up to the start of a batch. -/
def heading : JobOp → Bool
  | .pop _ | .decRunCount _ | .commit _ | .subcoreCommit _ _ | .doneCount _ _ => true
  | _ => false

/-- * An interrupt is accepted only for a job whose `int_mask` is set, and not while a reset is
  asserted.
* A core takes a job only when no batch executes on it, and no completion waits for the handler.
* A job that is committed still has the cores on which it will be started.
* An abort or `rknpu_job_timeout_clean` takes a core only from a job for which no block is left that
  works there.
* A reset is asserted only when no thread is on the way to start a batch, and ends only when no
  other one is between its begin and its deassert. -/
def exclusive (cfg : Config) (s : LineState) (o : Outcome) : JobOp → Bool
  | .irqStatus j c => rknpuFuzzStatus o.status = (s.job.dev.jobs j).intMask c →
      (s.job.dev.jobs j).intMask c ≠ 0 ∧ s.job.dev.asserted = 0
  | .pop c => pops s.job.dev (.pop c) ≠ none → s.quiet c = true
  | .commit j => ∀ c ∈ commitCores (s.job.dev.jobs j).args.coreMask,
      (s.job.dev.subcoreDatas c).job = some j
  | .resetAssert => ∀ op ∈ s.job.threads.flatten, heading op = false
  | .resetEnd => s.job.dev.asserted = 0 ∧ .resetAssert ∉ s.job.threads.flatten
  | op => ∀ c < cfg.numIrqs, takesAway cfg s.job.dev op c = true →
      ∀ x ∈ s.job.threads.flatten, coreOf x ≠ (s.job.dev.subcoreDatas c).job.map (·, c)

def exclusiveSystem (cfg : Config) : System LineState LineLabel :=
  (lineSystem cfg).guarded fun s a => onLineBlock (exclusive cfg s) s a = true

/-! ## Resets -/

section
variable {cfg : Config} {dev : Dev} {o : Outcome} {op : JobOp} {eff : Effect}

attribute [grind =] Dev.modifyJob_asserted Dev.modifyCore_asserted Dev.setRunning_asserted

theorem asserted_eq (h : jobExec cfg dev o op = some eff) : eff.dev.asserted =
    dev.asserted + (if op = .resetAssert then 1 else 0) - if op = .resetDeassert then 1 else 0 := by
  cases op <;> grind -ring -linarith -order

theorem resetting_eq (h : jobExec cfg dev o op = some eff) : eff.dev.softReseting =
    (op = .resetBegin ∨ op ≠ .resetEnd ∧ dev.softReseting = true) := by
  cases op <;> grind -ring -linarith -order

theorem calls_resetAssert (h : jobExec cfg dev o op = some eff) (hx : .resetAssert ∈ eff.calls) :
    op = .resetBegin := by
  cases op with
  | doneClear k c =>
    cases h
    simp [jobDoneClear, Effect.goto] at hx
  | _ => grind -ring -linarith -order

theorem calls_heading (h : jobExec cfg dev o op = some eff) {x : JobOp} (hx : x ∈ eff.calls)
    (hh : heading x = true) :
    heading op = true ∨ (∃ c, op = .next c) ∧ dev.softReseting = false ∨
      ∃ j c, op = .irqStatus j c ∧ rknpuFuzzStatus o.status = (dev.jobs j).intMask c := by
  cases x with
  | pop c =>
    cases op with
    | doneClear k d =>
      cases h
      simp [jobDoneClear, Effect.goto] at hx
    | _ => grind -ring -linarith -order
  | decRunCount j =>
    obtain ⟨c, rfl, -⟩ := pops_holds (calls_decRunCount h hx)
    exact Or.inl rfl
  | commit j =>
    rw [(calls_commit h hx).1]
    exact Or.inl rfl
  | subcoreCommit j c =>
    obtain ⟨rfl, -⟩ | ⟨rfl, -⟩ := calls_subcoreCommit h hx
    · exact Or.inl rfl
    · exact Or.inl rfl
  | doneCount j c => exact Or.inr (Or.inr ⟨j, c, calls_doneCount h hx⟩)
  | _ => cases hh

end

/-- `soft_reseting` is set from the begin of a reset on, and no thread that has passed the test of
it is left when a reset is asserted. -/
structure Resetting (s : JobState) : Prop where
  flag : .resetAssert ∈ s.todo ∨ 0 < s.dev.asserted → s.dev.softReseting = true
  apart : 0 < s.dev.asserted → ∀ op ∈ s.todo, heading op = false

section
variable {cfg : Config} {s t : LineState} {a : LineLabel} {o : Outcome} {op : JobOp} {eff : Effect}
  {others : Multiset JobOp} {j c : ℕ}

theorem Resetting.exec (hr : Resetting s.job) (hop : s.job.todo = op ::ₘ others)
    (heff : jobExec cfg s.job.dev o op = some eff) (hdev : t.job.dev = eff.dev)
    (htodo : t.job.todo = (eff.calls : Multiset JobOp) + others)
    (hok : exclusive cfg s o op = true) : Resetting t.job := by
  have hmem : op ∈ s.job.todo := by simp [hop]
  have hothers : ∀ x ∈ others, x ∈ s.job.todo := fun x hx => by simp [hop, hx]
  have hasserted := asserted_eq heff
  have hflag := resetting_eq heff
  have hkeep : .resetAssert ∈ s.job.todo ∨ 0 < s.job.dev.asserted →
      eff.dev.softReseting = true := by
    intro hreset
    rw [hflag]
    refine Or.inr ⟨?_, hr.flag hreset⟩
    rintro rfl
    simp only [exclusive, decide_eq_true_eq] at hok
    obtain hreset | hreset := hreset
    · exact hok.2 (Multiset.mem_coe.mp hreset)
    · omega
  refine ⟨fun hreset => ?_, fun hpos x hx => ?_⟩
  · rw [hdev]
    obtain hreset | hreset := hreset
    · rw [htodo, Multiset.mem_add] at hreset
      obtain hreset | hreset := hreset
      · rw [hflag]
        exact Or.inl (calls_resetAssert heff (Multiset.mem_coe.mp hreset))
      · exact hkeep (Or.inl (hothers _ hreset))
    · rw [hdev, hasserted] at hreset
      by_cases hassert : op = .resetAssert
      · exact hkeep (Or.inl (hassert ▸ hmem))
      · rw [if_neg hassert] at hreset
        exact hkeep (Or.inr (by omega))
  · rw [hdev, hasserted] at hpos
    rw [Bool.eq_false_iff]
    intro hh
    rw [htodo, Multiset.mem_add] at hx
    by_cases hassert : op = .resetAssert
    · subst hassert
      simp only [exclusive, decide_eq_true_eq] at hok
      obtain hx | hx := hx
      · cases heff
        rw [List.mem_singleton.mp (Multiset.mem_coe.mp hx)] at hh
        cases hh
      · rw [hok x (Multiset.mem_coe.mp (hothers x hx))] at hh
        cases hh
    · rw [if_neg hassert] at hpos
      have hold : 0 < s.job.dev.asserted := by omega
      obtain hx | hx := hx
      · obtain hhead | ⟨-, hopen⟩ | ⟨j, c, rfl, hint⟩ :=
          calls_heading heff (Multiset.mem_coe.mp hx) hh
        · rw [hr.apart hold op hmem] at hhead
          cases hhead
        · rw [hr.flag (Or.inr hold)] at hopen
          cases hopen
        · simp only [exclusive, decide_eq_true_eq] at hok
          have hzero := (hok hint).2
          omega
      · rw [hr.apart hold x (hothers x hx)] at hh
        cases hh

theorem Resetting.keep (hr : Resetting s.job) (new : Multiset JobOp)
    (hasserted : t.job.dev.asserted = s.job.dev.asserted)
    (hflag : t.job.dev.softReseting = s.job.dev.softReseting)
    (htodo : t.job.todo = new + s.job.todo)
    (hnew : ∀ op ∈ new, heading op = false ∧ op ≠ .resetAssert) : Resetting t.job := by
  refine ⟨fun hreset => ?_, fun hpos x hx => ?_⟩
  · rw [hflag]
    rw [hasserted, htodo, Multiset.mem_add] at hreset
    refine hr.flag (hreset.imp_left fun hmem => ?_)
    exact hmem.resolve_left fun hcon => (hnew _ hcon).2 rfl
  · rw [hasserted] at hpos
    rw [htodo, Multiset.mem_add] at hx
    obtain hx | hx := hx
    · exact (hnew x hx).1
    · exact hr.apart hpos x hx

theorem LineMoved.resetting (h : LineMoved cfg s t a) (hr : Resetting s.job)
    (hok : runsBlock (fun o op => exclusive cfg s o op = true) s a) : Resetting t.job := by
  cases h with
  | complete hexec ht =>
    rw [ht]
    exact hr
  | @irq d h hidle hdev hhist hthreads ht =>
    refine hr.keep {.irqEntry d} (by rw [hdev]) (by rw [hdev]) ?_ fun op hop => ?_
    · exact todo_of_threads hthreads
    · rw [Multiset.mem_singleton.mp hop]
      exact ⟨rfl, by simp⟩
  | exec h hnext hstatus heff hop hdev htodo hhist hthreads ht =>
    exact hr.exec hop heff hdev htodo (hok _ _ hnext)
  | submit h hmask hdev hhist hthreads ht =>
    refine hr.keep {.fenceIn s.job.dev.numJobs} (by rw [hdev]; rfl) (by rw [hdev]; rfl) ?_
      fun op hop => ?_
    · exact todo_of_threads hthreads
    · rw [Multiset.mem_singleton.mp hop]
      exact ⟨rfl, by simp⟩
  | spawn h hm hrunning hthreads ht =>
    obtain ⟨new, htodo, hnew⟩ := hm.todo
    refine hr.keep new hm.asserted hm.softReseting htodo fun op hop => ?_
    have hstart := hnew op hop
    cases op <;> first | exact hstart.elim | exact ⟨rfl, by simp⟩

/-! ## Runs -/

theorem orderly_of_exclusive (hs : Placed cfg s.job) (hok : exclusive cfg s o op = true) :
    Orderly cfg s o op := by
  refine ⟨?_, ?_, ?_, fun j c haway hj x hx => ?_⟩
  · rintro j c rfl hint
    simp only [exclusive, decide_eq_true_eq] at hok
    exact (hok hint).1
  · rintro j c rfl hpop
    simp only [exclusive, decide_eq_true_eq] at hok
    exact hok (by rw [hpop]; simp)
  · rintro j c rfl hc
    simp only [exclusive, decide_eq_true_eq] at hok
    exact hok c hc
  · have hc := (hs.held c j (Or.inr hj)).2.1
    have hleft : ∀ x ∈ s.job.threads.flatten, coreOf x ≠ some (j, c) := by
      cases op with
      | timeoutClear | abortClear =>
        simp only [exclusive, decide_eq_true_eq] at hok
        have hall := hok c hc haway
        rw [hj] at hall
        exact hall
      | _ => cases haway
    exact hleft x (Multiset.mem_coe.mp hx)

theorem exclusive_run (hcfg : cfg.Sound) (hs : (exclusiveSystem cfg).Reachable s) :
    Worked cfg s ∧ Resetting s.job := by
  refine hs.invariant (fun s => Worked cfg s ∧ Resetting s.job) ?_ ?_
  · rintro s ⟨now, rfl⟩
    refine ⟨worked_init, fun hreset => ?_, fun hpos => ?_⟩
    · obtain hreset | hreset := hreset
      · exact (Multiset.notMem_zero _ hreset).elim
      · exact (Nat.lt_irrefl 0 hreset).elim
    · exact (Nat.lt_irrefl 0 hpos).elim
  · rintro s a t ⟨hs, hr⟩ h
    obtain ⟨hok, h⟩ := System.guarded_step.mp h
    have hblock := runsBlock_of hok
    refine ⟨(line_moved h).worked hcfg hs (runsBlock_imp ?_ hblock),
      (line_moved h).resetting hr hblock⟩
    exact fun o op _ hg => orderly_of_exclusive hs.lined.known.placed hg

/-- **A batch is written only to a core on which no other executes, and not during a reset.** -/
theorem cores_exclusive (hcfg : cfg ∈ rknpuConfigs) (hs : (exclusiveSystem cfg).Reachable s)
    (hj : .subcoreCommit j c ∈ s.job.todo) :
    s.executing c = false ∧ s.job.dev.asserted = 0 := by
  obtain ⟨hw, hr⟩ := exclusive_run (rknpuConfigs_sound hcfg) hs
  have hquiet := hw.manned.quiet_of_mem hw.issued hw.lined.known hj rfl (by simp)
  refine ⟨(quiet_iff.mp hquiet).1, Nat.eq_zero_of_not_pos fun hpos => ?_⟩
  have hhead := hr.apart hpos _ hj
  cases hhead

end

/-- Two jobs for core `0`: the second is started when the batch of the first has completed. -/
theorem cores_exclusive_second : ∃ s, (exclusiveSystem rk356xRknpuConfig).Reachable s ∧
    .subcoreCommit 1 0 ∈ s.job.todo ∧ s.executing 0 = false ∧ s.job.dev.asserted = 0 := by
  obtain ⟨s, hs, h⟩ := System.Reachable.of_run_any (S := exclusiveSystem rk356xRknpuConfig)
    (p := fun s => decide (.subcoreCommit 1 0 ∈ s.job.threads.flatten))
    (l := (.submit (oneTask rknpuJobPc rknpuCore0Mask) false true ::
        List.replicate 13 (.exec 0 calm) ++
        .submit (oneTask rknpuJobPc rknpuCore0Mask) false true ::
        List.replicate 10 (.exec 1 calm) : List JobLabel).map .job ++
      .complete 0 :: (.irq 0 false :: List.replicate 14 (.exec 2 calm) : List JobLabel).map .job)
    ⟨1, rfl⟩ (by decide +kernel)
  have hmem : .subcoreCommit 1 0 ∈ s.job.todo := Multiset.mem_coe.mpr (of_decide_eq_true h)
  exact ⟨s, hs, hmem, cores_exclusive (by decide) hs hmem⟩

/-- A job whose predecessor timed out is started while the batch of that one still executes; and a
reset is asserted while a job is being started. -/
theorem cores_shared :
    (∃ s, (lineSystem rk356xRknpuConfig).Reachable s ∧ .subcoreCommit 1 0 ∈ s.job.todo ∧
      s.executing 0 = true ∧ s.job.dev.running 0 = some 0) ∧
    ∃ s, (lineSystem rk356xRknpuConfig).Reachable s ∧ .subcoreCommit 0 0 ∈ s.job.todo ∧
      s.job.dev.asserted = 1 := by
  constructor
  · obtain ⟨s, hs, h⟩ := System.Reachable.of_run_any (S := lineSystem rk356xRknpuConfig)
      (p := fun s => decide (.subcoreCommit 1 0 ∈ s.job.threads.flatten ∧
        s.executing 0 = true ∧ s.job.dev.running 0 = some 0))
      (l := (.submit (oneTask rknpuJobPc rknpuCore0Mask) false true ::
        List.replicate 13 (.exec 0 calm) ++ List.replicate 11 (.exec 0 expired) ++
        .submit (oneTask rknpuJobPc rknpuCore0Mask) false true ::
        List.replicate 11 (.exec 1 calm) : List JobLabel).map .job)
      ⟨1, rfl⟩ (by decide +kernel)
    obtain ⟨hmem, hrest⟩ := of_decide_eq_true h
    exact ⟨s, hs, Multiset.mem_coe.mpr hmem, hrest⟩
  · obtain ⟨s, hs, h⟩ := System.Reachable.of_run_any (S := lineSystem rk356xRknpuConfig)
      (p := fun s => decide (.subcoreCommit 0 0 ∈ s.job.threads.flatten ∧
        s.job.dev.asserted = 1))
      (l := (.submit (oneTask rknpuJobPc rknpuCore0Mask) false true ::
        List.replicate 11 (.exec 0 calm) ++
        .actReset :: List.replicate 2 (.exec 1 calm) : List JobLabel).map .job)
      ⟨1, rfl⟩ (by decide +kernel)
    obtain ⟨hmem, hrest⟩ := of_decide_eq_true h
    exact ⟨s, hs, Multiset.mem_coe.mpr hmem, hrest⟩

end RknpuDriver.Job
