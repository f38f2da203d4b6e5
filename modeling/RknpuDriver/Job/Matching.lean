import RknpuDriver.Job.Underway

/-! # Interrupts of a job

`rknpu_irq_handler` compares the status with the `int_mask` of the current job, which is `0` until
the job is committed on the core. `matching` says when the handler calls `rknpu_job_done` for
batches that were started, and for no others (`completed_after_start`).
-/

namespace RknpuDriver.Job
set_option autoImplicit false
open RknpuDriver.Lib

/-- Core `c` has no job, or nothing of its job is left to do there and the job will not be committed
any more. -/
def vacant (cfg : Config) (s : LineState) (c : ℕ) : Bool :=
  match (s.job.dev.subcoreDatas c).job with
  | none => true
  | some j => s.quiet c ∧ (∀ d < cfg.numIrqs, j ∉ (s.job.dev.subcoreDatas d).todoList) ∧
      ∀ op ∈ s.job.threads.flatten, coreOf op ≠ some (j, c) ∧ op ≠ .decRunCount j ∧ op ≠ .commit j

/-- No status is accepted while `int_mask` is `0`; an abort or `rknpu_job_timeout_clean` takes a
core from its job only when nothing of the job is left to do there. -/
def matching (cfg : Config) (s : LineState) (o : Outcome) : JobOp → Bool
  | .irqStatus j c => rknpuFuzzStatus o.status = (s.job.dev.jobs j).intMask c →
      (s.job.dev.jobs j).intMask c ≠ 0
  | op => ∀ c < cfg.numIrqs, takesAway cfg s.job.dev op c = true → vacant cfg s c = true

/-- A condition on the block that a step of the lines runs. -/
def onLineBlock (g : Outcome → JobOp → Bool) (s : LineState) : LineLabel → Bool
  | .job a => onBlock (fun _ => g) s.job a
  | .complete _ => true

def matchingSystem (cfg : Config) : System LineState LineLabel :=
  (lineSystem cfg).guarded fun s a => onLineBlock (matching cfg s) s a = true

section
variable {cfg : Config} {s : LineState} {a : LineLabel} {o : Outcome} {op : JobOp} {j c : ℕ}

theorem runsBlock_of {g : Outcome → JobOp → Bool} (h : onLineBlock g s a = true) :
    runsBlock (fun o op => g o op = true) s a := by
  cases a with
  | complete c => trivial
  | job b =>
    cases b with
    | exec tid o =>
      intro op rest hnext
      rw [onLineBlock, onBlock_exec hnext] at h
      exact h
    | _ => trivial

theorem vacant_of (hs : Placed cfg s.job) (hj : (s.job.dev.subcoreDatas c).job = some j)
    (hc : vacant cfg s c = true) : Vacant s j c := by
  simp only [vacant, hj, decide_eq_true_eq] at hc
  obtain ⟨hquiet, hlisted, hblocks⟩ := hc
  have hmem : ∀ {op}, op ∈ s.job.todo → op ∈ s.job.threads.flatten := fun hop =>
    Multiset.mem_coe.mp hop
  refine ⟨hquiet, fun op hop => (hblocks op (hmem hop)).1, ?_⟩
  refine ⟨(hs.held c j (Or.inr hj)).1, fun d hd => ?_, fun hop => ?_, fun hop => ?_⟩
  · exact hlisted d (hs.held d j (Or.inl hd)).2.1 hd
  · exact (hblocks _ (hmem hop)).2.1 rfl
  · exact (hblocks _ (hmem hop)).2.2 rfl

theorem vacates_of_matching (hs : Placed cfg s.job) (h : matching cfg s o op = true) :
    Vacates cfg s o op := by
  refine ⟨?_, fun j c haway hj => ?_⟩
  · rintro j c rfl hint
    simp only [matching, decide_eq_true_eq] at h
    exact h hint
  · have hc := (hs.held c j (Or.inr hj)).2.1
    refine vacant_of hs hj ?_
    cases op with
    | timeoutClear | abortClear =>
      simp only [matching, decide_eq_true_eq] at h
      exact h c hc haway
    | _ => cases haway

theorem matching_run (hcfg : cfg.Sound) (hs : (matchingSystem cfg).Reachable s) :
    Worked cfg s ∧ Vacating s := by
  refine hs.invariant (fun s => Worked cfg s ∧ Vacating s) ?_ ?_
  · rintro s ⟨now, rfl⟩
    exact ⟨worked_init, vacating_init⟩
  · rintro s a t ⟨hs, hv⟩ h
    obtain ⟨hok, h⟩ := System.guarded_step.mp h
    refine (line_moved h).vacated hcfg hs hv (runsBlock_imp ?_ (runsBlock_of hok))
    exact fun o op _ hg => vacates_of_matching hs.lined.known.placed hg

/-- **A job is completed only by its own work**: `rknpu_job_done` counts an interrupt on a core only
when the batch that `submit_count` stands for was started there, and a job that is done was started
on all its cores. -/
theorem completed_after_start (hcfg : cfg ∈ rknpuConfigs) (hs : (matchingSystem cfg).Reachable s) :
    (∀ j c, .doneCount j c ∈ s.job.todo →
      (s.job.dev.jobs j).submitCount c < startsOn j c s.job.hist) ∧
    ∀ j, .done j ∈ s.job.hist → ∀ c ∈ coresOf cfg (s.job.dev.jobs j).args.coreMask,
      0 < startsOn j c s.job.hist := by
  obtain ⟨hw, hv⟩ := matching_run (rknpuConfigs_sound hcfg) hs
  constructor
  · intro j c hj
    have hcounted := hw.manned.counted j c
    have hpos := Multiset.count_pos.mpr hj
    rw [(hw.issued.submitted j c).1]
    omega
  · intro j hj c hc
    exact hv.ended j c (Or.inr ((hw.lined.cleared.of_done (Or.inl hj)).2 c hc))

end

theorem completed_after_start_once : ∃ s, (matchingSystem rk356xRknpuConfig).Reachable s ∧
    .doneCount 0 0 ∈ s.job.todo ∧ (s.job.dev.jobs 0).submitCount 0 < startsOn 0 0 s.job.hist := by
  obtain ⟨s, hs, h⟩ := System.Reachable.of_run_any (S := matchingSystem rk356xRknpuConfig)
    (p := fun s => decide (.doneCount 0 0 ∈ s.job.threads.flatten))
    (l := (.submit (oneTask rknpuJobPc rknpuCore0Mask) false true ::
        List.replicate 13 (.exec 0 calm)).map .job ++
      [.complete 0, .job (.irq 0 false), .job (.exec 1 calm), .job (.exec 1 calm)])
    ⟨1, rfl⟩ (by decide +kernel)
  have hmem : .doneCount 0 0 ∈ s.job.todo := Multiset.mem_coe.mpr (of_decide_eq_true h)
  exact ⟨s, hs, hmem, (completed_after_start (by decide) hs).1 0 0 hmem⟩

/-- A handler that starts when a core has taken the job, and reads the status `0`, finishes the job,
which was not started. -/
theorem completed_unstarted : ∃ s, (lineSystem rk356xRknpuConfig).Reachable s ∧
    .done 0 ∈ s.job.hist ∧ startsOn 0 0 s.job.hist = 0 := by
  obtain ⟨s, hs, h⟩ := System.Reachable.of_run_any (S := lineSystem rk356xRknpuConfig)
    (p := fun s => decide (.done 0 ∈ s.job.hist ∧ startsOn 0 0 s.job.hist = 0))
    (l := (.submit (oneTask rknpuJobPc rknpuCore0Mask) false true ::
        List.replicate 9 (.exec 0 calm) ++ .irq 0 false ::
        List.replicate 7 (.exec 1 { calm with status := 0 }) : List JobLabel).map .job)
    ⟨1, rfl⟩ (by decide +kernel)
  exact ⟨s, hs, of_decide_eq_true h⟩

end RknpuDriver.Job
