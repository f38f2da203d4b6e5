import RknpuDriver.Job.Positions

/-! # Aborting a running job

`rknpu_job_abort` takes its job from the cores that run it, unless the job's `irq_entry` of the
core is set. `clearsAborted` says when that leaves the job on no core.
-/

namespace RknpuDriver.Job
set_option autoImplicit false
open RknpuDriver.Lib

/-- When `rknpu_job_abort` has taken `irq_lock`, its job is on no `todo_list`, and no core that
runs it has ever raised an interrupt for it. -/
def clearsAborted (cfg : Config) (dev : Dev) (_ : Outcome) : JobOp → Bool
  | .abortClear j => ∀ c < cfg.numIrqs, j ∉ (dev.subcoreDatas c).todoList ∧
      ((dev.subcoreDatas c).job = some j → (dev.jobs j).irqEntry c = false)
  | _ => true

/-- The runs whose aborts all do so. -/
def clearingSystem (cfg : Config) : System JobState JobLabel :=
  (jobSystem cfg).guarded fun s a => onBlock (clearsAborted cfg) s a = true

/-- No core knows an aborted job. -/
def Gone (s : JobState) : Prop :=
  ∀ j, .abort j ∈ s.hist → Past s j ∧ ∀ c, ¬ Holds s.dev c j

section
variable {cfg : Config} {s t : JobState} {a : JobLabel}

theorem Gone.exec (hs : Gone s) (hp : Placed cfg s) {o : Outcome} {op : JobOp} {eff : Effect}
    {others : Multiset JobOp} (heff : jobExec cfg s.dev o op = some eff)
    (hop : s.todo = op ::ₘ others) (hdev : t.dev = eff.dev) (hhist : t.hist = s.hist ++ eff.events)
    (h : Stepped cfg s t a) (hok : clearsAborted cfg s.dev o op = true) : Gone t := by
  have hmem : op ∈ s.todo := by simp [hop]
  intro j hj
  rw [hhist, List.mem_append] at hj
  rcases hj with hj | hj
  · obtain ⟨hpast, hnone⟩ := hs j hj
    refine ⟨(hpast.stepped h).1, fun c hc => ?_⟩
    rw [hdev] at hc
    rcases holds_exec heff hc with hc | ⟨rfl, -⟩
    · exact hnone c hc
    · exact hpast.2 _ hmem rfl
  · obtain rfl := events_abort heff hj
    have hpast := hp.past_of_after hmem (j := j) rfl
    simp only [clearsAborted, decide_eq_true_eq] at hok
    refine ⟨(hpast.stepped h).1, fun c hc => ?_⟩
    rw [hdev] at hc
    unfold Holds at hc
    rw [todoList_eq heff, current_eq heff] at hc
    rcases hc with hc | hc
    · exact (hok c (hp.held c j (Or.inl hc)).2.1).1 hc
    · simp only [currentAfter] at hc
      split_ifs at hc with hclear
      obtain ⟨-, hlt, hon⟩ := hp.held c j (Or.inr hc)
      exact hclear ⟨hlt, hon, hc, (hok c hlt).2 hc⟩

theorem Gone.step (hs : Gone s) (hp : Placed cfg s) (h : Stepped cfg s t a)
    (hok : onBlock (clearsAborted cfg) s a = true) : Gone t := by
  have hkeep : (∀ tid o, a ≠ .exec tid o) → (∀ j, .abort j ∈ t.hist → .abort j ∈ s.hist) →
      Gone t := by
    intro hne hhist j hj
    obtain ⟨hpast, hnone⟩ := hs j (hhist j hj)
    refine ⟨(hpast.stepped h).1, fun c => ?_⟩
    unfold Holds
    rw [subcoreDatas_of_not_exec h hne]
    exact hnone c
  cases h with
  | exec hnext heff hop hdev htodo hhist =>
    rw [onBlock_exec hnext] at hok
    exact hs.exec hp heff hop hdev hhist (.exec hnext heff hop hdev htodo hhist) hok
  | refused ht =>
    rw [ht]
    exact hs
  | submit hmask hdev htodo hhist =>
    refine hkeep (fun _ _ => by simp) fun j hj => ?_
    rw [hhist, List.mem_append] at hj
    rcases hj with hj | hj
    · exact hj
    · split_ifs at hj <;> simp at hj
  | _ =>
    rename_i hdev htodo hhist
    refine hkeep (fun _ _ => by simp) fun j hj => ?_
    rwa [hhist] at hj

theorem gone (hs : (clearingSystem cfg).Reachable s) : Placed cfg s ∧ Gone s := by
  refine hs.invariant (fun s => Placed cfg s ∧ Gone s) ?_ ?_
  · rintro s ⟨now, rfl⟩
    exact ⟨placed_init, fun j hj => (List.not_mem_nil hj).elim⟩
  · intro s a t hs h
    obtain ⟨hok, h⟩ := System.guarded_step.mp h
    exact ⟨hs.1.step (stepped h), hs.2.step hs.1 (stepped h) hok⟩

/-- **No core keeps an aborted job**: when `rknpu_job_abort` finds its job on no list and can
clear every core that runs it, then, before and after it frees the job, no core has it as its
current job, and no interrupt and no `rknpu_job_next` that comes later uses it. -/
theorem aborted_gone (hs : (clearingSystem cfg).Reachable s) {j : ℕ} (hj : .abort j ∈ s.hist)
    (c : ℕ) : (s.dev.subcoreDatas c).job ≠ some j ∧ j ∉ touches cfg s.dev (.irqEntry c) ∧
      j ∉ touches cfg s.dev (.pop c) := by
  obtain ⟨-, hnone⟩ := (gone hs).2 j hj
  have hcur : (s.dev.subcoreDatas c).job ≠ some j := fun hcon => hnone c (Or.inr hcon)
  refine ⟨hcur, ?_, fun hmem => hnone c (Or.inl (List.mem_of_mem_take hmem))⟩
  simp only [touches, Option.mem_toList]
  exact hcur

end

/-- A job whose wait runs out, and is aborted; its core has raised `bad` interrupts that do not
match. -/
def abortedJob (bad : ℕ) : List JobLabel :=
  .submit (oneTask rknpuJobPc rknpuCore0Mask) false true :: List.replicate 15 (.exec 0 calm) ++
    (List.range bad).flatMap (fun i => [.irq 0 false, .exec (i + 1) { calm with status := 0 },
      .exec (i + 1) { calm with status := 0 }]) ++
    List.replicate 17 (.exec 0 expired)

theorem aborted_gone_silent : ∃ s, (clearingSystem rk3588RknpuConfig).Reachable s ∧
    s.dev.freed 0 = true ∧ (s.dev.subcoreDatas 0).job ≠ some 0 := by
  obtain ⟨s, hs, h⟩ := System.Reachable.of_run_any (S := clearingSystem rk3588RknpuConfig)
    (p := fun s => decide (.abort 0 ∈ s.hist ∧ s.dev.freed 0 = true)) (l := abortedJob 0)
    ⟨1, rfl⟩ (by decide +kernel)
  obtain ⟨habort, hfreed⟩ := of_decide_eq_true h
  exact ⟨s, hs, hfreed, (aborted_gone hs habort 0).1⟩

/-- One interrupt that does not match is enough for the core to keep the freed job. -/
theorem aborted_current : ∃ s, (jobSystem rk3588RknpuConfig).Reachable s ∧
    .abort 0 ∈ s.hist ∧ s.dev.freed 0 = true ∧ (s.dev.subcoreDatas 0).job = some 0 := by
  obtain ⟨s, hs, h⟩ := System.Reachable.of_run_any (S := jobSystem rk3588RknpuConfig)
    (p := fun s => decide (.abort 0 ∈ s.hist ∧ s.dev.freed 0 = true ∧
      (s.dev.subcoreDatas 0).job = some 0)) (l := abortedJob 1) ⟨1, rfl⟩ (by decide +kernel)
  exact ⟨s, hs, of_decide_eq_true h⟩

end RknpuDriver.Job
