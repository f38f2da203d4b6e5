import RknpuDriver.Job.Effects
import RknpuDriver.Job.Positions

/-! # The out-fences of jobs that are given back

`rknpu_job_done` signals the fence of a job; `rknpu_job_free` puts it, and does not look whether
it was signaled. `resolves` says when that is so for all jobs that are given back.
-/

namespace RknpuDriver.Job
set_option autoImplicit false
open RknpuDriver.Lib

/-- The interrupt handler has set `RKNPU_JOB_DONE`, and has not come to `dma_fence_signal`. -/
def signaling (j : ℕ) : JobOp → Bool
  | .setRet i | .fenceSignal i => i = j
  | _ => false

/-- The job has no out-fence, or it is done and its handler is past `dma_fence_signal`. -/
def completedFence (s : JobState) (j : ℕ) : Bool :=
  (s.dev.jobs j).fence = none ∨
    (s.dev.jobs j).done = true ∧ ∀ op ∈ s.threads.flatten, signaling j op = false

/-- Only jobs that are completed are given back: by a thread that waited for its job or did not
need to, by `rknpu_job_abort`, and by the cleanup work that `rknpu_job_timeout_clean` queues. -/
def resolves (s : JobState) : JobOp → Bool
  | .blockRet j | .timeoutWork _ j => completedFence s j
  | .nonblockRet j => (s.dev.jobs j).ret = 0 ∨ completedFence s j
  | _ => true

def resolvingSystem (cfg : Config) : System JobState JobLabel :=
  (jobSystem cfg).guarded fun s a => onBlock (fun _ _ => resolves s) s a = true

/-- The job has no out-fence, or the fence is signaled. -/
def Resolved (dev : Dev) (j : ℕ) : Prop :=
  (dev.jobs j).fence = none ∨ dev.fenceSignaled j = true

structure Fenced (s : JobState) : Prop where
  bare : ∀ j, .fenceIn j ∈ s.todo ∨ .fenceOut j ∈ s.todo → (s.dev.jobs j).fence = none
  done : ∀ j, (s.dev.jobs j).done = true →
    Past s j ∧ (Resolved s.dev j ∨ ∃ op ∈ s.todo, signaling j op = true)
  dying : ∀ op ∈ s.todo, ∀ j, dying op = some j → Resolved s.dev j
  works : ∀ j ∈ s.dev.works, Resolved s.dev j
  puts : ∀ j n, .fencePut j n ∈ s.hist → s.dev.fenceSignaled j = true

section
variable {cfg : Config} {s t : JobState} {a : JobLabel} {o : Outcome} {op : JobOp} {eff : Effect}
  {j : ℕ}

theorem Placed.past_of_helper (hs : Placed cfg s) (hop : op ∈ s.todo) (hj : helper op = some j) :
    Past s j := hs.helped op hop j hj

theorem Placed.past_of_dying (hs : Placed cfg s) (hop : op ∈ s.todo) (hj : dying op = some j) :
    Past s j := by
  cases op with
  | asyncWork i | cleanupWork i => exact hs.past_of_helper hop hj
  | abortClear i | abortReport i | free i => exact hs.past_of_after hop hj
  | _ => cases hj

theorem Past.not_fenceInit (hj : Past s j) (hop : op ∈ s.todo) : ∀ n, op ≠ .fenceInit j n := by
  rintro n rfl
  exact hj.2 _ hop rfl

/-- A fence that is resolved stays so, unless it was not there. -/
theorem Resolved.exec {dev : Dev} (hj : Resolved dev j) (heff : jobExec cfg dev o op = some eff)
    (hop : ∀ n, op ≠ .fenceInit j n) : Resolved eff.dev j := by
  obtain hj | hj := hj
  · left
    rw [fence_eq heff hop]
    exact hj
  · right
    rw [fenceSignaled_eq heff, hj]
    rfl

theorem Fenced.resolved_of_completed (hn : Fenced s) (hj : completedFence s j = true) :
    Resolved s.dev j := by
  simp only [completedFence, decide_eq_true_eq] at hj
  obtain hj | ⟨hdone, hthrough⟩ := hj
  · exact Or.inl hj
  · refine (hn.done j hdone).2.resolve_right ?_
    rintro ⟨op, hop, hsignal⟩
    rw [hthrough op (Multiset.mem_coe.mp hop)] at hsignal
    cases hsignal

theorem signaling_calls (heff : jobExec cfg s.dev o op = some eff) (hop : signaling j op = true) :
    Resolved eff.dev j ∨ ∃ x ∈ eff.calls, signaling j x = true := by
  cases op with
  | setRet i =>
    cases heff
    exact Or.inr ⟨.fenceSignal i, List.mem_singleton_self _, hop⟩
  | fenceSignal i =>
    obtain rfl : i = j := of_decide_eq_true hop
    left
    by_cases hfence : (s.dev.jobs i).fence = none
    · left
      rw [fence_eq heff (by simp)]
      exact hfence
    · right
      rw [fenceSignaled_eq heff]
      simp [hfence]
  | _ => cases hop

theorem Fenced.exec (hn : Fenced s) (hs : Placed cfg s) (h : Stepped cfg s t a)
    {others : Multiset JobOp} (hop : s.todo = op ::ₘ others)
    (heff : jobExec cfg s.dev o op = some eff) (hdev : t.dev = eff.dev)
    (htodo : t.todo = (eff.calls : Multiset JobOp) + others)
    (hhist : t.hist = s.hist ++ eff.events) (hok : resolves s op = true) : Fenced t := by
  have hmem : op ∈ s.todo := by simp [hop]
  have hothers : ∀ x ∈ others, x ∈ s.todo := fun x hx => by simp [hop, hx]
  have hkeep : ∀ {j}, Past s j → Resolved s.dev j → Resolved t.dev j := by
    intro j hpast hj
    rw [hdev]
    exact hj.exec heff (hpast.not_fenceInit hmem)
  have hsignaled : ∀ {j}, s.dev.fenceSignaled j = true → t.dev.fenceSignaled j = true := by
    intro j hj
    rw [hdev, fenceSignaled_eq heff, hj]
    rfl
  refine ⟨fun j hj => ?_, fun j hj => ?_, fun x hx j hj => ?_, fun j hj => ?_, fun j n hj => ?_⟩
  · have hold : .fenceIn j ∈ s.todo ∨ .fenceOut j ∈ s.todo := by
      simp only [htodo, Multiset.mem_add, Multiset.mem_coe] at hj
      obtain (hj | hj) | (hj | hj) := hj
      · exact ((calls_fence heff j).1 hj).elim
      · exact Or.inl (hothers _ hj)
      · obtain rfl := (calls_fence heff j).2 hj
        exact Or.inl hmem
      · exact Or.inr (hothers _ hj)
    rw [hdev, fence_eq heff]
    · exact hn.bare j hold
    · rintro n rfl
      have hex := hs.exclusive hop (Or.inl rfl)
      obtain hold | hold := hold
      · rw [hop, Multiset.mem_cons] at hold
        obtain hold | hold := hold
        · cases hold
        · exact (hex _ hold).1 rfl
      · rw [hop, Multiset.mem_cons] at hold
        obtain hold | hold := hold
        · cases hold
        · exact (hex _ hold).1 rfl
  · rw [hdev, done_eq heff, Bool.or_eq_true, decide_eq_true_eq] at hj
    obtain hj | rfl := hj
    · obtain ⟨hpast, hsignal⟩ := hn.done j hj
      refine ⟨(hpast.stepped h).1, ?_⟩
      obtain hsignal | ⟨x, hx, hsignal⟩ := hsignal
      · exact Or.inl (hkeep hpast hsignal)
      · rw [hop, Multiset.mem_cons] at hx
        obtain rfl | hx := hx
        · rw [hdev, htodo]
          refine (signaling_calls heff hsignal).imp_right ?_
          rintro ⟨y, hy, hyj⟩
          exact ⟨y, Multiset.mem_add.mpr (Or.inl (Multiset.mem_coe.mpr hy)), hyj⟩
        · exact Or.inr ⟨x, by rw [htodo]; exact Multiset.mem_add.mpr (Or.inr hx), hsignal⟩
    · refine ⟨((hs.past_of_helper hmem rfl).stepped h).1, Or.inr ⟨.setRet j, ?_, ?_⟩⟩
      · rw [htodo, Multiset.mem_add]
        left
        cases heff
        exact Multiset.mem_singleton_self _
      · exact decide_eq_true rfl
  · rw [htodo, Multiset.mem_add, Multiset.mem_coe] at hx
    obtain hx | hx := hx
    · obtain hop' | rfl | rfl | ⟨rfl, hret⟩ | rfl := calls_dying heff hx hj
      · exact hkeep (hs.past_of_dying hmem hop') (hn.dying op hmem j hop')
      · left
        rw [hdev, fence_eq heff (by simp)]
        exact hn.bare j (Or.inr hmem)
      · exact hkeep (hs.past_of_after hmem rfl) (hn.resolved_of_completed hok)
      · simp only [resolves, decide_eq_true_eq] at hok
        exact hkeep (hs.past_of_after hmem rfl)
          (hn.resolved_of_completed (hok.resolve_left hret))
      · rw [hdev]
        by_cases hfence : (s.dev.jobs j).fence = none
        · left
          rw [fence_eq heff (by simp)]
          exact hfence
        · right
          rw [fenceSignaled_eq heff]
          simp [hfence]
    · exact hkeep (hs.past_of_dying (hothers x hx) hj) (hn.dying x (hothers x hx) j hj)
  · rw [hdev] at hj
    obtain hj | ⟨c, rfl⟩ | rfl := mem_works heff hj
    · exact hkeep (hs.worked j hj) (hn.works j hj)
    · exact hkeep (hs.past_of_helper hmem rfl) (hn.resolved_of_completed hok)
    · exact hkeep (hs.past_of_helper hmem rfl) (hn.dying _ hmem j rfl)
  · rw [hhist, List.mem_append] at hj
    obtain hj | hj := hj
    · exact hsignaled (hn.puts j n hj)
    · obtain ⟨hfree, hfence⟩ := (events_fencePut heff).mp hj
      have hresolved : Resolved s.dev j := by
        obtain rfl | rfl := hfree
        · exact hn.dying _ hmem j rfl
        · exact hn.dying _ hmem j rfl
      refine hsignaled (hresolved.resolve_left ?_)
      rw [hfence]
      exact Option.some_ne_none n

theorem Fenced.submit (hn : Fenced s) (hs : Placed cfg s) {job : RknpuJob}
    (hfence : job.fence = none)
    (hdone : job.done = false) (hdev : t.dev = s.dev.addJob job)
    (htodo : t.todo = .fenceIn s.dev.numJobs ::ₘ s.todo)
    (hhist : ∀ j n, .fencePut j n ∈ t.hist → .fencePut j n ∈ s.hist) (h : Stepped cfg s t a) :
    Fenced t := by
  have hold : ∀ {j}, j < s.dev.numJobs → t.dev.jobs j = s.dev.jobs j := by
    intro j hj
    rw [hdev, Dev.addJob_jobs, if_neg (Nat.ne_of_lt hj)]
  have hkeep : ∀ {j}, Past s j → Resolved s.dev j → Resolved t.dev j := by
    intro j hpast hj
    unfold Resolved
    rw [hold hpast.1, hdev]
    exact hj
  refine ⟨fun j hj => ?_, fun j hj => ?_, fun x hx j hj => ?_, fun j hj => ?_, fun j n hj => ?_⟩
  · by_cases hnew : j = s.dev.numJobs
    · rw [hdev, Dev.addJob_jobs, if_pos hnew]
      exact hfence
    · have hj : .fenceIn j ∈ s.todo ∨ .fenceOut j ∈ s.todo := by
        simpa [htodo, hnew] using hj
      have hlt : j < s.dev.numJobs := by
        obtain hj | hj := hj
        · exact hs.submitted _ hj j (Or.inl rfl)
        · exact hs.submitted _ hj j (Or.inl rfl)
      rw [hold hlt]
      exact hn.bare j hj
  · by_cases hnew : j = s.dev.numJobs
    · rw [hdev, Dev.addJob_jobs, if_pos hnew, hdone] at hj
      cases hj
    · have hj : (s.dev.jobs j).done = true := by
        rw [hdev, Dev.addJob_jobs, if_neg hnew] at hj
        exact hj
      obtain ⟨hpast, hsignal⟩ := hn.done j hj
      refine ⟨(hpast.stepped h).1, hsignal.imp (hkeep hpast) ?_⟩
      rintro ⟨x, hx, hsignal⟩
      exact ⟨x, by simp [htodo, hx], hsignal⟩
  · rw [htodo, Multiset.mem_cons] at hx
    obtain rfl | hx := hx
    · cases hj
    · exact hkeep (hs.past_of_dying hx hj) (hn.dying x hx j hj)
  · rw [hdev] at hj
    exact hkeep (hs.worked j hj) (hn.works j hj)
  · rw [hdev]
    exact hn.puts j n (hhist j n hj)

theorem Fenced.spawn (hn : Fenced s) (hm : Spawned s t)
    (h : Stepped cfg s t a) : Fenced t := by
  have hkeep : ∀ {j}, Resolved s.dev j → Resolved t.dev j := by
    intro j hj
    unfold Resolved
    rw [hm.jobs, hm.fenceSignaled]
    exact hj
  refine ⟨fun j hj => ?_, fun j hj => ?_, fun x hx j hj => ?_, fun j hj => ?_, fun j n hj => ?_⟩
  · rw [hm.jobs]
    refine hn.bare j (hj.imp (fun hj => ?_) fun hj => ?_)
    · exact (hm.mem_todo hj).resolve_right id
    · exact (hm.mem_todo hj).resolve_right id
  · rw [hm.jobs] at hj
    obtain ⟨hpast, hsignal⟩ := hn.done j hj
    refine ⟨(hpast.stepped h).1, hsignal.imp hkeep ?_⟩
    rintro ⟨x, hx, hsignal⟩
    obtain ⟨new, htodo, -⟩ := hm.todo
    exact ⟨x, by rw [htodo]; exact Multiset.mem_add.mpr (Or.inr hx), hsignal⟩
  · obtain hx | hstart := hm.mem_todo hx
    · exact hkeep (hn.dying x hx j hj)
    · cases x with
      | cleanupWork i =>
        obtain rfl : i = j := Option.some.inj hj
        exact hkeep (hn.works i hstart)
      | irqEntry | resetBegin | timerTick => cases hj
      | _ => exact hstart.elim
  · exact hkeep (hn.works j (hm.works j hj))
  · rw [hm.fenceSignaled]
    rw [hm.hist] at hj
    exact hn.puts j n hj

theorem Fenced.step (hn : Fenced s) (hs : Placed cfg s) (h : Stepped cfg s t a)
    (hok : onBlock (fun _ _ => resolves s) s a = true) : Fenced t := by
  cases h.moved with
  | submit hmask hdev htodo hhist =>
    refine hn.submit hs rfl rfl hdev htodo (fun j n hj => ?_) h
    rw [hhist, List.mem_append] at hj
    obtain hj | hj := hj
    · exact hj
    · split_ifs at hj <;> simp at hj
  | exec hnext heff hop hdev htodo hhist =>
    rw [onBlock_exec hnext] at hok
    exact hn.exec hs h hop heff hdev htodo hhist hok
  | spawn hm => exact hn.spawn hm h

theorem fenced (hs : (resolvingSystem cfg).Reachable s) : Placed cfg s ∧ Fenced s := by
  refine hs.invariant (fun s => Placed cfg s ∧ Fenced s) ?_ ?_
  · rintro s ⟨now, rfl⟩
    refine ⟨placed_init, fun j hj => ?_, fun j hj => ?_, fun op hop => ?_, fun j hj => ?_,
      fun j n hj => ?_⟩
    · rfl
    · cases hj
    · exact (Multiset.notMem_zero op hop).elim
    · exact (List.not_mem_nil hj).elim
    · exact (List.not_mem_nil hj).elim
  · intro s a t hs h
    obtain ⟨hok, h⟩ := System.guarded_step.mp h
    exact ⟨hs.1.step (stepped h), hs.2.step hs.1 (stepped h) hok⟩

/-- **Every out-fence is signaled before its job is given back**, when only jobs that are completed
are given back. -/
theorem fence_resolved (hs : (resolvingSystem cfg).Reachable s) {j n : ℕ}
    (hput : .fencePut j n ∈ s.hist) : s.dev.fenceSignaled j = true :=
  (fenced hs).2.puts j n hput

end

/-- A job with an out-fence on core `0`, up to the wait of its thread. -/
def fencedJob : List JobLabel :=
  .submit (oneTask (rknpuJobPc ||| rknpuJobFenceOut) rknpuCore0Mask) false true ::
    List.replicate 16 (.exec 0 calm)

theorem fence_resolved_done : ∃ s, (resolvingSystem rk3588RknpuConfig).Reachable s ∧
    .fencePut 0 1 ∈ s.hist ∧ s.dev.fenceSignaled 0 = true := by
  obtain ⟨s, hs, h⟩ := System.Reachable.of_run_any (S := resolvingSystem rk3588RknpuConfig)
    (p := fun s => decide (.fencePut 0 1 ∈ s.hist))
    (l := fencedJob ++ .irq 0 true :: List.replicate 12 (.exec 1 calm) ++
      List.replicate 6 (.exec 0 calm)) ⟨1, rfl⟩ (by decide +kernel)
  have hput := of_decide_eq_true h
  exact ⟨s, hs, hput, fence_resolved hs hput⟩

/-- A job whose wait runs out is given back with its fence, which nobody has signaled and no block
that is left to run signals. -/
theorem fence_unresolved : ∃ s, (jobSystem rk3588RknpuConfig).Reachable s ∧
    .fencePut 0 1 ∈ s.hist ∧ s.dev.fenceSignaled 0 = false ∧ s.todo = 0 := by
  obtain ⟨s, hs, h⟩ := System.Reachable.of_run_any (S := jobSystem rk3588RknpuConfig)
    (p := fun s => decide (.fencePut 0 1 ∈ s.hist ∧ s.dev.fenceSignaled 0 = false ∧
      s.threads.flatten = []))
    (l := fencedJob ++ List.replicate 17 (.exec 0 expired)) ⟨1, rfl⟩ (by decide +kernel)
  obtain ⟨hput, hsignaled, htodo⟩ := of_decide_eq_true h
  exact ⟨s, hs, hput, hsignaled, congrArg _ htodo⟩

end RknpuDriver.Job
