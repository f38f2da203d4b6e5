import RknpuDriver.Job.Effects
import RknpuDriver.Job.Positions

/-! # Restarting a core after errors

`rknpu_job_next` lets a core take its next job, and is called when a job is queued and when a core
is given up. Aborts and resets give cores up, or hold `rknpu_job_next` off, without a call of it
afterwards; `restarts` says when that does no harm.
-/

namespace RknpuDriver.Job
set_option autoImplicit false
open RknpuDriver.Lib

/-- Running the block makes core `c` look at its list. -/
def serves (cfg : Config) (dev : Dev) (c : ℕ) : JobOp → Bool
  | .next i | .pop i | .timeoutWork i _ | .timeoutNext i => i = c
  | .scanMask j i => i ≤ c ∧ c < cfg.numIrqs ∧ onCore (dev.jobs j).args.coreMask c = true
  | _ => false

/-- A reset that has set `soft_reseting` and is not at its end. -/
def resetting : JobOp → Bool
  | .resetAssert | .resetDeassert | .resetEnd => true
  | _ => false

/-- The core has no job, and jobs are waiting for it. -/
def stalled (dev : Dev) (c : ℕ) : Bool :=
  (dev.subcoreDatas c).job = none ∧ (dev.subcoreDatas c).todoList ≠ []

/-- `rknpu_job_abort` takes the job from the core. -/
def abortClears (dev : Dev) (j c : ℕ) : Bool :=
  onCore (dev.jobs j).args.coreMask c = true ∧ (dev.subcoreDatas c).job = some j ∧
    (dev.jobs j).irqEntry c = false

/-- No block is the last one that would have woken a core:
* `rknpu_job_next` returns early in a reset only if the core is not stalled, or another block makes
  it look at its list;
* `rknpu_job_abort` takes its job from a core only if no job waits for the core, or another block
  makes it look at its list;
* the lines of a reset do not fail, unless another reset follows. -/
def restarts (cfg : Config) (s : JobState) (o : Outcome) : JobOp → Bool
  | .next c => s.dev.softReseting = false ∨ stalled s.dev c = false ∨
      ∃ x ∈ s.threads.flatten.erase (.next c), serves cfg s.dev c x = true
  | .abortClear j => ∀ c < cfg.numIrqs, abortClears s.dev j c = true →
      (s.dev.subcoreDatas c).todoList = [] ∨
        ∃ x ∈ s.threads.flatten.erase (.abortClear j), serves cfg s.dev c x = true
  | .resetDeassert => o.ret = 0 ∨ ∃ x ∈ s.threads.flatten.erase .resetDeassert, resetting x = true
  | _ => true

def restartingSystem (cfg : Config) : System JobState JobLabel :=
  (jobSystem cfg).guarded fun s a => onBlock (fun _ o op => restarts cfg s o op) s a = true

/-- Some thread is about to let a stalled core take its next job, or to end the reset. -/
structure Waking (cfg : Config) (s : JobState) : Prop where
  served : ∀ c, stalled s.dev c = true → ∃ x ∈ s.todo, serves cfg s.dev c x = true
  ends : s.dev.softReseting = true → ∃ x ∈ s.todo, resetting x = true

section
variable {cfg : Config} {s t : JobState} {a : JobLabel} {o : Outcome} {op x : JobOp} {eff : Effect}
  {c : ℕ} {others : Multiset JobOp}

theorem stalled_iff {dev : Dev} : stalled dev c = true ↔
    (dev.subcoreDatas c).job = none ∧ (dev.subcoreDatas c).todoList ≠ [] := decide_eq_true_iff

theorem mem_others (hop : s.todo = op ::ₘ others) :
    x ∈ s.threads.flatten.erase op ↔ x ∈ others := by
  have herase : s.todo.erase op = others := by rw [hop, Multiset.erase_cons_head]
  rw [← herase]
  exact Iff.rfl

theorem serves_exec (hs : Placed cfg s) (hop : s.todo = op ::ₘ others)
    (heff : jobExec cfg s.dev o op = some eff) (hx : x ∈ others)
    (hserves : serves cfg s.dev c x = true) : serves cfg eff.dev c x = true := by
  cases x with
  | scanMask j i =>
    have hmem : .scanMask j i ∈ s.todo := by simp [hop, hx]
    have hpast : Past s j := hs.past_of_after hmem rfl
    have hmask := coreMask_eq (j := j) heff (hpast.2 op (by simp [hop]))
    simp only [serves, decide_eq_true_eq] at hserves ⊢
    rw [hmask]
    exact hserves
  | _ => exact hserves

theorem serves_calls (heff : jobExec cfg s.dev o op = some eff)
    (hserves : serves cfg s.dev c op = true) (hstalled : stalled s.dev c = true)
    (hok : op = .next c → s.dev.softReseting = false) (hafter : stalled eff.dev c = true) :
    ∃ y ∈ eff.calls, serves cfg eff.dev c y = true := by
  obtain ⟨hcur, hlist⟩ := stalled_iff.mp hstalled
  cases op with
  | next i =>
    obtain rfl : i = c := of_decide_eq_true hserves
    cases heff
    refine ⟨.pop i, ?_, decide_eq_true rfl⟩
    simp [rknpuJobNext, hok rfl]
  | pop i =>
    obtain rfl : i = c := of_decide_eq_true hserves
    have hcur' := (stalled_iff.mp hafter).1
    rw [current_eq heff] at hcur'
    simp only [currentAfter, hcur, and_self, if_true] at hcur'
    exact (hlist (List.head?_eq_none_iff.mp hcur')).elim
  | timeoutWork i j =>
    cases heff
    exact ⟨.timeoutNext i, List.mem_singleton_self _, hserves⟩
  | timeoutNext i =>
    obtain rfl : i = c := of_decide_eq_true hserves
    obtain ⟨j, rest, hjrest⟩ := List.exists_cons_of_ne_nil hlist
    cases heff
    refine ⟨.timeoutWork i j, ?_, decide_eq_true rfl⟩
    simp [timeoutCleanNext, hjrest]
  | scanMask j i =>
    simp only [serves, decide_eq_true_eq] at hserves
    obtain ⟨hle, hlt, hon⟩ := hserves
    have hi : i < cfg.numIrqs := Nat.lt_of_le_of_lt hle hlt
    cases heff
    by_cases hic : i = c
    · subst hic
      refine ⟨.next i, ?_, decide_eq_true rfl⟩
      simp [scheduleScanMask, hi, hon]
    · refine ⟨.scanMask j (i + 1), ?_, ?_⟩
      · simp [scheduleScanMask, hi]
      · have hdev : (scheduleScanMask cfg s.dev j i).dev = s.dev := by simp [scheduleScanMask, hi]
        simp only [serves, decide_eq_true_eq, hdev]
        exact ⟨by omega, hlt, hon⟩
  | _ => cases hserves

theorem stalls_calls (heff : jobExec cfg s.dev o op = some eff)
    (hbefore : stalled s.dev c = false) (hafter : stalled eff.dev c = true) :
    (∃ y ∈ eff.calls, serves cfg eff.dev c y = true) ∨
      ∃ j, op = .abortClear j ∧ c < cfg.numIrqs ∧ abortClears s.dev j c = true ∧
        (s.dev.subcoreDatas c).todoList ≠ [] := by
  obtain ⟨hcur, hlist⟩ := stalled_iff.mp hafter
  rw [current_eq heff] at hcur
  rw [todoList_eq heff] at hlist
  have hnot : ¬ ((s.dev.subcoreDatas c).job = none ∧ (s.dev.subcoreDatas c).todoList ≠ []) := by
    simpa [stalled] using hbefore
  cases op with
  | enqueue j =>
    simp only [currentAfter] at hcur
    simp only [todoListAfter] at hlist
    split_ifs at hlist with hc
    · left
      cases heff
      exact ⟨.scanMask j 0, List.mem_singleton_self _,
        decide_eq_true ⟨Nat.zero_le c, hc.1, hc.2⟩⟩
    · exact (hnot ⟨hcur, hlist⟩).elim
  | pop i =>
    simp only [currentAfter] at hcur
    simp only [todoListAfter] at hlist
    by_cases hi : c = i ∧ (s.dev.subcoreDatas c).job = none
    · rw [if_pos hi] at hcur
      rw [List.head?_eq_none_iff.mp hcur] at hlist
      simp at hlist
    · rw [if_neg hi] at hcur
      have hi' : ¬ (c = i ∧ (s.dev.subcoreDatas i).job = none) := by
        rintro ⟨rfl, hnone⟩
        exact hi ⟨rfl, hnone⟩
      rw [if_neg hi'] at hlist
      exact (hnot ⟨hcur, hlist⟩).elim
  | doneClear j i =>
    simp only [currentAfter] at hcur
    split_ifs at hcur with hi
    · left
      cases heff
      exact ⟨.next i, by simp [jobDoneClear], decide_eq_true hi.symm⟩
    · exact (hnot ⟨hcur, hlist⟩).elim
  | timeoutClear i j =>
    simp only [currentAfter] at hcur
    split_ifs at hcur with hi
    · left
      cases heff
      exact ⟨.timeoutWork i j, List.mem_singleton_self _, decide_eq_true hi.symm⟩
    · exact (hnot ⟨hcur, hlist⟩).elim
  | abortClear j =>
    simp only [currentAfter] at hcur
    split_ifs at hcur with hclear
    · exact Or.inr ⟨j, rfl, hclear.1, decide_eq_true hclear.2, hlist⟩
    · exact (hnot ⟨hcur, hlist⟩).elim
  | timeoutNext i =>
    simp only [todoListAfter] at hlist
    split_ifs at hlist with hi
    · refine (hnot ⟨hcur, fun hnil => hlist ?_⟩).elim
      rw [hnil, List.tail_nil]
    · exact (hnot ⟨hcur, hlist⟩).elim
  | waitRemove j ret =>
    simp only [todoListAfter] at hlist
    split_ifs at hlist with hi
    · refine (hnot ⟨hcur, fun hnil => hlist ?_⟩).elim
      rw [hnil, List.erase_nil]
    · exact (hnot ⟨hcur, hlist⟩).elim
  | _ => exact (hnot ⟨hcur, hlist⟩).elim

theorem resetting_calls (heff : jobExec cfg s.dev o op = some eff)
    (hop : op = .resetBegin ∨ resetting op = true) (hok : op = .resetDeassert → o.ret = 0)
    (hafter : eff.dev.softReseting = true) : ∃ y ∈ eff.calls, resetting y = true := by
  cases op with
  | resetBegin =>
    cases heff
    exact ⟨.resetAssert, List.mem_singleton_self _, rfl⟩
  | resetAssert =>
    cases heff
    exact ⟨.resetDeassert, List.mem_singleton_self _, rfl⟩
  | resetDeassert =>
    cases heff
    exact ⟨.resetEnd, by simp [softResetDeassert, hok rfl], rfl⟩
  | resetEnd =>
    cases heff
    cases hafter
  | _ => simp [resetting] at hop

theorem Waking.exec (hn : Waking cfg s) (hs : Placed cfg s) (hop : s.todo = op ::ₘ others)
    (heff : jobExec cfg s.dev o op = some eff) (hdev : t.dev = eff.dev)
    (htodo : t.todo = (eff.calls : Multiset JobOp) + others) (hok : restarts cfg s o op = true) :
    Waking cfg t := by
  have hcalls : ∀ {y}, y ∈ eff.calls → y ∈ t.todo := by
    intro y hy
    rw [htodo]
    exact Multiset.mem_add.mpr (Or.inl (Multiset.mem_coe.mpr hy))
  have hothers : ∀ {y}, y ∈ others → y ∈ t.todo := by
    intro y hy
    rw [htodo]
    exact Multiset.mem_add.mpr (Or.inr hy)
  have hkeep : ∀ {c}, (∃ y ∈ others, serves cfg s.dev c y = true) →
      ∃ y ∈ t.todo, serves cfg t.dev c y = true := by
    rintro c ⟨y, hy, hserves⟩
    rw [hdev]
    exact ⟨y, hothers hy, serves_exec hs hop heff hy hserves⟩
  have hmore : ∀ {c}, (∃ y ∈ eff.calls, serves cfg eff.dev c y = true) →
      ∃ y ∈ t.todo, serves cfg t.dev c y = true := by
    rintro c ⟨y, hy, hserves⟩
    rw [hdev]
    exact ⟨y, hcalls hy, hserves⟩
  refine ⟨fun c hc => ?_, fun hreset => ?_⟩
  · rw [hdev] at hc
    cases hbefore : stalled s.dev c with
    | false =>
      obtain hy | ⟨j, rfl, hlt, hclear, hlist⟩ := stalls_calls heff hbefore hc
      · exact hmore hy
      · simp only [restarts, decide_eq_true_eq] at hok
        obtain ⟨y, hy, hserves⟩ := (hok c hlt hclear).resolve_left hlist
        exact hkeep ⟨y, (mem_others hop).mp hy, hserves⟩
    | true =>
      obtain ⟨y, hy, hserves⟩ := hn.served c hbefore
      rw [hop, Multiset.mem_cons] at hy
      obtain rfl | hy := hy
      · by_cases hnext : y = .next c ∧ s.dev.softReseting = true
        · obtain ⟨rfl, hreset⟩ := hnext
          simp only [restarts, decide_eq_true_eq, hreset, hbefore] at hok
          obtain ⟨y, hy, hserves⟩ := (hok.resolve_left (by simp)).resolve_left (by simp)
          exact hkeep ⟨y, (mem_others hop).mp hy, hserves⟩
        · refine hmore (serves_calls heff hserves hbefore (fun hcon => ?_) hc)
          exact Bool.eq_false_iff.mpr fun hreset => hnext ⟨hcon, hreset⟩
      · exact hkeep ⟨y, hy, hserves⟩
  · rw [hdev] at hreset
    by_cases hbegin : op = .resetBegin
    · obtain ⟨y, hy, hyr⟩ := resetting_calls heff (Or.inl hbegin) (by simp [hbegin]) hreset
      exact ⟨y, hcalls hy, hyr⟩
    · have hbefore : s.dev.softReseting = true := by
        by_contra hno
        rw [awake_eq heff hbegin (Bool.not_eq_true _ ▸ hno)] at hreset
        cases hreset
      obtain ⟨y, hy, hyr⟩ := hn.ends hbefore
      rw [hop, Multiset.mem_cons] at hy
      obtain rfl | hy := hy
      · by_cases hfail : y = .resetDeassert ∧ o.ret ≠ 0
        · obtain ⟨rfl, hret⟩ := hfail
          simp only [restarts, decide_eq_true_eq] at hok
          obtain ⟨y, hy, hyr⟩ := hok.resolve_left hret
          exact ⟨y, hothers ((mem_others hop).mp hy), hyr⟩
        · obtain ⟨y, hy, hyr⟩ := resetting_calls heff (Or.inr hyr)
            (fun hcon => not_not.mp fun hret => hfail ⟨hcon, hret⟩) hreset
          exact ⟨y, hcalls hy, hyr⟩
      · exact ⟨y, hothers hy, hyr⟩

theorem Waking.step (hn : Waking cfg s) (hs : Placed cfg s) (h : Stepped cfg s t a)
    (hok : onBlock (fun _ o op => restarts cfg s o op) s a = true) : Waking cfg t := by
  have hkeep : ∀ {new : Multiset JobOp}, t.todo = new + s.todo →
      t.dev.subcoreDatas = s.dev.subcoreDatas → t.dev.softReseting = s.dev.softReseting →
      (∀ c, ∀ x ∈ s.todo, serves cfg s.dev c x = true → serves cfg t.dev c x = true) →
      Waking cfg t := by
    intro new htodo hcores hreset hserves
    have hmem : ∀ {x}, x ∈ s.todo → x ∈ t.todo := by
      intro x hx
      rw [htodo]
      exact Multiset.mem_add.mpr (Or.inr hx)
    refine ⟨fun c hc => ?_, fun hr => ?_⟩
    · obtain ⟨x, hx, hxc⟩ := hn.served c (by rw [← hc, stalled, stalled, hcores])
      exact ⟨x, hmem hx, hserves c x hx hxc⟩
    · obtain ⟨x, hx, hxr⟩ := hn.ends (hreset ▸ hr)
      exact ⟨x, hmem hx, hxr⟩
  cases h.moved with
  | submit hmask hdev htodo hhist =>
    refine hkeep (htodo.trans (Multiset.singleton_add _ _).symm) (by rw [hdev]; rfl)
      (by rw [hdev]; rfl) fun c x hx hserves => ?_
    cases x with
    | scanMask j i =>
      have hlt := hs.submitted _ hx j (Or.inr rfl)
      simp only [serves, hdev, Dev.addJob_jobs, if_neg (Nat.ne_of_lt hlt)] at hserves ⊢
      exact hserves
    | _ => exact hserves
  | exec hnext heff hop hdev htodo hhist =>
    rw [onBlock_exec hnext] at hok
    exact hn.exec hs hop heff hdev htodo hok
  | spawn hm =>
    obtain ⟨new, htodo, -⟩ := hm.todo
    refine hkeep htodo hm.subcoreDatas hm.softReseting fun c x hx hserves => ?_
    cases x with
    | scanMask j i =>
      simp only [serves, hm.jobs] at hserves ⊢
      exact hserves
    | _ => exact hserves

theorem waking (hs : (restartingSystem cfg).Reachable s) : Waking cfg s := by
  refine (hs.invariant (fun s => Placed cfg s ∧ Waking cfg s) ?_ ?_).2
  · rintro s ⟨now, rfl⟩
    refine ⟨placed_init, fun c hc => ?_, fun hreset => ?_⟩
    · cases hc
    · cases hreset
  · intro s a t hs h
    obtain ⟨hok, h⟩ := System.guarded_step.mp h
    exact ⟨hs.1.step (stepped h), hs.2.step hs.1 (stepped h) hok⟩

/-- **Work is conserved** when no abort and no reset loses a wake-up: in every state in which all
threads are asleep in `rknpu_job_wait`, or have ended, `soft_reseting` is clear and no core is
stalled. -/
theorem work_conserved (hs : (restartingSystem cfg).Reachable s)
    (hasleep : ∀ op ∈ s.todo, ∃ j waitCount, op = .waitEvent j waitCount) :
    s.dev.softReseting = false ∧ ∀ c, stalled s.dev c = false := by
  have hn := waking hs
  refine ⟨Bool.eq_false_iff.mpr fun hreset => ?_, fun c => Bool.eq_false_iff.mpr fun hc => ?_⟩
  · obtain ⟨x, hx, hxr⟩ := hn.ends hreset
    obtain ⟨j, waitCount, rfl⟩ := hasleep x hx
    cases hxr
  · obtain ⟨x, hx, hxc⟩ := hn.served c hc
    obtain ⟨j, waitCount, rfl⟩ := hasleep x hx
    cases hxc

end

/-- A job for core `0` that a thread waits for, and one behind it that is submitted with
`RKNPU_JOB_NONBLOCK`. -/
def queuedBehind : List JobLabel :=
  .submit (oneTask rknpuJobPc rknpuCore0Mask) false true :: List.replicate 15 (.exec 0 calm) ++
    .submit (oneTask (rknpuJobPc ||| rknpuJobNonblock) rknpuCore0Mask) false true ::
      List.replicate 18 (.exec 1 calm)

/-- The core goes on to the second job when the first is done. -/
theorem work_conserved_behind : ∃ s, (restartingSystem rk3588RknpuConfig).Reachable s ∧
    enqueues s.hist = [0, 1] ∧ s.dev.softReseting = false ∧ ∀ c, stalled s.dev c = false := by
  obtain ⟨s, hs, h⟩ := System.Reachable.of_run_any (S := restartingSystem rk3588RknpuConfig)
    (p := fun s => decide (enqueues s.hist = [0, 1] ∧ s.threads.flatten = []))
    (l := queuedBehind ++ .irq 0 true :: List.replicate 15 (.exec 2 calm) ++
      List.replicate 6 (.exec 0 calm)) ⟨1, rfl⟩ (by decide +kernel)
  obtain ⟨horder, htodo⟩ := of_decide_eq_true h
  refine ⟨s, hs, horder, work_conserved hs fun op hop => ?_⟩
  have hmem : op ∈ s.threads.flatten := Multiset.mem_coe.mp hop
  rw [htodo] at hmem
  cases hmem

/-- The first job's wait runs out, it is aborted, and core `0` stays idle with the second on its
list; and a reset whose lines fail leaves `soft_reseting` set. -/
theorem work_stalled :
    (∃ s, (jobSystem rk3588RknpuConfig).Reachable s ∧ s.todo = 0 ∧
      (s.dev.subcoreDatas 0).job = none ∧ (s.dev.subcoreDatas 0).todoList = [1]) ∧
    ∃ s, (jobSystem rk3588RknpuConfig).Reachable s ∧ s.todo = 0 ∧ s.dev.softReseting = true := by
  constructor
  · obtain ⟨s, hs, h⟩ := System.Reachable.of_run_any (S := jobSystem rk3588RknpuConfig)
      (p := fun s => decide (s.threads.flatten = [] ∧ (s.dev.subcoreDatas 0).job = none ∧
        (s.dev.subcoreDatas 0).todoList = [1]))
      (l := queuedBehind ++ List.replicate 17 (.exec 0 expired)) ⟨1, rfl⟩ (by decide +kernel)
    obtain ⟨htodo, hjob, hlist⟩ := of_decide_eq_true h
    exact ⟨s, hs, congrArg _ htodo, hjob, hlist⟩
  · obtain ⟨s, hs, h⟩ := System.Reachable.of_run_any (S := jobSystem rk3588RknpuConfig)
      (p := fun s => decide (s.threads.flatten = [] ∧ s.dev.softReseting = true))
      (l := .actReset :: List.replicate 3 (.exec 0 { calm with ret := -1 })) ⟨1, rfl⟩
      (by decide +kernel)
    obtain ⟨htodo, hreset⟩ := of_decide_eq_true h
    exact ⟨s, hs, congrArg _ htodo, hreset⟩

end RknpuDriver.Job
