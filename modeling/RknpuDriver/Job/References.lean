import RknpuDriver.Job.Timeline

/-! # The domain references of jobs

`rknpu_job_schedule` gets a reference on the IOMMU domain for each job; `rknpu_job_done` and
`rknpu_job_abort` put it. In all runs a job puts once for its completion and once for its abort.

* `Paired`: a put is followed by the block it belongs with.
* `Referenced`: the gets and the puts of a run.
-/

namespace RknpuDriver.Job
set_option autoImplicit false
open RknpuDriver.Lib

/-- The blocks of `rknpu_job_timeout_clean` that take a job from its core. -/
def cleaning : JobOp → Bool
  | .timeoutClear _ _ | .timeoutWork _ _ | .timeoutNext _ => true
  | _ => false

/-! ## Blocks -/

section
variable {cfg : Config} {dev : Dev} {o : Outcome} {op : JobOp} {eff : Effect} {j c : ℕ}

/-- A block of `rknpu_submit` aborts the job. -/
def abortsJob (dev : Dev) (op : JobOp) (j : ℕ) : Prop :=
  (op = .nonblockRet j ∨ op = .blockRet j) ∧ (dev.jobs j).ret ≠ 0

instance : Decidable (abortsJob dev op j) := inferInstanceAs (Decidable (_ ∧ _))

theorem calls_domainPut_count (h : jobExec cfg dev o op = some eff) (j : ℕ) :
    eff.calls.count (.domainPut j) = eff.calls.count (.setDone j) +
      eff.calls.count (.abortClear j) := by
  cases op with
  | commit k => simp [calls_commit_eq_zero h]
  | doneClear k c =>
    cases h
    rfl
  | doneDec k =>
    cases h
    simp only [jobDoneDec, Effect.goto]
    split_ifs <;> simp [List.count_cons]
  | nonblockRet k =>
    cases h
    simp only [submitNonblockRet, rknpuJobAbort]
    split_ifs <;> simp [List.count_cons]
  | blockRet k =>
    cases h
    simp only [submitBlockRet, rknpuJobAbort]
    split_ifs <;> simp [List.count_cons]
  | _ => grind -ring -linarith -order

theorem calls_abortClear_count (h : jobExec cfg dev o op = some eff) (j : ℕ) :
    eff.calls.count (.abortClear j) = if abortsJob dev op j then 1 else 0 := by
  cases op with
  | commit k => simp [calls_commit_eq_zero h, abortsJob]
  | doneClear k c =>
    cases h
    rfl
  | nonblockRet k =>
    cases h
    by_cases hkj : k = j
    · subst hkj
      by_cases hret : (dev.jobs k).ret ≠ 0 <;>
        simp [submitNonblockRet, rknpuJobAbort, abortsJob, hret]
    · by_cases hret : (dev.jobs k).ret ≠ 0 <;>
        simp [submitNonblockRet, rknpuJobAbort, abortsJob, hret, hkj]
  | blockRet k =>
    cases h
    by_cases hkj : k = j
    · subst hkj
      by_cases hret : (dev.jobs k).ret ≠ 0 <;>
        simp [submitBlockRet, rknpuJobAbort, abortsJob, hret]
    · by_cases hret : (dev.jobs k).ret ≠ 0 <;>
        simp [submitBlockRet, rknpuJobAbort, abortsJob, hret, hkj]
  | _ => grind -ring -linarith -order [abortsJob]

theorem calls_enqueue_count (h : jobExec cfg dev o op = some eff) (j : ℕ) :
    eff.calls.count (.enqueue j) = if op = .domainGet j ∧ o.ret = 0 then 1 else 0 := by
  cases op with
  | commit k => simp [calls_commit_eq_zero h]
  | doneClear k c =>
    cases h
    rfl
  | _ => grind -ring -linarith -order

theorem events_domainGet_count (h : jobExec cfg dev o op = some eff) (j : ℕ) :
    eff.events.count (.domainGet j) = if op = .domainGet j ∧ o.ret = 0 then 1 else 0 := by
  cases op <;> grind -ring -linarith -order

theorem events_domainPut_count (h : jobExec cfg dev o op = some eff) (j : ℕ) :
    eff.events.count (.domainPut j) = if op = .domainPut j then 1 else 0 := by
  cases op <;> grind -ring -linarith -order

theorem events_abort_count (h : jobExec cfg dev o op = some eff) (j : ℕ) :
    eff.events.count (.abort j) = if op = .abortClear j then 1 else 0 := by
  cases op <;> grind -ring -linarith -order

theorem events_enqueue_count (h : jobExec cfg dev o op = some eff) (j : ℕ) :
    (enqueues eff.events).count j = if op = .enqueue j then 1 else 0 := by
  cases op <;> grind -ring -linarith -order [enqueues]

theorem events_free (h : jobExec cfg dev o op = some eff) :
    .free j ∈ eff.events ↔ op = .free j ∨ op = .cleanupWork j := by
  cases op <;> grind -ring -linarith -order

theorem irqEntry_kept (h : jobExec cfg dev o op = some eff)
    (hj : (dev.jobs j).irqEntry c = true) : (eff.dev.jobs j).irqEntry c = true := by
  cases op <;> grind -ring -linarith -order

theorem calls_abortReport (h : jobExec cfg dev o op = some eff) (hj : .abortReport j ∈ eff.calls) :
    op = .abortClear j := by
  cases op with
  | doneClear k d =>
    cases h
    simp [jobDoneClear, Effect.goto] at hj
  | _ => grind -ring -linarith -order

theorem calls_cleaning (h : jobExec cfg dev o op = some eff) {x : JobOp} (hx : x ∈ eff.calls)
    (hc : cleaning x = true) : cleaning op = true ∨
      ∃ m i k, op = .timeoutCheck m i k ∧ timeoutHit dev k = true := by
  cases op with
  | doneClear k d =>
    cases h
    simp only [jobDoneClear, Effect.goto, List.mem_cons, List.not_mem_nil, or_false] at hx
    obtain rfl | rfl := hx
    · cases hc
    · cases hc
  | commit k =>
    cases h
    obtain ⟨d, -, rfl⟩ := List.mem_map.mp hx
    cases hc
  | _ => grind -ring -linarith -order [cleaning]

/-- The submitter comes past the queuing of its job only by it, by an error, or without the
job. -/
theorem calls_after (h : jobExec cfg dev o op = some eff) {x : JobOp} (hx : x ∈ eff.calls)
    (hj : after x = some j) : after op = some j ∨ op = .fenceOut j ∧ x = .free j ∨
      op = .domainGet j ∧ o.ret ≠ 0 ∨ op = .enqueue j := by
  have hpos : 0 < (eff.calls.map (submitter j)).sum := by
    refine Nat.lt_of_lt_of_le (Nat.zero_lt_one) ?_
    have hone : submitter j x = 1 := if_pos (Or.inr hj)
    rw [← hone]
    exact List.single_le_sum (fun _ _ => Nat.zero_le _) _ (List.mem_map_of_mem hx)
  have hop : before op = some j ∨ after op = some j := by
    by_contra hcon
    have hle := calls_submitter h j
    have hzero : submitter j op = 0 := if_neg hcon
    omega
  refine hop.symm.imp_right fun hbefore => ?_
  cases op with
  | fenceIn k | schedule k | autoRead k | dispatch k =>
    cases h
    simp only [submitFenceIn, submitDispatch, rknpuJobSchedule, rknpuScheduleCoreIndex] at hx
    split_ifs at hx <;> simp only [Effect.goto_calls, List.mem_cons, List.not_mem_nil, or_false]
      at hx <;> obtain rfl | rfl := hx <;> cases hj
  | fenceInit k =>
    cases h
    simp only [rknpuFenceAlloc, List.mem_singleton] at hx
    subst hx
    cases hj
  | fenceOut k =>
    cases h
    obtain rfl : k = j := Option.some.inj hbefore
    simp only [submitFenceOut] at hx
    split_ifs at hx <;> simp only [Effect.goto_calls, List.mem_singleton] at hx <;> subst hx
    · cases hj
    · exact Or.inl ⟨rfl, rfl⟩
    · cases hj
  | domainGet k =>
    cases h
    obtain rfl : k = j := Option.some.inj hbefore
    simp only [scheduleDomainGet] at hx
    split_ifs at hx with hret
    · exact Or.inr (Or.inl ⟨rfl, hret⟩)
    · rw [List.mem_singleton.mp hx] at hj
      cases hj
  | enqueue k =>
    obtain rfl : k = j := Option.some.inj hbefore
    exact Or.inr (Or.inr rfl)
  | _ => cases hbefore

end

/-! ## Threads that put a reference -/

/-- Each put is followed by the block it belongs with. -/
inductive Paired : List JobOp → Prop where
  | nil : Paired []
  | other {op : JobOp} {rest : List JobOp} (hop : ∀ j, op ≠ .domainPut j) (hrest : Paired rest) :
      Paired (op :: rest)
  | done {j : ℕ} {rest : List JobOp} (hrest : Paired rest) :
      Paired (.domainPut j :: .setDone j :: rest)
  | abort {j : ℕ} {rest : List JobOp} (hrest : Paired rest) :
      Paired (.domainPut j :: .abortClear j :: rest)

section
variable {cfg : Config} {dev : Dev} {o : Outcome} {op : JobOp} {eff : Effect} {rest : List JobOp}
  {threads : List (List JobOp)} {j : ℕ}

theorem Paired.tail (h : Paired (op :: rest)) : Paired rest := by
  cases h with
  | other hop hrest => exact hrest
  | done hrest | abort hrest => exact .other (by simp) hrest

theorem Paired.append {l : List JobOp} (h : ∀ j, .domainPut j ∉ l) (hrest : Paired rest) :
    Paired (l ++ rest) := by
  induction l with
  | nil => exact hrest
  | cons x l ih =>
    refine .other (fun j hx => h j (hx ▸ List.mem_cons_self)) (ih fun j hj => ?_)
    exact h j (List.mem_cons_of_mem x hj)

theorem calls_paired (h : jobExec cfg dev o op = some eff) (hrest : Paired rest) :
    Paired (eff.calls ++ rest) := by
  have hnone : (∀ k, op ≠ .doneDec k ∧ op ≠ .nonblockRet k ∧ op ≠ .blockRet k) →
      Paired (eff.calls ++ rest) := by
    intro hop
    refine hrest.append fun j hj => ?_
    have hpos := List.count_pos_iff.mpr hj
    rw [calls_domainPut_count h, calls_setDone_count h, calls_abortClear_count h,
      if_neg fun hcon => (hop j).1 hcon.1,
      if_neg fun hcon => hcon.1.elim (hop j).2.1 (hop j).2.2] at hpos
    exact Nat.lt_irrefl 0 hpos
  cases op with
  | doneDec k =>
    cases h
    simp only [jobDoneDec]
    split_ifs
    · exact .done hrest
    · exact hrest
  | nonblockRet k =>
    cases h
    simp only [submitNonblockRet]
    split_ifs
    · exact .abort hrest
    · exact hrest
  | blockRet k =>
    cases h
    simp only [submitBlockRet]
    split_ifs
    · exact .abort hrest
    · exact .other (by simp) hrest
  | _ => exact hnone (by simp)

theorem Paired.count_le (h : Paired rest) :
    rest.count (.domainPut j) ≤ rest.count (.setDone j) + rest.count (.abortClear j) := by
  induction h with
  | nil => exact Nat.le_refl 0
  | other hop hrest ih =>
    rw [List.count_cons_of_ne (hop j), List.count_cons, List.count_cons]
    omega
  | done hrest ih =>
    simp only [List.count_cons, beq_iff_eq, JobOp.domainPut.injEq, JobOp.setDone.injEq,
      reduceCtorEq, if_false]
    omega
  | abort hrest ih =>
    simp only [List.count_cons, beq_iff_eq, JobOp.domainPut.injEq, JobOp.abortClear.injEq,
      reduceCtorEq, if_false]
    omega

/-- A pending put comes with the end of the job that it belongs with. -/
theorem pending_domainPut_le (h : ∀ thread ∈ threads, Paired thread) :
    (pending threads).count (.domainPut j) ≤
      (pending threads).count (.setDone j) + (pending threads).count (.abortClear j) := by
  induction threads with
  | nil => exact Nat.le_refl 0
  | cons thread threads ih =>
    have hhead := (h thread List.mem_cons_self).count_le (j := j)
    have htail := ih fun x hx => h x (List.mem_cons_of_mem thread hx)
    rw [pending_cons]
    simp only [Multiset.count_add, Multiset.coe_count]
    omega

theorem paired_advance {tid : ℕ} (hs : ∀ thread ∈ threads, Paired thread)
    (hnext : nextBlock threads tid = some (op, rest)) (heff : jobExec cfg dev o op = some eff) :
    ∀ thread ∈ advance threads tid eff.calls rest, Paired thread := by
  intro thread hthread
  obtain hmem | rfl := List.mem_or_eq_of_mem_set hthread
  · exact hs thread hmem
  · have hold := hs _ (List.mem_of_getElem? (getElem_of_nextBlock hnext))
    exact calls_paired heff hold.tail

theorem paired_spawn (hs : ∀ thread ∈ threads, Paired thread) (hop : ∀ j, op ≠ .domainPut j) :
    ∀ thread ∈ threads ++ [[op]], Paired thread := by
  intro thread hthread
  rw [List.mem_append, List.mem_singleton] at hthread
  obtain hmem | rfl := hthread
  · exact hs thread hmem
  · exact .other hop .nil

end

/-! ## Gets and puts -/

/-- How often a job got a reference. -/
def getsOf (j : ℕ) (hist : List Event) : ℕ := hist.count (.domainGet j)

/-- How often a job put its reference. -/
def putsOf (j : ℕ) (hist : List Event) : ℕ := hist.count (.domainPut j)

structure Referenced (s : JobState) : Prop where
  gets : ∀ j, getsOf j s.hist = s.todo.count (.enqueue j) + (enqueues s.hist).count j
  puts : ∀ j, putsOf j s.hist + s.todo.count (.domainPut j) = s.hist.count (.done j) +
    s.todo.count (.setDone j) + (s.hist.count (.abort j) + s.todo.count (.abortClear j))
  paired : ∀ thread ∈ s.threads, Paired thread
  aborted : ∀ j, .abort j ∈ s.hist → Past s j ∧ s.hist.count (.abort j) = 1 ∧
    ∀ op ∈ s.todo, after op = some j → op = .abortReport j ∨ op = .free j
  reported : ∀ j, .abortReport j ∈ s.todo → .abort j ∈ s.hist
  finished : ∀ j, (s.dev.jobs j).done = true ∨ .setRet j ∈ s.todo ∨ .fenceSignal j ∈ s.todo ∨
    .asyncWork j ∈ s.todo → .done j ∈ s.hist
  entered : ∀ j c, .irqStatus j c ∈ s.todo → (s.dev.jobs j).irqEntry c = true

section
variable {cfg : Config} {s t : LineState} {a : LineLabel} {o : Outcome} {op : JobOp} {eff : Effect}
  {others : Multiset JobOp} {rest : List JobOp} {tid j c : ℕ}

theorem Referenced.balance_exec (hn : Referenced s.job) (hop : s.job.todo = op ::ₘ others)
    (heff : jobExec cfg s.job.dev o op = some eff)
    (htodo : t.job.todo = (eff.calls : Multiset JobOp) + others)
    (hhist : t.job.hist = s.job.hist ++ eff.events) (j : ℕ) :
    getsOf j t.job.hist = t.job.todo.count (.enqueue j) + (enqueues t.job.hist).count j ∧
    putsOf j t.job.hist + t.job.todo.count (.domainPut j) = t.job.hist.count (.done j) +
      t.job.todo.count (.setDone j) +
        (t.job.hist.count (.abort j) + t.job.todo.count (.abortClear j)) := by
  have hgets := hn.gets j
  have hputs := hn.puts j
  have henqueue := count_exec hop htodo (.enqueue j)
  have hput := count_exec hop htodo (.domainPut j)
  have hset := count_exec hop htodo (.setDone j)
  have habort := count_exec hop htodo (.abortClear j)
  rw [calls_enqueue_count heff] at henqueue
  rw [calls_domainPut_count heff] at hput
  unfold getsOf at hgets ⊢
  unfold putsOf at hputs ⊢
  rw [hhist, enqueues_append]
  simp only [List.count_append]
  rw [events_domainGet_count heff, events_domainPut_count heff, events_done_count heff,
    events_abort_count heff, events_enqueue_count heff]
  constructor <;> omega

theorem Referenced.aborted_exec (hn : Referenced s.job) (hs : Known cfg s.job) {b : JobLabel}
    (h : Stepped cfg s.job t.job b) (hop : s.job.todo = op ::ₘ others)
    (heff : jobExec cfg s.job.dev o op = some eff)
    (htodo : t.job.todo = (eff.calls : Multiset JobOp) + others)
    (hhist : t.job.hist = s.job.hist ++ eff.events) (hj : .abort j ∈ t.job.hist) :
    Past t.job j ∧ t.job.hist.count (.abort j) = 1 ∧
      ∀ x ∈ t.job.todo, after x = some j → x = .abortReport j ∨ x = .free j := by
  have hmem : op ∈ s.job.todo := by simp [hop]
  have hothers : ∀ x ∈ others, x ∈ s.job.todo := fun x hx => by simp [hop, hx]
  rw [hhist, List.count_append, events_abort_count heff]
  by_cases hclear : op = .abortClear j
  · subst hclear
    have hnone : s.job.hist.count (.abort j) = 0 := by
      refine List.count_eq_zero.mpr fun hcon => ?_
      obtain hcon | hcon := (hn.aborted j hcon).2.2 _ hmem rfl
      · cases hcon
      · cases hcon
    rw [hnone, if_pos rfl]
    refine ⟨((hs.placed.past_of_after hmem rfl).stepped h).1, rfl, fun x hx hafter => ?_⟩
    rw [htodo, Multiset.mem_add] at hx
    obtain hx | hx := hx
    · cases heff
      exact Or.inl (List.mem_singleton.mp (Multiset.mem_coe.mp hx))
    · exact ((hs.placed.exclusive hop (Or.inr rfl) x hx).2 hafter).elim
  · rw [if_neg hclear, Nat.add_zero]
    have hold : .abort j ∈ s.job.hist := by
      rw [hhist, List.mem_append] at hj
      exact hj.resolve_right fun hcon => hclear (events_abort heff hcon)
    obtain ⟨hpast, hone, hafter⟩ := hn.aborted j hold
    refine ⟨(hpast.stepped h).1, hone, fun x hx hxj => ?_⟩
    rw [htodo, Multiset.mem_add] at hx
    obtain hx | hx := hx
    · have hx := Multiset.mem_coe.mp hx
      obtain hop' | ⟨rfl, -⟩ | ⟨rfl, -⟩ | rfl := calls_after heff hx hxj
      · obtain rfl | rfl := hafter op hmem hop'
        · cases heff
          simp only [jobAbortReport] at hx
          split_ifs at hx <;> simp only [Effect.goto_calls, List.nil_append, List.cons_append,
            List.mem_cons, List.not_mem_nil, or_false] at hx
          · obtain rfl | rfl := hx
            · cases hxj
            · exact Or.inr rfl
          · exact Or.inr hx
        · cases heff
          cases hx
      · exact (hpast.2 _ hmem rfl).elim
      · exact (hpast.2 _ hmem rfl).elim
      · exact (hpast.2 _ hmem rfl).elim
    · exact hafter x (hothers x hx) hxj

theorem Referenced.exec (hn : Referenced s.job) (hs : Known cfg s.job) {b : JobLabel}
    (h : Stepped cfg s.job t.job b) (hnext : nextBlock s.job.threads tid = some (op, rest))
    (hop : s.job.todo = op ::ₘ others) (heff : jobExec cfg s.job.dev o op = some eff)
    (hdev : t.job.dev = eff.dev) (htodo : t.job.todo = (eff.calls : Multiset JobOp) + others)
    (hhist : t.job.hist = s.job.hist ++ eff.events)
    (hthreads : t.job.threads = advance s.job.threads tid eff.calls rest) : Referenced t.job := by
  have hmem : op ∈ s.job.todo := by simp [hop]
  have hothers : ∀ x ∈ others, x ∈ s.job.todo := fun x hx => by simp [hop, hx]
  have hcases : ∀ {x}, x ∈ t.job.todo → x ∈ eff.calls ∨ x ∈ s.job.todo := by
    intro x hx
    rw [htodo, Multiset.mem_add, Multiset.mem_coe] at hx
    exact hx.imp_right (hothers x)
  refine ⟨fun j => (hn.balance_exec hop heff htodo hhist j).1,
    fun j => (hn.balance_exec hop heff htodo hhist j).2, ?_,
    fun j => hn.aborted_exec hs h hop heff htodo hhist, fun j hj => ?_, fun j hj => ?_,
    fun j c hj => ?_⟩
  · rw [hthreads]
    exact paired_advance hn.paired hnext heff
  · rw [hhist, List.mem_append]
    obtain hj | hj := hcases hj
    · right
      rw [calls_abortReport heff hj] at heff
      cases heff
      exact List.mem_singleton_self _
    · exact Or.inl (hn.reported j hj)
  · rw [hhist, List.mem_append, events_done heff]
    have hcalls : ∀ {x}, x ∈ eff.calls → signaling j x = true →
        .done j ∈ s.job.hist ∨ op = .setDone j := by
      intro x hx hsignal
      obtain rfl | hsignal := calls_signaling heff hx hsignal
      · exact Or.inr rfl
      · refine Or.inl (hn.finished j ?_)
        cases op with
        | setRet i =>
          obtain rfl : i = j := of_decide_eq_true hsignal
          exact Or.inr (Or.inl hmem)
        | fenceSignal i =>
          obtain rfl : i = j := of_decide_eq_true hsignal
          exact Or.inr (Or.inr (Or.inl hmem))
        | _ => cases hsignal
    obtain hj | hj | hj | hj := hj
    · rw [hdev, done_eq heff, Bool.or_eq_true, decide_eq_true_eq] at hj
      exact hj.imp_left fun hj => hn.finished j (Or.inl hj)
    · obtain hj | hj := hcases hj
      · exact hcalls hj (decide_eq_true rfl)
      · exact Or.inl (hn.finished j (Or.inr (Or.inl hj)))
    · obtain hj | hj := hcases hj
      · exact hcalls hj (decide_eq_true rfl)
      · exact Or.inl (hn.finished j (Or.inr (Or.inr (Or.inl hj))))
    · left
      obtain hj | hj := hcases hj
      · obtain rfl := calls_asyncWork heff hj
        exact hn.finished j (Or.inr (Or.inr (Or.inl hmem)))
      · exact hn.finished j (Or.inr (Or.inr (Or.inr hj)))
  · rw [hdev]
    obtain hj | hj := hcases hj
    · obtain ⟨rfl, hcur⟩ := calls_irqStatus heff hj
      simp only [jobExec, Option.some.injEq, rknpuIrqHandler, hcur] at heff
      rw [← heff]
      simp
    · exact irqEntry_kept heff (hn.entered j c hj)

theorem Referenced.keep (hn : Referenced s.job) (hs : Known cfg s.job) {b : JobLabel}
    (h : Stepped cfg s.job t.job b)
    (hthreads : t.job.threads = s.job.threads ∨ ∃ op, (taken op = none ∧ after op = none ∧
      (∀ j, op ≠ .domainPut j ∧ op ≠ .enqueue j ∧ op ≠ .asyncWork j)) ∧
        t.job.threads = s.job.threads ++ [[op]])
    (hjobs : ∀ j < s.job.dev.numJobs, t.job.dev.jobs j = s.job.dev.jobs j)
    (hdone : ∀ j, (t.job.dev.jobs j).done = true → (s.job.dev.jobs j).done = true)
    (hgets : OnlyGets s.job.hist t.job.hist) : Referenced t.job := by
  have htodo : ∀ x : JobOp, taken x ≠ none ∨ after x ≠ none ∨
      (∃ j, x = .domainPut j ∨ x = .enqueue j ∨ x = .asyncWork j) →
        t.job.todo.count x = s.job.todo.count x := by
    intro x hx
    unfold JobState.todo
    obtain hthreads | ⟨op, ⟨htaken, hafter, hne⟩, hthreads⟩ := hthreads
    · rw [hthreads]
    · rw [hthreads, pending_spawn, Multiset.count_add, Multiset.coe_singleton,
        Multiset.count_singleton, if_neg, Nat.add_zero]
      rintro rfl
      obtain hx | hx | ⟨j, rfl | rfl | rfl⟩ := hx
      · exact hx htaken
      · exact hx hafter
      · exact (hne j).1 rfl
      · exact (hne j).2.1 rfl
      · exact (hne j).2.2 rfl
  have hmem : ∀ {x : JobOp}, x ∈ t.job.todo → taken x ≠ none ∨ after x ≠ none ∨
      (∃ j, x = .domainPut j ∨ x = .enqueue j ∨ x = .asyncWork j) → x ∈ s.job.todo := by
    intro x hx hwhich
    rw [← Multiset.count_pos, ← htodo x hwhich]
    exact Multiset.count_pos.mpr hx
  refine ⟨fun j => ?_, fun j => ?_, ?_, fun j hj => ?_, fun j hj => ?_, fun j hj => ?_,
    fun j c hj => ?_⟩
  · rw [getsOf, hgets.count (by simp), htodo _ (Or.inr (Or.inr ⟨j, by simp⟩)), hgets.enqueues]
    exact hn.gets j
  · rw [putsOf, hgets.count (by simp), hgets.count (by simp), hgets.count (by simp),
      htodo _ (Or.inr (Or.inr ⟨j, by simp⟩)), htodo _ (Or.inl (by simp [taken])),
      htodo _ (Or.inr (Or.inl (by simp [after])))]
    exact hn.puts j
  · obtain hthreads | ⟨op, ⟨-, -, hne⟩, hthreads⟩ := hthreads
    · rw [hthreads]
      exact hn.paired
    · rw [hthreads]
      exact paired_spawn hn.paired fun j => (hne j).1
  · obtain ⟨hpast, hone, hafter⟩ := hn.aborted j ((hgets.mem_iff (by simp)).mp hj)
    rw [hgets.count (by simp)]
    refine ⟨(hpast.stepped h).1, hone, fun x hx hxj => ?_⟩
    exact hafter x (hmem hx (Or.inr (Or.inl (by simp [hxj])))) hxj
  · rw [hgets.mem_iff (by simp)]
    exact hn.reported j (hmem hj (Or.inr (Or.inl (by simp [after]))))
  · rw [hgets.mem_iff (by simp)]
    refine hn.finished j ?_
    obtain hj | hj | hj | hj := hj
    · exact Or.inl (hdone j hj)
    · exact Or.inr (Or.inl (hmem hj (Or.inl (by simp [taken]))))
    · exact Or.inr (Or.inr (Or.inl (hmem hj (Or.inl (by simp [taken])))))
    · exact Or.inr (Or.inr (Or.inr (hmem hj (Or.inr (Or.inr ⟨j, by simp⟩)))))
  · have hold := hmem hj (Or.inl (by simp [taken]))
    rw [hjobs j (hs.taken.past j (hs.taken.worked _ hold j rfl).1).1]
    exact hn.entered j c hold

theorem LineMoved.referenced {a : LineLabel} (h : LineMoved cfg s t a) (hs : Known cfg s.job)
    (hn : Referenced s.job) : Referenced t.job := by
  cases h with
  | complete hexec ht =>
    rw [ht]
    exact hn
  | irq h hidle hdev hhist hthreads ht =>
    refine hn.keep hs h (Or.inr ⟨_, ⟨rfl, rfl, by simp⟩, hthreads⟩) (fun j _ => by rw [hdev])
      (fun j hj => by rw [hdev] at hj; exact hj) (.of_eq hhist)
  | exec h hnext hstatus heff hop hdev htodo hhist hthreads ht =>
    exact hn.exec hs h hnext hop heff hdev htodo hhist hthreads
  | submit h hmask hdev hhist hthreads ht =>
    refine hn.keep hs h (Or.inr ⟨_, ⟨rfl, rfl, by simp⟩, hthreads⟩) (fun j hj => ?_)
      (fun j hj => ?_) (.of_submit hhist)
    · rw [hdev, Dev.addJob_jobs, if_neg (Nat.ne_of_lt hj)]
    · rw [hdev, Dev.addJob_jobs] at hj
      split_ifs at hj
      · cases hj
      · exact hj
  | spawn h hm hrunning hthreads ht =>
    refine hn.keep hs h (hthreads.imp_right ?_) (fun j _ => by rw [hm.jobs])
      (fun j hj => by rw [hm.jobs] at hj; exact hj) (.of_eq hm.hist)
    rintro ⟨op, hstart, hline, hthreads⟩
    refine ⟨op, ?_, hthreads⟩
    cases op <;> first | exact hstart.elim | exact ⟨rfl, rfl, by simp⟩

theorem referenced_init {now : ℕ} : Referenced ⟨.probed now, [], []⟩ where
  gets _ := rfl
  puts _ := rfl
  paired _ h := (List.not_mem_nil h).elim
  aborted _ h := (List.not_mem_nil h).elim
  reported _ h := (Multiset.notMem_zero _ h).elim
  finished _ h := by
    obtain h | h | h | h := h
    · cases h
    all_goals exact (Multiset.notMem_zero _ h).elim
  entered _ _ h := (Multiset.notMem_zero _ h).elim

end
end RknpuDriver.Job
