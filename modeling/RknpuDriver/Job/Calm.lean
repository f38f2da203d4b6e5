import RknpuDriver.Job.Simulation

/-! # The invariant of undisturbed runs

`Calm` holds in every state of an undisturbed run (`undisturbed_calm`).
-/

namespace RknpuDriver.Job
set_option autoImplicit false
open RknpuDriver.Lib

section
variable {cfg : Config} {s t : JobState} {a : JobLabel}

theorem mem_gang_tasks {x : Task ℕ ℕ} :
    x ∈ (s.gang cfg).tasks ↔ ∃ op ∈ s.todo, x ∈ toTasks cfg op := by
  rw [JobState.gang, toGang, Multiset.mem_bind]

/-! ## What `Calm` says of finished jobs -/

theorem Calm.lastTask_of_done (hs : Calm cfg s) {j : ℕ}
    (hj : (s.dev.jobs j).done = true) : (s.dev.jobs j).lastTask ≠ none := by
  obtain ⟨hdone, horder⟩ := hs.mem_order hj
  obtain ⟨c, hc⟩ := List.exists_mem_of_ne_nil _ (hs.settled j horder).1.cores
  have hstarts : (startsOn j c s.hist : ℤ) = max 1 (batches cfg (s.dev.jobs j) c) :=
    (hs.inv.finished_batches (Nat.lt_of_lt_of_le hdone (Nat.le_add_right _ _)) hc).2
  exact hs.programmed j c (by omega)

/-! ## Jobs that a block leaves alone -/

variable {dev : Dev} {o : Outcome} {op : JobOp} {eff : Effect} {job job' : RknpuJob} {j : ℕ}

theorem Settled.congr (h : Settled cfg job) (hflags : job'.args.flags = job.args.flags)
    (hmask : job'.args.coreMask = job.args.coreMask) (hcores : job'.useCoreNum = job.useCoreNum) :
    Settled cfg job' where
  pc := hflags ▸ h.pc
  cores := hmask ▸ h.cores
  mask := hmask ▸ h.mask
  useCoreNum := by rw [hcores, hmask, h.useCoreNum]

theorem Unsettled.congr (h : Unsettled job) (hflags : job'.args.flags = job.args.flags)
    (hmask : job'.args.coreMask = job.args.coreMask)
    (hsub : job'.submitCount = job.submitCount) : Unsettled job' where
  pc := hflags ▸ h.pc
  auto := hmask ▸ h.auto
  submitCount := hsub ▸ h.submitCount

theorem Settled.exec (h : Settled cfg (dev.jobs j)) (heff : jobExec cfg dev o op = some eff)
    (hop : before op ≠ some j) : Settled cfg (eff.dev.jobs j) := by
  obtain ⟨hmask, hcores⟩ := cores_eq (j := j) heff fun _ _ _ hcon => hop (by rw [hcon]; rfl)
  exact h.congr (flags_eq heff j) hmask hcores

/-- Before a job is queued, only the choice of a core changes what it is prepared for. -/
theorem Prepared.exec {x : JobOp} (h : Prepared cfg (dev.jobs j) x)
    (heff : jobExec cfg dev o op = some eff) (hauto : ∀ i c n, op ≠ .autoRead j i c n)
    (hhelper : helper op ≠ some j) : Prepared cfg (eff.dev.jobs j) x := by
  obtain ⟨hrun, hint, hsub, hmask, hcores, -, -⟩ := counters_eq heff hauto
    (fun hcon => hhelper (by rw [hcon]; rfl)) (fun _ hcon => hhelper (by rw [hcon]; rfl))
    (fun hcon => hhelper (by rw [hcon]; rfl))
  have hflags := flags_eq heff j
  have hfresh : Fresh (dev.jobs j) → Fresh (eff.dev.jobs j) := by
    intro h
    refine ⟨?_, ?_, ?_⟩
    · rw [hrun, hcores, h.runCount]
    · rw [hint, hcores, h.interruptCount]
    · rw [hsub]
      exact h.submitCount
  have hsettled : Settled cfg (dev.jobs j) ∧ Fresh (dev.jobs j) →
      Settled cfg (eff.dev.jobs j) ∧ Fresh (eff.dev.jobs j) :=
    fun h => ⟨h.1.congr hflags hmask hcores, hfresh h.2⟩
  have hunsettled : Unsettled (dev.jobs j) → Unsettled (eff.dev.jobs j) :=
    fun h => h.congr hflags hmask hsub
  cases x with
  | fenceIn | fenceOut | fenceInit | dispatch | schedule => exact h.imp hunsettled hsettled
  | autoRead => exact h.imp_left hunsettled
  | domainGet | enqueue => exact hsettled h
  | _ => trivial

theorem Unsettled.choose (h : Unsettled job) (hcfg : cfg.Sound) {coreIndex : ℕ}
    (hcore : coreIndex < cfg.numIrqs) (hflags : job'.args.flags = job.args.flags)
    (hmask : job'.args.coreMask = rknpuCoreMask coreIndex) (hcores : job'.useCoreNum = 1)
    (hrun : job'.runCount = 1) (hint : job'.interruptCount = 1)
    (hsub : job'.submitCount = job.submitCount) :
    Settled cfg job' ∧ Fresh job' := by
  have hcommit : commitCores job'.args.coreMask = [coreIndex] := by
    rw [hmask]
    exact commitCores_rknpuCoreMask (hcore.trans_le hcfg.numIrqs_le)
  have hne : commitCores job'.args.coreMask ≠ [] := by simp [hcommit]
  refine ⟨⟨hflags ▸ h.pc, hne, hmask ▸ hcfg.single coreIndex hcore, ?_⟩, ⟨?_, ?_, ?_⟩⟩
  · rw [hcores, ← length_commitCores hne, hcommit, List.length_singleton]
  · rw [hrun, hcores]
    rfl
  · rw [hint, hcores]
    rfl
  · rw [hsub]
    exact h.submitCount

/-- What a job is prepared for is what comes next. -/
theorem Prepared.next {x : JobOp} (h : Prepared cfg (dev.jobs j) op) (hcfg : cfg.Sound)
    (heff : jobExec cfg dev o op = some eff) (hauto : ∀ i c n, op ≠ .autoRead j i c n)
    (hop : before op = some j) (hx : x ∈ eff.calls) (hj : before x = some j) :
    Prepared cfg (dev.jobs j) x := by
  cases op with
  | fenceIn i =>
    obtain rfl : i = j := Option.some.inj hop
    cases heff
    unfold submitFenceIn Effect.goto at hx
    split_ifs at hx <;> simp only [List.mem_singleton, List.not_mem_nil] at hx
    all_goals rw [hx]; exact h
  | fenceOut i =>
    obtain rfl : i = j := Option.some.inj hop
    cases heff
    unfold submitFenceOut Effect.goto at hx
    split_ifs at hx <;> rw [List.mem_singleton.mp hx] at hj ⊢
    · exact h
    · cases hj
    · exact h
  | fenceInit i seqno =>
    obtain rfl : i = j := Option.some.inj hop
    cases heff
    rw [List.mem_singleton.mp hx]
    exact h
  | dispatch i =>
    obtain rfl : i = j := Option.some.inj hop
    cases heff
    simp only [submitDispatch, Effect.goto] at hx
    split_ifs at hx
    · simp only [List.mem_cons, List.not_mem_nil, or_false] at hx
      rcases hx with rfl | rfl
      · cases hj
      · exact h
    · rw [List.mem_singleton.mp hx]
      exact h
  | schedule i =>
    obtain rfl : i = j := Option.some.inj hop
    cases heff
    unfold rknpuJobSchedule Effect.goto at hx
    split_ifs at hx with hmask <;> rw [List.mem_singleton.mp hx]
    · refine ⟨h.resolve_right fun hcon => hcon.1.cores ?_, hcfg.numIrqs_pos⟩
      rw [hmask]
      rfl
    · exact h.resolve_left fun hcon => hmask hcon.auto
  | autoRead i k coreIndex taskNum =>
    obtain rfl : i = j := Option.some.inj hop
    exact (hauto k coreIndex taskNum rfl).elim
  | domainGet i =>
    obtain rfl : i = j := Option.some.inj hop
    by_cases ho : o.ret = 0
    · cases heff
      rw [scheduleDomainGet, if_neg (not_not.mpr ho)] at hx
      rw [List.mem_singleton.mp hx]
      exact h
    · exact (calls_domainGet heff ho hx i hj).elim
  | enqueue i =>
    cases heff
    rw [List.mem_singleton.mp hx] at hj
    cases hj
  | _ => cases hop

theorem helper_of_before (h : before op = some j) : helper op = none := by
  cases op <;> first | rfl | cases h

theorem Prepared.calls {x : JobOp} (h : Prepared cfg (dev.jobs j) op) (hcfg : cfg.Sound)
    (heff : jobExec cfg dev o op = some eff) (hx : x ∈ eff.calls) (hj : before x = some j) :
    Prepared cfg (eff.dev.jobs j) x := by
  have hop := calls_before heff hx hj
  by_cases hauto : ∃ k coreIndex taskNum, op = .autoRead j k coreIndex taskNum
  · obtain ⟨k, coreIndex, taskNum, rfl⟩ := hauto
    obtain ⟨hjob, hcore⟩ := h
    cases heff
    unfold rknpuScheduleCoreIndex Effect.goto at hx ⊢
    by_cases hk : k < cfg.numIrqs
    · rw [if_pos hk] at hx ⊢
      split_ifs at hx ⊢ <;> rw [List.mem_singleton.mp hx]
      · exact ⟨hjob, hk⟩
      · exact ⟨hjob, hcore⟩
    · rw [if_neg hk] at hx ⊢
      rw [List.mem_singleton.mp hx, Dev.modifyJob_jobs, if_pos rfl]
      exact hjob.choose hcfg hcore rfl rfl rfl rfl rfl rfl
  · push Not at hauto
    refine (h.next hcfg heff hauto hop hx hj).exec heff hauto ?_
    simp [helper_of_before hop]

/-! ## Reasons -/

theorem Quiet.exec {x : JobOp} (h : Quiet dev x) (heff : jobExec cfg dev o op = some eff)
    (hret : ∀ j, after x = some j → (eff.dev.jobs j).ret = (dev.jobs j).ret ∨
      (dev.jobs j).done = true) : Quiet eff.dev x := by
  have hdone : ∀ j, (dev.jobs j).done = true → (eff.dev.jobs j).done = true := by
    intro j hj
    rw [done_eq heff, hj]
    rfl
  cases x with
  | waitCheck j | waitLast j | waitEnd j | waitRet j | blockRet j | setRet j | fenceSignal j
  | asyncWork j => exact hdone j h
  | scanMask j c =>
    rw [Quiet, flags_eq heff]
    exact h
  | abortClear j =>
    rcases hret j rfl with hsame | hj
    · exact h.imp (fun hne => hsame ▸ hne) (hdone j)
    · exact Or.inr (hdone j hj)
  | timeoutClear | timeoutWork | timeoutNext | waitRemove | resetAssert | resetDeassert
  | resetEnd => exact h.elim
  | _ => trivial

theorem Quiet.congr {dev' : Dev} {x : JobOp} (h : Quiet dev x)
    (hjobs : ∀ j, after x = some j ∨ helper x = some j → dev'.jobs j = dev.jobs j) :
    Quiet dev' x := by
  cases x with
  | waitCheck j | waitLast j | waitEnd j | waitRet j | blockRet j | scanMask j | abortClear j =>
    rw [Quiet, hjobs j (Or.inl rfl)]
    exact h
  | setRet j | fenceSignal j | asyncWork j =>
    rw [Quiet, hjobs j (Or.inr rfl)]
    exact h
  | timeoutClear | timeoutWork | timeoutNext | waitRemove | resetAssert | resetDeassert
  | resetEnd => exact h.elim
  | _ => trivial

theorem Quiet.calls {x : JobOp} (h : Quiet dev op) (heff : jobExec cfg dev o op = some eff)
    (hx : x ∈ eff.calls) (hok : smooth cfg dev o op = true) (hawake : dev.softReseting = false)
    (hpc : ∀ j, op = .domainGet j ∨ op = .enqueue j → (dev.jobs j).args.flags &&& rknpuJobPc ≠ 0)
    (hlast : ∀ j, (dev.jobs j).done = true → (dev.jobs j).lastTask ≠ none) :
    Quiet eff.dev x := by
  have hdone' : ∀ j, (dev.jobs j).done = true → (eff.dev.jobs j).done = true := by
    intro j hj
    rw [done_eq heff, hj]
    rfl
  cases op with
  | enqueue j =>
    cases heff
    rw [List.mem_singleton.mp hx]
    exact hpc j (Or.inr rfl)
  | waitEvent j waitCount =>
    have hin : o.timedOut = false := by simpa [smooth] using hok
    have hj : (dev.jobs j).done = true := by
      by_contra hj
      simp [jobExec, rknpuJobWait, waitEventTimeout, hj, hawake, hin] at heff
    have hj' := hdone' j hj
    simp only [jobExec, rknpuJobWait, Effect.goto] at heff
    split at heff
    · cases heff
    · split_ifs at heff
      all_goals
        cases heff
        rw [List.mem_singleton.mp hx]
        exact hj'
  | waitCheck j waitCount =>
    have hj := hdone' j h
    cases heff
    unfold waitContinue Effect.goto at hx
    split_ifs at hx <;> rw [List.mem_singleton.mp hx]
    · trivial
    · exact hj
  | waitLast j ret =>
    have hj := hdone' j h
    cases heff
    unfold waitLastTask Effect.goto at hx
    split at hx
    · rename_i hnone
      exact (hlast j h hnone).elim
    · rw [List.mem_singleton.mp hx]
      exact hj
  | waitEnd j ret =>
    have hj := hdone' j h
    cases heff
    simp only [waitResult, Effect.goto, apply_ite Effect.calls] at hx
    split_ifs at hx
    all_goals
      rw [List.mem_singleton.mp hx]
      exact hj
  | waitRet j ret =>
    have hj := hdone' j h
    cases heff
    rw [List.mem_singleton.mp hx]
    exact hj
  | setDone j =>
    cases heff
    rw [List.mem_singleton.mp hx]
    simp [Quiet, jobSetDone]
  | setRet j =>
    cases heff
    rw [List.mem_singleton.mp hx]
    exact hdone' j h
  | fenceSignal j =>
    have hcalls : eff.calls = [.asyncWork j] := by
      cases heff
      unfold jobFenceSignal
      split <;> rfl
    rw [hcalls] at hx
    rw [List.mem_singleton.mp hx]
    exact hdone' j h
  | nonblockRet j =>
    cases heff
    simp only [submitNonblockRet, rknpuJobAbort] at hx
    split_ifs at hx with hret
    · simp only [List.mem_cons, List.not_mem_nil, or_false] at hx
      rcases hx with rfl | rfl
      · trivial
      · exact Or.inl hret
    · exact (List.not_mem_nil hx).elim
  | blockRet j =>
    have hj := hdone' j h
    cases heff
    simp only [submitBlockRet, rknpuJobAbort] at hx
    split_ifs at hx with hret
    · simp only [List.mem_cons, List.not_mem_nil, or_false] at hx
      rcases hx with rfl | rfl
      · trivial
      · exact Or.inr hj
    · rw [List.mem_singleton.mp hx]
      trivial
  | _ => grind -ring -linarith -order [Quiet, smooth]

/-! ## Running a block -/

theorem Calm.settled_of_mem (hs : Calm cfg s) (hmem : op ∈ s.todo) {x : Task ℕ ℕ}
    (hx : x ∈ toTasks cfg op) (hj : Gang.queuedJob x = some j) : Settled cfg (s.dev.jobs j) :=
  (hs.settled j (hs.inv.lined.named x (mem_gang_tasks.mpr ⟨op, hmem, hx⟩) j hj)).1

theorem Calm.ret_kept (hs : Calm cfg s) (hmem : op ∈ s.todo)
    (heff : jobExec cfg s.dev o op = some eff) (hok : smooth cfg s.dev o op = true)
    (hget : op ≠ .domainGet j) (hwait : ∀ ret, op ≠ .waitRet j ret) (hset : op ≠ .setRet j) :
    (eff.dev.jobs j).ret = (s.dev.jobs j).ret := by
  by_cases hcommit : ∃ c, op = .subcoreCommit j c
  · obtain ⟨c, rfl⟩ := hcommit
    have hjob := hs.settled_of_mem hmem (x := .start j c) (Multiset.mem_singleton_self _) rfl
    have herror : commitError cfg s.dev o (s.dev.jobs j) c = none := by simpa [smooth] using hok
    cases heff
    simp [rknpuJobSubcoreCommit, hjob.pc, herror]
  · push Not at hcommit
    exact ret_eq heff hget hcommit hwait hset

/-- The result of a job changes when it cannot get its domain, and once it is done. -/
theorem Calm.ret_undone (hs : Calm cfg s) (hmem : op ∈ s.todo)
    (heff : jobExec cfg s.dev o op = some eff) (hok : smooth cfg s.dev o op = true)
    (hget : op ≠ .domainGet j) (hdone : (s.dev.jobs j).done = false) :
    (eff.dev.jobs j).ret = (s.dev.jobs j).ret := by
  have hnot : Quiet s.dev op := hs.quiet op hmem
  refine hs.ret_kept hmem heff hok hget ?_ ?_
  · rintro ret rfl
    exact Bool.false_ne_true (hdone.symm.trans hnot)
  · rintro rfl
    exact Bool.false_ne_true (hdone.symm.trans hnot)

theorem Calm.past_of_done (hs : Calm cfg s) (hj : (s.dev.jobs j).done = true) : Past s j :=
  (hs.settled j (hs.mem_order hj).2).2

/-- Only a block that could not switch the domain makes a job fail before it is done, and then it
is never queued. -/
theorem Calm.failed_exec (hs : Calm cfg s) {others : Multiset JobOp}
    (hop : s.todo = op ::ₘ others) (heff : jobExec cfg s.dev o op = some eff)
    (hok : smooth cfg s.dev o op = true) (hdev : t.dev = eff.dev)
    (htodo : t.todo = (eff.calls : Multiset JobOp) + others)
    (hhist : t.hist = s.hist ++ eff.events) (h : Stepped cfg s t a)
    (hj : (t.dev.jobs j).ret ≠ 0) :
    (j ∉ enqueues t.hist ∨ (t.dev.jobs j).done = true) ∧ Past t j := by
  have hmem : op ∈ s.todo := by simp [hop]
  rw [hdev] at hj
  by_cases hdone : (s.dev.jobs j).done = true
  · refine ⟨Or.inr ?_, ((hs.past_of_done hdone).stepped h).1⟩
    rw [hdev, done_eq heff, hdone]
    rfl
  · by_cases hget : op = .domainGet j
    · subst hget
      have horder : j ∉ enqueues s.hist := by
        refine hs.inv.lined.fresh j (mem_gang_tasks.mpr ⟨_, hmem, ?_⟩)
        exact Multiset.mem_singleton_self _
      by_cases ho : o.ret = 0
      · cases heff
        rw [scheduleDomainGet, if_neg (not_not.mpr ho)] at hj
        exact ((hs.failed j hj).2.2 _ hmem rfl).elim
      · have hcalls := fun x hx => calls_domainGet heff ho (x := x) hx j
        cases heff
        rw [scheduleDomainGet, if_pos ho] at hdev hhist
        refine ⟨Or.inl ?_, ?_, fun x hx => ?_⟩
        · rw [hhist, Effect.goto, List.append_nil]
          exact horder
        · rw [hdev]
          exact hs.placed.submitted _ hmem j (Or.inl rfl)
        · rw [htodo, Multiset.mem_add] at hx
          rcases hx with hx | hx
          · exact hcalls x (Multiset.mem_coe.mp hx)
          · exact (hs.placed.exclusive hop (Or.inl rfl) x hx).1
    · rw [hs.ret_undone hmem heff hok hget (Bool.not_eq_true _ ▸ hdone)] at hj
      obtain ⟨hthrough, hpast⟩ := hs.failed j hj
      have horder := hthrough.resolve_right hdone
      refine ⟨Or.inl ?_, (hpast.stepped h).1⟩
      rw [hhist, enqueues_append, List.mem_append, not_or]
      refine ⟨horder, fun hcon => ?_⟩
      obtain rfl := (events_enqueue heff).mp hcon
      exact hpast.2 _ hmem rfl

theorem Calm.exec (hs : Calm cfg s) (hcfg : cfg.Sound) {others : Multiset JobOp}
    (hop : s.todo = op ::ₘ others) (heff : jobExec cfg s.dev o op = some eff)
    (hok : smooth cfg s.dev o op = true) (hdev : t.dev = eff.dev)
    (htodo : t.todo = (eff.calls : Multiset JobOp) + others)
    (hhist : t.hist = s.hist ++ eff.events) (h : Stepped cfg s t a) : Calm cfg t := by
  have hmem : op ∈ s.todo := by simp [hop]
  have hothers : ∀ x ∈ others, x ∈ s.todo := fun x hx => by simp [hop, hx]
  have hplaced := hs.placed.step h
  refine ⟨hplaced, ?_, ?_, ?_, ?_, ?_,
    fun j hj => hs.failed_exec hop heff hok hdev htodo hhist h hj, ?_, ?_, ?_⟩
  · have hgang : t.gang cfg = toGang cfg eff.dev
        (callTasks cfg eff.calls + others.bind (toTasks cfg)) (s.hist ++ eff.events) := by
      rw [JobState.gang, hdev, htodo, hhist, Multiset.add_bind]
      rfl
    rw [hgang]
    exact hs.inv.step (exec_sim hcfg hs hop heff hok)
  · rw [hdev]
    refine awake_eq heff ?_ hs.awake
    rintro rfl
    exact (Bool.false_ne_true hok).elim
  · intro x hx j hj
    rw [hdev]
    rw [htodo, Multiset.mem_add] at hx
    rcases hx with hx | hx
    · exact (hs.prepared op hmem j (calls_before heff (Multiset.mem_coe.mp hx) hj)).calls hcfg heff
        (Multiset.mem_coe.mp hx) hj
    · have hne : before op ≠ some j := fun hcon =>
        (hs.placed.exclusive hop (Or.inl hcon) x hx).1 hj
      refine (hs.prepared x (hothers x hx) j hj).exec heff ?_ ?_
      · rintro i c n rfl
        exact hne rfl
      · intro hcon
        exact (hs.placed.helped op hmem j hcon).2 x (hothers x hx) hj
  · intro j hj
    rw [hdev]
    rw [hhist, enqueues_append, List.mem_append] at hj
    rcases hj with hj | hj
    · obtain ⟨hjob, hpast⟩ := hs.settled j hj
      exact ⟨hjob.exec heff (hpast.2 op hmem), (hpast.stepped h).1⟩
    · obtain rfl := (events_enqueue heff).mp hj
      have hjob := (hs.prepared _ hmem j rfl).1
      refine ⟨by cases heff; exact hjob, ?_⟩
      obtain ⟨c, hc⟩ := List.exists_mem_of_ne_nil _ hjob.cores
      refine (hplaced.held c j (Or.inl ?_)).1
      rw [hdev, todoList_eq heff, todoListAfter, if_pos ((hjob.mem_cores hcfg).mp hc)]
      exact List.mem_append_right _ (List.mem_singleton_self j)
  · intro x hx
    rw [hdev]
    rw [htodo, Multiset.mem_add] at hx
    rcases hx with hx | hx
    · refine (hs.quiet op hmem).calls heff (Multiset.mem_coe.mp hx) hok hs.awake ?_
        fun j hj => hs.lastTask_of_done hj
      rintro j (rfl | rfl)
      · exact (hs.prepared _ hmem j rfl).1.pc
      · exact (hs.prepared _ hmem j rfl).1.pc
    · refine (hs.quiet x (hothers x hx)).exec heff fun j hj => ?_
      by_cases hdone : (s.dev.jobs j).done = true
      · exact Or.inr hdone
      · refine Or.inl (hs.ret_undone hmem heff hok ?_ (Bool.not_eq_true _ ▸ hdone))
        rintro rfl
        exact (hs.placed.exclusive hop (Or.inl rfl) x hx).2 hj
  · intro j
    rw [hdev, done_eq heff, hhist, List.mem_append, events_done heff, ← hs.done j]
    simp
  · intro j c hj
    rw [hdev]
    rw [hhist, startsOn_append] at hj
    rcases Nat.eq_zero_or_pos (startsOn j c s.hist) with hzero | hpos
    · rw [hzero, Nat.zero_add] at hj
      exact events_start heff hj
    · exact lastTask_kept heff (hs.programmed j c hpos)
  · intro j c
    have hcount := hs.counted j c
    rw [hdev, submitCount_eq heff]
    split_ifs <;> omega

/-! ## The other steps -/

theorem Prepared.alloc {args : Submit} {useDrmGem : Bool} (h : regular args = true)
    (hmask : args.coreMask ≤ cfg.coreMask) :
    Prepared cfg (rknpuJobAlloc dev args useDrmGem) (.fenceIn j) := by
  simp only [regular, decide_eq_true_eq] at h
  obtain ⟨hpc, hauto | hcores⟩ := h
  · exact Or.inl ⟨hpc, hauto, fun _ => rfl⟩
  · exact Or.inr ⟨⟨hpc, hcores, hmask, rfl⟩, rfl, rfl, fun _ => rfl⟩

theorem before_of_prepare {x : JobOp} (h : .prepare j ∈ toTasks cfg x) : before x = some j := by
  cases x <;> simp_all [toTasks, before]

theorem submit_gang {args : Submit} {useDrmGem : Bool}
    (hdev : t.dev = s.dev.addJob (rknpuJobAlloc s.dev args useDrmGem))
    (htodo : t.todo = .fenceIn s.dev.numJobs ::ₘ s.todo)
    (hhist : t.hist = s.hist ++
      if useDrmGem ∧ args.taskObjAddr ≠ 0 then [.gemGet args.taskObjAddr] else []) :
    t.gang cfg = { (s.gang cfg).setData s.dev.numJobs
      (toData cfg (rknpuJobAlloc s.dev args useDrmGem)) with
      tasks := .prepare s.dev.numJobs ::ₘ (s.gang cfg).tasks } := by
  have hsilent : ∀ e ∈ (if useDrmGem ∧ args.taskObjAddr ≠ 0 then [Event.gemGet args.taskObjAddr]
      else []), silent e = true := by
    intro e he
    split_ifs at he
    · rw [List.mem_singleton.mp he]
      rfl
    · exact (List.not_mem_nil he).elim
  rw [JobState.gang, hhist]
  refine (toGang_congr (fun _ => rfl) (fun _ => rfl) (fun _ => rfl) rfl rfl hsilent).trans ?_
  apply Gang.ext
  case data =>
    funext j
    change toData cfg (t.dev.jobs j) = _
    rw [hdev, Dev.addJob_jobs, Gang.setData_data]
    split_ifs <;> rfl
  case tasks =>
    change t.todo.bind (toTasks cfg) = _
    rw [htodo, Multiset.cons_bind]
    exact Multiset.singleton_add _ _
  case running =>
    change t.dev.running = s.dev.running
    rw [hdev]
    rfl
  all_goals simp [toGang, hdev, JobState.gang, Gang.setData]

theorem Calm.submit (hs : Calm cfg s) {args : Submit} {useDrmGem : Bool}
    (hmask : args.coreMask ≤ cfg.coreMask) (hargs : regular args = true)
    (hdev : t.dev = s.dev.addJob (rknpuJobAlloc s.dev args useDrmGem))
    (htodo : t.todo = .fenceIn s.dev.numJobs ::ₘ s.todo)
    (hhist : t.hist = s.hist ++
      if useDrmGem ∧ args.taskObjAddr ≠ 0 then [.gemGet args.taskObjAddr] else [])
    (h : Stepped cfg s t a) : Calm cfg t := by
  have hnew : t.dev.jobs s.dev.numJobs = rknpuJobAlloc s.dev args useDrmGem := by
    rw [hdev, Dev.addJob_jobs, if_pos rfl]
  have hold : ∀ {j}, j ≠ s.dev.numJobs → t.dev.jobs j = s.dev.jobs j := by
    intro j hj
    rw [hdev, Dev.addJob_jobs, if_neg hj]
  have hunknown : s.dev.numJobs ∉ enqueues s.hist :=
    fun hcon => Nat.lt_irrefl _ (hs.settled _ hcon).2.1
  have hgang : t.gang cfg = _ := submit_gang hdev htodo hhist
  have horder : enqueues t.hist = enqueues s.hist := congrArg Gang.order hgang
  have hdones : ∀ j, t.hist.count (.done j) = s.hist.count (.done j) :=
    congrFun (congrArg Gang.dones hgang)
  have hstarts : ∀ j c, startsOn j c t.hist = startsOn j c s.hist :=
    fun j c => congrFun (congrFun (congrArg Gang.starts hgang) j) c
  refine ⟨hs.placed.step h, ?_, ?_, ?_, ?_, ?_, ?_, ?_, ?_, ?_⟩
  · rw [hgang]
    refine hs.inv.step (.submit _ _ hunknown fun hcon => ?_)
    obtain ⟨x, hx, hprepare⟩ := mem_gang_tasks.mp hcon
    exact Nat.lt_irrefl _ (hs.placed.submitted x hx _ (Or.inl (before_of_prepare hprepare)))
  · rw [hdev]
    exact hs.awake
  · intro x hx j hj
    rw [htodo, Multiset.mem_cons] at hx
    rcases hx with rfl | hx
    · obtain rfl : s.dev.numJobs = j := Option.some.inj hj
      rw [hnew]
      exact .alloc hargs hmask
    · rw [hold (Nat.ne_of_lt (hs.placed.submitted x hx j (Or.inl hj)))]
      exact hs.prepared x hx j hj
  · intro j hj
    rw [horder] at hj
    obtain ⟨hjob, hpast⟩ := hs.settled j hj
    rw [hold (Nat.ne_of_lt hpast.1)]
    exact ⟨hjob, (hpast.stepped h).1⟩
  · intro x hx
    rw [htodo, Multiset.mem_cons] at hx
    rcases hx with rfl | hx
    · trivial
    · refine (hs.quiet x hx).congr fun j hj => hold (Nat.ne_of_lt ?_)
      rcases hj with hj | hj
      · exact hs.placed.submitted x hx j (Or.inr hj)
      · exact (hs.placed.helped x hx j hj).1
  · intro j hj
    by_cases hjn : j = s.dev.numJobs
    · rw [hjn, hnew] at hj
      exact (hj rfl).elim
    · rw [hold hjn] at hj ⊢
      rw [horder]
      exact (hs.failed j hj).imp_right fun hpast => (hpast.stepped h).1
  · intro j
    rw [← List.count_pos_iff, hdones, List.count_pos_iff]
    by_cases hjn : j = s.dev.numJobs
    · rw [hjn, hnew, ← hs.done]
      refine ⟨fun hcon => (Bool.false_ne_true hcon).elim, fun hcon => ?_⟩
      exact (hunknown (hs.mem_order hcon).2).elim
    · rw [hold hjn]
      exact hs.done j
  · intro j c hj
    rw [hstarts] at hj
    have hne : j ≠ s.dev.numJobs := by
      rintro rfl
      have hzero : startsOn s.dev.numJobs c s.hist = 0 := hs.inv.batched.zero _ hunknown c
      omega
    rw [hold hne]
    exact hs.programmed j c hj
  · intro j c
    by_cases hjn : j = s.dev.numJobs
    · rw [hjn, hnew]
      exact le_refl _
    · rw [hold hjn]
      exact hs.counted j c

/-- Steps that start at most a thread which works for no job. -/
theorem Calm.spawn (hs : Calm cfg s) (h : Stepped cfg s t a) {n : Multiset JobOp}
    (htodo : t.todo = n + s.todo) (hbefore : ∀ x ∈ n, before x = none)
    (hquiet : ∀ x ∈ n, Quiet t.dev x) (hjobs : t.dev.jobs = s.dev.jobs)
    (hawake : t.dev.softReseting = s.dev.softReseting) (hhist : t.hist = s.hist)
    (hgang : Gang.Step (s.gang cfg) (t.gang cfg)) : Calm cfg t where
  placed := hs.placed.step h
  inv := hs.inv.step hgang
  awake := hawake.trans hs.awake
  prepared x hx j hj := by
    rw [htodo, Multiset.mem_add] at hx
    rw [hjobs]
    rcases hx with hx | hx
    · rw [hbefore x hx] at hj
      cases hj
    · exact hs.prepared x hx j hj
  settled j hj := by
    rw [hhist] at hj
    rw [hjobs]
    exact (hs.settled j hj).imp_right fun hpast => (hpast.stepped h).1
  quiet x hx := by
    rw [htodo, Multiset.mem_add] at hx
    rcases hx with hx | hx
    · exact hquiet x hx
    · exact (hs.quiet x hx).congr fun j _ => congrFun hjobs j
  failed j hj := by
    rw [hjobs] at hj ⊢
    rw [hhist]
    exact (hs.failed j hj).imp_right fun hpast => (hpast.stepped h).1
  done j := by
    rw [hjobs, hhist]
    exact hs.done j
  programmed j c hj := by
    rw [hhist] at hj
    rw [hjobs]
    exact hs.programmed j c hj
  counted := hjobs ▸ hs.counted

theorem raise_sim {c : ℕ} (hrunning : s.dev.running c ≠ none)
    (hdev : t.dev = s.dev.setRunning c none) (htodo : t.todo = .irqEntry c ::ₘ s.todo)
    (hhist : t.hist = s.hist) : Gang.Step (s.gang cfg) (t.gang cfg) := by
  obtain ⟨j, hj⟩ := Option.ne_none_iff_exists'.mp hrunning
  convert Gang.Step.raise (s := s.gang cfg) c j hj using 1
  apply Gang.ext
  case tasks =>
    change t.todo.bind (toTasks cfg) = _
    rw [htodo, Multiset.cons_bind]
    exact Multiset.singleton_add _ _
  case running =>
    funext i
    simp [JobState.gang, toGang, hdev, Function.update_apply]
  all_goals
    simp [JobState.gang, toGang, hdev, hhist]

theorem gang_eq {n : Multiset JobOp} (htodo : t.todo = n + s.todo)
    (hzero : ∀ x ∈ n, toTasks cfg x = 0) (hjobs : t.dev.jobs = s.dev.jobs)
    (hcores : t.dev.subcoreDatas = s.dev.subcoreDatas) (hrunning : t.dev.running = s.dev.running)
    (hhist : t.hist = s.hist) : t.gang cfg = s.gang cfg := by
  have hn : n.bind (toTasks cfg) = 0 := by
    refine Multiset.eq_zero_of_forall_notMem fun y hy => ?_
    obtain ⟨x, hx, hy⟩ := Multiset.mem_bind.mp hy
    rw [hzero x hx] at hy
    exact Multiset.notMem_zero y hy
  unfold JobState.gang toGang
  rw [htodo, Multiset.add_bind, hn, zero_add, hjobs, hcores, hrunning, hhist]

theorem Calm.step (hs : Calm cfg s) (hcfg : cfg.Sound) (h : Stepped cfg s t a)
    (hok : undisturbed cfg s a = true) : Calm cfg t := by
  have hspawn : ∀ {x : JobOp}, t.todo = x ::ₘ s.todo → before x = none → toTasks cfg x = 0 →
      (∀ dev, Quiet dev x) → t.dev.jobs = s.dev.jobs → t.dev.softReseting = s.dev.softReseting →
      t.dev.subcoreDatas = s.dev.subcoreDatas → t.dev.running = s.dev.running →
      t.hist = s.hist → Calm cfg t := by
    intro x htodo hbefore hzero hquiet hjobs hawake hcores hrunning hhist
    have hn : t.todo = {x} + s.todo := htodo.trans (Multiset.singleton_add _ _).symm
    have hgang : t.gang cfg = s.gang cfg := gang_eq hn
      (fun y hy => by rw [Multiset.mem_singleton.mp hy, hzero]) hjobs hcores hrunning hhist
    refine hs.spawn h hn (fun y hy => ?_) (fun y hy => ?_) hjobs hawake hhist (hgang ▸ .stutter)
    · rw [Multiset.mem_singleton.mp hy]
      exact hbefore
    · rw [Multiset.mem_singleton.mp hy]
      exact hquiet _
  cases h with
  | refused ht =>
    rw [ht]
    exact hs
  | submit hmask hdev htodo hhist =>
    exact hs.submit hmask hok hdev htodo hhist (.submit hmask hdev htodo hhist)
  | exec hnext heff hop hdev htodo hhist =>
    rw [undisturbed, onBlock_exec hnext] at hok
    exact hs.exec hcfg hop heff hok hdev htodo hhist (.exec hnext heff hop hdev htodo hhist)
  | irq hc hrunning hdev htodo hhist =>
    rw [undisturbed] at hok
    subst hok
    rw [if_pos rfl] at hdev
    refine hs.spawn (.irq hc hrunning (by simpa using hdev) htodo hhist)
      (htodo.trans (Multiset.singleton_add _ _).symm) ?_ ?_ (by rw [hdev]; rfl) (by rw [hdev]; rfl)
      hhist (raise_sim (hrunning rfl) hdev htodo hhist)
    all_goals
      intro x hx
      rw [Multiset.mem_singleton.mp hx]
      first | rfl | trivial
  | actReset => exact (Bool.false_ne_true hok).elim
  | runWork hj hdev htodo hhist =>
    exact hspawn htodo rfl rfl (fun _ => trivial) (by rw [hdev]) (by rw [hdev]) (by rw [hdev])
      (by rw [hdev]) hhist
  | timer hdev htodo hhist =>
    exact hspawn htodo rfl rfl (fun _ => trivial) (by rw [hdev]) (by rw [hdev]) (by rw [hdev])
      (by rw [hdev]) hhist
  | tick hdev htodo hhist =>
    have hgang : t.gang cfg = s.gang cfg := gang_eq (htodo.trans (zero_add _).symm)
      (fun _ hx => (Multiset.notMem_zero _ hx).elim) (by rw [hdev]) (by rw [hdev]) (by rw [hdev])
      hhist
    exact hs.spawn (.tick hdev htodo hhist) (htodo.trans (zero_add _).symm)
      (fun _ hx => (Multiset.notMem_zero _ hx).elim)
      (fun _ hx => (Multiset.notMem_zero _ hx).elim) (by rw [hdev]) (by rw [hdev]) hhist
      (hgang ▸ .stutter)

theorem calm_init {now : ℕ} : Calm cfg ⟨.probed now, [], []⟩ where
  placed := placed_init
  inv := Gang.inv_init rfl rfl (fun _ => rfl) (fun _ => rfl) (fun _ => rfl) (fun _ => rfl)
    (fun _ => rfl) (fun _ => rfl) (fun _ _ => rfl)
  awake := rfl
  prepared op hop := (Multiset.notMem_zero op hop).elim
  settled _ hj := (List.not_mem_nil hj).elim
  quiet op hop := (Multiset.notMem_zero op hop).elim
  failed _ hj := (hj rfl).elim
  done _ := ⟨fun h => (Bool.false_ne_true h).elim, fun h => (List.not_mem_nil h).elim⟩
  programmed _ _ h := (Nat.lt_irrefl 0 h).elim
  counted _ _ := le_refl 0

/-- **Every state of every undisturbed run.** -/
theorem undisturbed_calm (hcfg : cfg.Sound) (hs : (undisturbedSystem cfg).Reachable s) :
    Calm cfg s := by
  refine hs.invariant (Calm cfg) ?_ ?_
  · rintro s ⟨now, rfl⟩
    exact calm_init
  · intro s a t hs h
    obtain ⟨hok, h⟩ := System.guarded_step.mp h
    exact hs.step hcfg (stepped h) hok

end
end RknpuDriver.Job
