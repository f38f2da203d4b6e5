import RknpuDriver.Job.Taken

/-! # Interrupt lines

`jobSystem` lets a handler start at any time. `lineSystem` adds what the hardware and the kernel
guarantee of the lines: the handlers of one line run one after the other, a status register is not
zero only when a batch of its core has completed since it was last cleared, and a batch completes
at a time of its own, not with the start of a handler. The line of a core may be shared: its handler
may start at any time, and then finds the status `0`.

* `lineOf`: the blocks of a handler that belong to its core.
* `LineMoved`: what a step can do.
* `Handled`: the handler of a line is in one thread.
* `Cleared`: the interrupt count is the number of cores that were not given up.
-/

namespace RknpuDriver.Job
set_option autoImplicit false
open RknpuDriver.Lib

/-- `handler c` is the thread of the last handler of line `c`; `executing c` tells whether the
batch last started on core `c` still executes; `raised c` is the job of the batch that completed on
core `c` while its status has not been cleared; `cleared j c` tells whether `rknpu_job_done` gave up
core `c` for job `j`. -/
structure LineState where
  job : JobState
  handler : ℕ → Option ℕ
  executing : ℕ → Bool
  raised : ℕ → Option ℕ
  cleared : ℕ → ℕ → Bool

/-- `complete c` is the end of the batch on core `c`. Handlers start with `irq c false`. -/
inductive LineLabel where
  | job (a : JobLabel)
  | complete (c : ℕ)

/-- No handler of line `c` is under way. -/
def LineState.idle (s : LineState) (c : ℕ) : Bool :=
  match s.handler c with
  | none => true
  | some tid => s.job.threads[tid]? = some []

/-- A block writes a batch to core `c`. -/
def startsBatch (cfg : Config) (dev : Dev) (o : Outcome) (op : JobOp) (c : ℕ) : Bool :=
  match op with
  | .subcoreCommit j i => i = c ∧ (dev.jobs j).args.flags &&& rknpuJobPc ≠ 0 ∧
      commitError cfg dev o (dev.jobs j) i = none
  | _ => false

/-- A block clears the status register of core `c`. -/
def clearsStatus (dev : Dev) (o : Outcome) (op : JobOp) (c : ℕ) : Bool :=
  match op with
  | .irqEntry i => i = c ∧ (dev.subcoreDatas i).job = none
  | .irqStatus _ i => i = c
  | .resetDeassert => o.ret = 0
  | _ => false

/-- The hardware allows the step. -/
def LineState.allows (s : LineState) : JobLabel → Bool
  | .irq c completed => !completed && s.idle c
  | .exec tid o =>
    match nextBlock s.job.threads tid with
    | some (.irqStatus _ c, _) => s.raised c = none → o.status = 0
    | _ => true
  | _ => true

/-- The lines after a block. -/
def LineState.ran (cfg : Config) (s : LineState) (o : Outcome) (op : JobOp) (t : JobState) :
    LineState where
  job := t
  handler := s.handler
  executing c := startsBatch cfg s.job.dev o op c ||
    (s.executing c && !(op = .resetDeassert ∧ o.ret = 0))
  raised c := if clearsStatus s.job.dev o op c then none else s.raised c
  cleared j c := s.cleared j c || op = .doneClear j c

def LineState.after (cfg : Config) (s : LineState) (t : JobState) : JobLabel → LineState
  | .irq c _ =>
    { s with
      job := t
      handler := fun i => if i = c then some s.job.threads.length else s.handler i }
  | .exec tid o =>
    match nextBlock s.job.threads tid with
    | some (op, _) => s.ran cfg o op t
    | none => { s with job := t }
  | _ => { s with job := t }

def lineStep (cfg : Config) (s : LineState) : LineLabel → Option LineState
  | .job a => if s.allows a then (jobStep cfg s.job a).map fun t => s.after cfg t a else none
  | .complete c =>
    if s.executing c then some { s with
      executing := fun i => if i = c then false else s.executing i
      raised := fun i => if i = c then s.job.dev.running c else s.raised i }
    else none

def lineSystem (cfg : Config) : System LineState LineLabel where
  init s := ∃ now, s = ⟨⟨.probed now, [], []⟩, fun _ => none, fun _ => false, fun _ => none,
    fun _ _ => false⟩
  step := lineStep cfg

/-! ## Steps -/

/-- The core whose handler runs a block, up to the end of the part that belongs to the core. -/
def lineOf : JobOp → Option ℕ
  | .irqEntry c | .irqStatus _ c | .doneCount _ c | .doneClear _ c => some c
  | _ => none

/-- What a step can do. -/
inductive LineMoved (cfg : Config) (s t : LineState) : LineLabel → Prop where
  | complete {c : ℕ} (hexec : s.executing c = true) (ht : t = { s with
      executing := fun i => if i = c then false else s.executing i
      raised := fun i => if i = c then s.job.dev.running c else s.raised i }) :
      LineMoved cfg s t (.complete c)
  | irq {c : ℕ} (h : Stepped cfg s.job t.job (.irq c false)) (hidle : s.idle c = true)
      (hdev : t.job.dev = s.job.dev) (hhist : t.job.hist = s.job.hist)
      (hthreads : t.job.threads = s.job.threads ++ [[.irqEntry c]]) (ht : t = { s with
        job := t.job
        handler := fun i => if i = c then some s.job.threads.length else s.handler i }) :
      LineMoved cfg s t (.job (.irq c false))
  | exec {tid : ℕ} {o : Outcome} {op : JobOp} {rest : List JobOp} {eff : Effect}
      {others : Multiset JobOp} (h : Stepped cfg s.job t.job (.exec tid o))
      (hnext : nextBlock s.job.threads tid = some (op, rest))
      (hstatus : ∀ j c, op = .irqStatus j c → s.raised c = none → o.status = 0)
      (heff : jobExec cfg s.job.dev o op = some eff) (hop : s.job.todo = op ::ₘ others)
      (hdev : t.job.dev = eff.dev) (htodo : t.job.todo = (eff.calls : Multiset JobOp) + others)
      (hhist : t.job.hist = s.job.hist ++ eff.events)
      (hthreads : t.job.threads = advance s.job.threads tid eff.calls rest)
      (ht : t = s.ran cfg o op t.job) : LineMoved cfg s t (.job (.exec tid o))
  | submit {args : Submit} {useDrmGem : Bool}
      (h : Stepped cfg s.job t.job (.submit args useDrmGem true))
      (hmask : args.coreMask ≤ cfg.coreMask)
      (hdev : t.job.dev = s.job.dev.addJob (rknpuJobAlloc s.job.dev args useDrmGem))
      (hhist : t.job.hist = s.job.hist ++
        if useDrmGem ∧ args.taskObjAddr ≠ 0 then [.gemGet args.taskObjAddr] else [])
      (hthreads : t.job.threads = s.job.threads ++ [[.fenceIn s.job.dev.numJobs]])
      (ht : t = { s with job := t.job }) : LineMoved cfg s t (.job (.submit args useDrmGem true))
  | spawn {a : JobLabel} (h : Stepped cfg s.job t.job a) (hm : Spawned s.job t.job)
      (hrunning : t.job.dev.running = s.job.dev.running)
      (hthreads : t.job.threads = s.job.threads ∨ ∃ op, starting s.job.dev op ∧
        lineOf op = none ∧ t.job.threads = s.job.threads ++ [[op]])
      (ht : t = { s with job := t.job }) : LineMoved cfg s t (.job a)

section
variable {cfg : Config} {s t : LineState}

theorem line_moved {a : LineLabel} (h : lineStep cfg s a = some t) : LineMoved cfg s t a := by
  cases a with
  | complete c =>
    simp only [lineStep] at h
    split_ifs at h with hexec
    exact .complete hexec (Option.some.inj h).symm
  | job a =>
    simp only [lineStep] at h
    split_ifs at h with hok
    obtain ⟨u, hu, rfl⟩ := Option.map_eq_some_iff.mp h
    have hstep := stepped hu
    cases a with
    | submit args useDrmGem allocOk =>
      simp only [jobStep] at hu
      split at hu
      · cases hu
        refine .spawn hstep ?_ rfl (Or.inl rfl) rfl
        exact ⟨rfl, rfl, rfl, rfl, rfl, rfl, rfl, rfl, rfl, fun _ hj => hj,
          ⟨0, (zero_add _).symm, fun op hop => (Multiset.notMem_zero op hop).elim⟩, rfl⟩
      · rename_i eff heff
        obtain ⟨hmask, rfl, rfl⟩ := rknpuSubmit_ok heff
        cases hu
        exact .submit hstep hmask rfl rfl rfl rfl
    | exec tid o =>
      simp only [jobStep] at hu
      split at hu
      · cases hu
      · rename_i op rest hnext
        obtain ⟨eff, heff, rfl⟩ := Option.map_eq_some_iff.mp hu
        obtain ⟨others, hop, hadv⟩ := pending_advance hnext
        have hafter : s.after cfg ⟨eff.dev, advance s.job.threads tid eff.calls rest,
            s.job.hist ++ eff.events⟩ (.exec tid o) = s.ran cfg o op
              ⟨eff.dev, advance s.job.threads tid eff.calls rest, s.job.hist ++ eff.events⟩ := by
          simp only [LineState.after, hnext]
        rw [hafter]
        refine .exec hstep hnext ?_ heff hop rfl (hadv eff.calls) rfl rfl rfl
        rintro j c rfl hraised
        simp only [LineState.allows, hnext, decide_eq_true_eq] at hok
        exact hok hraised
    | irq c completed =>
      simp only [LineState.allows, Bool.and_eq_true, Bool.not_eq_true'] at hok
      obtain ⟨rfl, hidle⟩ := hok
      simp only [jobStep, Bool.false_eq_true, if_false] at hu
      split_ifs at hu with hc
      cases hu
      exact .irq hstep hidle rfl rfl rfl rfl
    | runWork j =>
      simp only [jobStep] at hu
      split_ifs at hu with hj
      cases hu
      refine .spawn hstep ?_ rfl (Or.inr ⟨.cleanupWork j, hj, rfl, rfl⟩) rfl
      exact .of_cons rfl rfl rfl rfl rfl rfl rfl rfl rfl
        (fun _ hi => List.mem_of_mem_erase hi) (todo_spawn ..) hj rfl
    | actReset =>
      cases hu
      refine .spawn hstep ?_ rfl (Or.inr ⟨.resetBegin, trivial, rfl, rfl⟩) rfl
      exact .of_cons rfl rfl rfl rfl rfl rfl rfl rfl rfl (fun _ hi => hi) (todo_spawn ..) trivial
        rfl
    | timer =>
      cases hu
      refine .spawn hstep ?_ rfl (Or.inr ⟨.timerTick 0, trivial, rfl, rfl⟩) rfl
      exact .of_cons rfl rfl rfl rfl rfl rfl rfl rfl rfl (fun _ hi => hi) (todo_spawn ..) trivial
        rfl
    | tick ns =>
      cases hu
      refine .spawn hstep ?_ rfl (Or.inl rfl) rfl
      exact ⟨rfl, rfl, rfl, rfl, rfl, rfl, rfl, rfl, rfl, fun _ hj => hj,
        ⟨0, (zero_add _).symm, fun op hop => (Multiset.notMem_zero op hop).elim⟩, rfl⟩

theorem LineMoved.known {a : LineLabel} (h : LineMoved cfg s t a) (hcfg : cfg.Sound)
    (hs : Known cfg s.job) : Known cfg t.job := by
  cases h with
  | complete hexec ht =>
    rw [ht]
    exact hs
  | irq h | exec h | submit h | spawn h => exact hs.step hcfg h

end

/-! ## Handlers -/

section
variable {cfg : Config} {dev : Dev} {o : Outcome} {op : JobOp} {eff : Effect}

/-- One for a block that belongs to line `c`. -/
def lined (c : ℕ) (op : JobOp) : ℕ := if lineOf op = some c then 1 else 0

theorem calls_irqEntry (h : jobExec cfg dev o op = some eff) (c : ℕ) : .irqEntry c ∉ eff.calls := by
  cases op with
  | doneClear k i =>
    cases h
    simp [jobDoneClear, Effect.goto]
  | _ => grind -ring -linarith -order

theorem calls_lineOf (h : jobExec cfg dev o op = some eff) {x : JobOp} (hx : x ∈ eff.calls) {c : ℕ}
    (hc : lineOf x = some c) : lineOf op = some c := by
  cases x with
  | irqEntry i => exact (calls_irqEntry h i hx).elim
  | irqStatus j i =>
    cases hc
    rw [(calls_irqStatus h hx).1]
    rfl
  | doneCount j i =>
    cases hc
    rw [(calls_doneCount h hx).1]
    rfl
  | doneClear j i =>
    cases hc
    rw [(calls_doneClear h hx).1]
    rfl
  | _ => cases hc

theorem calls_lined (h : jobExec cfg dev o op = some eff) (c : ℕ) :
    (eff.calls.map (lined c)).sum ≤ lined c op := by
  cases op with
  | commit k =>
    cases h
    have hzero : ((commitCores (dev.jobs k).args.coreMask).map
        (lined c ∘ JobOp.subcoreCommit k)).sum = 0 := by
      refine List.sum_eq_zero fun n hn => ?_
      obtain ⟨i, -, rfl⟩ := List.mem_map.mp hn
      rfl
    simp [rknpuJobCommit, hzero]
  | _ => grind -ring -linarith -order [lined, lineOf]

end

/-- The blocks of a handler are in its thread, and the handlers of a line are one at a time. -/
structure Handled (cfg : Config) (s : LineState) : Prop where
  line : Located (fun tid op => ∀ c, lineOf op = some c → s.handler c = some tid) s.job.threads
  stages : Located (fun tid op => ∀ j, stage op = some j → ∃ c, s.handler c = some tid ∧
    c ∈ coresOf cfg (s.job.dev.jobs j).args.coreMask) s.job.threads
  fresh : Located (fun tid op => ∀ c, op = .irqEntry c → s.job.threads[tid]? = some [op])
    s.job.threads
  single : ∀ c, (s.job.todo.map (lined c)).sum ≤ 1
  started : ∀ c tid, s.handler c = some tid → tid < s.job.threads.length
  inj : ∀ c d tid, s.handler c = some tid → s.handler d = some tid → c = d

section
variable {cfg : Config} {s t : LineState} {a : LineLabel} {o : Outcome} {op : JobOp} {eff : Effect}
  {others : Multiset JobOp} {rest : List JobOp} {tid : ℕ}

theorem taken_mem (hk : Known cfg s.job) (hop : op ∈ s.job.todo) {j : ℕ} (hj : stage op = some j)
    {b : JobLabel} (h : Stepped cfg s.job t.job b) :
    (t.job.dev.jobs j).args.coreMask = (s.job.dev.jobs j).args.coreMask :=
  ((hk.taken.past j (hk.taken.worked op hop j (taken_of_stage hj)).1).stepped h).2

theorem Handled.exec (hs : Handled cfg s) (hk : Known cfg s.job) {b : JobLabel}
    (h : Stepped cfg s.job t.job b) (hnext : nextBlock s.job.threads tid = some (op, rest))
    (hop : s.job.todo = op ::ₘ others) (heff : jobExec cfg s.job.dev o op = some eff)
    (htodo : t.job.todo = (eff.calls : Multiset JobOp) + others)
    (hthreads : t.job.threads = advance s.job.threads tid eff.calls rest)
    (hhandler : t.handler = s.handler) : Handled cfg t := by
  have hmem : op ∈ s.job.todo := by simp [hop]
  refine ⟨?_, ?_, ?_, fun c => ?_, fun c i hi => ?_, fun c d i hc hd => ?_⟩
  · rw [hthreads, hhandler]
    exact hs.line.advance hnext fun x hx c hc => hs.line.next hnext c (calls_lineOf heff hx hc)
  · rw [hthreads, hhandler]
    refine Located.advance (hs.stages.imp fun i thread x hget hx hold j hj => ?_) hnext ?_
    · rw [taken_mem hk (mem_pending_of_getElem hget hx) hj h]
      exact hold j hj
    · intro x hx j hj
      obtain hop' | ⟨c, rfl, hcur, -⟩ := calls_stage heff hx hj
      · rw [taken_mem hk hmem hop' h]
        exact hs.stages.next hnext j hop'
      · have hheld : Holds s.job.dev c j := Or.inr hcur
        refine ⟨c, hs.line.next hnext c rfl, ?_⟩
        rw [((hk.placed.held c j hheld).1.stepped h).2]
        exact hk.placed.mem_coresOf_of_holds hheld
  · intro i thread hget x hx c hxc
    rw [hthreads] at hget ⊢
    unfold advance at hget ⊢
    rw [List.getElem?_set] at hget ⊢
    split_ifs at hget ⊢ with hi hlt
    · subst hi
      cases hget
      exfalso
      rw [hxc] at hx
      obtain hx | hx := List.mem_append.mp hx
      · exact calls_irqEntry heff c hx
      · have hthread := getElem_of_nextBlock hnext
        have hone := hs.fresh tid _ hthread _ (List.mem_cons_of_mem op hx) c rfl
        rw [hthread] at hone
        obtain ⟨-, hnil⟩ := List.cons.inj (Option.some.inj hone)
        rw [hnil] at hx
        cases hx
    · exact hs.fresh i thread hget x hx c hxc
  · have hle := hs.single c
    have hcalls := calls_lined heff c
    rw [hop, Multiset.map_cons, Multiset.sum_cons] at hle
    rw [htodo, Multiset.map_add, Multiset.sum_add, Multiset.map_coe, Multiset.sum_coe]
    omega
  · rw [hthreads, length_advance]
    rw [hhandler] at hi
    exact hs.started c i hi
  · rw [hhandler] at hc hd
    exact hs.inj c d i hc hd

/-- The last handler of a line that is idle has nothing left to run. -/
theorem LineState.idle_thread {c i : ℕ} (hidle : s.idle c = true) (hi : s.handler c = some i) :
    s.job.threads[i]? = some [] := by
  unfold LineState.idle at hidle
  rw [hi] at hidle
  exact of_decide_eq_true hidle

theorem Handled.irq (hs : Handled cfg s) {c : ℕ} (hidle : s.idle c = true)
    (hjobs : t.job.dev.jobs = s.job.dev.jobs)
    (hthreads : t.job.threads = s.job.threads ++ [[.irqEntry c]])
    (hhandler : t.handler = fun i => if i = c then some s.job.threads.length else s.handler i) :
    Handled cfg t := by
  have hother : ∀ {i : ℕ} {thread : List JobOp} {x : JobOp} {d : ℕ},
      s.job.threads[i]? = some thread →
      x ∈ thread → s.handler d = some i → t.handler d = some i := by
    intro i thread x d hget hx hd
    rw [hhandler]
    by_cases hdc : d = c
    · subst hdc
      rw [s.idle_thread hidle hd] at hget
      cases hget
      cases hx
    · simp only [if_neg hdc]
      exact hd
  refine ⟨?_, ?_, ?_, fun d => ?_, fun d i hi => ?_, fun d e i hd he => ?_⟩
  · rw [hthreads]
    refine Located.spawn (hs.line.imp fun i thread x hget hx hold d hd => ?_) ?_
    · exact hother hget hx (hold d hd)
    · intro x hx d hd
      rw [List.mem_singleton.mp hx] at hd
      cases hd
      simp [hhandler]
  · rw [hthreads]
    refine Located.spawn (hs.stages.imp fun i thread x hget hx hold j hj => ?_) ?_
    · obtain ⟨d, hd, hcore⟩ := hold j hj
      rw [hjobs]
      exact ⟨d, hother hget hx hd, hcore⟩
    · intro x hx j hj
      rw [List.mem_singleton.mp hx] at hj
      cases hj
  · rw [hthreads]
    refine Located.spawn (hs.fresh.imp fun i thread x hget hx hold d hd => ?_) ?_
    · rw [List.getElem?_append_left (List.getElem?_eq_some_iff.mp (hold d hd)).1]
      exact hold d hd
    · intro x hx d hd
      rw [List.mem_singleton.mp hx]
      simp
  · rw [todo_of_threads hthreads, Multiset.map_add, Multiset.sum_add, Multiset.map_singleton,
      Multiset.sum_singleton]
    by_cases hdc : d = c
    · subst hdc
      have hzero : (s.job.todo.map (lined d)).sum = 0 := by
        refine Multiset.sum_eq_zero fun n hn => ?_
        obtain ⟨x, hx, rfl⟩ := Multiset.mem_map.mp hn
        refine if_neg fun hline => ?_
        obtain ⟨thread, hthread, hmem⟩ := mem_pending.mp hx
        obtain ⟨i, hget⟩ := List.mem_iff_getElem?.mp hthread
        have hi := hs.line i thread hget x hmem d hline
        rw [s.idle_thread hidle hi] at hget
        cases hget
        cases hmem
      have hone : lined d (.irqEntry d) ≤ 1 := by
        unfold lined
        split_ifs <;> simp
      omega
    · have hzero : lined d (.irqEntry c) = 0 :=
        if_neg fun hcon => hdc (Option.some.inj hcon).symm
      rw [hzero, Nat.zero_add]
      exact hs.single d
  · rw [hthreads, List.length_append, List.length_singleton]
    rw [hhandler] at hi
    simp only at hi
    split_ifs at hi with hdc
    · cases hi
      exact Nat.lt_succ_self _
    · exact Nat.lt_succ_of_lt (hs.started d i hi)
  · rw [hhandler] at hd he
    simp only at hd he
    split_ifs at hd he with hdc hec hec
    · exact hdc.trans hec.symm
    · cases hd
      exact (Nat.lt_irrefl _ (hs.started e _ he)).elim
    · cases he
      exact (Nat.lt_irrefl _ (hs.started d _ hd)).elim
    · exact hs.inj d e i hd he

/-- Steps that start at most a thread which is no handler. -/
theorem Handled.keep (hs : Handled cfg s) (hk : Known cfg s.job) {b : JobLabel}
    (h : Stepped cfg s.job t.job b) (hhandler : t.handler = s.handler)
    (hthreads : t.job.threads = s.job.threads ∨ ∃ op, lineOf op = none ∧ stage op = none ∧
      t.job.threads = s.job.threads ++ [[op]]) : Handled cfg t := by
  have hstages : Located (fun tid op => ∀ j, stage op = some j → ∃ c, s.handler c = some tid ∧
      c ∈ coresOf cfg (t.job.dev.jobs j).args.coreMask) s.job.threads := by
    refine hs.stages.imp fun i thread x hget hx hold j hj => ?_
    rw [taken_mem hk (mem_pending_of_getElem hget hx) hj h]
    exact hold j hj
  obtain hthreads | ⟨op, hline, hstage, hthreads⟩ := hthreads
  · refine ⟨?_, ?_, ?_, fun c => ?_, ?_, ?_⟩
    · rw [hthreads, hhandler]
      exact hs.line
    · rw [hthreads, hhandler]
      exact hstages
    · rw [hthreads]
      exact hs.fresh
    · unfold JobState.todo
      rw [hthreads]
      exact hs.single c
    · rw [hthreads, hhandler]
      exact hs.started
    · rw [hhandler]
      exact hs.inj
  · have hnot : ∀ {x : JobOp}, x ∈ [op] → lineOf x = none ∧ stage x = none := by
      intro x hx
      rw [List.mem_singleton.mp hx]
      exact ⟨hline, hstage⟩
    refine ⟨?_, ?_, ?_, fun c => ?_, fun c i hi => ?_, ?_⟩
    · rw [hthreads, hhandler]
      refine hs.line.spawn fun x hx c hc => ?_
      rw [(hnot hx).1] at hc
      cases hc
    · rw [hthreads, hhandler]
      refine hstages.spawn fun x hx j hj => ?_
      rw [(hnot hx).2] at hj
      cases hj
    · rw [hthreads]
      refine Located.spawn (hs.fresh.imp fun i thread x hget hx hold d hd => ?_) ?_
      · rw [List.getElem?_append_left (List.getElem?_eq_some_iff.mp (hold d hd)).1]
        exact hold d hd
      · intro x hx d hd
        have hno := (hnot hx).1
        rw [hd] at hno
        cases hno
    · rw [todo_of_threads hthreads, Multiset.map_add, Multiset.sum_add, Multiset.map_singleton,
        Multiset.sum_singleton, lined, hline, if_neg (by simp), Nat.zero_add]
      exact hs.single c
    · rw [hhandler] at hi
      rw [hthreads, List.length_append]
      exact Nat.lt_of_lt_of_le (hs.started c i hi) (Nat.le_add_right _ _)
    · rw [hhandler]
      exact hs.inj

theorem LineMoved.handled (h : LineMoved cfg s t a) (hk : Known cfg s.job) (hs : Handled cfg s) :
    Handled cfg t := by
  cases h with
  | complete hexec ht =>
    rw [ht]
    exact ⟨hs.line, hs.stages, hs.fresh, hs.single, hs.started, hs.inj⟩
  | irq h hidle hdev hhist hthreads ht =>
    exact hs.irq hidle (by rw [hdev]) hthreads (by rw [ht])
  | exec h hnext hstatus heff hop hdev htodo hhist hthreads ht =>
    exact hs.exec hk h hnext hop heff htodo hthreads (by rw [ht]; rfl)
  | submit h hmask hdev hhist hthreads ht =>
    exact hs.keep hk h (by rw [ht]) (Or.inr ⟨_, rfl, rfl, hthreads⟩)
  | spawn h hm hrunning hthreads ht =>
    refine hs.keep hk h (by rw [ht]) (hthreads.imp_right ?_)
    rintro ⟨op, hstart, hline, hthreads⟩
    refine ⟨op, hline, ?_, hthreads⟩
    cases op <;> first | exact hstart.elim | rfl

theorem Handled.exclusive (hs : Handled cfg s) (hop : s.job.todo = op ::ₘ others) {c : ℕ}
    (hline : lineOf op = some c) : ∀ x ∈ others, lineOf x ≠ some c := by
  intro x hx hcon
  have hle := hs.single c
  rw [hop, Multiset.map_cons, Multiset.sum_cons] at hle
  have hone : lined c op = 1 := if_pos hline
  have hx1 : lined c x = 1 := if_pos hcon
  have : lined c x ≤ (others.map (lined c)).sum :=
    Multiset.single_le_sum (fun _ _ => Nat.zero_le _) _ (Multiset.mem_map_of_mem _ hx)
  omega

end

/-! ## The interrupt count -/

section
variable {cfg : Config} {dev : Dev} {o : Outcome} {op : JobOp} {eff : Effect}

/-- The job whose core a block gives up. -/
def givesUp : JobOp → Option ℕ
  | .doneClear j _ => some j
  | _ => none

theorem calls_doneDec_count (h : jobExec cfg dev o op = some eff) (j : ℕ) :
    eff.calls.count (.doneDec j) = if givesUp op = some j then 1 else 0 := by
  cases op with
  | commit k => simp [calls_commit_eq_zero h, givesUp]
  | doneClear k c =>
    cases h
    simp [jobDoneClear, givesUp, Effect.goto, List.count_cons]
  | _ => grind -ring -linarith -order [givesUp]

theorem calls_setDone_count (h : jobExec cfg dev o op = some eff) (j : ℕ) :
    eff.calls.count (.setDone j) =
      if op = .doneDec j ∧ (dev.jobs j).interruptCount - 1 = 0 then 1 else 0 := by
  cases op with
  | commit k => simp [calls_commit_eq_zero h]
  | doneClear k c =>
    cases h
    rfl
  | _ => grind -ring -linarith -order

theorem events_done_count (h : jobExec cfg dev o op = some eff) (j : ℕ) :
    eff.events.count (.done j) = if op = .setDone j then 1 else 0 := by
  cases op <;> grind -ring -linarith -order

end

/-- How many cores were given up for a job. -/
def clearCount (cfg : Config) (s : LineState) (j : ℕ) : ℕ :=
  (coresOf cfg (s.job.dev.jobs j).args.coreMask).countP (s.cleared j)

structure Cleared (cfg : Config) (s : LineState) : Prop where
  popped : ∀ j c, s.cleared j c = true → j ∈ popsOn c s.job.hist
  gone : ∀ j c, s.cleared j c = true → ¬ Holds s.job.dev c j
  ended : ∀ op ∈ s.job.todo, ∀ j c, coreOf op = some (j, c) → lineOf op = some c →
    s.cleared j c = false
  counts : ∀ j ∈ enqueues s.job.hist, (s.job.dev.jobs j).interruptCount + clearCount cfg s j =
    (coresOf cfg (s.job.dev.jobs j).args.coreMask).length + s.job.todo.count (.doneDec j)
  dones : ∀ j, s.job.hist.count (.done j) + s.job.todo.count (.setDone j) =
    if j ∈ enqueues s.job.hist ∧ coresOf cfg (s.job.dev.jobs j).args.coreMask ≠ [] ∧
      (s.job.dev.jobs j).interruptCount = 0 then 1 else 0

section
variable {cfg : Config} {s t : LineState} {a : LineLabel} {o : Outcome} {op : JobOp} {eff : Effect}
  {others : Multiset JobOp} {j : ℕ}

theorem Cleared.interruptCount_nonneg (hn : Cleared cfg s) (hj : j ∈ enqueues s.job.hist) :
    s.job.todo.count (.doneDec j) ≤ (s.job.dev.jobs j).interruptCount := by
  have hcount := hn.counts j hj
  have hle : clearCount cfg s j ≤ (coresOf cfg (s.job.dev.jobs j).args.coreMask).length :=
    List.countP_le_length
  omega

/-- A job whose interrupts are all counted was given up by all its cores. -/
theorem Cleared.all_cleared (hn : Cleared cfg s) (hj : j ∈ enqueues s.job.hist)
    (hzero : (s.job.dev.jobs j).interruptCount ≤ s.job.todo.count (.doneDec j)) {c : ℕ}
    (hc : c ∈ coresOf cfg (s.job.dev.jobs j).args.coreMask) : s.cleared j c = true := by
  have hcount := hn.counts j hj
  have hle : clearCount cfg s j ≤ (coresOf cfg (s.job.dev.jobs j).args.coreMask).length :=
    List.countP_le_length
  have hall : clearCount cfg s j = (coresOf cfg (s.job.dev.jobs j).args.coreMask).length := by
    omega
  exact List.countP_eq_length.mp hall c hc

/-- So was one that is done, or about to be. -/
theorem Cleared.of_done (hn : Cleared cfg s) (hj : .done j ∈ s.job.hist ∨ .setDone j ∈ s.job.todo) :
    j ∈ enqueues s.job.hist ∧
      ∀ c ∈ coresOf cfg (s.job.dev.jobs j).args.coreMask, s.cleared j c = true := by
  have hpos : 0 < s.job.hist.count (.done j) + s.job.todo.count (.setDone j) := by
    obtain hj | hj := hj
    · exact Nat.add_pos_left (List.count_pos_iff.mpr hj) _
    · exact Nat.add_pos_right _ (Multiset.count_pos.mpr hj)
  have hdones := hn.dones j
  split_ifs at hdones with hcond
  · obtain ⟨hq, -, hzero⟩ := hcond
    refine ⟨hq, fun c hc => hn.all_cleared hq ?_ hc⟩
    rw [hzero]
    exact Int.natCast_nonneg _
  · omega

theorem cleared_ran (ht : t = s.ran cfg o op t.job) (j c : ℕ) :
    t.cleared j c = true ↔ s.cleared j c = true ∨ op = .doneClear j c := by
  rw [ht]
  simp [LineState.ran]

theorem clearCount_exec (hn : Cleared cfg s) (hk : Known cfg s.job) {b : JobLabel}
    (h : Stepped cfg s.job t.job b) (hmem : op ∈ s.job.todo) (ht : t = s.ran cfg o op t.job)
    (hj : j ∈ enqueues s.job.hist) :
    clearCount cfg t j = clearCount cfg s j + if givesUp op = some j then 1 else 0 := by
  unfold clearCount
  rw [((hk.taken.past j hj).stepped h).2]
  split_ifs with hclear
  · cases op with
    | doneClear i c =>
      obtain rfl : i = j := Option.some.inj hclear
      refine countP_eq_succ (nodup_coresOf cfg _) (hk.taken.core _ hmem i c rfl) (fun d _ hd => ?_)
        ((cleared_ran ht i c).mpr (Or.inr rfl)) (hn.ended _ hmem i c rfl rfl)
      rw [Bool.eq_iff_iff, cleared_ran ht]
      refine or_iff_left ?_
      rintro hcon
      exact hd (JobOp.doneClear.inj hcon).2.symm
    | _ => cases hclear
  · refine List.countP_congr fun c _ => ?_
    rw [cleared_ran ht]
    refine or_iff_left ?_
    rintro rfl
    exact hclear rfl

/-- Each core that the job waits for has still to give it up, or its interrupt is being counted. -/
theorem Cleared.counts_exec (hn : Cleared cfg s) (hk : Known cfg s.job) {b : JobLabel}
    (h : Stepped cfg s.job t.job b) (hop : s.job.todo = op ::ₘ others)
    (heff : jobExec cfg s.job.dev o op = some eff) (hdev : t.job.dev = eff.dev)
    (htodo : t.job.todo = (eff.calls : Multiset JobOp) + others)
    (hhist : t.job.hist = s.job.hist ++ eff.events) (ht : t = s.ran cfg o op t.job)
    (hj : j ∈ enqueues t.job.hist) :
    (t.job.dev.jobs j).interruptCount + clearCount cfg t j =
      (coresOf cfg (t.job.dev.jobs j).args.coreMask).length +
        t.job.todo.count (.doneDec j) := by
  have hmem : op ∈ s.job.todo := by simp [hop]
  have hothers : ∀ x ∈ others, x ∈ s.job.todo := fun x hx => by simp [hop, hx]
  rw [hhist, enqueues_append, List.mem_append, events_enqueue heff] at hj
  have hdec : t.job.todo.count (.doneDec j) =
      (if givesUp op = some j then 1 else 0) + others.count (.doneDec j) := by
    rw [htodo, Multiset.count_add, Multiset.coe_count, calls_doneDec_count heff]
  by_cases hq : j ∈ enqueues s.job.hist
  · have hold := hn.counts j hq
    rw [hop, Multiset.count_cons] at hold
    rw [hdec, clearCount_exec hn hk h hmem ht hq, ((hk.taken.past j hq).stepped h).2, hdev,
      interruptCount_eq heff ((hk.taken.past j hq).2 op hmem)]
    by_cases hcase : op = .doneDec j
    · rw [if_pos hcase.symm] at hold
      rw [if_pos hcase]
      push_cast at hold ⊢
      omega
    · rw [if_neg fun hcon => hcase hcon.symm] at hold
      rw [if_neg hcase]
      push_cast at hold ⊢
      omega
  · obtain rfl := hj.resolve_left hq
    have hnone : others.count (.doneDec j) = 0 := by
      refine Multiset.count_eq_zero.mpr fun hcon => hq ?_
      exact (hk.taken.worked (.doneDec j) (hothers _ hcon) j rfl).1
    have hzero : clearCount cfg t j = 0 := by
      refine List.countP_eq_zero.mpr fun c _ hcon => ?_
      obtain hcon | hcon := (cleared_ran ht j c).mp hcon
      · exact hq (hk.taken.popped c j (hn.popped j c hcon)).1
      · cases hcon
    have hfresh := (hk.chosen.fresh _ hmem j rfl).2
    obtain ⟨hmask, -, hint⟩ | ⟨i, coreIndex, n, hcon, -⟩ := cores_of_before heff (j := j) rfl
    · rw [hdec, hzero, hnone, hdev, hint, hmask, hfresh]
      simp [givesUp]
    · cases hcon

/-- The job is done by the block that counts its last interrupt. -/
theorem Cleared.dones_exec (hn : Cleared cfg s) (hk : Known cfg s.job) {b : JobLabel}
    (h : Stepped cfg s.job t.job b) (hop : s.job.todo = op ::ₘ others)
    (heff : jobExec cfg s.job.dev o op = some eff) (hdev : t.job.dev = eff.dev)
    (htodo : t.job.todo = (eff.calls : Multiset JobOp) + others)
    (hhist : t.job.hist = s.job.hist ++ eff.events) :
    t.job.hist.count (.done j) + t.job.todo.count (.setDone j) =
      if j ∈ enqueues t.job.hist ∧ coresOf cfg (t.job.dev.jobs j).args.coreMask ≠ [] ∧
        (t.job.dev.jobs j).interruptCount = 0 then 1 else 0 := by
  have hmem : op ∈ s.job.todo := by simp [hop]
  have hold := hn.dones j
  have hsum : t.job.hist.count (.done j) + t.job.todo.count (.setDone j) =
      s.job.hist.count (.done j) + s.job.todo.count (.setDone j) +
        if op = .doneDec j ∧ (s.job.dev.jobs j).interruptCount - 1 = 0 then 1 else 0 := by
    have hsets := count_exec hop htodo (.setDone j)
    rw [calls_setDone_count heff] at hsets
    rw [hhist, List.count_append, events_done_count heff]
    omega
  have hqueued : j ∈ enqueues t.job.hist ↔ j ∈ enqueues s.job.hist ∨ op = .enqueue j := by
    rw [hhist, enqueues_append, List.mem_append, events_enqueue heff]
  rw [hsum, hold]
  simp only [hqueued]
  by_cases hq : j ∈ enqueues s.job.hist
  · rw [((hk.taken.past j hq).stepped h).2, hdev,
      interruptCount_eq heff ((hk.taken.past j hq).2 op hmem)]
    by_cases hdec : op = .doneDec j
    · subst hdec
      have hne := (hk.taken.worked _ hmem j rfl).2
      have hpos := hn.interruptCount_nonneg hq
      have hone : 1 ≤ s.job.todo.count (.doneDec j) := Multiset.one_le_count_iff_mem.mpr hmem
      have hint : ¬ (s.job.dev.jobs j).interruptCount = 0 := by omega
      simp [hq, hne, hint]
    · simp [hq, hdec]
  · by_cases henq : op = .enqueue j
    · subst henq
      have hfresh := (hk.chosen.fresh _ hmem j rfl).2
      obtain ⟨hmask, -, hint⟩ | ⟨i, coreIndex, n, hcon, -⟩ := cores_of_before heff (j := j) rfl
      · rw [hdev, hint, hmask, hfresh]
        simp [hq]
      · cases hcon
    · have hdec : op ≠ .doneDec j :=
        fun hcon => hq (hk.taken.worked op hmem j (by rw [hcon]; rfl)).1
      simp [hq, henq, hdec]

theorem Cleared.exec (hn : Cleared cfg s) (hs : Handled cfg s) (hk : Known cfg s.job) {b : JobLabel}
    (h : Stepped cfg s.job t.job b) (hop : s.job.todo = op ::ₘ others)
    (heff : jobExec cfg s.job.dev o op = some eff) (hdev : t.job.dev = eff.dev)
    (htodo : t.job.todo = (eff.calls : Multiset JobOp) + others)
    (hhist : t.job.hist = s.job.hist ++ eff.events) (ht : t = s.ran cfg o op t.job) :
    Cleared cfg t := by
  have hmem : op ∈ s.job.todo := by simp [hop]
  have hothers : ∀ x ∈ others, x ∈ s.job.todo := fun x hx => by simp [hop, hx]
  have hpast : ∀ {j}, j ∈ enqueues s.job.hist → before op ≠ some j :=
    fun hj => (hk.taken.past _ hj).2 op hmem
  have hline : ∀ {x : JobOp} {j c : ℕ}, coreOf x = some (j, c) → lineOf x = some c →
      taken x = some j := by
    intro x j c hx _
    cases x <;> cases hx <;> rfl
  refine ⟨fun j c hj => ?_, fun j c hj => ?_, fun x hx j c hj hlined => ?_,
    fun j hj => hn.counts_exec hk h hop heff hdev htodo hhist ht hj,
    fun j => hn.dones_exec hk h hop heff hdev htodo hhist⟩
  · rw [hhist, popsOn_append, List.mem_append]
    left
    obtain hj | rfl := (cleared_ran ht j c).mp hj
    · exact hn.popped j c hj
    · exact hk.countdown.reached _ hmem j c rfl
  · intro hheld
    rw [hdev] at hheld
    obtain hj | rfl := (cleared_ran ht j c).mp hj
    · obtain hheld | ⟨rfl, -⟩ := holds_exec heff hheld
      · exact hn.gone j c hj hheld
      · exact hpast (hk.taken.popped c j (hn.popped j c hj)).1 rfl
    · have hpop := hk.countdown.reached _ hmem j c rfl
      obtain hheld | hheld := hheld
      · rw [todoList_eq heff] at hheld
        exact hk.taken.once c j hheld hpop
      · rw [current_eq heff, currentAfter, if_pos rfl] at hheld
        cases hheld
  · have hold : s.cleared j c = false := by
      rw [htodo, Multiset.mem_add] at hx
      obtain hx | hx := hx
      · obtain hop' | ⟨rfl, hcur⟩ | ⟨rfl, -⟩ := calls_coreOf heff (Multiset.mem_coe.mp hx) hj
        · exact hn.ended op hmem j c hop' (calls_lineOf heff (Multiset.mem_coe.mp hx) hlined)
        · rw [Bool.eq_false_iff]
          exact fun hcon => hn.gone j c hcon (Or.inr hcur)
        · have hcon := calls_lineOf heff (Multiset.mem_coe.mp hx) hlined
          cases hcon
      · exact hn.ended x (hothers x hx) j c hj hlined
    rw [Bool.eq_false_iff, Ne, cleared_ran ht, not_or]
    refine ⟨by simp [hold], ?_⟩
    rintro rfl
    rw [htodo, Multiset.mem_add] at hx
    obtain hx | hx := hx
    · cases heff
      simp only [jobDoneClear, Effect.goto, Multiset.mem_coe, List.mem_cons, List.not_mem_nil,
        or_false] at hx
      obtain rfl | rfl := hx
      · cases hlined
      · cases hlined
    · exact hs.exclusive hop rfl x hx hlined

theorem Cleared.keep (hn : Cleared cfg s) (new : Multiset JobOp) (hcleared : t.cleared = s.cleared)
    (hcores : t.job.dev.subcoreDatas = s.job.dev.subcoreDatas)
    (hqueued : enqueues t.job.hist = enqueues s.job.hist)
    (hpops : ∀ c, popsOn c t.job.hist = popsOn c s.job.hist)
    (hjobs : ∀ j ∈ enqueues s.job.hist, t.job.dev.jobs j = s.job.dev.jobs j)
    (hdone : ∀ j, t.job.hist.count (.done j) = s.job.hist.count (.done j))
    (htodo : t.job.todo = new + s.job.todo)
    (hnew : ∀ op ∈ new, coreOf op = none ∧ taken op = none) : Cleared cfg t := by
  have hcount : ∀ op, taken op ≠ none → t.job.todo.count op = s.job.todo.count op := by
    intro op hop
    rw [htodo, Multiset.count_add, Multiset.count_eq_zero.mpr fun hmem => hop (hnew op hmem).2,
      zero_add]
  refine ⟨fun j c hj => ?_, fun j c hj => ?_, fun x hx j c hj hline => ?_, fun j hj => ?_,
    fun j => ?_⟩
  · rw [hcleared] at hj
    rw [hpops]
    exact hn.popped j c hj
  · rw [hcleared] at hj
    unfold Holds
    rw [hcores]
    exact hn.gone j c hj
  · rw [hcleared]
    rw [htodo, Multiset.mem_add] at hx
    obtain hx | hx := hx
    · rw [(hnew x hx).1] at hj
      cases hj
    · exact hn.ended x hx j c hj hline
  · rw [hqueued] at hj
    unfold clearCount
    rw [hcleared, hjobs j hj, hcount (.doneDec j) (by simp [taken])]
    exact hn.counts j hj
  · rw [hdone, hcount (.setDone j) (by simp [taken]), hn.dones, hqueued]
    by_cases hj : j ∈ enqueues s.job.hist
    · rw [hjobs j hj]
    · simp [hj]

theorem LineMoved.cleared (h : LineMoved cfg s t a) (hk : Known cfg s.job) (hs : Handled cfg s)
    (hn : Cleared cfg s) : Cleared cfg t := by
  cases h with
  | complete hexec ht =>
    rw [ht]
    exact ⟨hn.popped, hn.gone, hn.ended, hn.counts, hn.dones⟩
  | @irq c h hidle hdev hhist hthreads ht =>
    refine hn.keep {.irqEntry c} (by rw [ht]) (by rw [hdev]) (by rw [hhist])
      (fun i => by rw [hhist]) (fun j _ => by rw [hdev]) (fun j => by rw [hhist]) ?_
      fun op hop => ?_
    · exact todo_of_threads hthreads
    · rw [Multiset.mem_singleton.mp hop]
      exact ⟨rfl, rfl⟩
  | exec h hnext hstatus heff hop hdev htodo hhist hthreads ht =>
    exact hn.exec hs hk h hop heff hdev htodo hhist ht
  | submit h hmask hdev hhist hthreads ht =>
    have hgets := OnlyGets.of_submit hhist
    refine hn.keep {.fenceIn s.job.dev.numJobs} (by rw [ht]) (by rw [hdev]; rfl) hgets.enqueues
      hgets.popsOn (fun j hj => ?_) (fun j => hgets.count (by simp)) ?_ fun op hop => ?_
    · rw [hdev, Dev.addJob_jobs, if_neg (Nat.ne_of_lt (hk.taken.past j hj).1)]
    · exact todo_of_threads hthreads
    · rw [Multiset.mem_singleton.mp hop]
      exact ⟨rfl, rfl⟩
  | spawn h hm hrunning hthreads ht =>
    obtain ⟨new, htodo, hnew⟩ := hm.todo
    refine hn.keep new (by rw [ht]) hm.subcoreDatas (by rw [hm.hist]) (fun i => by rw [hm.hist])
      (fun j _ => by rw [hm.jobs]) (fun j => by rw [hm.hist]) htodo fun op hop => ?_
    have hstart := hnew op hop
    cases op <;> first | exact hstart.elim | exact ⟨rfl, rfl⟩

/-- What holds in every state of every run of the lines. -/
structure Lined (cfg : Config) (s : LineState) : Prop where
  known : Known cfg s.job
  handled : Handled cfg s
  cleared : Cleared cfg s

theorem LineMoved.lined (h : LineMoved cfg s t a) (hcfg : cfg.Sound) (hs : Lined cfg s) :
    Lined cfg t :=
  ⟨h.known hcfg hs.known, h.handled hs.known hs.handled, h.cleared hs.known hs.handled hs.cleared⟩

theorem lined_init {now : ℕ} : Lined cfg ⟨⟨.probed now, [], []⟩, fun _ => none, fun _ => false,
    fun _ => none, fun _ _ => false⟩ where
  known := known_init
  handled := by
    refine ⟨fun _ _ h => ?_, fun _ _ h => ?_, fun _ _ h => ?_, fun c => Nat.zero_le 1,
      fun c tid h => ?_, fun c d tid h => ?_⟩
    all_goals cases h
  cleared := by
    refine ⟨fun j c h => ?_, fun j c h => ?_, fun op hop => ?_, fun j hj => ?_, fun j => ?_⟩
    · cases h
    · cases h
    · exact (Multiset.notMem_zero op hop).elim
    · exact (List.not_mem_nil hj).elim
    · rw [if_neg fun hcon => List.not_mem_nil hcon.1]
      rfl

end
end RknpuDriver.Job
