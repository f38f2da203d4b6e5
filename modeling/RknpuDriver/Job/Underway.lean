import RknpuDriver.Job.Lines

/-! # Batches under way

`rknpu_job_commit` and `rknpu_job_done` start batches, and interrupts end them. The histories say
how many of them are under way; what works for a core works for its current job, if no block breaks
what `Orderly` asks for.

* `Issued`: in all runs, a batch is started for a commit or for an interrupt of the batch before.
* `Orderly`: what the blocks that give and take cores have to respect.
* `Manned`: then one batch of the current job at most is under way on each core.
* `Vacating`: a core that no job has is quiet, if no job loses a core that works for it.
-/

namespace RknpuDriver.Job
set_option autoImplicit false
open RknpuDriver.Lib

/-! ## Blocks -/

/-- An abort or `rknpu_job_timeout_clean` takes core `c` from its job. -/
def takesAway (cfg : Config) (dev : Dev) (op : JobOp) (c : ℕ) : Bool :=
  match op with
  | .timeoutClear i _ => c = i ∧ (dev.subcoreDatas i).job ≠ none
  | .abortClear j => c < cfg.numIrqs ∧ onCore (dev.jobs j).args.coreMask c = true ∧
      (dev.subcoreDatas c).job = some j ∧ (dev.jobs j).irqEntry c = false
  | _ => false

section
variable {cfg : Config} {dev : Dev} {o : Outcome} {op : JobOp} {eff : Effect} {j c : ℕ}

theorem intMask_of (h : jobExec cfg dev o op = some eff) (hj : (eff.dev.jobs j).intMask c ≠ 0) :
    (dev.jobs j).intMask c ≠ 0 ∨ 0 < startsOn j c eff.events := by
  cases op <;> grind -ring -linarith -order [startsOn]

theorem fuzzStatus_zero : rknpuFuzzStatus 0 = 0 := by decide

theorem calls_doneCount_count (h : jobExec cfg dev o op = some eff) (j c : ℕ) :
    eff.calls.count (.doneCount j c) =
      if op = .irqStatus j c ∧ rknpuFuzzStatus o.status = (dev.jobs j).intMask c then 1 else 0 := by
  cases op with
  | commit k => simp [calls_commit_eq_zero h]
  | doneClear k d =>
    cases h
    rfl
  | irqStatus k d =>
    cases h
    simp only [irqHandlerStatus, Effect.goto, JobOp.irqStatus.injEq]
    grind -ring -linarith -order
  | _ => grind -ring -linarith -order

/-- A commit calls for one batch on each of its cores, and an interrupt for the next batch or for
the end of the job on the core. -/
theorem calls_issued (h : jobExec cfg dev o op = some eff) (j c : ℕ) :
    eff.calls.count (.subcoreCommit j c) + eff.calls.count (.doneClear j c) ≤
      (if op = .commit j then 1 else 0) + if op = .doneCount j c then 1 else 0 := by
  cases op with
  | commit k =>
    have hnone := calls_commit_eq_zero (x := .doneClear j c) h fun d hd => by cases hd
    cases h
    simp only [rknpuJobCommit] at hnone ⊢
    rw [hnone]
    by_cases hkj : k = j
    · subst hkj
      have hinj : Function.Injective (JobOp.subcoreCommit k) :=
        fun _ _ hd => (JobOp.subcoreCommit.inj hd).2
      have hle := List.nodup_iff_count_le_one.mp ((nodup_commitCores
        (dev.jobs k).args.coreMask).map hinj) (.subcoreCommit k c)
      simpa using hle
    · have hzero : ((commitCores (dev.jobs k).args.coreMask).map (JobOp.subcoreCommit k)).count
          (.subcoreCommit j c) = 0 := by
        refine List.count_eq_zero.mpr fun hmem => ?_
        obtain ⟨d, -, hd⟩ := List.mem_map.mp hmem
        exact hkj (JobOp.subcoreCommit.inj hd).1
      rw [hzero]
      exact Nat.zero_le _
  | doneClear k d =>
    cases h
    exact Nat.zero_le _
  | doneCount k d =>
    cases h
    by_cases hnext : (dev.jobs k).submitCount d + 1 < batches cfg (dev.jobs k) d
    · simp [rknpuJobDone, hnext, List.count_singleton]
    · simp [rknpuJobDone, hnext, List.count_singleton]
  | _ => grind -ring -linarith -order

/-- A job loses a core by the end of its last batch, or it is taken away. -/
theorem current_kept (h : jobExec cfg dev o op = some eff)
    (hj : (dev.subcoreDatas c).job = some j) : (eff.dev.subcoreDatas c).job = some j ∨
      (∃ k, op = .doneClear k c) ∨ takesAway cfg dev op c = true := by
  rw [current_eq h]
  cases op with
  | pop i =>
    left
    simp only [currentAfter, hj]
    simp
  | doneClear k i =>
    simp only [currentAfter]
    split_ifs with hc
    · exact Or.inr (Or.inl ⟨k, by rw [hc]⟩)
    · exact Or.inl hj
  | timeoutClear i k =>
    simp only [currentAfter]
    split_ifs with hc
    · subst hc
      exact Or.inr (Or.inr (decide_eq_true ⟨rfl, by simp [hj]⟩))
    · exact Or.inl hj
  | abortClear k =>
    simp only [currentAfter]
    split_ifs with hc
    · exact Or.inr (Or.inr (decide_eq_true hc))
    · exact Or.inl hj
  | _ => exact Or.inl hj

end

/-! ## Batches that were called for -/

structure Issued (s : JobState) : Prop where
  issued : ∀ j c, startsOn j c s.hist + s.todo.count (.subcoreCommit j c) +
    s.todo.count (.doneClear j c) ≤ s.hist.count (.commit j) + completesOn j c s.hist
  masked : ∀ j c, (s.dev.jobs j).intMask c ≠ 0 → 0 < startsOn j c s.hist
  submitted : ∀ j c, (s.dev.jobs j).submitCount c = completesOn j c s.hist ∧
    (0 < completesOn j c s.hist → j < s.dev.numJobs)

section
variable {cfg : Config} {s t : JobState} {a : JobLabel} {o : Outcome} {op : JobOp} {eff : Effect}
  {others : Multiset JobOp} {j c : ℕ}

theorem completesOn_append (hist evs : List Event) :
    completesOn j c (hist ++ evs) = completesOn j c hist + completesOn j c evs :=
  List.count_append

theorem Issued.exec (hn : Issued s) (hs : Known cfg s) (hop : s.todo = op ::ₘ others)
    (heff : jobExec cfg s.dev o op = some eff) (hdev : t.dev = eff.dev)
    (htodo : t.todo = (eff.calls : Multiset JobOp) + others)
    (hhist : t.hist = s.hist ++ eff.events) : Issued t := by
  refine ⟨fun j c => ?_, fun j c hj => ?_, fun j c => ?_⟩
  · have hold := hn.issued j c
    have hcalls := calls_issued heff j c
    have hstart := events_startsOn_le heff j c
    have hcommits := count_exec hop htodo (.subcoreCommit j c)
    have hclears := count_exec hop htodo (.doneClear j c)
    rw [hhist, startsOn_append, completesOn_append, List.count_append, events_complete heff,
      events_commit_count heff]
    omega
  · rw [hdev] at hj
    rw [hhist, startsOn_append]
    obtain hj | hj := intMask_of heff hj
    · exact Nat.add_pos_left (hn.masked j c hj) _
    · exact Nat.add_pos_right _ hj
  · obtain ⟨hcount, hlt⟩ := hn.submitted j c
    rw [hdev, hhist, completesOn_append, submitCount_eq heff, events_complete heff, hcount,
      numJobs_eq heff]
    refine ⟨?_, fun hpos => ?_⟩
    · split_ifs <;> simp
    · by_cases hdone : op = .doneCount j c
      · exact (hs.taken.past j (hs.taken.worked op (by simp [hop]) j (by rw [hdone]; rfl)).1).1
      · rw [if_neg hdone] at hpos
        exact hlt hpos

theorem Issued.step (hn : Issued s) (hs : Known cfg s) (h : Stepped cfg s t a) : Issued t := by
  cases h.moved with
  | submit hmask hdev htodo hhist =>
    have hgets := OnlyGets.of_submit hhist
    refine ⟨fun j c => ?_, fun j c hj => ?_, fun j c => ?_⟩
    · rw [hgets.startsOn, hgets.completesOn, hgets.count (by simp), htodo,
        Multiset.count_cons_of_ne (by simp), Multiset.count_cons_of_ne (by simp)]
      exact hn.issued j c
    · rw [hgets.startsOn]
      rw [hdev, Dev.addJob_jobs] at hj
      split_ifs at hj
      · exact (hj rfl).elim
      · exact hn.masked j c hj
    · obtain ⟨hcount, hlt⟩ := hn.submitted j c
      rw [hgets.completesOn, hdev, Dev.addJob_jobs, Dev.addJob_numJobs]
      refine ⟨?_, fun hpos => Nat.lt_succ_of_lt (hlt hpos)⟩
      split_ifs with hnew
      · have hzero : completesOn j c s.hist = 0 := by
          by_contra hpos
          exact (Nat.ne_of_lt (hlt (Nat.pos_of_ne_zero hpos))) hnew
        rw [hzero]
        rfl
      · exact hcount
  | exec hnext heff hop hdev htodo hhist => exact hn.exec hs hop heff hdev htodo hhist
  | spawn hm =>
    obtain ⟨new, htodo, hnew⟩ := hm.todo
    have hcount : ∀ op, ¬ starting s.dev op → t.todo.count op = s.todo.count op := by
      intro op hop
      rw [htodo, Multiset.count_add, Multiset.count_eq_zero.mpr fun hmem => hop (hnew op hmem),
        zero_add]
    refine ⟨fun j c => ?_, fun j c hj => ?_, fun j c => ?_⟩
    · rw [hm.hist, hcount _ id, hcount _ id]
      exact hn.issued j c
    · rw [hm.hist]
      rw [hm.jobs] at hj
      exact hn.masked j c hj
    · rw [hm.hist, hm.jobs, hm.numJobs]
      exact hn.submitted j c

theorem issued_init {now : ℕ} : Issued ⟨.probed now, [], []⟩ where
  issued _ _ := Nat.zero_le _
  masked _ _ hj := (hj rfl).elim
  submitted _ _ := ⟨rfl, fun hpos => (Nat.lt_irrefl 0 hpos).elim⟩

end

/-! ## Cores and their current jobs -/

/-- No batch executes on core `c`, and no completion waits for the handler. -/
def LineState.quiet (s : LineState) (c : ℕ) : Bool := !s.executing c && s.raised c = none

/-- How many batches of job `j` are under way on core `c`, if that is its core: one that executes,
and one that raised the line. -/
def LineState.underway (s : LineState) (j c : ℕ) : ℕ :=
  if (s.job.dev.subcoreDatas c).job = some j then
    (if s.executing c then 1 else 0) + if s.raised c = none then 0 else 1
  else 0

/-- * An interrupt is accepted only for a job whose `int_mask` is set.
* A core that takes a job is quiet.
* A job that is committed has the cores on which it will be started.
* A core is taken away from a job only when no block is left that works for the job there. -/
structure Orderly (cfg : Config) (s : LineState) (o : Outcome) (op : JobOp) : Prop where
  matched : ∀ j c, op = .irqStatus j c → rknpuFuzzStatus o.status = (s.job.dev.jobs j).intMask c →
    (s.job.dev.jobs j).intMask c ≠ 0
  quiet : ∀ j c, op = .pop c → pops s.job.dev op = some j → s.quiet c = true
  kept : ∀ j c, op = .commit j → c ∈ commitCores (s.job.dev.jobs j).args.coreMask →
    (s.job.dev.subcoreDatas c).job = some j
  left : ∀ j c, takesAway cfg s.job.dev op c = true → (s.job.dev.subcoreDatas c).job = some j →
    ∀ x ∈ s.job.todo, coreOf x ≠ some (j, c)

structure Manned (s : LineState) : Prop where
  current : ∀ op ∈ s.job.todo, ∀ j c, coreOf op = some (j, c) →
    (s.job.dev.subcoreDatas c).job = some j
  counted : ∀ j c, completesOn j c s.job.hist + s.job.todo.count (.doneCount j c) +
    s.underway j c ≤ startsOn j c s.job.hist

section
variable {cfg : Config} {s t : LineState} {a : LineLabel} {o : Outcome} {op : JobOp} {eff : Effect}
  {others : Multiset JobOp} {j c : ℕ}

theorem Countdown.commit_le_one {s : JobState} (hs : Countdown cfg s) :
    s.hist.count (.commit j) + s.todo.count (.commit j) ≤ 1 := by
  rw [hs.commits j]
  split_ifs <;> simp

/-- A job that is committed has one batch on each core, and it is at one place. -/
theorem Manned.under_one (hm : Manned s) (hi : Issued s.job) :
    s.job.todo.count (.doneCount j c) + s.job.todo.count (.subcoreCommit j c) +
      s.job.todo.count (.doneClear j c) + s.underway j c ≤ s.job.hist.count (.commit j) := by
  have hissued := hi.issued j c
  have hcounted := hm.counted j c
  omega

theorem quiet_iff : s.quiet c = true ↔ s.executing c = false ∧ s.raised c = none := by
  simp [LineState.quiet]

theorem underway_of_quiet (hc : s.quiet c = true) : s.underway j c = 0 := by
  obtain ⟨hexec, hraised⟩ := quiet_iff.mp hc
  simp [LineState.underway, hexec, hraised]

theorem quiet_of_underway (hj : (s.job.dev.subcoreDatas c).job = some j)
    (hzero : s.underway j c = 0) : s.quiet c = true := by
  unfold LineState.underway at hzero
  rw [if_pos hj] at hzero
  rw [quiet_iff]
  constructor
  · by_contra hexec
    rw [if_pos (Bool.not_eq_false _ ▸ hexec)] at hzero
    omega
  · by_contra hraised
    rw [if_neg hraised] at hzero
    omega

/-- While a job works on a core by a block, its batch does not execute. -/
theorem Manned.quiet_of_mem (hm : Manned s) (hi : Issued s.job) (hk : Known cfg s.job)
    (hop : op ∈ s.job.todo) (hcore : coreOf op = some (j, c))
    (hstatus : ∀ k d, op ≠ .irqStatus k d) : s.quiet c = true := by
  refine quiet_of_underway (hm.current op hop j c hcore) ?_
  have hone := hm.under_one hi (j := j) (c := c)
  have hcommit := hk.countdown.commit_le_one (j := j)
  have hpos : 0 < s.job.todo.count (.doneCount j c) + s.job.todo.count (.subcoreCommit j c) +
      s.job.todo.count (.doneClear j c) := by
    have hcount := Multiset.count_pos.mpr hop
    cases op with
    | irqStatus k d => exact (hstatus k d rfl).elim
    | subcoreCommit | doneCount | doneClear =>
      cases hcore
      omega
    | _ => cases hcore
  omega

theorem startsBatch_iff (heff : jobExec cfg s.job.dev o op = some eff) :
    startsBatch cfg s.job.dev o op c = true → ∃ k, op = .subcoreCommit k c ∧
      startsOn k c eff.events = 1 := by
  intro hstart
  cases op with
  | subcoreCommit k d =>
    simp only [startsBatch, decide_eq_true_eq] at hstart
    obtain ⟨rfl, hpc, herr⟩ := hstart
    exact ⟨k, rfl, by rw [events_startsOn heff, if_pos ⟨rfl, hpc, herr⟩]⟩
  | _ => cases hstart

theorem Manned.kept_exec (hm : Manned s) (hi : Issued s.job) (hs : Lined cfg s)
    (ho : Orderly cfg s o op) (hop : s.job.todo = op ::ₘ others)
    (heff : jobExec cfg s.job.dev o op = some eff) (hdev : t.job.dev = eff.dev)
    (htodo : t.job.todo = (eff.calls : Multiset JobOp) + others) :
    ∀ x ∈ t.job.todo, ∀ j c, coreOf x = some (j, c) → (t.job.dev.subcoreDatas c).job = some j := by
  have hmem : op ∈ s.job.todo := by simp [hop]
  intro x hx j c hj
  have hold : (s.job.dev.subcoreDatas c).job = some j := by
    rw [htodo, Multiset.mem_add] at hx
    obtain hx | hx := hx
    · obtain hop' | ⟨rfl, hcur⟩ | ⟨rfl, hc⟩ := calls_coreOf heff (Multiset.mem_coe.mp hx) hj
      · exact hm.current op hmem j c hop'
      · exact hcur
      · exact ho.kept j c rfl hc
    · exact hm.current x (by simp [hop, hx]) j c hj
  rw [hdev]
  obtain hcur | ⟨k, rfl⟩ | haway := current_kept heff hold
  · exact hcur
  · obtain rfl : k = j := by
      have hcur := hm.current _ hmem k c rfl
      rw [hold] at hcur
      exact (Option.some.inj hcur).symm
    exfalso
    rw [htodo, Multiset.mem_add] at hx
    obtain hx | hx := hx
    · cases heff
      simp only [jobDoneClear, Effect.goto, Multiset.mem_coe, List.mem_cons, List.not_mem_nil,
        or_false] at hx
      obtain rfl | rfl := hx
      · cases hj
      · cases hj
    · by_cases hline : lineOf x = some c
      · exact hs.handled.exclusive hop rfl x hx hline
      · have hone := hm.under_one hi (j := k) (c := c)
        have hcommit := hs.known.countdown.commit_le_one (j := k)
        have hsub : x = .subcoreCommit k c := by
          cases x <;> cases hj <;> first | rfl | exact (hline rfl).elim
        have hsubs : 0 < s.job.todo.count (.subcoreCommit k c) :=
          Multiset.count_pos.mpr (by simp [hop, ← hsub, hx])
        have hclears : 0 < s.job.todo.count (.doneClear k c) := Multiset.count_pos.mpr hmem
        omega
  · exfalso
    have hno := ho.left j c haway hold
    rw [htodo, Multiset.mem_add] at hx
    obtain hx | hx := hx
    · obtain hop' | ⟨rfl, -⟩ | ⟨rfl, -⟩ := calls_coreOf heff (Multiset.mem_coe.mp hx) hj
      · exact hno op hmem hop'
      · cases haway
      · cases haway
    · exact hno x (by simp [hop, hx]) hj

theorem executing_ran (ht : t = s.ran cfg o op t.job) (hc : t.executing c = true) :
    startsBatch cfg s.job.dev o op c = true ∨ s.executing c = true := by
  rw [ht] at hc
  simp only [LineState.ran, Bool.or_eq_true, Bool.and_eq_true] at hc
  exact hc.imp_right And.left

theorem raised_ran (ht : t = s.ran cfg o op t.job) (hc : t.raised c ≠ none) :
    s.raised c ≠ none ∧ clearsStatus s.job.dev o op c = false := by
  rw [ht] at hc
  simp only [LineState.ran] at hc
  split_ifs at hc with hclear
  · exact (hc rfl).elim
  · exact ⟨hc, Bool.eq_false_iff.mpr hclear⟩

theorem quiet_ran (ht : t = s.ran cfg o op t.job) (hc : s.quiet c = true)
    (hstart : startsBatch cfg s.job.dev o op c = false) : t.quiet c = true := by
  obtain ⟨hidle, hnone⟩ := quiet_iff.mp hc
  refine quiet_iff.mpr ⟨?_, ?_⟩
  · rw [Bool.eq_false_iff]
    intro hx
    obtain hx | hx := executing_ran ht hx
    · rw [hstart] at hx
      cases hx
    · rw [hidle] at hx
      cases hx
  · by_contra hx
    exact (raised_ran ht hx).1 hnone

/-- A block adds to what is under way on a core what it starts, and takes off what it accepts. -/
theorem Manned.underway_exec (hm : Manned s) (ho : Orderly cfg s o op)
    (hop : s.job.todo = op ::ₘ others)
    (hstatus : ∀ j c, op = .irqStatus j c → s.raised c = none → o.status = 0)
    (heff : jobExec cfg s.job.dev o op = some eff) (hdev : t.job.dev = eff.dev)
    (ht : t = s.ran cfg o op t.job) :
    t.underway j c + (if op = .irqStatus j c ∧
      rknpuFuzzStatus o.status = (s.job.dev.jobs j).intMask c then 1 else 0) ≤
      s.underway j c + startsOn j c eff.events := by
  have hmem : op ∈ s.job.todo := by simp [hop]
  by_cases hcur : (t.job.dev.subcoreDatas c).job = some j
  · rw [hdev] at hcur
    obtain hold | ⟨rfl, hpop⟩ := current_exec heff hcur
    · have hstart : (if t.executing c then 1 else 0) ≤
          (if s.executing c then 1 else 0) + startsOn j c eff.events := by
        by_cases hx : t.executing c = true
        · obtain hx' | hx' := executing_ran ht hx
          · obtain ⟨k, rfl, hone⟩ := startsBatch_iff heff hx'
            have hk := hm.current _ hmem k c rfl
            rw [hold] at hk
            cases hk
            rw [if_pos hx]
            omega
          · rw [if_pos hx, if_pos hx']
            exact Nat.le_add_right _ _
        · rw [if_neg hx]
          exact Nat.zero_le _
      have haccept : (if t.raised c = none then 0 else 1) + (if op = .irqStatus j c ∧
          rknpuFuzzStatus o.status = (s.job.dev.jobs j).intMask c then 1 else 0) ≤
            if s.raised c = none then 0 else 1 := by
        by_cases hacc : op = .irqStatus j c ∧
            rknpuFuzzStatus o.status = (s.job.dev.jobs j).intMask c
        · obtain ⟨rfl, hint⟩ := hacc
          have hne : s.raised c ≠ none := by
            intro hnone
            rw [hstatus j c rfl hnone, fuzzStatus_zero] at hint
            apply ho.matched j c rfl
            · rw [hstatus j c rfl hnone, fuzzStatus_zero]
              exact hint
            · exact hint.symm
          have hnone : t.raised c = none := by
            by_contra hcon
            have hclear := (raised_ran ht hcon).2
            simp [clearsStatus] at hclear
          rw [if_pos hnone, if_neg hne, if_pos ⟨rfl, hint⟩]
        · rw [if_neg hacc]
          by_cases hnone : t.raised c = none
          · rw [if_pos hnone]
            exact Nat.zero_le _
          · rw [if_neg hnone, if_neg (raised_ran ht hnone).1]
      unfold LineState.underway
      rw [hdev, if_pos hcur, if_pos hold]
      omega
    · have hquiet : t.quiet c = true := quiet_ran ht (ho.quiet j c rfl hpop) rfl
      rw [underway_of_quiet hquiet, if_neg (by simp)]
      exact Nat.zero_le _
  · have hzero : t.underway j c = 0 := if_neg hcur
    rw [hzero, Nat.zero_add]
    by_cases hacc : op = .irqStatus j c ∧
        rknpuFuzzStatus o.status = (s.job.dev.jobs j).intMask c
    · exfalso
      obtain ⟨rfl, -⟩ := hacc
      apply hcur
      rw [hdev, current_eq heff]
      exact hm.current _ hmem j c rfl
    · rw [if_neg hacc]
      exact Nat.zero_le _

theorem Manned.exec (hm : Manned s) (hi : Issued s.job) (hs : Lined cfg s)
    (ho : Orderly cfg s o op) (hop : s.job.todo = op ::ₘ others)
    (hstatus : ∀ j c, op = .irqStatus j c → s.raised c = none → o.status = 0)
    (heff : jobExec cfg s.job.dev o op = some eff) (hdev : t.job.dev = eff.dev)
    (htodo : t.job.todo = (eff.calls : Multiset JobOp) + others)
    (hhist : t.job.hist = s.job.hist ++ eff.events) (ht : t = s.ran cfg o op t.job) : Manned t := by
  refine ⟨hm.kept_exec hi hs ho hop heff hdev htodo, fun j c => ?_⟩
  have hold := hm.counted j c
  have hunder := hm.underway_exec ho hop hstatus heff hdev ht (j := j) (c := c)
  have hcounts := count_exec hop htodo (.doneCount j c)
  rw [calls_doneCount_count heff] at hcounts
  rw [hhist, startsOn_append, completesOn_append, events_complete heff]
  omega

theorem Manned.keep (hm : Manned s) (new : Multiset JobOp)
    (hcores : t.job.dev.subcoreDatas = s.job.dev.subcoreDatas)
    (hunder : ∀ j c, t.underway j c ≤ s.underway j c)
    (hstarts : ∀ j c, startsOn j c t.job.hist = startsOn j c s.job.hist)
    (hcompletes : ∀ j c, completesOn j c t.job.hist = completesOn j c s.job.hist)
    (htodo : t.job.todo = new + s.job.todo) (hnew : ∀ op ∈ new, coreOf op = none) : Manned t := by
  refine ⟨fun x hx j c hj => ?_, fun j c => ?_⟩
  · rw [htodo, Multiset.mem_add] at hx
    obtain hx | hx := hx
    · rw [hnew x hx] at hj
      cases hj
    · rw [hcores]
      exact hm.current x hx j c hj
  · have hnone : new.count (.doneCount j c) = 0 := by
      refine Multiset.count_eq_zero.mpr fun hmem => ?_
      have hcon := hnew _ hmem
      cases hcon
    rw [hstarts, hcompletes, htodo, Multiset.count_add, hnone, Nat.zero_add]
    exact (Nat.add_le_add_left (hunder j c) _).trans (hm.counted j c)

/-- A condition on the block that a step runs. -/
def runsBlock (g : Outcome → JobOp → Prop) (s : LineState) : LineLabel → Prop
  | .job (.exec tid o) => ∀ op rest, nextBlock s.job.threads tid = some (op, rest) → g o op
  | _ => True

theorem runsBlock_imp {g g' : Outcome → JobOp → Prop}
    (hg : ∀ o, ∀ op ∈ s.job.todo, g o op → g' o op) (h : runsBlock g s a) : runsBlock g' s a := by
  cases a with
  | complete c => trivial
  | job b =>
    cases b with
    | exec tid o =>
      intro op rest hnext
      exact hg o op (mem_pending_of_nextBlock hnext) (h op rest hnext)
    | _ => trivial

theorem LineMoved.manned (h : LineMoved cfg s t a) (hs : Lined cfg s) (hi : Issued s.job)
    (hm : Manned s) (ho : runsBlock (Orderly cfg s) s a) : Manned t := by
  cases h with
  | @complete d hexec ht =>
    refine hm.keep 0 (by rw [ht]) (fun j c => ?_) (fun j c => by rw [ht]) (fun j c => by rw [ht])
      (by rw [ht, zero_add]) fun op hop => (Multiset.notMem_zero op hop).elim
    rw [ht]
    unfold LineState.underway
    by_cases hc : c = d
    · subst hc
      simp only [if_true, hexec, Bool.false_eq_true, if_false]
      split_ifs <;> omega
    · simp only [if_neg hc]
      exact Nat.le_refl _
  | @irq d h hidle hdev hhist hthreads ht =>
    refine hm.keep {.irqEntry d} (by rw [hdev]) (fun j c => ?_) (fun j c => by rw [hhist])
      (fun j c => by rw [hhist]) ?_ fun op hop => ?_
    · rw [ht]
      unfold LineState.underway
      rw [hdev]
    · exact todo_of_threads hthreads
    · rw [Multiset.mem_singleton.mp hop]
      rfl
  | exec h hnext hstatus heff hop hdev htodo hhist hthreads ht =>
    exact hm.exec hi hs (ho _ _ hnext) hop hstatus heff hdev htodo hhist ht
  | submit h hmask hdev hhist hthreads ht =>
    have hgets := OnlyGets.of_submit hhist
    refine hm.keep {.fenceIn s.job.dev.numJobs} (by rw [hdev]; rfl) (fun j c => ?_)
      hgets.startsOn hgets.completesOn ?_ fun op hop => ?_
    · rw [ht]
      unfold LineState.underway
      rw [hdev]
      exact Nat.le_refl _
    · exact todo_of_threads hthreads
    · rw [Multiset.mem_singleton.mp hop]
      rfl
  | spawn h hmoved hrunning hthreads ht =>
    obtain ⟨new, htodo, hnew⟩ := hmoved.todo
    refine hm.keep new hmoved.subcoreDatas (fun j c => ?_) (fun j c => by rw [hmoved.hist])
      (fun j c => by rw [hmoved.hist]) htodo fun op hop => ?_
    · rw [ht]
      unfold LineState.underway
      rw [hmoved.subcoreDatas]
    · have hstart := hnew op hop
      cases op <;> first | exact hstart.elim | rfl

theorem manned_init {now : ℕ} : Manned ⟨⟨.probed now, [], []⟩, fun _ => none, fun _ => false,
    fun _ => none, fun _ _ => false⟩ where
  current op hop := (Multiset.notMem_zero op hop).elim
  counted _ _ := Nat.le_refl 0

end

/-! ## Cores that no job has -/

/-- The job will not be committed any more. -/
structure Dead (s : JobState) (j : ℕ) : Prop where
  past : Past s j
  listed : ∀ c, j ∉ (s.dev.subcoreDatas c).todoList
  dec : .decRunCount j ∉ s.todo
  commit : .commit j ∉ s.todo

/-- Nothing of job `j` is left to do on core `c`. -/
structure Vacant (s : LineState) (j c : ℕ) : Prop where
  quiet : s.quiet c = true
  blocks : ∀ op ∈ s.job.todo, coreOf op ≠ some (j, c)
  dead : Dead s.job j

/-- An interrupt is accepted only for a job whose `int_mask` is set, and a core is taken away only
from a job of which nothing is left to do there. -/
structure Vacates (cfg : Config) (s : LineState) (o : Outcome) (op : JobOp) : Prop where
  matched : ∀ j c, op = .irqStatus j c → rknpuFuzzStatus o.status = (s.job.dev.jobs j).intMask c →
    (s.job.dev.jobs j).intMask c ≠ 0
  vacant : ∀ j c, takesAway cfg s.job.dev op c = true → (s.job.dev.subcoreDatas c).job = some j →
    Vacant s j c

structure Vacating (s : LineState) : Prop where
  idle : ∀ c, (s.job.dev.subcoreDatas c).job = none → s.quiet c = true
  claimed : ∀ j c, j ∈ popsOn c s.job.hist →
    (s.job.dev.subcoreDatas c).job = some j ∨ s.cleared j c = true ∨ Dead s.job j
  begun : ∀ j c, 0 < startsOn j c s.job.hist → .commit j ∈ s.job.hist
  ended : ∀ j c, .doneClear j c ∈ s.job.todo ∨ s.cleared j c = true → 0 < startsOn j c s.job.hist

section
variable {cfg : Config} {s t : LineState} {a : LineLabel} {o : Outcome} {op : JobOp} {eff : Effect}
  {others : Multiset JobOp} {j c : ℕ}

theorem Dead.exec {s t : JobState} {a : JobLabel} (hj : Dead s j) (h : Stepped cfg s t a)
    (hop : s.todo = op ::ₘ others) (heff : jobExec cfg s.dev o op = some eff)
    (hdev : t.dev = eff.dev) (htodo : t.todo = (eff.calls : Multiset JobOp) + others) :
    Dead t j := by
  have hmem : op ∈ s.todo := by simp [hop]
  refine ⟨(hj.past.stepped h).1, fun c hc => ?_, fun hcon => ?_, fun hcon => ?_⟩
  · rw [hdev, todoList_eq heff] at hc
    obtain hc | ⟨rfl, -⟩ := mem_todoListAfter hc
    · exact hj.listed c hc
    · exact hj.past.2 _ hmem rfl
  · rw [htodo, Multiset.mem_add] at hcon
    obtain hcon | hcon := hcon
    · obtain ⟨c, -, -, hlist⟩ := pops_holds (calls_decRunCount heff (Multiset.mem_coe.mp hcon))
      exact hj.listed c hlist
    · exact hj.dec (by simp [hop, hcon])
  · rw [htodo, Multiset.mem_add] at hcon
    obtain hcon | hcon := hcon
    · have hdec := (calls_commit heff (Multiset.mem_coe.mp hcon)).1
      exact hj.dec (by rw [← hdec]; exact hmem)
    · exact hj.commit (by simp [hop, hcon])

theorem Dead.keep {s t : JobState} (hj : Dead s j) {a : JobLabel} (h : Stepped cfg s t a)
    (new : Multiset JobOp) (hcores : t.dev.subcoreDatas = s.dev.subcoreDatas)
    (htodo : t.todo = new + s.todo) (hnew : ∀ op ∈ new, taken op = none) : Dead t j := by
  have hno : ∀ op, taken op ≠ none → op ∈ t.todo → op ∈ s.todo := by
    intro op hop hmem
    rw [htodo, Multiset.mem_add] at hmem
    exact hmem.resolve_left fun hcon => hop (hnew op hcon)
  refine ⟨(hj.past.stepped h).1, fun c => ?_, fun hcon => ?_, fun hcon => ?_⟩
  · rw [hcores]
    exact hj.listed c
  · exact hj.dec (hno _ (by simp [taken]) hcon)
  · exact hj.commit (hno _ (by simp [taken]) hcon)

/-- While a batch of a job is called for, started, counted or ended, the job is committed. -/
theorem Manned.committed_of_mem (hm : Manned s) (hi : Issued s.job) (hop : op ∈ s.job.todo)
    (hcore : coreOf op = some (j, c)) (hstatus : ∀ k d, op ≠ .irqStatus k d) :
    .commit j ∈ s.job.hist := by
  have hone := hm.under_one hi (j := j) (c := c)
  have hcount := Multiset.count_pos.mpr hop
  refine List.count_pos_iff.mp ?_
  cases op with
  | irqStatus k d => exact (hstatus k d rfl).elim
  | subcoreCommit | doneCount | doneClear =>
    cases hcore
    omega
  | _ => cases hcore

/-- The blocks of runs that only give up cores on which nothing is left to do are in order. -/
theorem Vacating.orderly (hv : Vacating s) (hs : Lined cfg s) (hcfg : cfg.Sound)
    (ho : Vacates cfg s o op) (hop : op ∈ s.job.todo) : Orderly cfg s o op := by
  refine ⟨ho.matched, fun j c hpop hj => ?_, fun j c hcommit hc => ?_,
    fun j c haway hj => (ho.vacant j c haway hj).blocks⟩
  · obtain ⟨d, hd, hnone, -⟩ := pops_holds hj
    rw [hpop] at hd
    cases hd
    exact hv.idle c hnone
  · subst hcommit
    have hq := (hs.known.taken.worked _ hop j rfl).1
    have hon := (mem_commitCores (List.ne_nil_of_mem hc)).mp hc
    have hle := hs.known.chosen.masks j (hs.known.taken.past j hq).1
    have hmem := mem_coresOf.mpr ⟨hcfg.masked _ hle c hon, hon⟩
    have hone := hs.known.countdown.commit_le_one (j := j)
    have htodo := Multiset.count_pos.mpr hop
    obtain hcur | hcleared | hdead := hv.claimed j c
      (hs.known.countdown.all_popped (Or.inr hop) hmem)
    · exact hcur
    · have hhist := List.count_pos_iff.mpr (hv.begun j c (hv.ended j c (Or.inr hcleared)))
      omega
    · exact (hdead.commit hop).elim

theorem Vacating.exec (hv : Vacating s) (hm : Manned s) (hi : Issued s.job) (hs : Lined cfg s)
    (ho : Vacates cfg s o op) {b : JobLabel} (h : Stepped cfg s.job t.job b)
    (hop : s.job.todo = op ::ₘ others) (heff : jobExec cfg s.job.dev o op = some eff)
    (hdev : t.job.dev = eff.dev) (htodo : t.job.todo = (eff.calls : Multiset JobOp) + others)
    (hhist : t.job.hist = s.job.hist ++ eff.events) (ht : t = s.ran cfg o op t.job) :
    Vacating t := by
  have hmem : op ∈ s.job.todo := by simp [hop]
  refine ⟨fun c hc => ?_, fun j c hj => ?_, fun j c hj => ?_, fun j c hj => ?_⟩
  · rw [hdev] at hc
    cases hcur : (s.job.dev.subcoreDatas c).job with
    | none =>
      refine quiet_ran ht (hv.idle c hcur) (Bool.eq_false_iff.mpr fun hstart => ?_)
      obtain ⟨k, rfl, -⟩ := startsBatch_iff heff hstart
      have hk := hm.current _ hmem k c rfl
      rw [hcur] at hk
      cases hk
    | some k =>
      obtain hk | ⟨i, rfl⟩ | haway := current_kept heff hcur
      · rw [hc] at hk
        cases hk
      · exact quiet_ran ht (hm.quiet_of_mem hi hs.known hmem rfl (by simp)) rfl
      · have hquiet := (ho.vacant k c haway hcur).quiet
        refine quiet_ran ht hquiet (Bool.eq_false_iff.mpr fun hstart => ?_)
        obtain ⟨i, rfl, -⟩ := startsBatch_iff heff hstart
        cases haway
  · rw [hhist, popsOn_append, List.mem_append, mem_popsOn heff] at hj
    obtain hj | ⟨rfl, hpop⟩ := hj
    · obtain hcur | hcleared | hdead := hv.claimed j c hj
      · obtain hkept | ⟨k, rfl⟩ | haway := current_kept heff hcur
        · exact Or.inl (by rw [hdev]; exact hkept)
        · have hk := hm.current _ hmem k c rfl
          rw [hcur] at hk
          cases hk
          exact Or.inr (Or.inl ((cleared_ran ht j c).mpr (Or.inr rfl)))
        · exact Or.inr (Or.inr ((ho.vacant j c haway hcur).dead.exec h hop heff hdev htodo))
      · exact Or.inr (Or.inl ((cleared_ran ht j c).mpr (Or.inl hcleared)))
      · exact Or.inr (Or.inr (hdead.exec h hop heff hdev htodo))
    · left
      obtain ⟨d, hd, hnone, -⟩ := pops_holds hpop
      cases hd
      rw [hdev, current_eq heff, currentAfter, if_pos ⟨rfl, hnone⟩]
      simp only [pops, if_pos hnone] at hpop
      exact hpop
  · rw [hhist, startsOn_append] at hj
    rw [hhist]
    refine List.mem_append_left _ ?_
    by_cases hold : 0 < startsOn j c s.job.hist
    · exact hv.begun j c hold
    · have hstart : 0 < startsOn j c eff.events := by omega
      rw [events_startsOn heff] at hstart
      split_ifs at hstart with hcond
      · obtain ⟨rfl, -⟩ := hcond
        exact hm.committed_of_mem hi hmem rfl (by simp)
      · exact (Nat.lt_irrefl 0 hstart).elim
  · rw [hhist, startsOn_append]
    refine Nat.add_pos_left ?_ _
    obtain hj | hj := hj
    · rw [htodo, Multiset.mem_add] at hj
      obtain hj | hj := hj
      · have hdone := (calls_doneClear heff (Multiset.mem_coe.mp hj)).1
        have hcounted := hm.counted j c
        have hpos := Multiset.count_pos.mpr (hdone ▸ hmem)
        omega
      · exact hv.ended j c (Or.inl (by simp [hop, hj]))
    · obtain hj | rfl := (cleared_ran ht j c).mp hj
      · exact hv.ended j c (Or.inr hj)
      · exact hv.ended j c (Or.inl hmem)

theorem Vacating.keep (hv : Vacating s) {b : JobLabel} (h : Stepped cfg s.job t.job b)
    (new : Multiset JobOp) (hcores : t.job.dev.subcoreDatas = s.job.dev.subcoreDatas)
    (hquiet : ∀ c, s.quiet c = true → t.quiet c = true) (hcleared : t.cleared = s.cleared)
    (hpops : ∀ c, popsOn c t.job.hist = popsOn c s.job.hist)
    (hstarts : ∀ j c, startsOn j c t.job.hist = startsOn j c s.job.hist)
    (hcommits : ∀ j, .commit j ∈ s.job.hist → .commit j ∈ t.job.hist)
    (htodo : t.job.todo = new + s.job.todo) (hnew : ∀ op ∈ new, taken op = none) : Vacating t := by
  refine ⟨fun c hc => ?_, fun j c hj => ?_, fun j c hj => ?_, fun j c hj => ?_⟩
  · rw [hcores] at hc
    exact hquiet c (hv.idle c hc)
  · rw [hpops] at hj
    rw [hcores, hcleared]
    obtain hcur | hcl | hdead := hv.claimed j c hj
    · exact Or.inl hcur
    · exact Or.inr (Or.inl hcl)
    · exact Or.inr (Or.inr (hdead.keep h new hcores htodo hnew))
  · rw [hstarts] at hj
    exact hcommits j (hv.begun j c hj)
  · rw [hstarts]
    rw [hcleared] at hj
    refine hv.ended j c (hj.imp_left fun hmem => ?_)
    rw [htodo, Multiset.mem_add] at hmem
    refine hmem.resolve_left fun hcon => ?_
    have hno := hnew _ hcon
    cases hno

theorem LineMoved.vacating (h : LineMoved cfg s t a) (hs : Lined cfg s) (hi : Issued s.job)
    (hm : Manned s) (hv : Vacating s) (ho : runsBlock (Vacates cfg s) s a) : Vacating t := by
  cases h with
  | @complete d hexec ht =>
    have hquiet : ∀ c, s.quiet c = true → t.quiet c = true := by
      intro c hc
      obtain ⟨hidle, hnone⟩ := quiet_iff.mp hc
      have hcd : c ≠ d := by
        rintro rfl
        rw [hexec] at hidle
        cases hidle
      rw [ht, quiet_iff]
      simp only [if_neg hcd]
      exact ⟨hidle, hnone⟩
    refine ⟨fun c hc => ?_, ?_, ?_, ?_⟩
    · rw [ht] at hc
      exact hquiet c (hv.idle c hc)
    · rw [ht]
      exact hv.claimed
    · rw [ht]
      exact hv.begun
    · rw [ht]
      exact hv.ended
  | @irq d h hidle hdev hhist hthreads ht =>
    refine hv.keep h {.irqEntry d} (by rw [hdev]) (fun c hc => by rw [ht]; exact hc) (by rw [ht])
      (fun c => by rw [hhist]) (fun j c => by rw [hhist]) (fun j hj => by rw [hhist]; exact hj) ?_
      fun op hop => ?_
    · exact todo_of_threads hthreads
    · rw [Multiset.mem_singleton.mp hop]
      rfl
  | exec h hnext hstatus heff hop hdev htodo hhist hthreads ht =>
    exact hv.exec hm hi hs (ho _ _ hnext) h hop heff hdev htodo hhist ht
  | submit h hmask hdev hhist hthreads ht =>
    have hgets := OnlyGets.of_submit hhist
    refine hv.keep h {.fenceIn s.job.dev.numJobs} (by rw [hdev]; rfl)
      (fun c hc => by rw [ht]; exact hc) (by rw [ht]) hgets.popsOn hgets.startsOn
      (fun j hj => (hgets.mem_iff (by simp)).mpr hj) ?_ fun op hop => ?_
    · exact todo_of_threads hthreads
    · rw [Multiset.mem_singleton.mp hop]
      rfl
  | spawn h hmoved hrunning hthreads ht =>
    obtain ⟨new, htodo, hnew⟩ := hmoved.todo
    refine hv.keep h new hmoved.subcoreDatas (fun c hc => by rw [ht]; exact hc) (by rw [ht])
      (fun c => by rw [hmoved.hist]) (fun j c => by rw [hmoved.hist])
      (fun j hj => by rw [hmoved.hist]; exact hj) htodo fun op hop => ?_
    have hstart := hnew op hop
    cases op <;> first | exact hstart.elim | rfl

theorem vacating_init {now : ℕ} : Vacating ⟨⟨.probed now, [], []⟩, fun _ => none, fun _ => false,
    fun _ => none, fun _ _ => false⟩ where
  idle _ _ := rfl
  claimed _ _ hj := (List.not_mem_nil hj).elim
  begun _ _ hj := (Nat.lt_irrefl 0 hj).elim
  ended _ _ hj := by
    obtain hj | hj := hj
    · exact (Multiset.notMem_zero _ hj).elim
    · cases hj

/-- What holds in every state of every run whose blocks are in order. -/
structure Worked (cfg : Config) (s : LineState) : Prop where
  lined : Lined cfg s
  issued : Issued s.job
  manned : Manned s

theorem LineMoved.issued (h : LineMoved cfg s t a) (hs : Lined cfg s) (hi : Issued s.job) :
    Issued t.job := by
  cases h with
  | complete hexec ht =>
    rw [ht]
    exact hi
  | irq h | exec h | submit h | spawn h => exact hi.step hs.known h

theorem LineMoved.worked (h : LineMoved cfg s t a) (hcfg : cfg.Sound) (hs : Worked cfg s)
    (ho : runsBlock (Orderly cfg s) s a) : Worked cfg t :=
  ⟨h.lined hcfg hs.lined, h.issued hs.lined hs.issued, h.manned hs.lined hs.issued hs.manned ho⟩

theorem worked_init {now : ℕ} : Worked cfg ⟨⟨.probed now, [], []⟩, fun _ => none, fun _ => false,
    fun _ => none, fun _ _ => false⟩ := ⟨lined_init, issued_init, manned_init⟩

/-- Runs that only give up cores on which nothing is left to do. -/
theorem LineMoved.vacated (h : LineMoved cfg s t a) (hcfg : cfg.Sound) (hs : Worked cfg s)
    (hv : Vacating s) (ho : runsBlock (Vacates cfg s) s a) : Worked cfg t ∧ Vacating t :=
  ⟨h.worked hcfg hs (runsBlock_imp (fun _ _ hop ho => hv.orderly hs.lined hcfg ho hop) ho),
    h.vacating hs.lined hs.issued hs.manned hv ho⟩

end
end RknpuDriver.Job
