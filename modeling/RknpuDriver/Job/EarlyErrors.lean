import RknpuDriver.Job.Runs
import Mathlib.Tactic.SplitIfs

/-! # The errors of `rknpu_submit` before `rknpu_job_schedule`

`submitEarly` is `rknpu_submit` up to the branch on `RKNPU_JOB_NONBLOCK`, with a log of what it
takes and gives back. It is the first blocks of the job's thread (`submitAlloc_eq`,
`Early.fenceIn_eq`, `Early.fenceOut_eq`, `jobFreeRefs_events`).

* `Freeable`: `rknpu_job_free` gives back what was taken so far.
* `early_error_released`: all is given back, unless the in-fence fails.
-/

namespace RknpuDriver.Job
set_option autoImplicit false

/-! ## What is taken and given back -/

inductive Ref where
  | job
  | args
  | gem (taskObjAddr : UInt64)
  | inFence
  | outFence
  deriving DecidableEq, Repr

inductive RefEvent where
  | get (r : Ref)
  | put (r : Ref)
  deriving DecidableEq, Repr

/-- `jobAlloc`, `argsAlloc` and `fenceAlloc` are the allocations of the job, of the copy of its
arguments and of its out-fence. `inFence` is what `sync_file_get_fence` finds, with the result of
`dma_fence_match_context`, and `wait` the result of `dma_fence_wait_timeout`, a `long`. -/
structure EarlyOutcome where
  jobAlloc : Bool
  argsAlloc : Bool
  inFence : Option Bool
  wait : ℤ
  fenceAlloc : Bool
  deriving DecidableEq, Repr

structure Early where
  job : RknpuJob
  refs : List RefEvent

structure EarlyError where
  ret : ℤ
  refs : List RefEvent
  deriving DecidableEq, Repr

/-- `rknpu_job_free`. -/
def jobFreeRefs (job : RknpuJob) : List RefEvent :=
  (if job.useDrmGem ∧ job.args.taskObjAddr ≠ 0 then [.put (.gem job.args.taskObjAddr)] else []) ++
    (if job.fence.isSome then [.put .outFence] else []) ++
    (if job.argsOwner then [.put .args] else []) ++ [.put .job]

/-- `rknpu_job_alloc`, which frees the job when the copy of the arguments fails. -/
def jobAllocRefs (dev : Dev) (args : Submit) (useDrmGem : Bool) (o : EarlyOutcome) :
    List RefEvent × Option RknpuJob :=
  if !o.jobAlloc then ([], none)
  else if args.flags &&& rknpuJobNonblock = 0 then
    ([.get .job], some (rknpuJobAlloc dev args useDrmGem))
  else if !o.argsAlloc then ([.get .job, .put .job], none)
  else ([.get .job, .get .args], some (rknpuJobAlloc dev args useDrmGem))

/-- `rknpu_submit`, up to the reference on the task object. -/
def submitAlloc (cfg : Config) (dev : Dev) (args : Submit) (useDrmGem : Bool) (o : EarlyOutcome) :
    Except EarlyError Early :=
  if args.taskNumber = 0 then .error ⟨-einval, []⟩
  else if cfg.coreMask < args.coreMask then .error ⟨-einval, []⟩
  else
    match jobAllocRefs dev args useDrmGem o with
    | (refs, none) => .error ⟨-enomem, refs⟩
    | (refs, some job) => .ok ⟨job, refs ++
        if useDrmGem ∧ args.taskObjAddr ≠ 0 then [.get (.gem args.taskObjAddr)] else []⟩

/-- The job is freed, and `rknpu_submit` returns. -/
def Early.freed (e : Early) (ret : ℤ) : EarlyError := ⟨ret, e.refs ++ jobFreeRefs e.job⟩

/-- The result of the wait for an in-fence, in an `int`. -/
def waitRet (own : Bool) (o : EarlyOutcome) : ℤ := if own then 0 else toInt32 o.wait

/-- The branch on `RKNPU_JOB_FENCE_IN`; `fence` is `CONFIG_ROCKCHIP_RKNPU_FENCE`. -/
def Early.fenceIn (e : Early) (fence : Bool) (o : EarlyOutcome) : Except EarlyError Early :=
  if e.job.args.flags &&& rknpuJobFenceIn = 0 then .ok e
  else if !fence then .error (e.freed (-einval))
  else
    match o.inFence with
    | none => .error ⟨-einval, e.refs⟩
    | some own =>
      let refs := e.refs ++ [.get .inFence, .put .inFence]
      if waitRet own o < 0 then .error ⟨waitRet own o, refs⟩ else .ok ⟨e.job, refs⟩

/-- The branch on `RKNPU_JOB_FENCE_OUT`. No result of `rknpu_fence_get_fd` is an error. -/
def Early.fenceOut (e : Early) (fence : Bool) (dev : Dev) (o : EarlyOutcome) :
    Except EarlyError Early :=
  if e.job.args.flags &&& rknpuJobFenceOut = 0 then .ok e
  else if !fence then .error (e.freed (-einval))
  else if !o.fenceAlloc then .error (e.freed (-enomem))
  else .ok ⟨{ e.job with fence := some (nextSeqno dev.fenceSeqno) }, e.refs ++ [.get .outFence]⟩

/-- An error, or the job that `rknpu_job_schedule` is called for. -/
def submitEarly (cfg : Config) (fence : Bool) (dev : Dev) (args : Submit) (useDrmGem : Bool)
    (o : EarlyOutcome) : Except EarlyError Early := do
  let e ← submitAlloc cfg dev args useDrmGem o
  let e ← e.fenceIn fence o
  e.fenceOut fence dev o

/-! ## The blocks -/

/-- The events of the runs that take or give back. -/
def refEvent : Event → Option RefEvent
  | .gemGet taskObjAddr => some (.get (.gem taskObjAddr))
  | .gemPut taskObjAddr => some (.put (.gem taskObjAddr))
  | .fencePut _ _ => some (.put .outFence)
  | .free _ => some (.put .job)
  | _ => none

/-- The allocations of `rknpu_job_alloc` are one outcome of the block. -/
def allocOk (args : Submit) (o : EarlyOutcome) : Bool :=
  o.jobAlloc && (args.flags &&& rknpuJobNonblock = 0 || o.argsAlloc)

/-- The result of the in-fence is one outcome of the block. -/
def inFenceRet (o : EarlyOutcome) : ℤ :=
  match o.inFence with
  | none => -einval
  | some own => waitRet own o

section
variable {cfg : Config} {dev : Dev} {args : Submit} {useDrmGem fence : Bool} {o : EarlyOutcome}
  {b : Outcome} {e : Early} {j : ℕ}

/-- What `rknpu_job_alloc` takes. -/
def allocRefs (args : Submit) : List RefEvent :=
  if args.flags &&& rknpuJobNonblock = 0 then [.get .job] else [.get .job, .get .args]

theorem jobAllocRefs_of_ok (h : allocOk args o = true) : jobAllocRefs dev args useDrmGem o =
    (allocRefs args, some (rknpuJobAlloc dev args useDrmGem)) := by
  unfold allocOk at h
  rw [Bool.and_eq_true, Bool.or_eq_true, decide_eq_true_eq] at h
  obtain ⟨hjob, hargs⟩ := h
  unfold jobAllocRefs allocRefs
  rw [hjob]
  by_cases hflag : args.flags &&& rknpuJobNonblock = 0
  · simp [hflag]
  · simp [hflag, hargs.resolve_left hflag]

theorem jobAllocRefs_of_fail (dev : Dev) (useDrmGem : Bool) (h : allocOk args o = false) :
    ∃ refs, jobAllocRefs dev args useDrmGem o = (refs, none) ∧
      (refs = [] ∨ refs = [.get .job, .put .job]) := by
  unfold jobAllocRefs
  by_cases hjob : o.jobAlloc = true
  · have hargs : ¬ (args.flags &&& rknpuJobNonblock = 0) ∧ o.argsAlloc = false := by
      simpa [allocOk, hjob] using h
    rw [hjob, hargs.2]
    exact ⟨_, by simp [hargs.1], Or.inr rfl⟩
  · rw [Bool.not_eq_true] at hjob
    rw [hjob]
    exact ⟨_, rfl, Or.inl rfl⟩

theorem submitAlloc_eq : rknpuSubmit cfg dev args useDrmGem (allocOk args o) =
    match submitAlloc cfg dev args useDrmGem o with
    | .error err => .error err.ret
    | .ok e => .ok ⟨dev.addJob e.job, [.fenceIn dev.numJobs],
        if useDrmGem ∧ args.taskObjAddr ≠ 0 then [.gemGet args.taskObjAddr] else []⟩ := by
  unfold rknpuSubmit submitAlloc
  by_cases hnumber : args.taskNumber = 0
  · rw [if_pos hnumber, if_pos hnumber]
  · rw [if_neg hnumber, if_neg hnumber]
    by_cases hmask : cfg.coreMask < args.coreMask
    · rw [if_pos hmask, if_pos hmask]
    · rw [if_neg hmask, if_neg hmask]
      cases hok : allocOk args o with
      | true =>
        rw [jobAllocRefs_of_ok hok]
        rfl
      | false =>
        obtain ⟨refs, hrefs, -⟩ := jobAllocRefs_of_fail dev useDrmGem hok
        rw [hrefs]
        rfl

theorem Early.fenceIn_eq (hjob : dev.jobs j = e.job) (hret : b.ret = inFenceRet o) :
    submitFenceIn dev b j =
      match e.fenceIn true o with
      | .error err => ⟨dev, [], [.ret j err.ret]⟩
      | .ok _ => .goto dev [.fenceOut j] := by
  unfold submitFenceIn Early.fenceIn
  rw [hjob]
  by_cases hflag : e.job.args.flags &&& rknpuJobFenceIn = 0
  · rw [if_pos hflag, if_pos hflag]
  · rw [if_neg hflag, if_neg hflag]
    unfold inFenceRet at hret
    cases hfence : o.inFence with
    | none =>
      have hret : b.ret = -einval := by rw [hret, hfence]
      rw [if_pos (by rw [hret]; decide), hret]
      rfl
    | some own =>
      have hret : b.ret = waitRet own o := by rw [hret, hfence]
      simp only [Bool.not_true, Bool.false_eq_true, if_false]
      by_cases hneg : waitRet own o < 0
      · rw [if_pos (by rw [hret]; exact hneg), if_pos hneg, hret]
      · rw [if_neg (by rw [hret]; exact hneg), if_neg hneg]

theorem Early.fenceOut_eq (hjob : dev.jobs j = e.job)
    (hret : b.ret = if o.fenceAlloc then 0 else -enomem) :
    submitFenceOut dev b j =
      match e.fenceOut true dev o with
      | .error err => ⟨dev, [.free j], [.ret j err.ret]⟩
      | .ok _ =>
        if e.job.args.flags &&& rknpuJobFenceOut = 0 then .goto dev [.dispatch j]
        else .goto dev [.fenceInit j dev.fenceSeqno] := by
  unfold submitFenceOut Early.fenceOut
  rw [hjob]
  by_cases hflag : e.job.args.flags &&& rknpuJobFenceOut = 0
  · rw [if_pos hflag, if_pos hflag]
    exact (if_pos hflag).symm
  · rw [if_neg hflag, if_neg hflag]
    cases halloc : o.fenceAlloc with
    | false =>
      rw [halloc] at hret
      rw [if_pos (by rw [hret]; decide), hret]
      rfl
    | true =>
      rw [halloc] at hret
      rw [if_neg (by rw [hret]; decide)]
      exact (if_neg hflag).symm

/-- Of what `rknpu_job_free` gives back, the runs do not log the copy of the arguments. -/
theorem jobFreeRefs_events : (rknpuJobFree dev j).events.filterMap refEvent =
    (jobFreeRefs (dev.jobs j)).filter (· ≠ .put .args) := by
  unfold rknpuJobFree jobFreeRefs
  by_cases hgem : (dev.jobs j).useDrmGem = true ∧ (dev.jobs j).args.taskObjAddr ≠ 0 <;>
    cases hfence : (dev.jobs j).fence <;> cases (dev.jobs j).argsOwner <;>
      simp [hgem, hfence, refEvent]

/-! ## What is given back -/

/-- Each reference was given back as often as it was taken. -/
def Released (refs : List RefEvent) : Prop := ∀ r, refs.count (.get r) = refs.count (.put r)

/-- `rknpu_job_free` gives back what was taken so far. -/
def Freeable (e : Early) : Prop := Released (e.refs ++ jobFreeRefs e.job)

theorem released_nil : Released [] := fun _ => rfl

theorem Released.append {a b : List RefEvent} (ha : Released a) (hb : Released b) :
    Released (a ++ b) := by
  intro r
  rw [List.count_append, List.count_append, ha r, hb r]

theorem Released.perm {a b : List RefEvent} (ha : Released a) (h : a.Perm b) : Released b := by
  intro r
  rw [← h.count_eq, ← h.count_eq]
  exact ha r

theorem released_pair (r : Ref) : Released [.get r, .put r] := by
  intro x
  simp [List.count_cons]

theorem Freeable.refs_append (h : Freeable e) {refs : List RefEvent} (hrefs : Released refs) :
    Freeable ⟨e.job, e.refs ++ refs⟩ := by
  unfold Freeable
  have hperm : (e.refs ++ jobFreeRefs e.job ++ refs).Perm
      (e.refs ++ refs ++ jobFreeRefs e.job) := by
    rw [List.append_assoc, List.append_assoc]
    exact List.perm_append_comm.append_left e.refs
  exact (Released.append h hrefs).perm hperm

theorem jobFreeRefs_job (job : RknpuJob) :
    (jobFreeRefs job).count (.get .job) = 0 ∧ (jobFreeRefs job).count (.put .job) = 1 := by
  unfold jobFreeRefs
  constructor <;> split_ifs <;> rfl

theorem Freeable.not_released (h : Freeable e) :
    e.refs.count (.get .job) ≠ e.refs.count (.put .job) := by
  have hjob := h .job
  obtain ⟨hget, hput⟩ := jobFreeRefs_job e.job
  rw [List.count_append, List.count_append] at hjob
  omega

theorem submitAlloc_freeable (h : submitAlloc cfg dev args useDrmGem o = .ok e) :
    e.job = rknpuJobAlloc dev args useDrmGem ∧ Freeable e := by
  unfold submitAlloc at h
  by_cases hnumber : args.taskNumber = 0
  · rw [if_pos hnumber] at h
    cases h
  rw [if_neg hnumber] at h
  by_cases hmask : cfg.coreMask < args.coreMask
  · rw [if_pos hmask] at h
    cases h
  rw [if_neg hmask] at h
  cases hok : allocOk args o with
  | false =>
    obtain ⟨refs, hrefs, -⟩ := jobAllocRefs_of_fail dev useDrmGem hok
    rw [hrefs] at h
    cases h
  | true =>
    rw [jobAllocRefs_of_ok hok] at h
    cases h
    refine ⟨rfl, fun r => ?_⟩
    simp only [allocRefs, jobFreeRefs, rknpuJobAlloc]
    by_cases hflag : args.flags &&& rknpuJobNonblock = 0 <;>
      by_cases hgem : useDrmGem = true ∧ args.taskObjAddr ≠ 0 <;>
      simp [hflag, hgem, List.count_cons, Nat.add_assoc, Nat.add_comm, Nat.add_left_comm]

/-- An error of the in-fence, for which the job is not freed. -/
def inFenceError (o : EarlyOutcome) : Prop :=
  o.inFence = none ∨ o.inFence = some false ∧ toInt32 o.wait < 0

theorem fenceIn_ok {e' : Early} (h : e.fenceIn fence o = .ok e') (hfree : Freeable e) :
    e'.job = e.job ∧ Freeable e' ∧
      ¬ (e.job.args.flags &&& rknpuJobFenceIn ≠ 0 ∧ fence = true ∧ inFenceError o) := by
  unfold Early.fenceIn at h
  by_cases hflag : e.job.args.flags &&& rknpuJobFenceIn = 0
  · rw [if_pos hflag] at h
    cases h
    exact ⟨rfl, hfree, fun hcon => hcon.1 hflag⟩
  · rw [if_neg hflag] at h
    cases fence with
    | false => cases h
    | true =>
      simp only [Bool.not_true, Bool.false_eq_true, if_false] at h
      cases hfence : o.inFence with
      | none =>
        rw [hfence] at h
        cases h
      | some own =>
        simp only [hfence] at h
        by_cases hneg : waitRet own o < 0
        · rw [if_pos hneg] at h
          cases h
        · rw [if_neg hneg] at h
          cases h
          refine ⟨rfl, hfree.refs_append (released_pair .inFence), ?_⟩
          rintro ⟨-, -, hnone | ⟨hown, hwait⟩⟩
          · rw [hfence] at hnone
            cases hnone
          · rw [hfence] at hown
            cases hown
            exact hneg hwait

/-- An error of the in-fence keeps what was taken; where the fences are left out, the job is
freed. -/
theorem fenceIn_error {err : EarlyError} (h : e.fenceIn fence o = .error err) (hfree : Freeable e) :
    (e.job.args.flags &&& rknpuJobFenceIn ≠ 0 ∧ fence = true ∧ inFenceError o ∧
      ∃ refs, Released refs ∧ err.refs = e.refs ++ refs) ∨
    fence = false ∧ Released err.refs := by
  unfold Early.fenceIn at h
  by_cases hflag : e.job.args.flags &&& rknpuJobFenceIn = 0
  · rw [if_pos hflag] at h
    cases h
  · rw [if_neg hflag] at h
    cases fence with
    | false =>
      cases h
      exact Or.inr ⟨rfl, hfree⟩
    | true =>
      left
      simp only [Bool.not_true, Bool.false_eq_true, if_false] at h
      cases hfence : o.inFence with
      | none =>
        rw [hfence] at h
        cases h
        exact ⟨hflag, rfl, Or.inl hfence, [], released_nil, (List.append_nil _).symm⟩
      | some own =>
        simp only [hfence] at h
        by_cases hneg : waitRet own o < 0
        · rw [if_pos hneg] at h
          cases h
          refine ⟨hflag, rfl, ?_, _, released_pair .inFence, rfl⟩
          cases own with
          | true => exact (Int.lt_irrefl 0 hneg).elim
          | false => exact Or.inr ⟨hfence, hneg⟩
        · rw [if_neg hneg] at h
          cases h

theorem fenceOut_error {err : EarlyError} (h : e.fenceOut fence dev o = .error err)
    (hfree : Freeable e) : Released err.refs := by
  unfold Early.fenceOut at h
  by_cases hflag : e.job.args.flags &&& rknpuJobFenceOut = 0
  · rw [if_pos hflag] at h
    cases h
  · rw [if_neg hflag] at h
    split_ifs at h
    · cases h
      exact hfree
    · cases h
      exact hfree

theorem submitAlloc_error {err : EarlyError}
    (h : submitAlloc cfg dev args useDrmGem o = .error err) : Released err.refs := by
  unfold submitAlloc at h
  by_cases hnumber : args.taskNumber = 0
  · rw [if_pos hnumber] at h
    cases h
    exact released_nil
  rw [if_neg hnumber] at h
  by_cases hmask : cfg.coreMask < args.coreMask
  · rw [if_pos hmask] at h
    cases h
    exact released_nil
  rw [if_neg hmask] at h
  cases hok : allocOk args o with
  | true =>
    rw [jobAllocRefs_of_ok hok] at h
    cases h
  | false =>
    obtain ⟨refs, hrefs, hcase⟩ := jobAllocRefs_of_fail dev useDrmGem hok
    rw [hrefs] at h
    cases h
    obtain rfl | rfl := hcase
    · exact released_nil
    · exact released_pair .job

theorem submitAlloc_isOk : (∃ e, submitAlloc cfg dev args useDrmGem o = .ok e) ↔
    args.taskNumber ≠ 0 ∧ args.coreMask ≤ cfg.coreMask ∧ allocOk args o = true := by
  unfold submitAlloc
  by_cases hnumber : args.taskNumber = 0
  · simp [hnumber]
  rw [if_neg hnumber]
  by_cases hmask : cfg.coreMask < args.coreMask
  · simp [hmask, UInt32.not_le.mpr hmask]
  rw [if_neg hmask]
  have hle : args.coreMask ≤ cfg.coreMask := UInt32.not_lt.mp hmask
  cases hok : allocOk args o with
  | true => simp [jobAllocRefs_of_ok hok, hnumber, hle]
  | false =>
    obtain ⟨refs, hrefs, -⟩ := jobAllocRefs_of_fail dev useDrmGem hok
    simp [hrefs]

/-- The in-fence is an error, of a driver that has fences and a submit that comes to it. -/
def inFenceFails (cfg : Config) (fence : Bool) (args : Submit) (o : EarlyOutcome) : Prop :=
  (args.taskNumber ≠ 0 ∧ args.coreMask ≤ cfg.coreMask ∧ allocOk args o = true) ∧
    args.flags &&& rknpuJobFenceIn ≠ 0 ∧ fence = true ∧ inFenceError o

/-- **A submit that fails before it is scheduled gives back what it took**, but for an error of the
in-fence. -/
theorem early_error_released (cfg : Config) (fence : Bool) (dev : Dev) (args : Submit)
    (useDrmGem : Bool) (o : EarlyOutcome) :
    (∀ err, submitEarly cfg fence dev args useDrmGem o = .error err →
      ∀ r, r ≠ .inFence → err.refs.count (.get r) = err.refs.count (.put r)) ↔
    ¬ inFenceFails cfg fence args o := by
  unfold submitEarly
  cases halloc : submitAlloc cfg dev args useDrmGem o with
  | error err =>
    refine iff_of_true ?_ ?_
    · intro err' h r _
      cases h
      exact submitAlloc_error halloc r
    · rintro ⟨hok, -⟩
      obtain ⟨e, he⟩ := submitAlloc_isOk.mpr hok
      rw [halloc] at he
      cases he
  | ok e =>
    obtain ⟨hjob, hfree⟩ := submitAlloc_freeable halloc
    have hok := submitAlloc_isOk.mp ⟨e, halloc⟩
    have hargs : e.job.args = args := by rw [hjob]; rfl
    simp only [bind, Except.bind]
    cases hin : e.fenceIn fence o with
    | error err =>
      obtain ⟨hflag, hfence, herr, refs, hrefs, happ⟩ | ⟨hfence, hrel⟩ := fenceIn_error hin hfree
      · refine iff_of_false (fun hcon => ?_) fun hcon => hcon ⟨hok, ?_, hfence, herr⟩
        · have hsame := hcon err rfl .job (by decide)
          have hpair := hrefs .job
          rw [happ, List.count_append, List.count_append] at hsame
          exact hfree.not_released (by omega)
        · rw [← hargs]
          exact hflag
      · refine iff_of_true ?_ ?_
        · intro err' h r _
          cases h
          exact hrel r
        · rintro ⟨-, -, hcon, -⟩
          rw [hfence] at hcon
          cases hcon
    | ok e' =>
      obtain ⟨-, hfree, hnot⟩ := fenceIn_ok hin hfree
      refine iff_of_true ?_ ?_
      · intro err h r _
        exact fenceOut_error h hfree r
      · rintro ⟨-, hfails⟩
        rw [← hargs] at hfails
        exact hnot hfails

end

/-- A nonblocking submit with a bad descriptor for its in-fence: the job, the copy of its arguments
and the reference on the task object are kept. -/
theorem early_error_kept : ∃ err,
    submitEarly rk356xRknpuConfig true (.probed 0)
        (oneTask (rknpuJobPc ||| rknpuJobNonblock ||| rknpuJobFenceIn) rknpuCore0Mask) true
        ⟨true, true, none, 0, true⟩ = .error err ∧ err.ret = -einval ∧
      ∀ r ∈ [Ref.job, Ref.args, Ref.gem 0x1000],
        err.refs.count (.get r) = 1 ∧ err.refs.count (.put r) = 0 :=
  ⟨⟨-einval, [.get .job, .get .args, .get (.gem 0x1000)]⟩, rfl, rfl, by decide⟩

end RknpuDriver.Job
