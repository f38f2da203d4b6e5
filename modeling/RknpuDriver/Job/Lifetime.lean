import RknpuDriver.Job.Calm

/-! # The lifetime of jobs

On undisturbed runs a job is freed by the thread that waits for it, or by the cleanup work when
it was submitted with `RKNPU_JOB_NONBLOCK`. Neither looks whether the other threads are through
with the job. `releases` says when they are; then no block touches a job that was freed.
-/

namespace RknpuDriver.Job
set_option autoImplicit false
open RknpuDriver.Lib

/-- The interrupt handler that has set `RKNPU_JOB_DONE` is not at the end of `rknpu_job_done`. -/
def inDone (j : ℕ) : JobOp → Bool
  | .setRet i | .fenceSignal i | .asyncWork i => i = j
  | _ => false

/-- The thread that submitted with `RKNPU_JOB_NONBLOCK` has queued the job and has not read its
result. -/
def inSubmit (j : ℕ) : JobOp → Bool
  | .scanMask i _ | .nonblockRet i => i = j
  | _ => false

/-- A waiting thread frees its job when the interrupt handler is through with it, the cleanup
work does when the submitting thread is; and a job that was submitted gets its domain, and no wait
for it ends in an error. -/
def releases (s : JobState) (o : Outcome) : JobOp → Bool
  | .free j => ∀ op ∈ s.threads.flatten, inDone j op = false
  | .cleanupWork j => ∀ op ∈ s.threads.flatten, inSubmit j op = false
  | .domainGet _ => o.ret = 0
  | .waitRet _ ret => ret = 0
  | _ => true

/-- The undisturbed runs in which jobs succeed and are freed in time. -/
def releasingSystem (cfg : Config) : System JobState JobLabel :=
  (undisturbedSystem cfg).guarded fun s a => onBlock (fun _ => releases s) s a = true

/-- The job is being given up. -/
def aborting : JobOp → Bool
  | .abortClear _ | .abortReport _ => true
  | _ => false

/-- What is left of a job after it is done: the end of `rknpu_job_done` and the cleanup work. -/
def JobState.ending (s : JobState) (j : ℕ) : ℕ :=
  (s.todo.map (finishing j)).sum + s.dev.works.count j

/-- Nobody works for the job any more. -/
structure Over (s : JobState) (j : ℕ) : Prop where
  past : Past s j
  through : j ∉ enqueues s.hist ∨ (s.dev.jobs j).done = true
  left : ∀ op ∈ s.todo, after op ≠ some j
  ended : s.ending j = 0

structure Kept (s : JobState) : Prop where
  nonblock : ∀ j, (s.dev.jobs j).async = true ∨ j ∈ s.dev.works ∨ .cleanupWork j ∈ s.todo →
    (s.dev.jobs j).args.flags &&& rknpuJobNonblock ≠ 0
  block : ∀ op ∈ s.todo, ∀ j, blocking op = some j →
    (s.dev.jobs j).args.flags &&& rknpuJobNonblock = 0
  ending : ∀ j, s.ending j ≤ s.hist.count (.done j)
  succeeds : ∀ j, (s.dev.jobs j).ret = 0
  unaborted : ∀ op ∈ s.todo, aborting op = false
  leaves : ∀ j, .free j ∈ s.todo → j ∉ enqueues s.hist ∨
    (s.dev.jobs j).done = true ∧ (s.dev.jobs j).args.flags &&& rknpuJobNonblock = 0
  freed : ∀ j, s.dev.freed j = true → Over s j

section
variable {cfg : Config} {s t : JobState} {a : JobLabel} {o : Outcome} {op : JobOp} {eff : Effect}
  {j : ℕ}

/-! ## Jobs that are over -/

/-- The blocks that work for queued jobs do not work for one that is through. -/
theorem Calm.through (hs : Calm cfg s) (hj : j ∉ enqueues s.hist ∨ (s.dev.jobs j).done = true)
    (hop : op ∈ s.todo) {x : Task ℕ ℕ} (hx : x ∈ toTasks cfg op)
    (hq : Gang.queuedJob x = some j) : ∃ c, x = .scan j c := by
  have hmem := mem_gang_tasks.mpr ⟨op, hop, hx⟩
  rcases hj with hj | hj
  · exact (hj (hs.inv.lined.named x hmem j hq)).elim
  · exact hs.inv.finished_tasks (hs.mem_order hj).1 hmem hq

theorem Calm.not_setDone (hs : Calm cfg s) (hj : j ∉ enqueues s.hist ∨ (s.dev.jobs j).done = true) :
    .setDone j ∉ s.todo := by
  intro hop
  obtain ⟨c, hc⟩ := hs.through hj hop (Multiset.mem_singleton_self _) rfl
  cases hc

theorem ending_le {others : Multiset JobOp} (hop : s.todo = op ::ₘ others)
    (heff : jobExec cfg s.dev o op = some eff) (hdev : t.dev = eff.dev)
    (htodo : t.todo = (eff.calls : Multiset JobOp) + others) (hwork : ∀ i, op ≠ .timeoutWork i j) :
    t.ending j ≤
      s.ending j + if op = .setDone j then 1 else 0 := by
  have hcalls := calls_finishing heff j hwork
  unfold JobState.ending
  rw [htodo, hop, hdev, Multiset.map_add, Multiset.sum_add, Multiset.map_cons, Multiset.sum_cons,
    Multiset.map_coe, Multiset.sum_coe]
  split_ifs at hcalls ⊢ <;> omega

theorem through_exec (hpast : Past s j)
    (hj : j ∉ enqueues s.hist ∨ (s.dev.jobs j).done = true) (hmem : op ∈ s.todo)
    (heff : jobExec cfg s.dev o op = some eff) (hdev : t.dev = eff.dev)
    (hhist : t.hist = s.hist ++ eff.events) :
    j ∉ enqueues t.hist ∨ (t.dev.jobs j).done = true := by
  refine hj.imp (fun hno => ?_) fun hdone => ?_
  · rw [hhist, enqueues_append, List.mem_append, not_or]
    refine ⟨hno, fun hcon => ?_⟩
    obtain rfl := (events_enqueue heff).mp hcon
    exact hpast.2 _ hmem rfl
  · rw [hdev, done_eq heff, hdone]
    rfl

theorem Over.exec (hj : Over s j) (hs : Calm cfg s) (h : Stepped cfg s t a)
    {others : Multiset JobOp} (hop : s.todo = op ::ₘ others)
    (heff : jobExec cfg s.dev o op = some eff) (hdev : t.dev = eff.dev)
    (htodo : t.todo = (eff.calls : Multiset JobOp) + others)
    (hhist : t.hist = s.hist ++ eff.events) : Over t j := by
  have hmem : op ∈ s.todo := by simp [hop]
  refine ⟨(hj.past.stepped h).1, through_exec hj.past hj.through hmem heff hdev hhist,
    fun x hx hafter => ?_, ?_⟩
  · rw [htodo, Multiset.mem_add] at hx
    rcases hx with hx | hx
    · have hcalls := calls_submitter heff j
      have hone : submitter j x = 1 := if_pos (Or.inr hafter)
      have hzero : submitter j op = 0 :=
        if_neg (not_or.mpr ⟨hj.past.2 op hmem, hj.left op hmem⟩)
      have hle : submitter j x ≤ (eff.calls.map (submitter j)).sum :=
        List.le_sum_of_mem (List.mem_map.mpr ⟨x, Multiset.mem_coe.mp hx, rfl⟩)
      omega
    · exact hj.left x (by simp [hop, hx]) hafter
  · have hle := ending_le (j := j) hop heff hdev htodo fun i hcon => by
      subst hcon
      exact hs.quiet _ hmem
    have hended := hj.ended
    rw [if_neg] at hle
    · omega
    · rintro rfl
      exact hs.not_setDone hj.through hmem

/-! ## Freeing a job -/

theorem Calm.done_le (hs : Calm cfg s) (j : ℕ) : s.hist.count (.done j) ≤ 1 :=
  (Nat.le_add_right _ _).trans (hs.inv.done_once j)

theorem Kept.over_free (hn : Kept s) (hs : Calm cfg s) (h : Stepped cfg s t a)
    {others : Multiset JobOp} (hop : s.todo = .free j ::ₘ others)
    (heff : jobExec cfg s.dev o (.free j) = some eff) (hdev : t.dev = eff.dev)
    (htodo : t.todo = (eff.calls : Multiset JobOp) + others)
    (hhist : t.hist = s.hist ++ eff.events) (hok : ∀ x ∈ s.todo, inDone j x = false) :
    Over t j := by
  have hmem : .free j ∈ s.todo := by simp [hop]
  have hpast := hs.placed.past_of_after hmem (j := j) rfl
  have hleaves := hn.leaves j hmem
  have hended : s.ending j = 0 := by
    rcases hleaves with hno | ⟨-, hblock⟩
    · have hzero : s.hist.count (.done j) = 0 :=
        List.count_eq_zero.mpr fun hcon => hno (hs.mem_order ((hs.done j).mpr hcon)).2
      have := hn.ending j
      omega
    · have htodo : (s.todo.map (finishing j)).sum = 0 := by
        refine Multiset.sum_eq_zero fun n hn' => ?_
        obtain ⟨x, hx, rfl⟩ := Multiset.mem_map.mp hn'
        have hno := hok x hx
        cases x with
        | setRet i | fenceSignal i | asyncWork i => simpa [inDone, finishing] using hno
        | cleanupWork i =>
          refine if_neg ?_
          rintro rfl
          exact hn.nonblock i (Or.inr (Or.inr hx)) hblock
        | _ => rfl
      have hworks : s.dev.works.count j = 0 :=
        List.count_eq_zero.mpr fun hcon => hn.nonblock j (Or.inr (Or.inl hcon)) hblock
      rw [JobState.ending, htodo, hworks]
  refine ⟨(hpast.stepped h).1,
    through_exec hpast (hleaves.imp_right And.left) hmem heff hdev hhist, fun x hx => ?_, ?_⟩
  · cases heff
    rw [htodo, Multiset.mem_add] at hx
    rcases hx with hx | hx
    · exact (List.not_mem_nil (Multiset.mem_coe.mp hx)).elim
    · exact (hs.placed.exclusive hop (Or.inr rfl) x hx).2
  · have hle := ending_le (j := j) hop heff hdev htodo (by simp)
    rw [hended, if_neg (by simp)] at hle
    omega

theorem Kept.over_cleanupWork (hn : Kept s) (hs : Calm cfg s) (h : Stepped cfg s t a)
    {others : Multiset JobOp} (hop : s.todo = .cleanupWork j ::ₘ others)
    (heff : jobExec cfg s.dev o (.cleanupWork j) = some eff) (hdev : t.dev = eff.dev)
    (htodo : t.todo = (eff.calls : Multiset JobOp) + others)
    (hhist : t.hist = s.hist ++ eff.events) (hok : ∀ x ∈ s.todo, inSubmit j x = false) :
    Over t j := by
  have hmem : .cleanupWork j ∈ s.todo := by simp [hop]
  have hpast := hs.placed.helped _ hmem j rfl
  have hnonblock := hn.nonblock j (Or.inr (Or.inr hmem))
  have hone : finishing j (.cleanupWork j) = 1 := if_pos rfl
  have hending := hn.ending j
  rw [JobState.ending, hop, Multiset.map_cons, Multiset.sum_cons, hone] at hending
  have hdone : (s.dev.jobs j).done = true :=
    (hs.done j).mpr (List.count_pos_iff.mp (by omega))
  refine ⟨(hpast.stepped h).1, through_exec hpast (Or.inr hdone) hmem heff hdev hhist,
    fun x hx hafter => ?_, ?_⟩
  · cases heff
    rw [htodo, Multiset.mem_add] at hx
    rcases hx with hx | hx
    · exact (List.not_mem_nil (Multiset.mem_coe.mp hx)).elim
    · have hx : x ∈ s.todo := by simp [hop, hx]
      have hno := hok x hx
      have hblock := hn.block x hx j
      have hunaborted := hn.unaborted x hx
      cases x with
      | scanMask i c | nonblockRet i => simp_all [inSubmit, after]
      | abortClear i | abortReport i => cases hunaborted
      | free i =>
        obtain rfl : i = j := Option.some.inj hafter
        rcases hn.leaves i hx with hcon | ⟨-, hcon⟩
        · exact hcon (hs.mem_order hdone).2
        · exact hnonblock hcon
      | _ => exact hnonblock (hblock hafter)
  · have hle := hs.done_le j
    cases heff
    rw [JobState.ending, htodo, hdev]
    simp only [rknpuJobFree, Multiset.coe_nil, zero_add]
    omega

/-! ## Steps -/

theorem calls_aborting {dev : Dev} {x : JobOp} (h : jobExec cfg dev o op = some eff)
    (hx : x ∈ eff.calls) (ha : aborting x = true) :
    aborting op = true ∨ ∃ j, (dev.jobs j).ret ≠ 0 := by
  cases op <;> grind -ring -linarith -order [aborting]

theorem Kept.exec (hn : Kept s) (hs : Calm cfg s) (h : Stepped cfg s t a)
    {others : Multiset JobOp} (hop : s.todo = op ::ₘ others)
    (heff : jobExec cfg s.dev o op = some eff) (hdev : t.dev = eff.dev)
    (htodo : t.todo = (eff.calls : Multiset JobOp) + others)
    (hhist : t.hist = s.hist ++ eff.events) (hsmooth : smooth cfg s.dev o op = true)
    (hok : releases s o op = true) : Kept t := by
  have hmem : op ∈ s.todo := by simp [hop]
  have hothers : ∀ x ∈ others, x ∈ s.todo := fun x hx => by simp [hop, hx]
  have hwork : ∀ i j, op ≠ .timeoutWork i j := by
    rintro i j rfl
    exact hs.quiet _ hmem
  have hflags : ∀ j, (t.dev.jobs j).args.flags = (s.dev.jobs j).args.flags := by
    intro j
    rw [hdev, flags_eq heff]
  refine ⟨fun j hj => ?_, fun x hx j hj => ?_, fun j => ?_, fun j => ?_, fun x hx => ?_,
    fun j hj => ?_, fun j hj => ?_⟩
  · rw [hflags]
    rw [hdev] at hj
    rcases hj with hj | hj | hj
    · exact (async_of heff hj).elim (fun h => hn.nonblock j (Or.inl h)) id
    · rcases works_of heff hj (hwork · j) with hj | hj
      · exact hn.nonblock j (Or.inr (Or.inl hj))
      · exact hn.nonblock j (Or.inl hj)
    · rw [htodo, Multiset.mem_add] at hj
      rcases hj with hj | hj
      · exact (calls_cleanupWork heff j (Multiset.mem_coe.mp hj)).elim
      · exact hn.nonblock j (Or.inr (Or.inr (hothers _ hj)))
  · rw [hflags]
    rw [htodo, Multiset.mem_add] at hx
    rcases hx with hx | hx
    · exact (calls_blocking heff (Multiset.mem_coe.mp hx) hj).elim (hn.block op hmem j) id
    · exact hn.block x (hothers x hx) j hj
  · have hle := ending_le (j := j) hop heff hdev htodo (hwork · j)
    have hending := hn.ending j
    rw [hhist, List.count_append]
    split_ifs at hle with hset
    · have hpos := List.count_pos_iff.mpr ((events_done heff).mpr hset)
      omega
    · omega
  · rw [hdev]
    by_cases hget : op = .domainGet j
    · subst hget
      have ho : o.ret = 0 := by simpa [releases] using hok
      cases heff
      rw [scheduleDomainGet, if_neg (not_not.mpr ho)]
      exact hn.succeeds j
    · by_cases hwait : ∃ ret, op = .waitRet j ret
      · obtain ⟨ret, rfl⟩ := hwait
        have hret : ret = 0 := by simpa [releases] using hok
        cases heff
        simp [submitWaitRet, Effect.goto, hret]
      · push Not at hwait
        by_cases hset : op = .setRet j
        · subst hset
          cases heff
          simp [jobSetRet, Effect.goto]
        · rw [hs.ret_kept hmem heff hsmooth hget hwait hset]
          exact hn.succeeds j
  · rw [htodo, Multiset.mem_add] at hx
    rcases hx with hx | hx
    · refine Bool.eq_false_iff.mpr fun hcon => ?_
      rcases calls_aborting heff (Multiset.mem_coe.mp hx) hcon with hop' | ⟨j, hj⟩
      · exact Bool.false_ne_true ((hn.unaborted op hmem).symm.trans hop')
      · exact hj (hn.succeeds j)
    · exact hn.unaborted x (hothers x hx)
  · rw [hflags]
    have hnew : j ∉ enqueues s.hist → op ≠ .enqueue j → j ∉ enqueues t.hist := by
      intro hno hne
      rw [hhist, enqueues_append, List.mem_append, not_or]
      exact ⟨hno, fun hcon => hne ((events_enqueue heff).mp hcon)⟩
    have hkeep : (s.dev.jobs j).done = true → (t.dev.jobs j).done = true := by
      intro hdone
      rw [hdev, done_eq heff, hdone]
      rfl
    rw [htodo, Multiset.mem_add] at hj
    rcases hj with hj | hj
    · rcases calls_free heff (Multiset.mem_coe.mp hj) with rfl | rfl | rfl
      · left
        refine hnew (hs.inv.lined.fresh j (mem_gang_tasks.mpr ⟨_, hmem, ?_⟩)) (by simp)
        exact Multiset.mem_singleton_self _
      · exact Or.inr ⟨hkeep (hs.quiet _ hmem), hn.block _ hmem j rfl⟩
      · exact (Bool.false_ne_true (hn.unaborted _ hmem).symm).elim
    · have hpast := hs.placed.past_of_after (hothers _ hj) (j := j) rfl
      refine (hn.leaves j (hothers _ hj)).imp (fun hno => hnew hno ?_) (And.imp_left hkeep)
      rintro rfl
      exact hpast.2 _ hmem rfl
  · rw [hdev, freed_eq heff, Bool.or_eq_true, decide_eq_true_eq] at hj
    rcases hj with hj | rfl | rfl
    · exact (hn.freed j hj).exec hs h hop heff hdev htodo hhist
    · refine hn.over_free hs h hop heff hdev htodo hhist fun x hx => ?_
      exact (decide_eq_true_iff.mp hok) x (Multiset.mem_coe.mp hx)
    · refine hn.over_cleanupWork hs h hop heff hdev htodo hhist fun x hx => ?_
      exact (decide_eq_true_iff.mp hok) x (Multiset.mem_coe.mp hx)

theorem Kept.spawn (hn : Kept s) (h : Stepped cfg s t a) {n : Multiset JobOp}
    (htodo : t.todo = n + s.todo) (hafter : ∀ x ∈ n, after x = none)
    (hblock : ∀ x ∈ n, blocking x = none) (hending : ∀ j, t.ending j = s.ending j)
    (hwork : ∀ j, j ∈ t.dev.works ∨ .cleanupWork j ∈ t.todo →
      j ∈ s.dev.works ∨ .cleanupWork j ∈ s.todo)
    (hjobs : t.dev.jobs = s.dev.jobs) (hfreed : t.dev.freed = s.dev.freed)
    (hhist : t.hist = s.hist) : Kept t where
  nonblock j hj := by
    rw [hjobs] at hj ⊢
    exact hn.nonblock j (hj.imp_right (hwork j))
  block x hx j hj := by
    rw [hjobs]
    rw [htodo, Multiset.mem_add] at hx
    rcases hx with hx | hx
    · rw [hblock x hx] at hj
      cases hj
    · exact hn.block x hx j hj
  ending j := by
    rw [hending, hhist]
    exact hn.ending j
  succeeds j := by
    rw [hjobs]
    exact hn.succeeds j
  unaborted x hx := by
    rw [htodo, Multiset.mem_add] at hx
    rcases hx with hx | hx
    · have hnone := hafter x hx
      cases x <;> first | rfl | cases hnone
    · exact hn.unaborted x hx
  leaves j hj := by
    rw [hjobs, hhist]
    rw [htodo, Multiset.mem_add] at hj
    rcases hj with hj | hj
    · have := hafter _ hj
      cases this
    · exact hn.leaves j hj
  freed j hj := by
    rw [hfreed] at hj
    have hover := hn.freed j hj
    refine ⟨(hover.past.stepped h).1, ?_, fun x hx => ?_, ?_⟩
    · rw [hhist, hjobs]
      exact hover.through
    · rw [htodo, Multiset.mem_add] at hx
      rcases hx with hx | hx
      · simp [hafter x hx]
      · exact hover.left x hx
    · rw [hending]
      exact hover.ended

theorem after_of_blocking {x : JobOp} (h : blocking x = some j) : after x = some j := by
  cases x <;> first | exact h | cases h

theorem Kept.submit (hn : Kept s) (hs : Calm cfg s) (h : Stepped cfg s t a) {args : Submit}
    {useDrmGem : Bool} (hdev : t.dev = s.dev.addJob (rknpuJobAlloc s.dev args useDrmGem))
    (htodo : t.todo = .fenceIn s.dev.numJobs ::ₘ s.todo)
    (hhist : t.hist = s.hist ++
      if useDrmGem ∧ args.taskObjAddr ≠ 0 then [.gemGet args.taskObjAddr] else []) : Kept t := by
  have hnew : t.dev.jobs s.dev.numJobs = rknpuJobAlloc s.dev args useDrmGem := by
    rw [hdev, Dev.addJob_jobs, if_pos rfl]
  have hold : ∀ {j}, j < s.dev.numJobs → t.dev.jobs j = s.dev.jobs j := by
    intro j hj
    rw [hdev, Dev.addJob_jobs, if_neg (Nat.ne_of_lt hj)]
  have hworks : t.dev.works = s.dev.works := by rw [hdev, Dev.addJob_works]
  have htasks : ∀ {x}, x ∈ t.todo → before x = none → x ∈ s.todo := by
    intro x hx hb
    rw [htodo, Multiset.mem_cons] at hx
    rcases hx with rfl | hx
    · cases hb
    · exact hx
  have horder : enqueues t.hist = enqueues s.hist := (OnlyGets.of_submit hhist).enqueues
  have hending : ∀ j, t.ending j = s.ending j := by
    intro j
    rw [JobState.ending, htodo, hworks, Multiset.map_cons, Multiset.sum_cons]
    exact congrArg (· + _) (Nat.zero_add _)
  refine ⟨fun j hj => ?_, fun x hx j hj => ?_, fun j => ?_, fun j => ?_, fun x hx => ?_,
    fun j hj => ?_, fun j hj => ?_⟩
  · by_cases hjn : j = s.dev.numJobs
    · subst hjn
      rw [hnew, hworks] at hj
      rcases hj with hj | hj | hj
      · exact (Bool.false_ne_true hj).elim
      · exact (Nat.lt_irrefl _ (hs.placed.worked _ hj).1).elim
      · exact (Nat.lt_irrefl _ (hs.placed.helped _ (htasks hj rfl) _ rfl).1).elim
    · have hjobs : t.dev.jobs j = s.dev.jobs j := by
        rw [hdev, Dev.addJob_jobs, if_neg hjn]
      rw [hjobs, hworks] at hj
      rw [hjobs]
      exact hn.nonblock j (hj.imp_right (Or.imp_right fun hj => htasks hj rfl))
  · have hafter := after_of_blocking hj
    have hx := htasks hx (by cases x <;> first | rfl | cases hj)
    rw [hold (hs.placed.submitted x hx j (Or.inr hafter))]
    exact hn.block x hx j hj
  · rw [hending, hhist, List.count_append]
    exact (hn.ending j).trans (Nat.le_add_right _ _)
  · rw [hdev, Dev.addJob_jobs]
    split_ifs
    · rfl
    · exact hn.succeeds j
  · rw [htodo, Multiset.mem_cons] at hx
    rcases hx with rfl | hx
    · rfl
    · exact hn.unaborted x hx
  · have hj := htasks hj rfl
    rw [horder, hold (hs.placed.submitted _ hj j (Or.inr rfl))]
    exact hn.leaves j hj
  · rw [hdev, Dev.addJob_freed] at hj
    have hover := hn.freed j hj
    refine ⟨(hover.past.stepped h).1, ?_, fun x hx hafter => ?_, ?_⟩
    · rw [horder, hold hover.past.1]
      exact hover.through
    · exact hover.left x (htasks hx (by cases x <;> first | rfl | cases hafter)) hafter
    · rw [hending]
      exact hover.ended

theorem Kept.step (hn : Kept s) (hs : Calm cfg s) (h : Stepped cfg s t a)
    (hsmooth : undisturbed cfg s a = true) (hok : onBlock (fun _ => releases s) s a = true) :
    Kept t := by
  have hspawn : ∀ {x : JobOp}, t.todo = x ::ₘ s.todo → after x = none → blocking x = none →
      (∀ j, finishing j x = 0) → t.dev.jobs = s.dev.jobs → t.dev.works = s.dev.works →
      t.dev.freed = s.dev.freed → t.hist = s.hist → Kept t := by
    intro x htodo hafter hblock hzero hjobs hworks hfreed hhist
    refine hn.spawn h (htodo.trans (Multiset.singleton_add _ _).symm) (fun y hy => ?_)
      (fun y hy => ?_) (fun j => ?_) (fun j hj => ?_) hjobs hfreed hhist
    · rw [Multiset.mem_singleton.mp hy, hafter]
    · rw [Multiset.mem_singleton.mp hy, hblock]
    · rw [JobState.ending, htodo, hworks, Multiset.map_cons, Multiset.sum_cons, hzero, Nat.zero_add]
      rfl
    · rw [hworks, htodo, Multiset.mem_cons] at hj
      refine hj.imp_right fun hj => hj.resolve_left ?_
      rintro rfl
      have := hzero j
      simp [finishing] at this
  have hstep := h
  cases h with
  | refused ht =>
    rw [ht]
    exact hn
  | submit hmask hdev htodo hhist =>
    exact hn.submit hs hstep hdev htodo hhist
  | exec hnext heff hop hdev htodo hhist =>
    rw [undisturbed, onBlock_exec hnext] at hsmooth
    rw [onBlock_exec hnext] at hok
    exact hn.exec hs hstep hop heff hdev htodo hhist hsmooth hok
  | irq hc hrunning hdev htodo hhist =>
    have hsame : t.dev.jobs = s.dev.jobs ∧ t.dev.works = s.dev.works ∧
        t.dev.freed = s.dev.freed := by
      rw [hdev]
      split_ifs <;> exact ⟨rfl, rfl, rfl⟩
    exact hspawn htodo rfl rfl (fun _ => rfl) hsame.1 hsame.2.1 hsame.2.2 hhist
  | @runWork j hj hdev htodo hhist =>
    refine hn.spawn hstep (htodo.trans (Multiset.singleton_add _ _).symm)
      (fun y hy => by rw [Multiset.mem_singleton.mp hy]; rfl)
      (fun y hy => by rw [Multiset.mem_singleton.mp hy]; rfl) (fun i => ?_) (fun i hi => ?_)
      (by rw [hdev]) (by rw [hdev]) hhist
    · have hpos := List.count_pos_iff.mpr hj
      rw [JobState.ending, JobState.ending, htodo, hdev, Multiset.map_cons, Multiset.sum_cons]
      by_cases hij : j = i
      · subst hij
        have hone : finishing j (.cleanupWork j) = 1 := if_pos rfl
        rw [hone, List.count_erase_self]
        omega
      · have hzero : finishing i (.cleanupWork j) = 0 := if_neg hij
        rw [hzero, List.count_erase_of_ne (Ne.symm hij)]
        omega
    · rw [hdev, htodo, Multiset.mem_cons] at hi
      rcases hi with hi | hi | hi
      · exact Or.inl (List.mem_of_mem_erase hi)
      · obtain rfl : i = j := by simpa using hi
        exact Or.inl hj
      · exact Or.inr hi
  | actReset => exact (Bool.false_ne_true hsmooth).elim
  | timer hdev htodo hhist =>
    exact hspawn htodo rfl rfl (fun _ => rfl) (by rw [hdev]) (by rw [hdev]) (by rw [hdev]) hhist
  | tick hdev htodo hhist =>
    refine hn.spawn hstep (htodo.trans (zero_add _).symm)
      (fun _ hx => (Multiset.notMem_zero _ hx).elim)
      (fun _ hx => (Multiset.notMem_zero _ hx).elim) (fun j => ?_) (fun j hj => ?_) (by rw [hdev])
      (by rw [hdev]) hhist
    · rw [JobState.ending, JobState.ending, htodo, hdev]
    · rwa [hdev, htodo] at hj

theorem kept_init {now : ℕ} : Kept ⟨.probed now, [], []⟩ where
  nonblock _ hj := by
    rcases hj with hj | hj | hj
    · exact (Bool.false_ne_true hj).elim
    · exact (List.not_mem_nil hj).elim
    · exact (Multiset.notMem_zero _ hj).elim
  block x hx := (Multiset.notMem_zero x hx).elim
  ending _ := le_refl 0
  succeeds _ := rfl
  unaborted x hx := (Multiset.notMem_zero x hx).elim
  leaves _ hj := (Multiset.notMem_zero _ hj).elim
  freed _ hj := (Bool.false_ne_true hj).elim

theorem kept (hcfg : cfg.Sound) (hs : (releasingSystem cfg).Reachable s) :
    Calm cfg s ∧ Kept s := by
  refine hs.invariant (fun s => Calm cfg s ∧ Kept s) ?_ ?_
  · rintro s ⟨now, rfl⟩
    exact ⟨calm_init, kept_init⟩
  · intro s a t hs h
    obtain ⟨hok, h⟩ := System.guarded_step.mp h
    obtain ⟨hsmooth, h⟩ := System.guarded_step.mp h
    exact ⟨hs.1.step hcfg (stepped h) hsmooth, hs.2.step hs.1 (stepped h) hsmooth hok⟩

/-! ## No use after free -/

theorem Over.ended_of_mem (hj : Over s j) (hop : op ∈ s.todo) : finishing j op = 0 := by
  have hle : finishing j op ≤ (s.todo.map (finishing j)).sum :=
    Multiset.single_le_sum (fun _ _ => Nat.zero_le _) _ (Multiset.mem_map_of_mem _ hop)
  have hended := hj.ended
  unfold JobState.ending at hended
  omega

/-- **No job is touched after it was freed**, when jobs are freed in time. The look of
`rknpu_job_timeout_clean` at a core's current job comes before a job is scheduled, and is left
out. -/
theorem freed_untouched (hcfg : cfg ∈ rknpuConfigs) (hs : (releasingSystem cfg).Reachable s)
    (hj : s.dev.freed j = true) (hop : op ∈ s.todo)
    (hclean : ∀ coreMask i, op ≠ .timeoutCheck coreMask i j) : j ∉ touches cfg s.dev op := by
  obtain ⟨hs, hn⟩ := kept (rknpuConfigs_sound hcfg) hs
  have hover := hn.freed j hj
  have hholds := hs.not_holds hover.through
  have hbefore := hover.past.2 op hop
  have hafter := hover.left op hop
  have hended := hover.ended_of_mem hop
  have hquiet := hs.quiet op hop
  intro hmem
  cases op with
  | fenceIn | domainPut | timeoutClean | next | resetBegin => exact List.not_mem_nil hmem
  | timeoutClear | timeoutWork | timeoutNext | waitRemove | resetAssert | resetDeassert
  | resetEnd => exact hquiet
  | fenceOut i | fenceInit i | dispatch i | schedule i | autoRead i | domainGet i =>
    exact hbefore (congrArg some (List.mem_singleton.mp hmem).symm)
  | nonblockRet i | blockRet i | waitEvent i | waitCheck i | waitLast i | waitEnd i | waitRet i
  | abortClear i | abortReport i | free i => exact hafter (congrArg some (List.mem_singleton.mp hmem).symm)
  | scanMask i c =>
    simp only [touches] at hmem
    split_ifs at hmem
    · exact hafter (congrArg some (List.mem_singleton.mp hmem).symm)
    · exact List.not_mem_nil hmem
  | timeoutCheck coreMask c i =>
    rw [List.mem_singleton.mp hmem] at hclean
    exact hclean coreMask c rfl
  | enqueue i =>
    rcases List.mem_cons.mp hmem with rfl | hmem
    · exact hbefore rfl
    · obtain ⟨c, -, hc⟩ := List.mem_flatMap.mp hmem
      rw [Option.mem_toList] at hc
      exact hholds c (Or.inl (List.mem_of_getLast? hc))
  | pop c => exact hholds c (Or.inl (List.mem_of_mem_take hmem))
  | irqEntry c | timerTick c => exact hholds c (Or.inr (Option.mem_toList.mp hmem))
  | setRet i | fenceSignal i | asyncWork i | cleanupWork i =>
    rw [List.mem_singleton.mp hmem] at hended
    simp [finishing] at hended
  | decRunCount i | commit i | subcoreCommit i c | irqStatus i c | doneCount i c | doneClear i c
  | doneDec i | setDone i =>
    obtain rfl := List.mem_singleton.mp hmem
    obtain ⟨c, hc⟩ := hs.through hover.through hop (Multiset.mem_singleton_self _) rfl
    cases hc

end

/-- A job on core `0` that a thread waits for; the interrupt handler runs `handler` blocks before
the thread goes on. -/
def waitedJob (handler : ℕ) : List JobLabel :=
  .submit (oneTask rknpuJobPc rknpuCore0Mask) false true :: List.replicate 15 (.exec 0 calm) ++
    .irq 0 true :: List.replicate handler (.exec 1 calm) ++ List.replicate 6 (.exec 0 calm)

/-- A job that is submitted with `RKNPU_JOB_NONBLOCK` and has run before its thread returns. -/
def unwaitedJob : List JobLabel :=
  .submit (oneTask (rknpuJobPc ||| rknpuJobNonblock) rknpuCore0Mask) false true ::
    List.replicate 16 (.exec 0 calm) ++ .irq 0 true :: List.replicate 10 (.exec 1 calm) ++
    [.runWork 0, .exec 2 calm]

/-- The interrupt handler goes on to `rknpu_job_next` when its job is freed. -/
theorem freed_untouched_waited : ∃ s, (releasingSystem rk3588RknpuConfig).Reachable s ∧
    s.dev.freed 0 = true ∧ .pop 0 ∈ s.todo ∧ 0 ∉ touches rk3588RknpuConfig s.dev (.pop 0) := by
  obtain ⟨s, hs, h⟩ := System.Reachable.of_run_any (S := releasingSystem rk3588RknpuConfig)
    (p := fun s => decide (s.dev.freed 0 = true ∧ .pop 0 ∈ s.todo)) (l := waitedJob 11)
    ⟨1, rfl⟩ (by decide +kernel)
  obtain ⟨hfreed, hpop⟩ := of_decide_eq_true h
  exact ⟨s, hs, hfreed, hpop, freed_untouched (by decide) hs hfreed hpop (by simp)⟩

/-- A thread that sees `RKNPU_JOB_DONE` frees its job before the handler that set it has written
the result; and the cleanup work frees a job while its submitting thread still reads the mask. -/
theorem freed_touched :
    (∃ s, (undisturbedSystem rk3588RknpuConfig).Reachable s ∧ s.dev.freed 0 = true ∧
      nextBlock s.threads 1 = some (.setRet 0, [.next 0]) ∧
      0 ∈ touches rk3588RknpuConfig s.dev (.setRet 0)) ∧
    ∃ s, (undisturbedSystem rk3588RknpuConfig).Reachable s ∧ s.dev.freed 0 = true ∧
      nextBlock s.threads 0 = some (.scanMask 0 1, []) ∧
      0 ∈ touches rk3588RknpuConfig s.dev (.scanMask 0 1) := by
  constructor
  · obtain ⟨s, hs, h⟩ := System.Reachable.of_run_any (S := undisturbedSystem rk3588RknpuConfig)
      (p := fun s => decide (s.dev.freed 0 = true ∧
        nextBlock s.threads 1 = some (.setRet 0, [.next 0]))) (l := waitedJob 7)
      ⟨1, rfl⟩ (by decide +kernel)
    obtain ⟨hfreed, hnext⟩ := of_decide_eq_true h
    exact ⟨s, hs, hfreed, hnext, List.mem_singleton_self 0⟩
  · obtain ⟨s, hs, h⟩ := System.Reachable.of_run_any (S := undisturbedSystem rk3588RknpuConfig)
      (p := fun s => decide (s.dev.freed 0 = true ∧
        nextBlock s.threads 0 = some (.scanMask 0 1, []))) (l := unwaitedJob)
      ⟨1, rfl⟩ (by decide +kernel)
    obtain ⟨hfreed, hnext⟩ := of_decide_eq_true h
    exact ⟨s, hs, hfreed, hnext, List.mem_singleton_self 0⟩

end RknpuDriver.Job
