import RknpuDriver.Job.Calm
import RknpuDriver.Job.Taken

/-! # Starting a job on its mask

`rknpu_submit` accepts every mask up to the table's, `rknpu_job_schedule` queues a job on each
core of its mask, and `rknpu_job_commit` starts the masks it knows. `startingSystem` are the runs in
which one job, whatever the others do, is one that can be started: its flags have `RKNPU_JOB_PC`,
its mask is one that `rknpu_job_commit` knows or is left to the scheduler, and its task object is
mapped.
-/

namespace RknpuDriver.Job
set_option autoImplicit false
open RknpuDriver.Lib

/-- The task object of the job is mapped when the job is committed. -/
def mapped (j : ℕ) (_ : Dev) (o : Outcome) : JobOp → Bool
  | .subcoreCommit i _ => i = j → o.kvAddr
  | _ => true

def startable (j : ℕ) (s : JobState) : JobLabel → Bool
  | .submit args _ _ => s.dev.numJobs = j → regular args ∧ args.taskObjAddr ≠ 0
  | a => onBlock (mapped j) s a

/-- The runs in which job `j` can be started. -/
def startingSystem (cfg : Config) (j : ℕ) : System JobState JobLabel :=
  (jobSystem cfg).guarded fun s a => startable j s a = true

/-- The blocks from the last core that takes a job to its start. -/
def launching (j : ℕ) : JobOp → Bool
  | .decRunCount i | .commit i | .subcoreCommit i _ => i = j
  | _ => false

structure Starting (cfg : Config) (j : ℕ) (s : JobState) : Prop where
  base : ∀ c, s.dev.base c = true
  addr : j < s.dev.numJobs → (s.dev.jobs j).args.taskObjAddr ≠ 0
  prepared : ∀ op ∈ s.todo, before op = some j → Prepared cfg (s.dev.jobs j) op
  settled : j ∈ enqueues s.hist → Settled cfg (s.dev.jobs j)
  started : .commit j ∈ s.hist → ∀ c ∈ coresOf cfg (s.dev.jobs j).args.coreMask,
    0 < startsOn j c s.hist ∨ .subcoreCommit j c ∈ s.todo
  within : ∀ c, 0 < startsOn j c s.hist →
    j ∈ enqueues s.hist ∧ c ∈ coresOf cfg (s.dev.jobs j).args.coreMask

section
variable {cfg : Config} {s t : JobState} {a : JobLabel} {o : Outcome} {op : JobOp} {eff : Effect}
  {others : Multiset JobOp} {j : ℕ}

theorem Known.queued_of_commit (hs : Known cfg s) (hj : .commit j ∈ s.hist) :
    j ∈ enqueues s.hist := by
  have hpos : 0 < s.hist.count (.commit j) := List.count_pos_iff.mpr hj
  have hcount := hs.countdown.commits j
  split_ifs at hcount with hcond
  · exact hcond.1
  · omega

theorem Starting.commit_starts (hn : Starting cfg j s) (hs : Known cfg s) {c : ℕ}
    (hmem : .subcoreCommit j c ∈ s.todo)
    (heff : jobExec cfg s.dev o (.subcoreCommit j c) = some eff)
    (hok : mapped j s.dev o (.subcoreCommit j c) = true) : startsOn j c eff.events = 1 := by
  obtain ⟨hq, -⟩ := hs.taken.worked _ hmem j rfl
  have hlt : c < cfg.numIrqs := (mem_coresOf.mp (hs.taken.core _ hmem j c rfl)).1
  have haddr := hn.addr (hs.taken.past j hq).1
  have hkv : o.kvAddr = true := of_decide_eq_true hok rfl
  have hnone : commitError cfg s.dev o (s.dev.jobs j) c = none := by
    unfold commitError
    rw [if_neg (Nat.not_le.mpr hlt), hn.base c, hkv]
    simp [haddr]
  rw [events_startsOn heff, if_pos ⟨rfl, (hn.settled hq).pc, hnone⟩]

theorem Starting.exec (hn : Starting cfg j s) (hcfg : cfg.Sound) (hs : Known cfg s)
    (h : Stepped cfg s t a) (hop : s.todo = op ::ₘ others)
    (heff : jobExec cfg s.dev o op = some eff) (hdev : t.dev = eff.dev)
    (htodo : t.todo = (eff.calls : Multiset JobOp) + others)
    (hhist : t.hist = s.hist ++ eff.events) (hok : mapped j s.dev o op = true) :
    Starting cfg j t := by
  have hmem : op ∈ s.todo := by simp [hop]
  have hothers : ∀ x ∈ others, x ∈ s.todo := fun x hx => by simp [hop, hx]
  have henq : j ∈ enqueues t.hist ↔ j ∈ enqueues s.hist ∨ op = .enqueue j := by
    rw [hhist, enqueues_append, List.mem_append, events_enqueue heff]
  have hmask : j ∈ enqueues s.hist →
      (t.dev.jobs j).args.coreMask = (s.dev.jobs j).args.coreMask :=
    fun hj => ((hs.taken.past j hj).stepped h).2
  refine ⟨fun c => ?_, fun hj => ?_, fun x hx hj => ?_, fun hj => ?_, fun hj c hc => ?_,
    fun c hc => ?_⟩
  · rw [hdev, base_eq heff]
    exact hn.base c
  · rw [hdev, numJobs_eq heff] at hj
    rw [hdev, taskObjAddr_eq heff]
    exact hn.addr hj
  · rw [hdev]
    rw [htodo, Multiset.mem_add] at hx
    obtain hx | hx := hx
    · have hb := calls_before heff (Multiset.mem_coe.mp hx) hj
      exact (hn.prepared op hmem hb).calls hcfg heff (Multiset.mem_coe.mp hx) hj
    · refine (hn.prepared x (hothers x hx) hj).exec heff ?_ ?_
      · rintro i c n rfl
        exact (hs.placed.exclusive hop (Or.inl rfl) x hx).1 hj
      · exact hs.placed.not_helper (hothers x hx) hj op hmem
  · rw [hdev]
    obtain hj | rfl := henq.mp hj
    · exact (hn.settled hj).exec heff ((hs.taken.past j hj).2 op hmem)
    · have hjob := (hn.prepared _ hmem rfl).1
      cases heff
      exact hjob
  · rw [hhist, List.mem_append, events_commit heff] at hj
    rw [hhist, startsOn_append, htodo, Multiset.mem_add]
    obtain hj | rfl := hj
    · have hq := hs.queued_of_commit hj
      rw [hmask hq] at hc
      obtain hstart | hwait := hn.started hj c hc
      · exact Or.inl (Nat.add_pos_left hstart _)
      · rw [hop, Multiset.mem_cons] at hwait
        obtain rfl | hwait := hwait
        · left
          rw [hn.commit_starts hs hmem heff hok]
          exact Nat.succ_pos _
        · exact Or.inr (Or.inr hwait)
    · have hq := (hs.taken.worked _ hmem j rfl).1
      rw [hmask hq] at hc
      have hcore := (mem_commitCores (hn.settled hq).cores).mpr (mem_coresOf.mp hc).2
      right
      left
      cases heff
      exact List.mem_map.mpr ⟨c, hcore, rfl⟩
  · rw [hhist, startsOn_append, events_startsOn heff] at hc
    have hold : j ∈ enqueues s.hist ∧ c ∈ coresOf cfg (s.dev.jobs j).args.coreMask := by
      split_ifs at hc with hstart
      · obtain ⟨rfl, -⟩ := hstart
        exact ⟨(hs.taken.worked _ hmem j rfl).1, hs.taken.core _ hmem j c rfl⟩
      · exact hn.within c hc
    rw [hmask hold.1]
    exact ⟨henq.mpr (Or.inl hold.1), hold.2⟩

theorem Starting.submit (hn : Starting cfg j s) (hs : Known cfg s) {args : Submit}
    {useDrmGem : Bool} (hmask : args.coreMask ≤ cfg.coreMask)
    (hargs : s.dev.numJobs = j → regular args ∧ args.taskObjAddr ≠ 0)
    (hdev : t.dev = s.dev.addJob (rknpuJobAlloc s.dev args useDrmGem))
    (htodo : t.todo = .fenceIn s.dev.numJobs ::ₘ s.todo) (hgets : OnlyGets s.hist t.hist) :
    Starting cfg j t := by
  have hold : j ≠ s.dev.numJobs → t.dev.jobs j = s.dev.jobs j := by
    intro hj
    rw [hdev, Dev.addJob_jobs, if_neg hj]
  have hne : j ∈ enqueues s.hist → j ≠ s.dev.numJobs :=
    fun hj => Nat.ne_of_lt (hs.taken.past j hj).1
  refine ⟨fun c => ?_, fun hj => ?_, fun x hx hj => ?_, fun hj => ?_, fun hj c hc => ?_,
    fun c hc => ?_⟩
  · rw [hdev]
    exact hn.base c
  · by_cases hnew : j = s.dev.numJobs
    · rw [hdev, Dev.addJob_jobs, if_pos hnew]
      exact (hargs hnew.symm).2
    · rw [hold hnew]
      rw [hdev, Dev.addJob_numJobs] at hj
      exact hn.addr (by omega)
  · rw [htodo, Multiset.mem_cons] at hx
    obtain rfl | hx := hx
    · obtain rfl : s.dev.numJobs = j := Option.some.inj hj
      rw [hdev, Dev.addJob_jobs, if_pos rfl]
      exact Prepared.alloc (hargs rfl).1 hmask
    · rw [hold (Nat.ne_of_lt (hs.placed.submitted x hx j (Or.inl hj)))]
      exact hn.prepared x hx hj
  · rw [hgets.enqueues] at hj
    rw [hold (hne hj)]
    exact hn.settled hj
  · have hj := (hgets.mem_iff (by simp)).mp hj
    rw [hold (hne (hs.queued_of_commit hj))] at hc
    rw [hgets.startsOn]
    refine (hn.started hj c hc).imp_right fun hx => ?_
    rw [htodo]
    exact Multiset.mem_cons_of_mem hx
  · rw [hgets.startsOn] at hc
    obtain ⟨hq, hcore⟩ := hn.within c hc
    rw [hgets.enqueues, hold (hne hq)]
    exact ⟨hq, hcore⟩

theorem Starting.spawn (hn : Starting cfg j s) (hm : Spawned s t) : Starting cfg j t := by
  refine ⟨fun c => ?_, fun hj => ?_, fun x hx hj => ?_, fun hj => ?_, fun hj c hc => ?_,
    fun c hc => ?_⟩
  · rw [hm.base]
    exact hn.base c
  · rw [hm.numJobs] at hj
    rw [hm.jobs]
    exact hn.addr hj
  · rw [hm.jobs]
    obtain hx | hstart := hm.mem_todo hx
    · exact hn.prepared x hx hj
    · cases x <;> first | exact hstart.elim | cases hj
  · rw [hm.hist] at hj
    rw [hm.jobs]
    exact hn.settled hj
  · rw [hm.hist] at hj ⊢
    rw [hm.jobs] at hc
    obtain ⟨new, htodo, -⟩ := hm.todo
    refine (hn.started hj c hc).imp_right fun hx => ?_
    rw [htodo]
    exact Multiset.mem_add.mpr (Or.inr hx)
  · rw [hm.hist] at hc ⊢
    rw [hm.jobs]
    exact hn.within c hc

theorem Starting.step (hn : Starting cfg j s) (hcfg : cfg.Sound) (hs : Known cfg s)
    (h : Stepped cfg s t a) (hok : startable j s a = true) : Starting cfg j t := by
  cases h.moved with
  | submit hmask hdev htodo hhist =>
    exact hn.submit hs hmask (of_decide_eq_true hok) hdev htodo (.of_submit hhist)
  | exec hnext heff hop hdev htodo hhist =>
    exact hn.exec hcfg hs h hop heff hdev htodo hhist ((onBlock_exec hnext).symm.trans hok)
  | spawn hm => exact hn.spawn hm

theorem starting_run (hcfg : cfg.Sound) (hs : (startingSystem cfg j).Reachable s) :
    Known cfg s ∧ Starting cfg j s := by
  refine hs.invariant (fun s => Known cfg s ∧ Starting cfg j s) ?_ ?_
  · rintro s ⟨now, rfl⟩
    refine ⟨known_init, fun c => rfl, fun hj => (Nat.not_lt_zero j hj).elim, fun op hop => ?_,
      fun hj => (List.not_mem_nil hj).elim, fun hj => (List.not_mem_nil hj).elim, fun c hc => ?_⟩
    · exact (Multiset.notMem_zero op hop).elim
    · exact (Nat.lt_irrefl 0 hc).elim
  · intro s a t hs h
    obtain ⟨hok, h⟩ := System.guarded_step.mp h
    exact ⟨hs.1.step hcfg (stepped h), hs.2.step hcfg hs.1 (stepped h) hok⟩

/-- **A job that can be started is started on its whole mask**, on every device of the driver: when
all cores of its mask have taken it and no thread is on the way from there to its start, it was
committed once, and exactly the cores of its mask were started for it. -/
theorem started_on_mask (hcfg : cfg ∈ rknpuConfigs) (hs : (startingSystem cfg j).Reachable s)
    (hj : j ∈ enqueues s.hist)
    (hpop : ∀ c < cfg.numIrqs, onCore (s.dev.jobs j).args.coreMask c = true → j ∈ popsOn c s.hist)
    (hthrough : ∀ op ∈ s.todo, launching j op = false) :
    s.hist.count (.commit j) = 1 ∧ ∀ c, 0 < startsOn j c s.hist ↔
      c < cfg.numIrqs ∧ onCore (s.dev.jobs j).args.coreMask c = true := by
  have hsound := rknpuConfigs_sound hcfg
  obtain ⟨hk, hn⟩ := starting_run hsound hs
  have hnone : ∀ op, launching j op = true → op ∉ s.todo := by
    intro op hop hmem
    rw [hthrough op hmem] at hop
    cases hop
  have hjob := hn.settled hj
  have hcores : coresOf cfg (s.dev.jobs j).args.coreMask ≠ [] := by
    obtain ⟨c, hc⟩ := List.exists_mem_of_ne_nil _ hjob.cores
    have hon := (mem_commitCores hjob.cores).mp hc
    exact List.ne_nil_of_mem (mem_coresOf.mpr ⟨hsound.masked _ hjob.mask c hon, hon⟩)
  have hcommit := hk.countdown.committed hj hcores
    (fun c hc => hpop c (mem_coresOf.mp hc).1 (mem_coresOf.mp hc).2)
    (hnone (.decRunCount j) (decide_eq_true rfl))
  rw [Multiset.count_eq_zero.mpr (hnone (.commit j) (decide_eq_true rfl))] at hcommit
  refine ⟨hcommit, fun c => ⟨fun hc => mem_coresOf.mp (hn.within c hc).2, fun hc => ?_⟩⟩
  have hmem : .commit j ∈ s.hist := List.count_pos_iff.mp (by omega)
  exact (hn.started hmem c (mem_coresOf.mpr hc)).resolve_right
    (hnone (.subcoreCommit j c) (decide_eq_true rfl))

end

/-- A job for the cores of a mask, up to the wait of its thread. -/
def maskedJob (coreMask : UInt32) (blocks : ℕ) : List JobLabel :=
  .submit (oneTask rknpuJobPc coreMask) false true :: List.replicate blocks (.exec 0 calm)

/-- A job for two cores is started on both. -/
theorem started_on_mask_two : ∃ s, (startingSystem rk3588RknpuConfig 0).Reachable s ∧
    s.hist.count (.commit 0) = 1 ∧ ∀ c, 0 < startsOn 0 c s.hist ↔
      c < 3 ∧ onCore (s.dev.jobs 0).args.coreMask c = true := by
  obtain ⟨s, hs, h⟩ := System.Reachable.of_run_any (S := startingSystem rk3588RknpuConfig 0)
    (p := fun s => decide (0 ∈ enqueues s.hist ∧ (s.dev.jobs 0).args.coreMask = 0x3 ∧
      0 ∈ popsOn 0 s.hist ∧ 0 ∈ popsOn 1 s.hist ∧
      ∀ op ∈ s.threads.flatten, launching 0 op = false))
    (l := maskedJob 0x3 19) ⟨1, rfl⟩ (by decide +kernel)
  obtain ⟨hj, hmask, hpop0, hpop1, hthrough⟩ := of_decide_eq_true h
  refine ⟨s, hs, started_on_mask (by decide) hs hj (fun c hc hon => ?_) fun op hop => ?_⟩
  · rw [hmask] at hon
    match c, hc with
    | 0, _ => exact hpop0
    | 1, _ => exact hpop1
    | 2, _ => exact absurd hon (by decide)
  · exact hthrough op (Multiset.mem_coe.mp hop)

/-- The mask `0x5` is accepted. Cores `0` and `2` take the job and it is committed, and nothing
starts it: it keeps both cores when all that is left is the wait of its thread. -/
theorem masked_unstarted : ∃ s, (jobSystem rk3588RknpuConfig).Reachable s ∧
    s.todo = {.waitEvent 0 0} ∧ (s.dev.subcoreDatas 0).job = some 0 ∧
    (s.dev.subcoreDatas 2).job = some 0 ∧ (s.dev.jobs 0).runCount = 0 ∧
    startsOn 0 0 s.hist = 0 ∧ startsOn 0 2 s.hist = 0 := by
  obtain ⟨s, hs, h⟩ := System.Reachable.of_run_any (S := jobSystem rk3588RknpuConfig)
    (p := fun s => decide (s.threads.flatten = [.waitEvent 0 0] ∧
      (s.dev.subcoreDatas 0).job = some 0 ∧ (s.dev.subcoreDatas 2).job = some 0 ∧
      (s.dev.jobs 0).runCount = 0 ∧ startsOn 0 0 s.hist = 0 ∧ startsOn 0 2 s.hist = 0))
    (l := maskedJob 0x5 17) ⟨1, rfl⟩ (by decide +kernel)
  obtain ⟨htodo, hrest⟩ := of_decide_eq_true h
  exact ⟨s, hs, congrArg _ htodo, hrest⟩

end RknpuDriver.Job
