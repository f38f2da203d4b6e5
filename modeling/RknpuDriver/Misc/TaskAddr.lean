import RknpuDriver.Job.Effects
import RknpuDriver.Job.Positions
import RknpuDriver.Mem.DmaBufs

/-! # The task object of a SUBMIT on the misc device

SUBMIT takes `task_obj_addr` as it is; each commit of a batch reads the memory object at that
address. A state is a state of the job code and one of the memory objects, with the session that
each job was submitted by.

* `miscStep`: MEM_CREATE, MEM_DESTROY, SUBMIT and the steps of the job code, in any order.
* `mayCommit`, `active`: the jobs of which a batch can still be committed.
* `task_listed`: if SUBMIT looked the address up, and the object of an active job were kept, then
  no commit would read anything but objects of its own session.
-/

namespace RknpuDriver.Misc
set_option autoImplicit false
open RknpuDriver.Lib RknpuDriver.Job RknpuDriver.Mem

structure MiscState where
  job : JobState
  mem : MemState
  file : ℕ → ℕ

inductive MiscLabel where
  | mem (label : MemLabel)
  | submit (file : ℕ) (args : Submit) (allocOk : Bool)
  | job (label : JobLabel)

/-- SUBMIT is a step of its own here. -/
def isSubmit : JobLabel → Bool
  | .submit _ _ _ => true
  | _ => false

def miscStep (cfg : Config) (s : MiscState) : MiscLabel → Option MiscState
  | .mem label => (memStep s.mem label).map fun mem => { s with mem := mem }
  | .submit file args allocOk =>
    if file ∈ s.mem.sessions then
      (jobStep cfg s.job (.submit args false allocOk)).map fun job =>
        { s with job := job, file := fun j => if j = s.job.dev.numJobs then file else s.file j }
    else none
  | .job label =>
    if isSubmit label then none
    else (jobStep cfg s.job label).map fun job => { s with job := job }

def miscSystem (cfg : Config) : System MiscState MiscLabel where
  init s := (jobSystem cfg).init s.job ∧ memSystem.init s.mem
  step := miscStep cfg

/-! ## Jobs that can still be committed -/

/-- The batch that runs on the core is not the job's last one. -/
def moreBatches (cfg : Config) (dev : Dev) (j c : ℕ) : Bool :=
  (dev.jobs j).submitCount c + 1 < batches cfg (dev.jobs j) c

/-- A block after which its thread comes to commit a batch of the job. -/
def mayCommit (cfg : Config) (dev : Dev) (j : ℕ) : JobOp → Bool
  | .fenceIn i | .fenceOut i | .fenceInit i _ | .dispatch i | .schedule i | .autoRead i _ _ _
  | .domainGet i | .enqueue i | .decRunCount i | .commit i | .subcoreCommit i _ => i = j
  | .irqStatus i c | .doneCount i c => i = j ∧ moreBatches cfg dev j c
  | _ => false

/-- The core has the job on its list, or runs a batch of it that is not the last. -/
def mayTake (cfg : Config) (dev : Dev) (j c : ℕ) : Bool :=
  j ∈ (dev.subcoreDatas c).todoList ∨
    (dev.subcoreDatas c).job = some j ∧ moreBatches cfg dev j c = true

def active (cfg : Config) (s : JobState) (j : ℕ) : Bool :=
  (∃ op ∈ s.threads.flatten, mayCommit cfg s.dev j op = true) ∨
    ∃ c < cfg.numIrqs, mayTake cfg s.dev j c = true

/-! ## The condition -/

/-- The address is that of an object on the list of the session. -/
def listed (mem : MemState) (file : ℕ) (taskObjAddr : UInt64) : Bool :=
  ∃ x ∈ mem.objs, x.session = file ∧ x.addr = taskObjAddr.toNat

/-- The job is active, and its task object is the one given. -/
def needs (cfg : Config) (s : MiscState) (j file addr : ℕ) : Bool :=
  active cfg s.job j = true ∧ s.file j = file ∧ (s.job.dev.jobs j).args.taskObjAddr.toNat = addr

/-- SUBMIT accepts the addresses of objects of its session only, and neither MEM_DESTROY nor the
release of a session takes the object of an active job away. -/
def guardsTasks (cfg : Config) (s : MiscState) : MiscLabel → Bool
  | .submit file args allocOk =>
    (rknpuSubmit cfg s.job.dev args false allocOk).isOk = true →
      listed s.mem file args.taskObjAddr = true
  | .mem (.memDestroy file args _) =>
    ∀ j < s.job.dev.numJobs, needs cfg s j file args.objAddr = false
  | .mem (.release file) => ∀ j < s.job.dev.numJobs, active cfg s.job j = true → s.file j ≠ file
  | _ => true

def listingSystem (cfg : Config) : System MiscState MiscLabel :=
  (miscSystem cfg).guarded fun s a => guardsTasks cfg s a = true

/-! ## Memory objects -/

theorem takeDmaBuf_objs (s : MemState) (proc addr : ℕ) (args : RknpuMemCreate)
    (o : CreateOutcome) : (s.takeDmaBuf proc addr args o).2.objs = s.objs := by
  unfold MemState.takeDmaBuf
  split_ifs
  · split <;> rfl
  · rfl
  · split <;> rfl

theorem listMapped_objs (s : MemState) (file addr : ℕ) (args : RknpuMemCreate)
    (o : CreateOutcome) (b : NewBuf) (dmaAddr : ℕ) {x : RknpuMemObject} (hx : x ∈ s.objs) :
    x ∈ (s.listMapped file addr args o b dmaAddr).2.2.objs := by
  unfold MemState.listMapped
  simp only
  split_ifs with hvmap hfail
  · exact hx
  · show x ∈ (s.vmapDmaBuf args b.dmabuf).objs
    rw [(vmapDmaBuf_frame s args b.dmabuf).2]
    exact hx
  · exact List.mem_append_left _ hx

theorem listDmaBuf_objs (s : MemState) (file addr : ℕ) (args : RknpuMemCreate)
    (o : CreateOutcome) (b : NewBuf) {x : RknpuMemObject} (hx : x ∈ s.objs) :
    x ∈ (s.listDmaBuf file addr args o b).2.2.objs := by
  unfold MemState.listDmaBuf
  split_ifs
  · exact hx
  · split
    · exact hx
    · exact listMapped_objs _ file addr args o b _ hx

theorem rknpuMemCreateIoctl_objs (s : MemState) (proc file : ℕ) (args : RknpuMemCreate)
    (o : CreateOutcome) {x : RknpuMemObject} (hx : x ∈ s.objs) :
    x ∈ (s.rknpuMemCreateIoctl proc file args o).2.2.objs := by
  unfold MemState.rknpuMemCreateIoctl
  split_ifs
  · exact hx
  · split
    · exact hx
    · rename_i addr _
      have hobjs := takeDmaBuf_objs s proc addr args o
      split
      · rename_i e t ht
        rw [ht] at hobjs
        exact hobjs ▸ hx
      · rename_i b t ht
        rw [ht] at hobjs
        exact listDmaBuf_objs t file addr args o b (hobjs ▸ hx)

theorem teardownAll_objs (xs : List RknpuMemObject) (s : MemState) :
    (xs.foldl MemState.teardown s).objs = s.objs := by
  induction xs generalizing s with
  | nil => rfl
  | cons x xs ih =>
    rw [List.foldl_cons, ih, (teardown_frame s x).2]

theorem rknpuMemDestroyIoctl_objs (s : MemState) (file : ℕ) (args : RknpuMemDestroy)
    (copyIn : Bool) {x : RknpuMemObject} (hx : x ∈ s.objs)
    (hkeep : x.session = file → x.addr ≠ args.objAddr) :
    x ∈ (s.rknpuMemDestroyIoctl file args copyIn).2.objs := by
  unfold MemState.rknpuMemDestroyIoctl
  split_ifs
  · exact hx
  · split
    · exact hx
    · rename_i y hfind
      rw [(teardown_frame _ y).2]
      refine (List.mem_erase_of_ne ?_).mpr hx
      rintro rfl
      have hy := List.find?_some hfind
      simp only [decide_eq_true_eq] at hy
      exact hkeep hy.1 hy.2

theorem rknpuRelease_objs (s : MemState) (file : ℕ) {x : RknpuMemObject} (hx : x ∈ s.objs)
    (hkeep : x.session ≠ file) : x ∈ (s.rknpuRelease file).objs := by
  rw [MemState.rknpuRelease, teardownAll_objs]
  exact List.mem_filter.mpr ⟨hx, by simp [hkeep]⟩

theorem memStep_objs {s t : MemState} {label : MemLabel} (h : memStep s label = some t)
    {x : RknpuMemObject} (hx : x ∈ s.objs)
    (hdestroy : ∀ file args copyIn, label = .memDestroy file args copyIn → x.session = file →
      x.addr ≠ args.objAddr)
    (hrelease : ∀ file, label = .release file → x.session ≠ file) : x ∈ t.objs := by
  cases label with
  | openFile file =>
    simp only [memStep] at h
    split_ifs at h
    cases h
    exact hx
  | release file =>
    simp only [memStep] at h
    split_ifs at h
    cases h
    exact rknpuRelease_objs s file hx (hrelease file rfl)
  | memCreate proc file args o =>
    simp only [memStep] at h
    split_ifs at h
    cases h
    exact rknpuMemCreateIoctl_objs s proc file args o hx
  | memDestroy file args copyIn =>
    cases h
    exact rknpuMemDestroyIoctl_objs s file args copyIn hx (hdestroy file args copyIn rfl)
  | memSync =>
    cases h
    exact hx
  | closeFd proc fd =>
    obtain ⟨e, -, rfl⟩ := Option.map_eq_some_iff.mp h
    exact hx
  | exportBuf proc fd =>
    simp only [memStep] at h
    split_ifs at h
    cases h
    exact hx
  | dup proc fd proc' fd' =>
    simp only [memStep] at h
    split_ifs at h
    obtain ⟨e, -, rfl⟩ := Option.map_eq_some_iff.mp h
    exact hx

/-! ## Steps of the job code -/

section
variable {cfg : Config} {s t : JobState} {a : JobLabel} {dev : Dev} {o : Outcome} {op x : JobOp}
  {eff : Effect} {j c : ℕ}

theorem batches_congr {job job' : RknpuJob} (hcores : job'.useCoreNum = job.useCoreNum)
    (hnum : job'.args.taskNumber = job.args.taskNumber)
    (htask : job'.args.subcoreTask = job.args.subcoreTask) :
    batches cfg job' c = batches cfg job c := by
  unfold batches rknpuGetTaskNumber taskNumber
  rw [hcores, hnum, htask]

/-- A batch that is the last one before a block is so after it. -/
theorem moreBatches_exec (h : jobExec cfg dev o op = some eff)
    (hauto : ∀ i k n, op ≠ .autoRead j i k n) (hmore : moreBatches cfg eff.dev j c = true) :
    moreBatches cfg dev j c = true := by
  obtain ⟨hnum, htask⟩ := taskCounts_eq h j
  simp only [moreBatches, decide_eq_true_eq] at hmore ⊢
  rw [batches_congr (cores_eq h hauto).2 hnum htask, submitCount_eq h] at hmore
  split_ifs at hmore <;> omega

theorem mayCommit_exec (h : jobExec cfg dev o op = some eff)
    (hauto : ∀ i k n, op ≠ .autoRead j i k n) (hx : mayCommit cfg eff.dev j x = true) :
    mayCommit cfg dev j x = true := by
  cases x with
  | irqStatus i k | doneCount i k =>
    simp only [mayCommit, decide_eq_true_eq] at hx ⊢
    exact ⟨hx.1, moreBatches_exec h hauto hx.2⟩
  | _ => exact hx

theorem mayCommit_of_before (h : before op = some j) : mayCommit cfg dev j op = true := by
  cases op <;> first | exact decide_eq_true (Option.some.inj h) | cases h

theorem mayCommit_calls (h : jobExec cfg dev o op = some eff)
    (hauto : ∀ i k n, op ≠ .autoRead j i k n) (hx : x ∈ eff.calls)
    (hj : mayCommit cfg eff.dev j x = true) :
    mayCommit cfg dev j op = true ∨ ∃ c, mayTake cfg dev j c = true := by
  have hj := mayCommit_exec h hauto hj
  cases hb : before x with
  | some i =>
    have hi : i = j := by
      cases x <;> first | exact (Option.some.inj hb).symm.trans (of_decide_eq_true hj) | cases hb
    rw [hi] at hb
    exact Or.inl (mayCommit_of_before (calls_before h hx hb))
  | none =>
    cases x with
    | decRunCount i =>
      obtain rfl : i = j := of_decide_eq_true hj
      have hpop := calls_decRunCount h hx
      cases op with
      | pop c =>
        simp only [pops] at hpop
        split_ifs at hpop
        exact Or.inr ⟨c, decide_eq_true (Or.inl (List.mem_of_head? hpop))⟩
      | _ => cases hpop
    | commit i =>
      obtain rfl : i = j := of_decide_eq_true hj
      obtain ⟨rfl, -⟩ := calls_commit h hx
      exact Or.inl (decide_eq_true rfl)
    | subcoreCommit i k =>
      obtain rfl : i = j := of_decide_eq_true hj
      obtain ⟨rfl, -⟩ | ⟨rfl, hmore⟩ := calls_subcoreCommit h hx
      · exact Or.inl (decide_eq_true rfl)
      · exact Or.inl (decide_eq_true ⟨rfl, decide_eq_true hmore⟩)
    | irqStatus i k =>
      simp only [mayCommit, decide_eq_true_eq] at hj
      obtain ⟨rfl, hmore⟩ := hj
      obtain ⟨rfl, hcur⟩ := calls_irqStatus h hx
      exact Or.inr ⟨k, decide_eq_true (Or.inr ⟨hcur, hmore⟩)⟩
    | doneCount i k =>
      simp only [mayCommit, decide_eq_true_eq] at hj
      obtain ⟨rfl, hmore⟩ := hj
      obtain ⟨rfl, -⟩ := calls_doneCount h hx
      exact Or.inl (decide_eq_true ⟨rfl, hmore⟩)
    | fenceIn | fenceOut | fenceInit | dispatch | schedule | autoRead | domainGet | enqueue =>
      cases hb
    | _ => cases hj

theorem mayTake_exec (h : jobExec cfg dev o op = some eff)
    (hauto : ∀ i k n, op ≠ .autoRead j i k n) (hc : mayTake cfg eff.dev j c = true) :
    mayCommit cfg dev j op = true ∨ mayTake cfg dev j c = true := by
  simp only [mayTake, decide_eq_true_eq] at hc ⊢
  obtain hc | ⟨hc, hmore⟩ := hc
  · rw [todoList_eq h] at hc
    obtain hc | ⟨rfl, -⟩ := mem_todoListAfter hc
    · exact Or.inr (Or.inl hc)
    · exact Or.inl (decide_eq_true rfl)
  · rw [current_eq h] at hc
    obtain hc | ⟨rfl, hhead⟩ := currentAfter_some hc
    · exact Or.inr (Or.inr ⟨hc, moreBatches_exec h hauto hmore⟩)
    · exact Or.inr (Or.inl (List.mem_of_head? hhead))

theorem active_of_mem (hop : op ∈ s.todo) (hj : mayCommit cfg s.dev j op = true) :
    active cfg s j = true :=
  decide_eq_true (Or.inl ⟨op, Multiset.mem_coe.mp hop, hj⟩)

theorem active_of_take (hs : Placed cfg s) (hj : mayTake cfg s.dev j c = true) :
    active cfg s j = true := by
  refine decide_eq_true (Or.inr ⟨c, ?_, hj⟩)
  simp only [mayTake, decide_eq_true_eq] at hj
  exact (hs.held c j (hj.imp_right And.left)).2.1

theorem active_stepped (hs : Placed cfg s) (h : Stepped cfg s t a)
    (hj : active cfg t j = true) (hold : j < s.dev.numJobs) : active cfg s j = true := by
  simp only [active, decide_eq_true_eq] at hj
  cases h.moved with
  | submit hmask hdev htodo hhist =>
    have hjob : t.dev.jobs j = s.dev.jobs j := by
      rw [hdev, Dev.addJob_jobs, if_neg (Nat.ne_of_lt hold)]
    have hmore : ∀ c, moreBatches cfg t.dev j c = moreBatches cfg s.dev j c := by
      intro c
      unfold moreBatches
      rw [hjob]
    obtain ⟨op, hop, hj⟩ | ⟨c, -, hj⟩ := hj
    · have hop : op ∈ t.todo := Multiset.mem_coe.mpr hop
      rw [htodo, Multiset.mem_cons] at hop
      obtain rfl | hop := hop
      · exact absurd (of_decide_eq_true hj) (Nat.ne_of_gt hold)
      · refine active_of_mem hop ?_
        cases op with
        | irqStatus i k | doneCount i k =>
          simp only [mayCommit, hmore] at hj ⊢
          exact hj
        | _ => exact hj
    · refine active_of_take hs (c := c) ?_
      unfold mayTake at hj ⊢
      rw [hmore, hdev] at hj
      exact hj
  | @exec tid o op rest eff others hnext heff hop hdev htodo hhist =>
    have hmem : op ∈ s.todo := by simp [hop]
    by_cases hauto : ∃ i k n, op = .autoRead j i k n
    · obtain ⟨i, k, n, rfl⟩ := hauto
      exact active_of_mem hmem (decide_eq_true rfl)
    · push Not at hauto
      rw [hdev] at hj
      obtain ⟨x, hx, hj⟩ | ⟨c, -, hj⟩ := hj
      · have hx : x ∈ t.todo := Multiset.mem_coe.mpr hx
        rw [htodo, Multiset.mem_add, Multiset.mem_coe] at hx
        obtain hx | hx := hx
        · obtain hj | ⟨c, hc⟩ := mayCommit_calls heff hauto hx hj
          · exact active_of_mem hmem hj
          · exact active_of_take hs hc
        · exact active_of_mem (by simp [hop, hx]) (mayCommit_exec heff hauto hj)
      · obtain hj | hj := mayTake_exec heff hauto hj
        · exact active_of_mem hmem hj
        · exact active_of_take hs hj
  | spawn hm =>
    have hmore : ∀ c, moreBatches cfg t.dev j c = moreBatches cfg s.dev j c := by
      intro c
      unfold moreBatches
      rw [hm.jobs]
    obtain ⟨op, hop, hj⟩ | ⟨c, -, hj⟩ := hj
    · obtain hop | hstart := hm.mem_todo (Multiset.mem_coe.mpr hop)
      · refine active_of_mem hop ?_
        cases op with
        | irqStatus i k | doneCount i k =>
          simp only [mayCommit, hmore] at hj ⊢
          exact hj
        | _ => exact hj
      · cases op with
        | irqEntry | resetBegin | timerTick | cleanupWork => cases hj
        | _ => exact hstart.elim
    · refine active_of_take hs (c := c) ?_
      unfold mayTake at hj ⊢
      rw [hmore, hm.subcoreDatas] at hj
      exact hj

theorem taskObjAddr_stepped (h : Stepped cfg s t a) (hold : j < s.dev.numJobs) :
    (t.dev.jobs j).args.taskObjAddr = (s.dev.jobs j).args.taskObjAddr := by
  cases h.moved with
  | submit hmask hdev htodo hhist =>
    rw [hdev, Dev.addJob_jobs, if_neg (Nat.ne_of_lt hold)]
  | exec hnext heff hop hdev htodo hhist => rw [hdev, taskObjAddr_eq heff]
  | spawn hm => rw [hm.jobs]

/-- A task object is read by the commit of a batch of an active job. -/
theorem active_of_deref (hs : Placed cfg s) (h : Stepped cfg s t a) {evs : List Event}
    (hevs : t.hist = s.hist ++ evs) {addr : UInt64} (hj : .deref j addr ∈ evs) :
    j < s.dev.numJobs ∧ active cfg s j = true ∧ addr = (s.dev.jobs j).args.taskObjAddr := by
  cases h.moved with
  | submit hmask hdev htodo hhist =>
    rw [List.append_cancel_left (hevs.symm.trans hhist)] at hj
    split_ifs at hj <;> simp at hj
  | exec hnext heff hop hdev htodo hhist =>
    rw [List.append_cancel_left (hevs.symm.trans hhist)] at hj
    obtain ⟨⟨c, rfl⟩, haddr, -⟩ := events_deref heff hj
    have hmem : .subcoreCommit j c ∈ s.todo := by simp [hop]
    exact ⟨(hs.helped _ hmem j rfl).1, active_of_mem hmem (decide_eq_true rfl), haddr⟩
  | spawn hm =>
    rw [List.append_right_eq_self.mp (hevs.symm.trans hm.hist)] at hj
    exact (List.not_mem_nil hj).elim

end

/-! ## Steps of the device -/

/-- The task object of every active job is listed. -/
structure Listing (cfg : Config) (s : MiscState) : Prop where
  placed : Placed cfg s.job
  listed : ∀ j < s.job.dev.numJobs, active cfg s.job j = true →
    listed s.mem (s.file j) (s.job.dev.jobs j).args.taskObjAddr = true

section
variable {cfg : Config} {s t : MiscState} {a : MiscLabel}

theorem Listing.mem_step (hs : Listing cfg s) {label : MemLabel} {mem : MemState}
    (h : memStep s.mem label = some mem) (hok : guardsTasks cfg s (.mem label) = true) :
    Listing cfg { s with mem := mem } := by
  refine ⟨hs.placed, fun j hj hactive => ?_⟩
  obtain ⟨x, hx, hfile, haddr⟩ := of_decide_eq_true (hs.listed j hj hactive)
  refine decide_eq_true ⟨x, memStep_objs h hx ?_ ?_, hfile, haddr⟩
  · rintro file args copyIn rfl hsession hsame
    simp only [guardsTasks, decide_eq_true_eq] at hok
    have hno := hok j hj
    rw [needs, decide_eq_false_iff_not] at hno
    exact hno ⟨hactive, hfile.symm.trans hsession, haddr.symm.trans hsame⟩
  · rintro file rfl hsession
    simp only [guardsTasks, decide_eq_true_eq] at hok
    exact hok j hj hactive (hfile.symm.trans hsession)

/-- A SUBMIT adds at most one job, whose task object is listed. -/
theorem Listing.submit (hs : Listing cfg s) {file : ℕ} {args : Submit} {allocOk : Bool}
    {job : JobState} (h : jobStep cfg s.job (.submit args false allocOk) = some job)
    (hok : guardsTasks cfg s (.submit file args allocOk) = true) :
    Listing cfg
      { s with job := job, file := fun j => if j = s.job.dev.numJobs then file else s.file j } := by
  have hstep := stepped h
  refine ⟨hs.placed.step hstep, fun j hj hactive => ?_⟩
  by_cases hold : j < s.job.dev.numJobs
  · show Misc.listed s.mem (if j = _ then file else s.file j) _ = true
    rw [if_neg (Nat.ne_of_lt hold)]
    have haddr : (job.dev.jobs j).args.taskObjAddr = _ := taskObjAddr_stepped hstep hold
    rw [haddr]
    exact hs.listed j hold (active_stepped hs.placed hstep hactive hold)
  · simp only [guardsTasks, decide_eq_true_eq] at hok
    simp only [jobStep] at h
    split at h
    · cases h
      exact absurd hj hold
    · rename_i eff heff
      obtain ⟨-, -, rfl⟩ := rknpuSubmit_ok heff
      cases h
      have hnew : j = s.job.dev.numJobs := by
        have hlt : j < s.job.dev.numJobs + 1 := hj
        omega
      subst hnew
      have hlisted := hok (by rw [heff]; rfl)
      simpa [rknpuJobAlloc] using hlisted

theorem numJobs_stepped {s t : JobState} {a : JobLabel} (h : Stepped cfg s t a)
    (ha : isSubmit a = false) : t.dev.numJobs = s.dev.numJobs := by
  cases h.moved with
  | submit => cases ha
  | exec hnext heff hop hdev htodo hhist => rw [hdev, numJobs_eq heff]
  | spawn hm => exact hm.numJobs

theorem Listing.job_step (hs : Listing cfg s) {label : JobLabel} {job : JobState}
    (h : jobStep cfg s.job label = some job) (hlabel : isSubmit label = false) :
    Listing cfg { s with job := job } := by
  have hstep := stepped h
  refine ⟨hs.placed.step hstep, fun j hj hactive => ?_⟩
  have hold : j < s.job.dev.numJobs := by
    rw [← numJobs_stepped hstep hlabel]
    exact hj
  have haddr : (job.dev.jobs j).args.taskObjAddr = _ := taskObjAddr_stepped hstep hold
  show Misc.listed s.mem (s.file j) _ = true
  rw [haddr]
  exact hs.listed j hold (active_stepped hs.placed hstep hactive hold)

theorem Listing.step (hs : Listing cfg s) (h : miscStep cfg s a = some t)
    (hok : guardsTasks cfg s a = true) : Listing cfg t := by
  cases a with
  | mem label =>
    obtain ⟨mem, hmem, rfl⟩ := Option.map_eq_some_iff.mp h
    exact hs.mem_step hmem hok
  | submit file args allocOk =>
    simp only [miscStep] at h
    split_ifs at h
    obtain ⟨job, hjob, rfl⟩ := Option.map_eq_some_iff.mp h
    exact hs.submit hjob hok
  | job label =>
    simp only [miscStep] at h
    split_ifs at h with hlabel
    obtain ⟨job, hjob, rfl⟩ := Option.map_eq_some_iff.mp h
    exact hs.job_step hjob (Bool.not_eq_true _ ▸ hlabel)

theorem listing (hs : (listingSystem cfg).Reachable s) : Listing cfg s := by
  refine hs.invariant (Listing cfg) ?_ fun s a t hs h => ?_
  · rintro ⟨job, mem, file⟩ ⟨⟨now, rfl⟩, -⟩
    exact ⟨placed_init, fun j hj => (Nat.not_lt_zero j hj).elim⟩
  · obtain ⟨hok, h⟩ := System.guarded_step.mp h
    exact hs.step h hok

/-- **Commits read listed task objects only**, when SUBMIT looks the address up on the list of its
session and the objects of active jobs are kept; and a SUBMIT of any other address then changes
nothing. -/
theorem task_listed (hs : (listingSystem cfg).Reachable s)
    (h : (listingSystem cfg).step s a = some t) :
    (∀ evs, t.job.hist = s.job.hist ++ evs → ∀ j addr, .deref j addr ∈ evs →
      listed s.mem (s.file j) addr = true) ∧
    ∀ file args allocOk, a = .submit file args allocOk →
      listed s.mem file args.taskObjAddr = false → t.job = s.job := by
  have hlisting := listing hs
  obtain ⟨hok, h⟩ := System.guarded_step.mp h
  have hderef : ∀ {label : JobLabel}, jobStep cfg s.job label = some t.job → ∀ evs,
      t.job.hist = s.job.hist ++ evs → ∀ j addr, .deref j addr ∈ evs →
        listed s.mem (s.file j) addr = true := by
    intro label hstep evs hevs j addr hj
    obtain ⟨hold, hactive, rfl⟩ := active_of_deref hlisting.placed (stepped hstep) hevs hj
    exact hlisting.listed j hold hactive
  cases a with
  | mem label =>
    obtain ⟨mem, hmem, rfl⟩ := Option.map_eq_some_iff.mp h
    refine ⟨fun evs hevs j addr hj => ?_, by simp⟩
    rw [List.append_right_eq_self.mp hevs.symm] at hj
    exact (List.not_mem_nil hj).elim
  | submit file args allocOk =>
    replace h : miscStep cfg s (.submit file args allocOk) = some t := h
    simp only [miscStep] at h
    split_ifs at h
    obtain ⟨job, hjob, rfl⟩ := Option.map_eq_some_iff.mp h
    refine ⟨hderef hjob, fun file' args' allocOk' heq hno => ?_⟩
    cases heq
    simp only [guardsTasks, decide_eq_true_eq] at hok
    simp only [jobStep] at hjob
    split at hjob
    · exact (Option.some.inj hjob).symm
    · rename_i eff heff
      rw [hok (by rw [heff]; rfl)] at hno
      cases hno
  | job label =>
    replace h : miscStep cfg s (.job label) = some t := h
    simp only [miscStep] at h
    split_ifs at h
    obtain ⟨job, hstep, rfl⟩ := Option.map_eq_some_iff.mp h
    exact ⟨hderef hstep, by simp⟩

end

/-- A SUBMIT of `0x1000` for core `0` by session `0`, up to the commit of its batch. -/
def submitted : List MiscLabel :=
  .submit 0 (oneTask rknpuJobPc rknpuCore0Mask) true :: List.replicate 11 (.job (.exec 0 calm))

def emptyState : MiscState := ⟨⟨.probed 1, [], []⟩, ⟨.empty, 0, [], [], [], []⟩, fun _ => 0⟩

theorem emptyState_init : (miscSystem rk3588RknpuConfig).init emptyState := ⟨⟨1, rfl⟩, rfl⟩

/-- The object at the address is listed, and is read. -/
theorem task_listed_object : ∃ s t, (listingSystem rk3588RknpuConfig).Reachable s ∧
    (listingSystem rk3588RknpuConfig).step s (.job (.exec 0 calm)) = some t ∧
    .deref 0 0x1000 ∈ t.job.hist ∧ listed s.mem (s.file 0) 0x1000 = true := by
  obtain ⟨s, hs, h⟩ := System.Reachable.of_run_any (S := listingSystem rk3588RknpuConfig)
    (p := fun s => ((listingSystem rk3588RknpuConfig).step s (.job (.exec 0 calm))).any
      fun t : MiscState => decide (t.job.hist = s.job.hist ++ [.deref 0 0x1000, .start 0 0 0 1]))
    (l := allocated.map .mem ++ submitted) emptyState_init (by decide +kernel)
  obtain ⟨t, ht, hp⟩ := (Option.any_eq_true _ _).mp h
  have hhist := of_decide_eq_true hp
  refine ⟨s, t, hs, ht, ?_, (task_listed hs ht).1 _ hhist 0 0x1000 List.mem_cons_self⟩
  rw [hhist]
  exact List.mem_append_right _ List.mem_cons_self

/-- With no object at all, the address is read just the same. -/
theorem task_unlisted : ∃ s, (miscSystem rk3588RknpuConfig).Reachable s ∧
    s.mem.objs = [] ∧ .deref 0 0x1000 ∈ s.job.hist := by
  obtain ⟨s, hs, h⟩ := System.Reachable.of_run_any (S := miscSystem rk3588RknpuConfig)
    (p := fun s => decide (s.mem.objs = [] ∧ .deref 0 0x1000 ∈ s.job.hist))
    (l := .mem (.openFile 0) :: submitted ++ [.job (.exec 0 calm)]) emptyState_init
    (by decide +kernel)
  exact ⟨s, hs, of_decide_eq_true h⟩

end RknpuDriver.Misc
