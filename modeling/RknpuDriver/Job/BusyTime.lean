import RknpuDriver.Job.Deadlines
import RknpuDriver.Job.TimeoutClean

/-! # Busy times

`busy_time` of a core is what its jobs have run since the timer last published it. A job has one
`hw_recoder_time`, the mark from which its time is still to be counted: `rknpu_job_next` sets it,
`rknpu_job_done` and `hrtimer_handler` count from it, and `hrtimer_handler` moves it on. A job on
more than one core shares it.

* `BusyState`: the jobs, and the time in which the cores had one.
* `overwritten`: what a core loses when the mark of its job is moved for another core.
* `busy_exec`: a block changes what is missed, or will be, by that much.
* `busy_time_exact`, `busy_time_le`: the runs in which no mark is moved so, and all runs.
-/

namespace RknpuDriver.Job
set_option autoImplicit false
open RknpuDriver.Lib

/-- `published c` is the sum of the `total_busy_time`s of core `c`, `occupied c` the time in which
it had a job, and `accounted c` what that was when its time was last counted. -/
structure BusyState where
  job : JobState
  published : ℕ → ℤ
  occupied : ℕ → ℤ
  accounted : ℕ → ℤ

def publishesOn (cfg : Config) : JobOp → List ℕ
  | .timerTick c => if c < cfg.numIrqs then [c] else []
  | _ => []

def accountsOn (cfg : Config) : JobOp → List ℕ
  | .doneClear _ c => [c]
  | op => publishesOn cfg op

/-- The times after a step to `t`. -/
def busyAfter (cfg : Config) (s : BusyState) (a : JobLabel) (t : JobState) : BusyState where
  job := t
  published c := if c ∈ ofBlock (publishesOn cfg) s.job a then
    s.published c + (t.dev.subcoreDatas c).totalBusyTime else s.published c
  occupied c := if (s.job.dev.subcoreDatas c).job = none then s.occupied c else
    s.occupied c + ((t.dev.now : ℤ) - s.job.dev.now)
  accounted c := if c ∈ ofBlock (accountsOn cfg) s.job a then s.occupied c else s.accounted c

def timedSystem (cfg : Config) : System BusyState JobLabel where
  init s := ∃ now, s = ⟨⟨.probed now, [], []⟩, fun _ => 0, fun _ => 0, fun _ => 0⟩
  step s a := (jobStep cfg s.job a).map (busyAfter cfg s a)

/-- No job is aborted, and `rknpu_job_done` is called for the job that its core has. -/
def completes (dev : Dev) (_ : Outcome) : JobOp → Bool
  | .doneClear j c => (dev.subcoreDatas c).job = some j
  | .timeoutClear _ _ | .abortClear _ => false
  | _ => true

def busySystem (cfg : Config) : System BusyState JobLabel :=
  (timedSystem cfg).guarded fun s a => onBlock completes s.job a = true

/-- The core for which a block sets `hw_recoder_time`, and its job. -/
def marks (cfg : Config) (dev : Dev) : JobOp → Option (ℕ × ℕ)
  | .pop c => (pops dev (.pop c)).map fun j => (c, j)
  | .timerTick c => if c < cfg.numIrqs then (dev.subcoreDatas c).job.map fun j => (c, j) else none
  | _ => none

/-- The time since the mark of the job of core `c`, when it is moved for another core. -/
def overwritten (cfg : Config) (dev : Dev) (op : JobOp) (c : ℕ) : ℤ :=
  match marks cfg dev op with
  | some (d, j) => if c ≠ d ∧ (dev.subcoreDatas c).job = some j then
      (dev.now : ℤ) - (dev.jobs j).hwRecoderTime else 0
  | none => 0

/-- A core takes a job that another core has, and the timer counts its time, only at the time of the
job's mark. -/
def keepsMarks (cfg : Config) (dev : Dev) (_ : Outcome) (op : JobOp) : Bool :=
  ∀ c < cfg.numIrqs, overwritten cfg dev op c = 0

def markedSystem (cfg : Config) : System BusyState JobLabel :=
  (busySystem cfg).guarded fun s a => onBlock (keepsMarks cfg) s.job a = true

/-- What `rknpu_job_done` or the timer would add for core `c`. -/
def sinceMark (dev : Dev) (c : ℕ) : ℤ :=
  (dev.subcoreDatas c).job.elim 0 fun j => (dev.now : ℤ) - (dev.jobs j).hwRecoderTime

/-- The time that was not counted. -/
def BusyState.missed (s : BusyState) (c : ℕ) : ℤ :=
  s.accounted c - (s.published c + (s.job.dev.subcoreDatas c).busyTime)

/-- The time that will not be counted when the time of core `c` is counted next. -/
def BusyState.late (s : BusyState) (c : ℕ) : ℤ :=
  s.occupied c - s.accounted c - sinceMark s.job.dev c

/-! ## Blocks -/

section
variable {cfg : Config} {dev : Dev} {o : Outcome} {op : JobOp} {eff : Effect} {j c : ℕ}

theorem hwRecoderTime_eq (h : jobExec cfg dev o op = some eff) (j : ℕ) :
    (eff.dev.jobs j).hwRecoderTime =
      if (marks cfg dev op).map Prod.snd = some j then dev.now else (dev.jobs j).hwRecoderTime := by
  cases op <;> grind -ring -linarith -order [marks, pops]

/-- What a block does to `busy_time` of core `c`. -/
def busyTimeAfter (cfg : Config) (dev : Dev) (op : JobOp) (c : ℕ) : ℤ :=
  let core := dev.subcoreDatas c
  match op with
  | .doneClear j i => if c = i then
      core.busyTime + ((dev.now : ℤ) - (dev.jobs j).hwRecoderTime) else core.busyTime
  | .timerTick i => if c = i ∧ i < cfg.numIrqs then 0 else core.busyTime
  | _ => core.busyTime

theorem busyTime_eq (h : jobExec cfg dev o op = some eff) (c : ℕ) :
    (eff.dev.subcoreDatas c).busyTime = busyTimeAfter cfg dev op c := by
  cases op <;> grind -ring -linarith -order [busyTimeAfter]

theorem totalBusyTime_tick (h : jobExec cfg dev o (.timerTick c) = some eff)
    (hc : c < cfg.numIrqs) : (eff.dev.subcoreDatas c).totalBusyTime =
      (dev.subcoreDatas c).busyTime + sinceMark dev c := by
  cases h
  unfold hrtimerTick sinceMark
  rw [if_pos hc]
  cases hcur : (dev.subcoreDatas c).job <;> simp

theorem sinceMark_exec (h : jobExec cfg dev o op = some eff)
    (hcur : (eff.dev.subcoreDatas c).job = (dev.subcoreDatas c).job)
    (hmark : ∀ j, marks cfg dev op ≠ some (c, j)) :
    sinceMark eff.dev c + overwritten cfg dev op c = sinceMark dev c := by
  unfold sinceMark overwritten
  rw [hcur, now_eq h]
  cases hjob : (dev.subcoreDatas c).job with
  | none => cases marks cfg dev op <;> simp
  | some k =>
    simp only [Option.elim_some, hwRecoderTime_eq h]
    cases hmarks : marks cfg dev op with
    | none => simp
    | some p =>
      obtain ⟨d, j⟩ := p
      have hd : c ≠ d := fun hd => hmark j (by rw [hmarks, hd])
      by_cases hk : j = k
      · simp [hd, hk]
      · have hk' : k ≠ j := fun hcon => hk hcon.symm
        simp [hk, hk']

theorem sinceMark_marked (h : jobExec cfg dev o op = some eff)
    (hmark : marks cfg dev op = some (c, j)) (hcur : (eff.dev.subcoreDatas c).job = some j) :
    sinceMark eff.dev c = 0 ∧ overwritten cfg dev op c = 0 := by
  constructor
  · unfold sinceMark
    rw [hcur, now_eq h, Option.elim_some, hwRecoderTime_eq h, hmark]
    simp
  · unfold overwritten
    rw [hmark]
    simp

theorem sinceMark_idle (hcur : (dev.subcoreDatas c).job = none) : sinceMark dev c = 0 := by
  unfold sinceMark
  rw [hcur]
  rfl

theorem publishesOn_subset (hc : c ∈ publishesOn cfg op) : c ∈ accountsOn cfg op := by
  cases op <;> first | exact hc | exact (List.not_mem_nil hc).elim

theorem mem_accountsOn (hc : c ∈ accountsOn cfg op) :
    (∃ j, op = .doneClear j c) ∨ op = .timerTick c ∧ c < cfg.numIrqs := by
  cases op with
  | doneClear j i =>
    left
    exact ⟨j, by rw [List.mem_singleton.mp hc]⟩
  | timerTick i =>
    right
    simp only [accountsOn, publishesOn] at hc
    split_ifs at hc with hi
    · rw [List.mem_singleton.mp hc]
      exact ⟨rfl, hi⟩
    · exact (List.not_mem_nil hc).elim
  | _ => exact (List.not_mem_nil hc).elim

theorem busyTime_counted (h : jobExec cfg dev o op = some eff) (hop : completes dev o op = true)
    (hc : c ∈ accountsOn cfg op) : sinceMark eff.dev c = 0 ∧ overwritten cfg dev op c = 0 ∧
      (if c ∈ publishesOn cfg op then (eff.dev.subcoreDatas c).totalBusyTime else 0) +
        (eff.dev.subcoreDatas c).busyTime = (dev.subcoreDatas c).busyTime + sinceMark dev c := by
  obtain ⟨j, rfl⟩ | ⟨rfl, hlt⟩ := mem_accountsOn hc
  · have hcur : (dev.subcoreDatas c).job = some j := of_decide_eq_true hop
    have hidle : (eff.dev.subcoreDatas c).job = none := by
      rw [current_eq h]
      exact if_pos rfl
    refine ⟨sinceMark_idle hidle, rfl, ?_⟩
    rw [busyTime_eq h, busyTimeAfter, if_pos rfl]
    unfold sinceMark
    rw [hcur]
    simp [publishesOn]
  · have hkept : (eff.dev.subcoreDatas c).job = (dev.subcoreDatas c).job := current_eq h c
    have hmark : marks cfg dev (.timerTick c) = (dev.subcoreDatas c).job.map fun j => (c, j) :=
      if_pos hlt
    have hpub : c ∈ publishesOn cfg (.timerTick c) := by
      simp only [publishesOn, if_pos hlt, List.mem_singleton]
    have hsince : sinceMark eff.dev c = 0 ∧ overwritten cfg dev (.timerTick c) c = 0 := by
      cases hcur : (dev.subcoreDatas c).job with
      | none =>
        refine ⟨sinceMark_idle (hkept.trans hcur), ?_⟩
        unfold overwritten
        rw [hmark, hcur]
        rfl
      | some k =>
        rw [hcur] at hmark
        exact sinceMark_marked h hmark (hkept.trans hcur)
    refine ⟨hsince.1, hsince.2, ?_⟩
    rw [if_pos hpub, totalBusyTime_tick h hlt, busyTime_eq h, busyTimeAfter, if_pos ⟨rfl, hlt⟩]
    omega

/-- Nothing is counted: the mark is set when the core takes the job, and moved for another core. -/
theorem busyTime_kept (h : jobExec cfg dev o op = some eff) (hop : completes dev o op = true)
    (hc : c ∉ accountsOn cfg op) :
    (eff.dev.subcoreDatas c).busyTime = (dev.subcoreDatas c).busyTime ∧
      sinceMark eff.dev c + overwritten cfg dev op c = sinceMark dev c := by
  constructor
  · rw [busyTime_eq h]
    cases op with
    | doneClear j i => exact if_neg fun hi => hc (List.mem_singleton.mpr hi)
    | timerTick i =>
      refine if_neg fun hi => hc ?_
      simp only [accountsOn, publishesOn, if_pos hi.2]
      exact List.mem_singleton.mpr hi.1
    | _ => rfl
  · cases op with
    | doneClear j i =>
      refine sinceMark_exec h ?_ fun k hk => by cases hk
      rw [current_eq h]
      exact if_neg fun hi => hc (List.mem_singleton.mpr hi)
    | timerTick i =>
      refine sinceMark_exec h (current_eq h c) fun k hk => hc ?_
      simp only [marks] at hk
      split_ifs at hk with hi
      obtain ⟨k', -, hk'⟩ := Option.map_eq_some_iff.mp hk
      cases hk'
      simp only [accountsOn, publishesOn, if_pos hi]
      exact List.mem_singleton_self _
    | pop i =>
      by_cases hi : c = i ∧ (dev.subcoreDatas c).job = none
      · obtain ⟨rfl, hcur⟩ := hi
        have hnext : (eff.dev.subcoreDatas c).job = (dev.subcoreDatas c).todoList.head? := by
          rw [current_eq h]
          exact if_pos ⟨rfl, hcur⟩
        rw [sinceMark_idle hcur]
        cases hlist : (dev.subcoreDatas c).todoList.head? with
        | none =>
          rw [sinceMark_idle (hnext.trans hlist)]
          simp [overwritten, marks, pops, hcur, hlist]
        | some k =>
          have hmark : marks cfg dev (.pop c) = some (c, k) := by
            simp [marks, pops, hcur, hlist]
          obtain ⟨hzero, hnone⟩ := sinceMark_marked h hmark (hnext.trans hlist)
          rw [hzero, hnone]
          rfl
      · refine sinceMark_exec h ?_ fun k hk => hi ?_
        · rw [current_eq h]
          exact if_neg hi
        · obtain ⟨k', hpop, hk'⟩ := Option.map_eq_some_iff.mp hk
          cases hk'
          simp only [pops] at hpop
          split_ifs at hpop with hcur
          exact ⟨rfl, hcur⟩
    | timeoutClear i j | abortClear j => cases hop
    | _ => exact sinceMark_exec h (current_eq h c) fun k hk => by cases hk

end

/-! ## Steps -/

section
variable {cfg : Config} {s t : BusyState} {a : JobLabel} {o : Outcome} {op : JobOp} {eff : Effect}
  {c : ℕ}

/-- What a step that runs a block does to the times. -/
structure Counted (cfg : Config) (s t : BusyState) (op : JobOp) : Prop where
  published : ∀ c, t.published c = if c ∈ publishesOn cfg op then
    s.published c + (t.job.dev.subcoreDatas c).totalBusyTime else s.published c
  occupied : t.occupied = s.occupied
  accounted : ∀ c, t.accounted c = if c ∈ accountsOn cfg op then s.occupied c else s.accounted c

/-- **What a block loses**: the time that was not counted, or will not be, grows by the time since
each mark that the block moves for another core. -/
theorem busy_exec (hcount : Counted cfg s t op) (heff : jobExec cfg s.job.dev o op = some eff)
    (hdev : t.job.dev = eff.dev) (hop : completes s.job.dev o op = true) (c : ℕ) :
    t.late c + t.missed c = s.late c + s.missed c + overwritten cfg s.job.dev op c ∧
    t.missed c = s.missed c + if c ∈ accountsOn cfg op then s.late c else 0 := by
  unfold BusyState.late BusyState.missed
  rw [hcount.published, hcount.occupied, hcount.accounted, hdev]
  by_cases hc : c ∈ accountsOn cfg op
  · obtain ⟨hnone, hkept, htotal⟩ := busyTime_counted heff hop hc
    rw [if_pos hc, if_pos hc, hnone, hkept]
    split_ifs at htotal ⊢ <;> omega
  · obtain ⟨hbusy, hmark⟩ := busyTime_kept heff hop hc
    rw [if_neg hc, if_neg hc, if_neg fun hpub => hc (publishesOn_subset hpub), hbusy]
    omega

theorem busy_keep (hk : Known cfg s.job)
    (hcores : t.job.dev.subcoreDatas = s.job.dev.subcoreDatas)
    (hjobs : ∀ j < s.job.dev.numJobs, t.job.dev.jobs j = s.job.dev.jobs j)
    (hpub : t.published = s.published) (haccount : t.accounted = s.accounted)
    (hocc : ∀ c, t.occupied c = if (s.job.dev.subcoreDatas c).job = none then s.occupied c else
      s.occupied c + ((t.job.dev.now : ℤ) - s.job.dev.now)) (c : ℕ) :
    t.late c = s.late c ∧ t.missed c = s.missed c := by
  unfold BusyState.late BusyState.missed sinceMark
  rw [hpub, haccount, hocc, hcores]
  refine ⟨?_, rfl⟩
  cases hcur : (s.job.dev.subcoreDatas c).job with
  | none => simp
  | some j =>
    rw [if_neg (by simp), Option.elim_some, Option.elim_some,
      hjobs j (hk.placed.held c j (Or.inr hcur)).1.1]
    omega

/-- What core `c` loses by a step. -/
def lost (cfg : Config) (s : JobState) (a : JobLabel) (c : ℕ) : ℤ :=
  match a with
  | .exec tid _ => match nextBlock s.threads tid with
    | some (op, _) => overwritten cfg s.dev op c
    | none => 0
  | _ => 0

theorem busy_step (hk : Known cfg s.job) (h : (busySystem cfg).step s a = some t) (c : ℕ) :
    t.late c + t.missed c = s.late c + s.missed c + lost cfg s.job a c ∧
    t.missed c = s.missed c +
      if c ∈ ofBlock (accountsOn cfg) s.job a then s.late c else 0 := by
  obtain ⟨hok, h⟩ := System.guarded_step.mp h
  obtain ⟨u, hu, rfl⟩ := Option.map_eq_some_iff.mp h
  have hkeep : u.dev.subcoreDatas = s.job.dev.subcoreDatas →
      (∀ j < s.job.dev.numJobs, u.dev.jobs j = s.job.dev.jobs j) →
      (∀ f, ofBlock f s.job a = []) → lost cfg s.job a c = 0 →
      (busyAfter cfg s a u).late c + (busyAfter cfg s a u).missed c =
          s.late c + s.missed c + lost cfg s.job a c ∧
        (busyAfter cfg s a u).missed c = s.missed c +
          if c ∈ ofBlock (accountsOn cfg) s.job a then s.late c else 0 := by
    intro hcores hjobs hblock hlost
    have hpub : (busyAfter cfg s a u).published = s.published := by
      funext i
      simp [busyAfter, hblock]
    have haccount : (busyAfter cfg s a u).accounted = s.accounted := by
      funext i
      simp [busyAfter, hblock]
    obtain ⟨hlate, hmissed⟩ := busy_keep hk hcores hjobs hpub haccount (fun _ => rfl) c
    rw [hlate, hmissed, hlost, hblock]
    simp
  cases a with
  | exec tid o =>
    cases stepped hu with
    | @exec _ _ op rest eff others hnext heff hop hdev htodo hhist =>
      have hblock : ∀ f, ofBlock f s.job (.exec tid o) = f op := fun _ => ofBlock_exec hnext
      have hcount : Counted cfg s (busyAfter cfg s (.exec tid o) u) op := by
        refine ⟨fun i => ?_, ?_, fun i => ?_⟩
        · rw [← hblock (publishesOn cfg)]
          rfl
        · funext i
          have hnow : u.dev.now = s.job.dev.now := by rw [hdev, now_eq heff]
          simp [busyAfter, hnow]
        · rw [← hblock (accountsOn cfg)]
          rfl
      have hlost : lost cfg s.job (.exec tid o) c = overwritten cfg s.job.dev op c := by
        simp only [lost, hnext]
      rw [hlost, hblock]
      exact busy_exec hcount heff hdev ((onBlock_exec hnext).symm.trans hok) c
  | submit args useDrmGem allocOk =>
    cases (stepped hu).moved with
    | submit hmask hdev htodo hhist =>
      refine hkeep (by rw [hdev]; rfl) (fun j hj => ?_) (fun _ => rfl) rfl
      rw [hdev, Dev.addJob_jobs, if_neg (Nat.ne_of_lt hj)]
    | spawn hm => exact hkeep hm.subcoreDatas (fun j _ => by rw [hm.jobs]) (fun _ => rfl) rfl
  | irq | runWork | actReset | timer | tick =>
    cases (stepped hu).moved with
    | spawn hm => exact hkeep hm.subcoreDatas (fun j _ => by rw [hm.jobs]) (fun _ => rfl) rfl

/-! ## Runs -/

/-- No mark is in the future. -/
def Marked (dev : Dev) : Prop := ∀ j, (dev.jobs j).hwRecoderTime ≤ dev.now

theorem Marked.step {s t : JobState} {a : JobLabel} (hs : Marked s.dev) (h : Stepped cfg s t a) :
    Marked t.dev := by
  intro j
  have hj := hs j
  cases h with
  | refused ht =>
    rw [ht]
    exact hj
  | submit hmask hdev htodo hhist =>
    rw [hdev, Dev.addJob_jobs, Dev.addJob_now]
    split_ifs
    · exact Nat.zero_le _
    · exact hj
  | exec hnext heff hop hdev htodo hhist =>
    rw [hdev, hwRecoderTime_eq heff, now_eq heff]
    split_ifs
    · exact Nat.le_refl _
    · exact hj
  | irq hc hrunning hdev htodo hhist =>
    rw [hdev]
    split_ifs
    · exact hj
    · exact hj
  | runWork hj' hdev htodo hhist =>
    rw [hdev]
    exact hj
  | actReset hdev htodo hhist | timer hdev htodo hhist =>
    rw [hdev]
    exact hj
  | tick hdev htodo hhist =>
    rw [hdev]
    exact hj.trans (Nat.le_add_right _ _)

theorem lost_nonneg (hs : Marked s.job.dev) : 0 ≤ lost cfg s.job a c := by
  cases a with
  | exec tid o =>
    simp only [lost]
    cases nextBlock s.job.threads tid with
    | none => exact Int.le_refl 0
    | some p =>
      obtain ⟨op, rest⟩ := p
      simp only [overwritten]
      cases marks cfg s.job.dev op with
      | none => exact Int.le_refl 0
      | some q =>
        have hmark := hs q.2
        simp only
        split_ifs
        · omega
        · exact Int.le_refl 0
  | _ => exact Int.le_refl 0

theorem lost_of_keepsMarks (hok : onBlock (keepsMarks cfg) s.job a = true)
    (hc : c < cfg.numIrqs) : lost cfg s.job a c = 0 := by
  cases a with
  | exec tid o =>
    simp only [lost]
    simp only [onBlock] at hok
    cases hnext : nextBlock s.job.threads tid with
    | none => rfl
    | some p =>
      rw [hnext] at hok
      exact of_decide_eq_true hok c hc
  | _ => rfl

theorem known_step (hcfg : cfg.Sound) (hk : Known cfg s.job) (hn : Marked s.job.dev)
    (h : (busySystem cfg).step s a = some t) : Known cfg t.job ∧ Marked t.job.dev := by
  obtain ⟨-, h⟩ := System.guarded_step.mp h
  obtain ⟨u, hu, rfl⟩ := Option.map_eq_some_iff.mp h
  exact ⟨hk.step hcfg (stepped hu), hn.step (stepped hu)⟩

theorem busy_run (hcfg : cfg.Sound) (hs : (busySystem cfg).Reachable s) :
    Known cfg s.job ∧ Marked s.job.dev ∧ ∀ c, 0 ≤ s.late c ∧ 0 ≤ s.missed c := by
  refine hs.invariant
    (fun s => Known cfg s.job ∧ Marked s.job.dev ∧ ∀ c, 0 ≤ s.late c ∧ 0 ≤ s.missed c) ?_ ?_
  · rintro s ⟨now, rfl⟩
    exact ⟨known_init, fun j => Nat.zero_le now, fun c => ⟨Int.le_refl 0, Int.le_refl 0⟩⟩
  · rintro s a t ⟨hk, hn, htimes⟩ h
    obtain ⟨hk', hn'⟩ := known_step hcfg hk hn h
    refine ⟨hk', hn', fun c => ?_⟩
    obtain ⟨hlate, hmissed⟩ := htimes c
    obtain ⟨htotal, hcounted⟩ := busy_step hk h c
    have hlost : 0 ≤ lost cfg s.job a c := lost_nonneg hn
    split_ifs at hcounted <;> omega

/-- **No time is counted twice**: without aborts, the busy time of a core is at most the time in
which it had a job. -/
theorem busy_time_le (hcfg : cfg ∈ rknpuConfigs) (hs : (busySystem cfg).Reachable s) (c : ℕ) :
    s.published c + (s.job.dev.subcoreDatas c).busyTime ≤ s.accounted c := by
  obtain ⟨-, -, htimes⟩ := busy_run (rknpuConfigs_sound hcfg) hs
  exact Int.le_of_sub_nonneg (htimes c).2

/-- **Busy times are exact** when no mark is moved for another core: what the timer has published
and `busy_time` are the time in which the core had a job, up to when it was last counted. -/
theorem busy_time_exact (hcfg : cfg ∈ rknpuConfigs) (hs : (markedSystem cfg).Reachable s)
    (hc : c < cfg.numIrqs) :
    s.published c + (s.job.dev.subcoreDatas c).busyTime = s.accounted c := by
  have hinv : Known cfg s.job ∧ Marked s.job.dev ∧
      ∀ c < cfg.numIrqs, s.late c = 0 ∧ s.missed c = 0 := by
    refine hs.invariant (fun s => Known cfg s.job ∧ Marked s.job.dev ∧
      ∀ c < cfg.numIrqs, s.late c = 0 ∧ s.missed c = 0) ?_ ?_
    · rintro s ⟨now, rfl⟩
      exact ⟨known_init, fun j => Nat.zero_le now, fun c _ => ⟨rfl, rfl⟩⟩
    · rintro s a t ⟨hk, hn, htimes⟩ h
      obtain ⟨hok, h⟩ := System.guarded_step.mp h
      obtain ⟨hk', hn'⟩ := known_step (rknpuConfigs_sound hcfg) hk hn h
      refine ⟨hk', hn', fun c hc => ?_⟩
      obtain ⟨hlate, hmissed⟩ := htimes c hc
      obtain ⟨htotal, hcounted⟩ := busy_step hk h c
      have hlost := lost_of_keepsMarks hok hc
      split_ifs at hcounted <;> omega
  have hmissed := (hinv.2.2 c hc).2
  unfold BusyState.missed at hmissed
  omega

end

/-- A job runs on two cores for a while, which take it at the same time. -/
def sharedJob : List JobLabel :=
  .submit (oneTask rknpuJobPc (rknpuCore0Mask ||| rknpuCore1Mask)) false true ::
    List.replicate 17 (.exec 0 calm) ++ [.tick 10]

theorem busy_time_exact_two : ∃ s, (markedSystem rk3588RknpuConfig).Reachable s ∧
    s.accounted 1 = 10 ∧ s.published 1 + (s.job.dev.subcoreDatas 1).busyTime = 10 := by
  obtain ⟨s, hs, h⟩ := System.Reachable.of_run_any (S := markedSystem rk3588RknpuConfig)
    (p := fun s => decide (s.accounted 1 = 10))
    (l := sharedJob ++ .irq 0 true :: List.replicate 6 (.exec 1 calm) ++
      .irq 1 true :: List.replicate 12 (.exec 2 calm) ++ .timer :: List.replicate 4 (.exec 3 calm))
    ⟨1, rfl⟩ (by decide +kernel)
  have haccounted := of_decide_eq_true h
  refine ⟨s, hs, haccounted, ?_⟩
  rw [busy_time_exact (by decide) hs (by decide), haccounted]

/-- The timer counts the time of the job for the first core and moves its mark: the second core's is
lost. -/
theorem busy_time_lost : ∃ s, (busySystem rk3588RknpuConfig).Reachable s ∧
    s.accounted 1 = 10 ∧ s.published 1 + (s.job.dev.subcoreDatas 1).busyTime = 0 := by
  obtain ⟨s, hs, h⟩ := System.Reachable.of_run_any (S := busySystem rk3588RknpuConfig)
    (p := fun s => decide (s.accounted 1 = 10 ∧
      s.published 1 + (s.job.dev.subcoreDatas 1).busyTime = 0))
    (l := sharedJob ++ .timer :: List.replicate 4 (.exec 1 calm)) ⟨1, rfl⟩ (by decide +kernel)
  exact ⟨s, hs, of_decide_eq_true h⟩

end RknpuDriver.Job
