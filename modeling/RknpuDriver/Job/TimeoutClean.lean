import RknpuDriver.Job.Taken

/-! # What `rknpu_job_timeout_clean` hands over

A nonblocking submit calls `rknpu_job_timeout_clean`, which gives the job of a core that has timed
out to `schedule_work`, and then all jobs on the list of that core. It does not look at what they
are: a blocking submit waits for its own job and frees it, and a job on several cores stays on the
others.

* `CleanState`: the jobs, and the calls of `schedule_work`.
* `cleansWell`: the jobs that `rknpu_job_timeout_clean` takes are its own.
* `cleaned_once`: what holds of the jobs that it hands over.
-/

namespace RknpuDriver.Job
set_option autoImplicit false
open RknpuDriver.Lib

/-- `scheduled` are the jobs that `schedule_work` was called for, `cleaned` those of them that
`rknpu_job_timeout_clean` handed over. -/
structure CleanState where
  job : JobState
  scheduled : List ℕ
  cleaned : List ℕ

def cleans : JobOp → List ℕ
  | .timeoutWork _ j => [j]
  | _ => []

def schedules (dev : Dev) : JobOp → List ℕ
  | .timeoutWork _ j => [j]
  | .asyncWork j => if (dev.jobs j).async then [j] else []
  | _ => []

/-- What the block that a step runs gives. -/
def ofBlock (f : JobOp → List ℕ) (s : JobState) : JobLabel → List ℕ
  | .exec tid _ => match nextBlock s.threads tid with
    | some (op, _) => f op
    | none => []
  | _ => []

def cleanStep (cfg : Config) (s : CleanState) (a : JobLabel) : Option CleanState :=
  (jobStep cfg s.job a).map fun t =>
    ⟨t, s.scheduled ++ ofBlock (schedules s.job.dev) s.job a, s.cleaned ++ ofBlock cleans s.job a⟩

def cleanSystem (cfg : Config) : System CleanState JobLabel where
  init s := ∃ now, s = ⟨⟨.probed now, [], []⟩, [], []⟩
  step := cleanStep cfg

/-- A job on core `i` that its submitter does not wait for, that no other core has or lists, and
that no handler is about to complete. -/
def cleanable (cfg : Config) (s : JobState) (i j : ℕ) : Bool :=
  (s.dev.jobs j).args.flags &&& rknpuJobNonblock ≠ 0 ∧ (s.dev.jobs j).done = false ∧
    (∀ c < cfg.numIrqs, c ≠ i → j ∉ (s.dev.subcoreDatas c).todoList ∧
      (s.dev.subcoreDatas c).job ≠ some j) ∧
    ∀ op ∈ s.threads.flatten, stage op ≠ some j

/-- `rknpu_job_timeout_clean` takes only such jobs: the one that it has found timed out, which is
still the job of its core, and those on the list. -/
def cleansWell (cfg : Config) (s : JobState) : JobOp → Bool
  | .timeoutClear i j => (s.dev.subcoreDatas i).job = some j ∧ cleanable cfg s i j
  | .timeoutNext i => ∀ j ∈ (s.dev.subcoreDatas i).todoList.head?, cleanable cfg s i j
  | _ => true

def cleaningSystem (cfg : Config) : System CleanState JobLabel :=
  (cleanSystem cfg).guarded fun s a => onBlock (fun _ _ => cleansWell cfg s.job) s.job a = true

/-- The blocks from `RKNPU_JOB_DONE` to the end of `rknpu_job_done`. -/
def ending : JobOp → Option ℕ
  | .setRet j | .fenceSignal j | .asyncWork j => some j
  | _ => none

def handing (j : ℕ) : JobOp → Bool
  | .timeoutWork _ i => i = j
  | _ => false

/-! ## Blocks -/

section
variable {cfg : Config} {dev : Dev} {o : Outcome} {op x : JobOp} {eff : Effect} {j : ℕ}

theorem calls_ending (h : jobExec cfg dev o op = some eff) (hx : x ∈ eff.calls)
    (hj : ending x = some j) : op = .setDone j ∨ ending op = some j := by
  cases op with
  | setRet k =>
    cases h
    rw [List.mem_singleton.mp hx] at hj
    exact Or.inr hj
  | _ => grind -ring -linarith -order [ending]

/-- `rknpu_job_timeout_clean` takes job `j` from core `i`. -/
def takesFrom (dev : Dev) (i j : ℕ) (op : JobOp) : Prop :=
  op = .timeoutClear i j ∨ op = .timeoutNext i ∧ (dev.subcoreDatas i).todoList.head? = some j

theorem calls_handing (h : jobExec cfg dev o op = some eff) (j : ℕ) :
    eff.calls.countP (handing j) = 0 ∨
      ∃ i, takesFrom dev i j op ∧ eff.calls = [.timeoutWork i j] := by
  obtain hzero | hpos := Nat.eq_zero_or_pos (eff.calls.countP (handing j))
  · exact Or.inl hzero
  · right
    obtain ⟨x, hx, hj⟩ := List.countP_pos_iff.mp hpos
    cases x with
    | timeoutWork i k =>
      obtain rfl : k = j := of_decide_eq_true hj
      refine ⟨i, ?_⟩
      unfold takesFrom
      cases op <;> grind -ring -linarith -order
    | _ => cases hj

theorem schedules_count (hop : op ≠ .asyncWork j) :
    (schedules dev op).count j = if handing j op = true then 1 else 0 := by
  cases op with
  | timeoutWork i k =>
    simp [schedules, handing, List.count_singleton]
  | asyncWork k =>
    have hk : k ≠ j := fun hk => hop (by rw [hk])
    simp only [schedules, handing, Bool.false_eq_true, if_false]
    split_ifs
    · simp [hk]
    · rfl
  | _ => rfl

theorem mem_schedules (hj : j ∈ schedules dev op) : op = .asyncWork j ∨ j ∈ cleans op := by
  cases op with
  | asyncWork k =>
    simp only [schedules] at hj
    split_ifs at hj
    · rw [List.mem_singleton.mp hj]
      exact Or.inl rfl
    · exact (List.not_mem_nil hj).elim
  | timeoutWork i k => exact Or.inr hj
  | _ => exact (List.not_mem_nil hj).elim

theorem schedules_of_cleans (hj : j ∈ cleans op) : j ∈ schedules dev op := by
  cases op with
  | timeoutWork i k => exact hj
  | _ => exact (List.not_mem_nil hj).elim

theorem mem_cleans (hj : j ∈ cleans op) : handing j op = true := by
  cases op with
  | timeoutWork i k =>
    rw [List.mem_singleton.mp hj]
    exact decide_eq_true rfl
  | _ => exact (List.not_mem_nil hj).elim

end

/-! ## Jobs that were handed over -/

/-- Job `j` was given to `schedule_work`, or is about to be, and nothing else is done with it. -/
structure Given (s : CleanState) (j : ℕ) : Prop where
  past : Past s.job j
  nonblock : (s.job.dev.jobs j).args.flags &&& rknpuJobNonblock ≠ 0
  unheld : ∀ c, ¬ Holds s.job.dev c j
  idle : ∀ op ∈ s.job.todo, stage op ≠ some j ∧ op ≠ .asyncWork j
  once : s.scheduled.count j + s.job.todo.countP (fun op => handing j op = true) = 1

structure Cleaned (s : CleanState) : Prop where
  finished : ∀ op ∈ s.job.todo, ∀ j, ending op = some j → (s.job.dev.jobs j).done = true
  scheduled : ∀ j ∈ s.scheduled, Past s.job j ∧ (j ∈ s.cleaned ∨ (s.job.dev.jobs j).done = true)
  listed : ∀ j ∈ s.cleaned, j ∈ s.scheduled
  given : ∀ j, (j ∈ s.cleaned ∨ ∃ op ∈ s.job.todo, handing j op = true) → Given s j

section
variable {cfg : Config} {s t : CleanState} {b : JobLabel} {o : Outcome} {op : JobOp} {eff : Effect}
  {others : Multiset JobOp} {i j : ℕ}

theorem holds_of_takes (hok : cleansWell cfg s.job op = true)
    (h : takesFrom s.job.dev i j op) : Holds s.job.dev i j ∧ cleanable cfg s.job i j = true := by
  obtain rfl | ⟨rfl, hhead⟩ := h
  · simp only [cleansWell, decide_eq_true_eq] at hok
    exact ⟨Or.inr hok.1, hok.2⟩
  · simp only [cleansWell, decide_eq_true_eq] at hok
    exact ⟨Or.inl (List.mem_of_head? hhead), hok j hhead⟩

theorem Given.exec (hg : Given s j) (h : Stepped cfg s.job t.job b)
    (hop : s.job.todo = op ::ₘ others) (heff : jobExec cfg s.job.dev o op = some eff)
    (hdev : t.job.dev = eff.dev) (htodo : t.job.todo = (eff.calls : Multiset JobOp) + others)
    (hsched : t.scheduled = s.scheduled ++ schedules s.job.dev op)
    (hok : cleansWell cfg s.job op = true) : Given t j := by
  have hmem : op ∈ s.job.todo := by simp [hop]
  refine ⟨(hg.past.stepped h).1, ?_, fun c hc => ?_, fun x hx => ?_, ?_⟩
  · rw [hdev, flags_eq heff]
    exact hg.nonblock
  · rw [hdev] at hc
    obtain hc | ⟨rfl, -⟩ := holds_exec heff hc
    · exact hg.unheld c hc
    · exact hg.past.2 _ hmem rfl
  · rw [htodo, Multiset.mem_add] at hx
    obtain hx | hx := hx
    · have hcall := Multiset.mem_coe.mp hx
      refine ⟨fun hstage => ?_, ?_⟩
      · obtain hstage | ⟨c, -, hcur, -⟩ := calls_stage heff hcall hstage
        · exact (hg.idle op hmem).1 hstage
        · exact hg.unheld c (Or.inr hcur)
      · rintro rfl
        refine (hg.idle op hmem).1 ?_
        rw [calls_asyncWork heff hcall]
        rfl
    · exact hg.idle x (by simp [hop, hx])
  · have hold := hg.once
    have hcalls : eff.calls.countP (handing j) = 0 := by
      obtain hzero | ⟨i, htakes, -⟩ := calls_handing heff j
      · exact hzero
      · exact (hg.unheld i (holds_of_takes hok htakes).1).elim
    rw [hop, Multiset.countP_cons] at hold
    rw [hsched, htodo, List.count_append, schedules_count (hg.idle op hmem).2, Multiset.countP_add,
      Multiset.coe_countP]
    simp only [Bool.decide_eq_true, hcalls]
    omega

/-- A job that is taken from its only core is on none. -/
theorem unheld_of_takes (hk : Known cfg s.job) (heff : jobExec cfg s.job.dev o op = some eff)
    (hok : cleansWell cfg s.job op = true) (htakes : takesFrom s.job.dev i j op) (c : ℕ) :
    ¬ Holds eff.dev c j := by
  intro hc
  obtain ⟨hi, hclean⟩ := holds_of_takes hok htakes
  simp only [cleanable, decide_eq_true_eq] at hclean
  obtain ⟨-, -, hothers, -⟩ := hclean
  have hpast := (hk.placed.held i j hi).1
  have hold : Holds s.job.dev c j := by
    obtain hc | ⟨rfl, -⟩ := holds_exec heff hc
    · exact hc
    · obtain hop | ⟨hop, -⟩ := htakes <;> cases hop
  by_cases hci : c = i
  · subst hci
    have hapart : j ∈ (s.job.dev.subcoreDatas c).todoList →
        (s.job.dev.subcoreDatas c).job ≠ some j :=
      fun hlist hcur => hk.taken.once c j hlist (hk.taken.current c j hcur)
    obtain rfl | ⟨rfl, hhead⟩ := htakes
    · simp only [cleansWell, decide_eq_true_eq] at hok
      obtain hc | hc := hc
      · rw [todoList_eq heff] at hc
        exact hapart hc hok.1
      · rw [current_eq heff] at hc
        simp [currentAfter] at hc
    · obtain hc | hc := hc
      · rw [todoList_eq heff] at hc
        simp only [todoListAfter, if_true] at hc
        have hnodup := hk.placed.nodup c
        obtain ⟨rest, hrest⟩ := List.head?_eq_some_iff.mp hhead
        rw [hrest] at hc hnodup
        exact (List.nodup_cons.mp hnodup).1 hc
      · rw [current_eq heff] at hc
        exact hapart (List.mem_of_head? hhead) hc
  · obtain ⟨hlist, hcur⟩ := hothers c (hk.placed.held c j hold).2.1 hci
    exact hold.elim hlist hcur

theorem Cleaned.given_of_takes (hn : Cleaned s) (hk : Known cfg s.job)
    (h : Stepped cfg s.job t.job b) (hop : s.job.todo = op ::ₘ others)
    (heff : jobExec cfg s.job.dev o op = some eff) (hdev : t.job.dev = eff.dev)
    (htodo : t.job.todo = (eff.calls : Multiset JobOp) + others)
    (hsched : t.scheduled = s.scheduled ++ schedules s.job.dev op)
    (hok : cleansWell cfg s.job op = true) (htakes : takesFrom s.job.dev i j op)
    (hcalls : eff.calls = [.timeoutWork i j]) : Given t j := by
  obtain ⟨hi, hclean⟩ := holds_of_takes hok htakes
  have hpast := (hk.placed.held i j hi).1
  have hnew : ¬ (j ∈ s.cleaned ∨ ∃ op ∈ s.job.todo, handing j op = true) :=
    fun hgiven => (hn.given j hgiven).unheld i hi
  simp only [cleanable, decide_eq_true_eq] at hclean
  obtain ⟨hflags, hdone, -, hidle⟩ := hclean
  have hquiet : ∀ x ∈ s.job.todo, stage x ≠ some j ∧ x ≠ .asyncWork j := by
    intro x hx
    refine ⟨hidle x (Multiset.mem_coe.mp hx), ?_⟩
    rintro rfl
    rw [hn.finished _ hx j rfl] at hdone
    cases hdone
  refine ⟨(hpast.stepped h).1, ?_, fun c => ?_, fun x hx => ?_, ?_⟩
  · rw [hdev, flags_eq heff]
    exact hflags
  · rw [hdev]
    exact unheld_of_takes hk heff hok htakes c
  · rw [htodo, hcalls, Multiset.mem_add] at hx
    obtain hx | hx := hx
    · rw [List.mem_singleton.mp (Multiset.mem_coe.mp hx)]
      exact ⟨by simp [stage], by simp⟩
    · exact hquiet x (by simp [hop, hx])
  · have hzero : s.scheduled.count j = 0 := by
      refine List.count_eq_zero.mpr fun hj => ?_
      obtain hcleaned | hd := (hn.scheduled j hj).2
      · exact hnew (Or.inl hcleaned)
      · rw [hd] at hdone
        cases hdone
    have hnone : others.countP (fun op => handing j op = true) = 0 := by
      refine Multiset.countP_eq_zero.mpr fun x hx hj => hnew (Or.inr ⟨x, by simp [hop, hx], hj⟩)
    have hop' : schedules s.job.dev op = [] := by
      obtain rfl | ⟨rfl, -⟩ := htakes <;> rfl
    rw [hsched, htodo, hop', List.append_nil, hzero, hcalls, Multiset.countP_add, hnone,
      Multiset.coe_countP]
    simp [handing]

theorem Cleaned.exec (hn : Cleaned s) (hk : Known cfg s.job)
    (h : Stepped cfg s.job t.job b) (hop : s.job.todo = op ::ₘ others)
    (heff : jobExec cfg s.job.dev o op = some eff) (hdev : t.job.dev = eff.dev)
    (htodo : t.job.todo = (eff.calls : Multiset JobOp) + others)
    (hsched : t.scheduled = s.scheduled ++ schedules s.job.dev op)
    (hcleaned : t.cleaned = s.cleaned ++ cleans op)
    (hok : cleansWell cfg s.job op = true) : Cleaned t := by
  have hmem : op ∈ s.job.todo := by simp [hop]
  have hdone : ∀ {j}, (s.job.dev.jobs j).done = true → (t.job.dev.jobs j).done = true := by
    intro j hj
    rw [hdev, done_eq heff, hj]
    rfl
  refine ⟨fun x hx j hj => ?_, fun j hj => ?_, fun j hj => ?_, fun j hj => ?_⟩
  · rw [htodo, Multiset.mem_add] at hx
    obtain hx | hx := hx
    · obtain rfl | hend := calls_ending heff (Multiset.mem_coe.mp hx) hj
      · rw [hdev, done_eq heff]
        simp
      · exact hdone (hn.finished op hmem j hend)
    · exact hdone (hn.finished x (by simp [hop, hx]) j hj)
  · rw [hsched, List.mem_append] at hj
    rw [hcleaned, List.mem_append]
    obtain hj | hj := hj
    · obtain ⟨hpast, hj⟩ := hn.scheduled j hj
      exact ⟨(hpast.stepped h).1, hj.imp Or.inl hdone⟩
    · obtain rfl | hj := mem_schedules hj
      · have hpast := hk.placed.helped _ hmem j rfl
        exact ⟨(hpast.stepped h).1, Or.inr (hdone (hn.finished _ hmem j rfl))⟩
      · have hgiven := hn.given j (Or.inr ⟨op, hmem, mem_cleans hj⟩)
        exact ⟨(hgiven.past.stepped h).1, Or.inl (Or.inr hj)⟩
  · rw [hcleaned, List.mem_append] at hj
    rw [hsched, List.mem_append]
    exact hj.imp (hn.listed j) schedules_of_cleans
  · have hold : (j ∈ s.cleaned ∨ ∃ op ∈ s.job.todo, handing j op = true) ∨
        ∃ i, takesFrom s.job.dev i j op ∧ eff.calls = [.timeoutWork i j] := by
      obtain hj | ⟨x, hx, hj⟩ := hj
      · rw [hcleaned, List.mem_append] at hj
        exact Or.inl (hj.imp_right fun hj => ⟨op, hmem, mem_cleans hj⟩)
      · rw [htodo, Multiset.mem_add] at hx
        obtain hx | hx := hx
        · refine Or.inr ((calls_handing heff j).resolve_left fun hzero => ?_)
          exact List.countP_eq_zero.mp hzero x (Multiset.mem_coe.mp hx) hj
        · exact Or.inl (Or.inr ⟨x, by simp [hop, hx], hj⟩)
    obtain hold | ⟨i, htakes, hcalls⟩ := hold
    · exact (hn.given j hold).exec h hop heff hdev htodo hsched hok
    · exact hn.given_of_takes hk h hop heff hdev htodo hsched hok htakes hcalls

/-- Such blocks are neither started with a thread nor by a submit. -/
def unrelated (op : JobOp) : Prop :=
  ∀ j, stage op ≠ some j ∧ op ≠ .asyncWork j ∧ handing j op = false

theorem ending_of_unrelated (hop : unrelated op) (j : ℕ) : ending op ≠ some j := by
  intro hj
  cases op with
  | setRet i | fenceSignal i => exact (hop i).1 rfl
  | asyncWork i => exact (hop i).2.1 rfl
  | _ => cases hj

theorem unrelated_of_starting {dev : Dev} (hop : starting dev op) : unrelated op := by
  intro j
  cases op <;> first | exact hop.elim | exact ⟨by simp [stage], by simp, rfl⟩

theorem Cleaned.keep (hn : Cleaned s) (hk : Known cfg s.job) (h : Stepped cfg s.job t.job b)
    (hjob : ∀ j, Past s.job j → t.job.dev.jobs j = s.job.dev.jobs j)
    (hcores : t.job.dev.subcoreDatas = s.job.dev.subcoreDatas) (new : Multiset JobOp)
    (htodo : t.job.todo = new + s.job.todo) (hnew : ∀ op ∈ new, unrelated op)
    (hsched : t.scheduled = s.scheduled) (hcleaned : t.cleaned = s.cleaned) : Cleaned t := by
  have hmem : ∀ {x}, x ∈ t.job.todo → x ∈ s.job.todo ∨ unrelated x := by
    intro x hx
    rw [htodo, Multiset.mem_add] at hx
    exact hx.symm.imp_right (hnew x)
  refine ⟨fun x hx j hj => ?_, fun j hj => ?_, fun j hj => ?_, fun j hj => ?_⟩
  · obtain hx | hx := hmem hx
    · have hpast : Past s.job j := by
        refine hk.placed.helped x hx j ?_
        cases x <;> first | exact hj | cases hj
      rw [hjob j hpast]
      exact hn.finished x hx j hj
    · exact (ending_of_unrelated hx j hj).elim
  · rw [hsched] at hj
    rw [hcleaned]
    obtain ⟨hpast, hj⟩ := hn.scheduled j hj
    rw [hjob j hpast]
    exact ⟨(hpast.stepped h).1, hj⟩
  · rw [hcleaned] at hj
    rw [hsched]
    exact hn.listed j hj
  · have hgiven : Given s j := by
      refine hn.given j ?_
      rw [hcleaned] at hj
      refine hj.imp_right fun ⟨x, hx, hhand⟩ => ?_
      obtain hx | hx := hmem hx
      · exact ⟨x, hx, hhand⟩
      · rw [(hx j).2.2] at hhand
        cases hhand
    refine ⟨(hgiven.past.stepped h).1, ?_, fun c => ?_, fun x hx => ?_, ?_⟩
    · rw [hjob j hgiven.past]
      exact hgiven.nonblock
    · unfold Holds
      rw [hcores]
      exact hgiven.unheld c
    · obtain hx | hx := hmem hx
      · exact hgiven.idle x hx
      · exact ⟨(hx j).1, (hx j).2.1⟩
    · have hnone : new.countP (fun op => handing j op = true) = 0 := by
        refine Multiset.countP_eq_zero.mpr fun x hx hhand => ?_
        rw [(hnew x hx j).2.2] at hhand
        cases hhand
      rw [hsched, htodo, Multiset.countP_add, hnone, Nat.zero_add]
      exact hgiven.once

theorem ofBlock_exec {s : JobState} {f : JobOp → List ℕ} {tid : ℕ} {rest : List JobOp}
    (hnext : nextBlock s.threads tid = some (op, rest)) : ofBlock f s (.exec tid o) = f op := by
  simp only [ofBlock, hnext]

theorem Cleaned.spawn (hn : Cleaned s) (hk : Known cfg s.job) (h : Stepped cfg s.job t.job b)
    (hm : Spawned s.job t.job) (hsched : t.scheduled = s.scheduled)
    (hcleaned : t.cleaned = s.cleaned) : Cleaned t := by
  obtain ⟨new, htodo, hnew⟩ := hm.todo
  exact hn.keep hk h (fun j _ => by rw [hm.jobs]) hm.subcoreDatas new htodo
    (fun op hop => unrelated_of_starting (hnew op hop)) hsched hcleaned

theorem Cleaned.step (hn : Cleaned s) (hk : Known cfg s.job)
    (h : (cleanSystem cfg).step s b = some t)
    (hok : onBlock (fun _ _ => cleansWell cfg s.job) s.job b = true) : Cleaned t := by
  obtain ⟨u, hu, rfl⟩ := Option.map_eq_some_iff.mp h
  have hstep := stepped hu
  cases b with
  | exec tid o =>
    cases hstep with
    | exec hnext heff hop hdev htodo hhist =>
      exact hn.exec hk (stepped hu) hop heff hdev htodo (congrArg _ (ofBlock_exec hnext))
        (congrArg _ (ofBlock_exec hnext)) ((onBlock_exec hnext).symm.trans hok)
  | submit args useDrmGem allocOk =>
    cases hstep.moved with
    | submit hmask hdev htodo hhist =>
      refine hn.keep hk hstep (fun j hpast => ?_) ?_ _
        (htodo.trans (Multiset.singleton_add _ _).symm) (fun op hop j => ?_) (List.append_nil _)
        (List.append_nil _)
      · rw [hdev, Dev.addJob_jobs, if_neg (Nat.ne_of_lt hpast.1)]
      · rw [hdev]
        rfl
      · rw [Multiset.mem_singleton.mp hop]
        exact ⟨by simp [stage], by simp, rfl⟩
    | spawn hm => exact hn.spawn hk hstep hm (List.append_nil _) (List.append_nil _)
  | irq | runWork | actReset | timer | tick =>
    cases hstep.moved with
    | spawn hm => exact hn.spawn hk hstep hm (List.append_nil _) (List.append_nil _)

theorem cleaned_run (hcfg : cfg.Sound) (hs : (cleaningSystem cfg).Reachable s) :
    Known cfg s.job ∧ Cleaned s := by
  refine hs.invariant (fun s => Known cfg s.job ∧ Cleaned s) ?_ ?_
  · rintro s ⟨now, rfl⟩
    refine ⟨known_init, fun x hx => ?_, fun j hj => ?_, fun j hj => ?_, fun j hj => ?_⟩
    · exact (Multiset.notMem_zero x hx).elim
    · exact (List.not_mem_nil hj).elim
    · exact (List.not_mem_nil hj).elim
    · obtain hj | ⟨x, hx, -⟩ := hj
      · exact (List.not_mem_nil hj).elim
      · exact (Multiset.notMem_zero x hx).elim
  · rintro s a t ⟨hk, hn⟩ h
    obtain ⟨hok, h⟩ := System.guarded_step.mp h
    obtain ⟨u, hu, rfl⟩ := Option.map_eq_some_iff.mp h
    exact ⟨hk.step hcfg (stepped hu), hn.step hk h hok⟩

/-- **A job is handed over for good**: `rknpu_job_timeout_clean` gives `schedule_work` only jobs of
nonblocking submits, each of them is scheduled once, and no core has or lists it afterwards. -/
theorem cleaned_once (hcfg : cfg ∈ rknpuConfigs) (hs : (cleaningSystem cfg).Reachable s)
    (hj : j ∈ s.cleaned) : (s.job.dev.jobs j).args.flags &&& rknpuJobNonblock ≠ 0 ∧
      s.scheduled.count j = 1 ∧ ∀ c, (s.job.dev.subcoreDatas c).job ≠ some j ∧
        j ∉ (s.job.dev.subcoreDatas c).todoList := by
  obtain ⟨hk, hn⟩ := cleaned_run (rknpuConfigs_sound hcfg) hs
  have hgiven := hn.given j (Or.inl hj)
  refine ⟨hgiven.nonblock, ?_, fun c => ⟨fun hcur => ?_, fun hlist => ?_⟩⟩
  · have hpos := List.count_pos_iff.mpr (hn.listed j hj)
    have honce := hgiven.once
    omega
  · exact hgiven.unheld c (Or.inr hcur)
  · exact hgiven.unheld c (Or.inl hlist)

end

/-- A job that hangs on core `0`, and a nonblocking submit for that core after its timeout. -/
def cleanedAfter (flags coreMask : UInt32) (blocks : ℕ) : List JobLabel :=
  .submit (oneTask flags coreMask) false true :: List.replicate blocks (.exec 0 calm) ++
    .tick 2000000 ::
    .submit (oneTask (rknpuJobPc ||| rknpuJobNonblock) rknpuCore0Mask) false true ::
    List.replicate 12 (.exec 1 calm)

theorem cleaned_once_hung : ∃ s, (cleaningSystem rk3588RknpuConfig).Reachable s ∧ s.cleaned = [0] ∧
    ((s.job.dev.jobs 0).args.flags &&& rknpuJobNonblock ≠ 0 ∧ s.scheduled.count 0 = 1 ∧
      ∀ c, (s.job.dev.subcoreDatas c).job ≠ some 0 ∧ 0 ∉ (s.job.dev.subcoreDatas c).todoList) := by
  obtain ⟨s, hs, h⟩ := System.Reachable.of_run_any (S := cleaningSystem rk3588RknpuConfig)
    (p := fun s => decide (s.cleaned = [0]))
    (l := cleanedAfter (rknpuJobPc ||| rknpuJobNonblock) rknpuCore0Mask 19) ⟨1, rfl⟩
    (by decide +kernel)
  have hj := of_decide_eq_true h
  exact ⟨s, hs, hj, cleaned_once (by decide) hs (by simp [hj])⟩

/-- A blocking submit waits for the job that is handed over. -/
theorem cleaned_blocking : ∃ s, (cleanSystem rk3588RknpuConfig).Reachable s ∧ 0 ∈ s.cleaned ∧
    (s.job.dev.jobs 0).args.flags &&& rknpuJobNonblock = 0 ∧
    .waitEvent 0 0 ∈ s.job.threads.flatten := by
  obtain ⟨s, hs, h⟩ := System.Reachable.of_run_any (S := cleanSystem rk3588RknpuConfig)
    (p := fun s => decide (0 ∈ s.cleaned ∧ (s.job.dev.jobs 0).args.flags &&& rknpuJobNonblock = 0 ∧
      .waitEvent 0 0 ∈ s.job.threads.flatten))
    (l := cleanedAfter rknpuJobPc rknpuCore0Mask 15) ⟨1, rfl⟩ (by decide +kernel)
  exact ⟨s, hs, of_decide_eq_true h⟩

end RknpuDriver.Job
