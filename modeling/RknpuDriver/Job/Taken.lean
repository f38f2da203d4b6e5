import RknpuDriver.Job.Effects
import RknpuDriver.Job.Masks
import RknpuDriver.Job.Positions
import RknpuDriver.Lib.Gang.Gathering

/-! # Jobs that cores have taken

What holds in every state of every run, of the jobs that were queued: which core has taken which
job, how the run count follows, and that the last core to take a job commits it, once.

* `taken`, `coreOf`: the blocks that work for a job which some core has taken, and the core.
* `queueOn`: the jobs a core holds, in their order.
* `Chosen`: the masks and counters of jobs that are not queued yet.
* `Taken`: jobs are queued before anything is done with them, and each core takes a job once.
* `Countdown`: the run count is the number of cores that have not taken the job.
-/

namespace RknpuDriver.Job
set_option autoImplicit false
open RknpuDriver.Lib

/-- The blocks of `rknpu_job_next`, `rknpu_job_commit`, `rknpu_irq_handler` and `rknpu_job_done`
that work for a job. -/
def taken : JobOp → Option ℕ
  | .decRunCount j | .commit j | .subcoreCommit j _ | .irqStatus j _ | .doneCount j _
  | .doneClear j _ | .doneDec j | .setDone j | .setRet j | .fenceSignal j => some j
  | _ => none

/-- The job and the core of a block that works for one core. -/
def coreOf : JobOp → Option (ℕ × ℕ)
  | .subcoreCommit j c | .irqStatus j c | .doneCount j c | .doneClear j c => some (j, c)
  | _ => none

/-- The current job of a core, and then its list. -/
def queueOn (dev : Dev) (c : ℕ) : List ℕ :=
  (dev.subcoreDatas c).job.toList ++ (dev.subcoreDatas c).todoList

section
variable {cfg : Config} {dev : Dev} {o : Outcome} {op : JobOp} {eff : Effect} {j : ℕ}

/-! ## Blocks -/

theorem cores_of_before (h : jobExec cfg dev o op = some eff) (hj : before op = some j) :
    (eff.dev.jobs j).args.coreMask = (dev.jobs j).args.coreMask ∧
        (eff.dev.jobs j).runCount = (dev.jobs j).runCount ∧
        (eff.dev.jobs j).interruptCount = (dev.jobs j).interruptCount ∨
      ∃ i coreIndex n, op = .autoRead j i coreIndex n ∧
        (eff.dev.jobs j).args.coreMask = rknpuCoreMask coreIndex ∧
        (eff.dev.jobs j).runCount = 1 ∧ (eff.dev.jobs j).interruptCount = 1 := by
  cases op <;> grind -ring -linarith -order

theorem calls_autoRead (h : jobExec cfg dev o op = some eff) {i coreIndex : ℕ} {n : ℤ}
    (hj : .autoRead j i coreIndex n ∈ eff.calls) :
    coreIndex = 0 ∨ coreIndex < cfg.numIrqs ∨ ∃ k m, op = .autoRead j k coreIndex m := by
  have hop := calls_before h hj (j := j) rfl
  cases op <;> grind -ring -linarith -order

theorem pops_holds (h : pops dev op = some j) :
    ∃ c, op = .pop c ∧ (dev.subcoreDatas c).job = none ∧ j ∈ (dev.subcoreDatas c).todoList := by
  cases op with
  | pop c =>
    simp only [pops] at h
    split_ifs at h with hcur
    exact ⟨c, rfl, hcur, List.mem_of_head? h⟩
  | _ => cases h

theorem taken_of_stage (hj : stage op = some j) : taken op = some j := by
  cases op <;> first | exact hj | cases hj

/-- A block works for a job that a block before it worked for, or that a core holds. -/
theorem calls_taken (h : jobExec cfg dev o op = some eff) {x : JobOp} (hx : x ∈ eff.calls)
    (hj : taken x = some j) : taken op = some j ∨ ∃ c, Holds dev c j := by
  cases x with
  | decRunCount i =>
    cases hj
    obtain ⟨c, -, -, hmem⟩ := pops_holds (calls_decRunCount h hx)
    exact Or.inr ⟨c, Or.inl hmem⟩
  | commit i =>
    cases hj
    rw [(calls_commit h hx).1]
    exact Or.inl rfl
  | subcoreCommit i c =>
    cases hj
    obtain ⟨rfl, -⟩ | ⟨rfl, -⟩ := calls_subcoreCommit h hx
    · exact Or.inl rfl
    · exact Or.inl rfl
  | irqStatus | doneCount | doneClear | doneDec | setDone | setRet | fenceSignal =>
    obtain hop | ⟨c, -, hcur, -⟩ := calls_stage h hx hj
    · exact Or.inl (taken_of_stage hop)
    · exact Or.inr ⟨c, Or.inr hcur⟩
  | _ => cases hj

theorem calls_coreOf (h : jobExec cfg dev o op = some eff) {x : JobOp} (hx : x ∈ eff.calls)
    {c : ℕ} (hj : coreOf x = some (j, c)) : coreOf op = some (j, c) ∨
      op = .irqEntry c ∧ (dev.subcoreDatas c).job = some j ∨
      op = .commit j ∧ c ∈ commitCores (dev.jobs j).args.coreMask := by
  cases x with
  | subcoreCommit i d =>
    cases hj
    obtain ⟨rfl, hc⟩ | ⟨rfl, -⟩ := calls_subcoreCommit h hx
    · exact Or.inr (Or.inr ⟨rfl, hc⟩)
    · exact Or.inl rfl
  | irqStatus i d =>
    cases hj
    exact Or.inr (Or.inl (calls_irqStatus h hx))
  | doneCount i d =>
    cases hj
    rw [(calls_doneCount h hx).1]
    exact Or.inl rfl
  | doneClear i d =>
    cases hj
    rw [(calls_doneClear h hx).1]
    exact Or.inl rfl
  | _ => cases hj

theorem calls_commit_count (h : jobExec cfg dev o op = some eff) (j : ℕ) :
    eff.calls.count (.commit j) =
      if op = .decRunCount j ∧ (dev.jobs j).runCount - 1 = 0 then 1 else 0 := by
  cases op with
  | commit k => simp [calls_commit_eq_zero h]
  | doneClear k c =>
    cases h
    rfl
  | _ => grind -ring -linarith -order

theorem events_commit_count (h : jobExec cfg dev o op = some eff) (j : ℕ) :
    eff.events.count (.commit j) = if op = .commit j then 1 else 0 := by
  cases op <;> grind -ring -linarith -order

theorem mem_popsOn (h : jobExec cfg dev o op = some eff) {c : ℕ} :
    j ∈ popsOn c eff.events ↔ op = .pop c ∧ pops dev op = some j := by
  rw [events_pop h]
  split_ifs with hop
  · simp [hop]
  · simp [hop]

theorem queueOn_exec (h : jobExec cfg dev o op = some eff) (c : ℕ) :
    (queueOn eff.dev c).Sublist (queueOn dev c) ∨
      ∃ k, op = .enqueue k ∧ queueOn eff.dev c = queueOn dev c ++ [k] := by
  unfold queueOn
  rw [todoList_eq h, current_eq h]
  cases op with
  | enqueue k =>
    simp only [todoListAfter, currentAfter]
    split_ifs with hon
    · exact Or.inr ⟨k, rfl, (List.append_assoc _ _ _).symm⟩
    · exact Or.inl (List.Sublist.refl _)
  | pop i =>
    left
    by_cases hi : c = i ∧ (dev.subcoreDatas c).job = none
    · obtain ⟨rfl, hcur⟩ := hi
      simp only [todoListAfter, currentAfter, hcur, and_self, if_true]
      cases (dev.subcoreDatas c).todoList with
      | nil => exact List.Sublist.refl _
      | cons k rest => exact List.Sublist.refl _
    · have hi' : ¬ (c = i ∧ (dev.subcoreDatas i).job = none) := by
        rintro ⟨rfl, hcur⟩
        exact hi ⟨rfl, hcur⟩
      simp only [todoListAfter, currentAfter, if_neg hi, if_neg hi']
      exact List.Sublist.refl _
  | timeoutNext i =>
    left
    simp only [todoListAfter, currentAfter]
    split_ifs
    · exact (List.tail_sublist _).append_left _
    · exact List.Sublist.refl _
  | waitRemove k ret =>
    left
    simp only [todoListAfter, currentAfter]
    split_ifs
    · exact List.erase_sublist.append_left _
    · exact List.Sublist.refl _
  | doneClear k i | timeoutClear i k | abortClear k =>
    left
    simp only [todoListAfter, currentAfter]
    split_ifs
    · exact List.sublist_append_right _ _
    · exact List.Sublist.refl _
  | _ => exact Or.inl (List.Sublist.refl _)

theorem pair_sublist_append {l : List ℕ} {i j k : ℕ} (h : [j, i].Sublist (l ++ [k])) (hik : i ≠ k) :
    [j, i].Sublist l := by
  obtain ⟨l₁, l₂, hpair, h₁, h₂⟩ := List.sublist_append_iff.mp h
  obtain rfl | rfl : l₂ = [] ∨ l₂ = [k] := by
    cases l₂ with
    | nil => exact Or.inl rfl
    | cons x l₂ =>
      have hlen := h₂.length_le
      have hx : x = k := List.mem_singleton.mp (h₂.subset List.mem_cons_self)
      simp only [List.length_cons, List.length_nil] at hlen
      rw [hx, List.length_eq_zero_iff.mp (by omega : l₂.length = 0)]
      exact Or.inr rfl
  · rw [hpair, List.append_nil]
    exact h₁
  · have hlast := congrArg List.getLast? hpair
    simp only [List.getLast?_append, List.getLast?_singleton, Option.some_or] at hlast
    exact (hik (Option.some.inj hlast)).elim

end

/-! ## Jobs that are not queued yet -/

/-- The counters of a job that is not queued are the number of its cores. -/
structure Chosen (cfg : Config) (s : JobState) : Prop where
  masks : ∀ j < s.dev.numJobs, (s.dev.jobs j).args.coreMask ≤ cfg.coreMask
  auto : ∀ j i coreIndex n, .autoRead j i coreIndex n ∈ s.todo → coreIndex < cfg.numIrqs
  fresh : ∀ op ∈ s.todo, ∀ j, before op = some j →
    (s.dev.jobs j).runCount = (coresOf cfg (s.dev.jobs j).args.coreMask).length ∧
      (s.dev.jobs j).interruptCount = (coresOf cfg (s.dev.jobs j).args.coreMask).length

section
variable {cfg : Config} {s t : JobState} {a : JobLabel} {o : Outcome} {op : JobOp} {eff : Effect}
  {others : Multiset JobOp} {j : ℕ}

theorem Placed.not_helper (hs : Placed cfg s) (hop : op ∈ s.todo) (hj : before op = some j) :
    ∀ x ∈ s.todo, helper x ≠ some j :=
  fun x hx hcon => (hs.helped x hx j hcon).2 op hop hj

theorem Chosen.fresh_exec (hn : Chosen cfg s) (hcfg : cfg.Sound) (hmem : op ∈ s.todo)
    (heff : jobExec cfg s.dev o op = some eff) (hj : before op = some j) :
    (eff.dev.jobs j).runCount = (coresOf cfg (eff.dev.jobs j).args.coreMask).length ∧
      (eff.dev.jobs j).interruptCount = (coresOf cfg (eff.dev.jobs j).args.coreMask).length := by
  obtain ⟨hmask, hrun, hint⟩ | ⟨i, coreIndex, n, rfl, hmask, hrun, hint⟩ := cores_of_before heff hj
  · rw [hmask, hrun, hint]
    exact hn.fresh op hmem j hj
  · have hlt := hn.auto j i coreIndex n hmem
    have hone : (coresOf cfg (rknpuCoreMask coreIndex)).length = 1 := by
      rw [length_coresOf hcfg (hcfg.single coreIndex hlt)]
      exact useCoreNum_rknpuCoreMask (hlt.trans_le hcfg.numIrqs_le)
    rw [hmask, hrun, hint, hone]
    exact ⟨rfl, rfl⟩

theorem Chosen.exec (hn : Chosen cfg s) (hcfg : cfg.Sound) (hs : Placed cfg s)
    (hop : s.todo = op ::ₘ others) (heff : jobExec cfg s.dev o op = some eff)
    (hdev : t.dev = eff.dev) (htodo : t.todo = (eff.calls : Multiset JobOp) + others) :
    Chosen cfg t := by
  have hmem : op ∈ s.todo := by simp [hop]
  have hothers : ∀ x ∈ others, x ∈ s.todo := fun x hx => by simp [hop, hx]
  refine ⟨fun j hj => ?_, fun j i coreIndex n hx => ?_, fun x hx j hj => ?_⟩
  · rw [hdev, numJobs_eq heff] at hj
    rw [hdev]
    by_cases hb : before op = some j
    · obtain ⟨hmask, -⟩ | ⟨i, coreIndex, n, rfl, hmask, -⟩ := cores_of_before heff hb
      · rw [hmask]
        exact hn.masks j hj
      · rw [hmask]
        exact hcfg.single coreIndex (hn.auto j i coreIndex n hmem)
    · rw [coreMask_eq heff hb]
      exact hn.masks j hj
  · rw [htodo, Multiset.mem_add] at hx
    obtain hx | hx := hx
    · obtain rfl | hlt | ⟨k, m, rfl⟩ := calls_autoRead heff (Multiset.mem_coe.mp hx)
      · exact hcfg.numIrqs_pos
      · exact hlt
      · exact hn.auto j k coreIndex m hmem
    · exact hn.auto j i coreIndex n (hothers _ hx)
  · rw [htodo, Multiset.mem_add] at hx
    rw [hdev]
    obtain hx | hx := hx
    · exact hn.fresh_exec hcfg hmem heff (calls_before heff (Multiset.mem_coe.mp hx) hj)
    · have hb : before op ≠ some j := fun hcon => (hs.exclusive hop (Or.inl hcon) x hx).1 hj
      have hhelper := hs.not_helper (hothers x hx) hj op hmem
      have hdec : op ≠ .decRunCount j := fun hcon => hhelper (by rw [hcon]; rfl)
      have hfinish : op ≠ .doneDec j := fun hcon => hhelper (by rw [hcon]; rfl)
      rw [coreMask_eq heff hb, runCount_eq heff hb, interruptCount_eq heff hb, if_neg hdec,
        if_neg hfinish, sub_zero, sub_zero]
      exact hn.fresh x (hothers x hx) j hj

theorem Chosen.step (hn : Chosen cfg s) (hcfg : cfg.Sound) (hs : Placed cfg s)
    (h : Stepped cfg s t a) : Chosen cfg t := by
  cases h.moved with
  | submit hmask hdev htodo hhist =>
    have hold : ∀ {j}, j < s.dev.numJobs → t.dev.jobs j = s.dev.jobs j := by
      intro j hj
      rw [hdev, Dev.addJob_jobs, if_neg (Nat.ne_of_lt hj)]
    refine ⟨fun j hj => ?_, fun j i coreIndex n hx => ?_, fun x hx j hj => ?_⟩
    · rw [hdev, Dev.addJob_numJobs] at hj
      obtain hj | rfl := Nat.lt_succ_iff_lt_or_eq.mp hj
      · rw [hold hj]
        exact hn.masks j hj
      · rw [hdev, Dev.addJob_jobs, if_pos rfl]
        exact hmask
    · rw [htodo, Multiset.mem_cons] at hx
      obtain hx | hx := hx
      · cases hx
      · exact hn.auto j i coreIndex n hx
    · rw [htodo, Multiset.mem_cons] at hx
      obtain rfl | hx := hx
      · cases hj
        rw [hdev, Dev.addJob_jobs, if_pos rfl]
        simp only [rknpuJobAlloc]
        rw [length_coresOf hcfg hmask]
        exact ⟨rfl, rfl⟩
      · rw [hold (hs.submitted x hx j (Or.inl hj))]
        exact hn.fresh x hx j hj
  | exec hnext heff hop hdev htodo hhist => exact hn.exec hcfg hs hop heff hdev htodo
  | spawn hm =>
    refine ⟨fun j hj => ?_, fun j i coreIndex n hx => ?_, fun x hx j hj => ?_⟩
    · rw [hm.numJobs] at hj
      rw [hm.jobs]
      exact hn.masks j hj
    · exact hn.auto j i coreIndex n ((hm.mem_todo hx).resolve_right id)
    · rw [hm.jobs]
      obtain hx | hstart := hm.mem_todo hx
      · exact hn.fresh x hx j hj
      · cases x <;> first | exact hstart.elim | cases hj

theorem chosen_init {now : ℕ} : Chosen cfg ⟨.probed now, [], []⟩ where
  masks j hj := (Nat.not_lt_zero j hj).elim
  auto _ _ _ _ hop := (Multiset.notMem_zero _ hop).elim
  fresh op hop := (Multiset.notMem_zero op hop).elim

end

/-! ## Jobs that are queued, and taken from the lists -/

structure Taken (cfg : Config) (s : JobState) : Prop where
  past : ∀ j ∈ enqueues s.hist, Past s j
  held : ∀ c j, Holds s.dev c j → j ∈ enqueues s.hist
  worked : ∀ op ∈ s.todo, ∀ j, taken op = some j →
    j ∈ enqueues s.hist ∧ coresOf cfg (s.dev.jobs j).args.coreMask ≠ []
  core : ∀ op ∈ s.todo, ∀ j c, coreOf op = some (j, c) →
    c ∈ coresOf cfg (s.dev.jobs j).args.coreMask
  popped : ∀ c j, j ∈ popsOn c s.hist →
    j ∈ enqueues s.hist ∧ c ∈ coresOf cfg (s.dev.jobs j).args.coreMask
  once : ∀ c j, j ∈ (s.dev.subcoreDatas c).todoList → j ∉ popsOn c s.hist
  current : ∀ c j, (s.dev.subcoreDatas c).job = some j → j ∈ popsOn c s.hist

section
variable {cfg : Config} {s t : JobState} {a : JobLabel} {o : Outcome} {op : JobOp} {eff : Effect}
  {others : Multiset JobOp} {j : ℕ}

theorem Placed.mem_coresOf_of_holds (hs : Placed cfg s) {c : ℕ} (hj : Holds s.dev c j) :
    c ∈ coresOf cfg (s.dev.jobs j).args.coreMask :=
  mem_coresOf.mpr (hs.held c j hj).2

/-- A job that is being queued has nothing before it left to do. -/
theorem Placed.past_of_enqueue (hs : Placed cfg s) (hop : s.todo = .enqueue j ::ₘ others)
    (heff : jobExec cfg s.dev o (.enqueue j) = some eff) (hdev : t.dev = eff.dev)
    (htodo : t.todo = (eff.calls : Multiset JobOp) + others) : Past t j := by
  have hlt := hs.submitted (.enqueue j) (by simp [hop]) j (Or.inl rfl)
  refine ⟨?_, fun x hx hcon => ?_⟩
  · rw [hdev, numJobs_eq heff]
    exact hlt
  · rw [htodo, Multiset.mem_add] at hx
    obtain hx | hx := hx
    · cases heff
      rw [List.mem_singleton.mp (Multiset.mem_coe.mp hx)] at hcon
      cases hcon
    · exact (hs.exclusive hop (Or.inl rfl) x hx).1 hcon

theorem current_exec {dev : Dev} (heff : jobExec cfg dev o op = some eff) {c : ℕ}
    (hj : (eff.dev.subcoreDatas c).job = some j) :
    (dev.subcoreDatas c).job = some j ∨ op = .pop c ∧ pops dev op = some j := by
  by_cases hold : (dev.subcoreDatas c).job = some j
  · exact Or.inl hold
  · rw [current_eq heff] at hj
    obtain hj' | ⟨rfl, hhead⟩ := currentAfter_some hj
    · exact (hold hj').elim
    · by_cases hcur : (dev.subcoreDatas c).job = none
      · refine Or.inr ⟨rfl, ?_⟩
        simp only [pops]
        rw [if_pos hcur, hhead]
      · rw [currentAfter, if_neg fun hcon => hcur hcon.2] at hj
        exact (hold hj).elim

theorem Taken.exec (hn : Taken cfg s) (hcfg : cfg.Sound) (hs : Placed cfg s) (hc : Chosen cfg s)
    (h : Stepped cfg s t a) (hop : s.todo = op ::ₘ others)
    (heff : jobExec cfg s.dev o op = some eff) (hdev : t.dev = eff.dev)
    (htodo : t.todo = (eff.calls : Multiset JobOp) + others)
    (hhist : t.hist = s.hist ++ eff.events) : Taken cfg t := by
  have hmem : op ∈ s.todo := by simp [hop]
  have hothers : ∀ x ∈ others, x ∈ s.todo := fun x hx => by simp [hop, hx]
  have henq : ∀ {j}, j ∈ enqueues t.hist ↔ j ∈ enqueues s.hist ∨ op = .enqueue j := by
    intro j
    rw [hhist, enqueues_append, List.mem_append, events_enqueue heff]
  have hpops : ∀ {c j}, j ∈ popsOn c t.hist ↔
      j ∈ popsOn c s.hist ∨ op = .pop c ∧ pops s.dev op = some j := by
    intro c j
    rw [hhist, popsOn_append, List.mem_append, mem_popsOn heff]
  have hmask : ∀ {j}, j ∈ enqueues s.hist →
      (t.dev.jobs j).args.coreMask = (s.dev.jobs j).args.coreMask :=
    fun hj => ((hn.past _ hj).stepped h).2
  have hpast : ∀ {j}, j ∈ enqueues s.hist → op ≠ .enqueue j :=
    fun hj hcon => (hn.past _ hj).2 op hmem (by rw [hcon]; rfl)
  have hpop : ∀ {c j}, op = .pop c ∧ pops s.dev op = some j → Holds s.dev c j := by
    rintro c j ⟨rfl, hj⟩
    obtain ⟨d, hd, -, hlist⟩ := pops_holds hj
    cases hd
    exact Or.inl hlist
  refine ⟨fun j hj => ?_, fun c j hj => ?_, fun x hx j hj => ?_, fun x hx j c hj => ?_,
    fun c j hj => ?_, fun c j hj => ?_, fun c j hj => ?_⟩
  · obtain hj | rfl := henq.mp hj
    · exact ((hn.past j hj).stepped h).1
    · exact hs.past_of_enqueue hop heff hdev htodo
  · rw [hdev] at hj
    obtain hj | ⟨rfl, -⟩ := holds_exec heff hj
    · exact henq.mpr (Or.inl (hn.held c j hj))
    · exact henq.mpr (Or.inr rfl)
  · have hold : j ∈ enqueues s.hist ∧ coresOf cfg (s.dev.jobs j).args.coreMask ≠ [] := by
      rw [htodo, Multiset.mem_add] at hx
      obtain hx | hx := hx
      · obtain hop' | ⟨c, hc⟩ := calls_taken heff (Multiset.mem_coe.mp hx) hj
        · exact hn.worked op hmem j hop'
        · exact ⟨hn.held c j hc, List.ne_nil_of_mem (hs.mem_coresOf_of_holds hc)⟩
      · exact hn.worked x (hothers x hx) j hj
    rw [hmask hold.1]
    exact ⟨henq.mpr (Or.inl hold.1), hold.2⟩
  · have hold : j ∈ enqueues s.hist ∧ c ∈ coresOf cfg (s.dev.jobs j).args.coreMask := by
      have htaken : ∀ {y}, coreOf y = some (j, c) → taken y = some j := by
        intro y hy
        cases y <;> cases hy <;> rfl
      rw [htodo, Multiset.mem_add] at hx
      obtain hx | hx := hx
      · obtain hop' | ⟨rfl, hcur⟩ | ⟨rfl, hcommit⟩ := calls_coreOf heff (Multiset.mem_coe.mp hx) hj
        · exact ⟨(hn.worked op hmem j (htaken hop')).1, hn.core op hmem j c hop'⟩
        · exact ⟨hn.held c j (Or.inr hcur), hs.mem_coresOf_of_holds (Or.inr hcur)⟩
        · have hj := (hn.worked _ hmem j rfl).1
          have hon := (mem_commitCores (List.ne_nil_of_mem hcommit)).mp hcommit
          have hle := hc.masks j (hn.past j hj).1
          exact ⟨hj, mem_coresOf.mpr ⟨hcfg.masked _ hle c hon, hon⟩⟩
      · exact ⟨(hn.worked x (hothers x hx) j (htaken hj)).1, hn.core x (hothers x hx) j c hj⟩
    rw [hmask hold.1]
    exact hold.2
  · have hold : j ∈ enqueues s.hist ∧ c ∈ coresOf cfg (s.dev.jobs j).args.coreMask := by
      obtain hj | hj := hpops.mp hj
      · exact hn.popped c j hj
      · exact ⟨hn.held c j (hpop hj), hs.mem_coresOf_of_holds (hpop hj)⟩
    rw [hmask hold.1]
    exact ⟨henq.mpr (Or.inl hold.1), hold.2⟩
  · rw [hdev, todoList_eq heff] at hj
    intro hcon
    obtain hcon | ⟨rfl, hcon⟩ := hpops.mp hcon
    · obtain hj | ⟨rfl, -⟩ := mem_todoListAfter hj
      · exact hn.once c j hj hcon
      · exact hpast (hn.popped c j hcon).1 rfl
    · obtain ⟨d, hd, hcur, -⟩ := pops_holds hcon
      cases hd
      have hnd := hs.nodup c
      simp only [pops, if_pos hcur] at hcon
      simp only [todoListAfter, hcur, and_self, if_true] at hj
      cases hl : (s.dev.subcoreDatas c).todoList with
      | nil =>
        rw [hl] at hcon
        cases hcon
      | cons k rest =>
        rw [hl] at hcon hj hnd
        cases hcon
        exact (List.nodup_cons.mp hnd).1 hj
  · rw [hdev] at hj
    exact hpops.mpr ((current_exec heff hj).imp_left (hn.current c j))

/-- A new job brings nothing that the histories record, and changes no job that was there. -/
theorem Taken.keep (hn : Taken cfg s) (h : Stepped cfg s t a)
    (hcores : t.dev.subcoreDatas = s.dev.subcoreDatas)
    (hqueued : enqueues t.hist = enqueues s.hist) (hpops : ∀ c, popsOn c t.hist = popsOn c s.hist)
    (hnew : ∀ op ∈ t.todo, op ∈ s.todo ∨ taken op = none ∧ coreOf op = none) : Taken cfg t := by
  have hmask : ∀ {j}, j ∈ enqueues s.hist →
      (t.dev.jobs j).args.coreMask = (s.dev.jobs j).args.coreMask :=
    fun hj => ((hn.past _ hj).stepped h).2
  refine ⟨fun j hj => ?_, fun c j hj => ?_, fun x hx j hj => ?_, fun x hx j c hj => ?_,
    fun c j hj => ?_, fun c j hj => ?_, fun c j hj => ?_⟩
  · rw [hqueued] at hj
    exact ((hn.past j hj).stepped h).1
  · unfold Holds at hj
    rw [hcores] at hj
    rw [hqueued]
    exact hn.held c j hj
  · obtain hx | ⟨hno, -⟩ := hnew x hx
    · obtain ⟨hq, hne⟩ := hn.worked x hx j hj
      rw [hqueued, hmask hq]
      exact ⟨hq, hne⟩
    · rw [hno] at hj
      cases hj
  · obtain hx | ⟨-, hno⟩ := hnew x hx
    · have htaken : taken x = some j := by
        cases x <;> cases hj <;> rfl
      rw [hmask (hn.worked x hx j htaken).1]
      exact hn.core x hx j c hj
    · rw [hno] at hj
      cases hj
  · rw [hpops] at hj
    obtain ⟨hq, hc⟩ := hn.popped c j hj
    rw [hqueued, hmask hq]
    exact ⟨hq, hc⟩
  · rw [hcores] at hj
    rw [hpops]
    exact hn.once c j hj
  · rw [hcores] at hj
    rw [hpops]
    exact hn.current c j hj

theorem Taken.step (hn : Taken cfg s) (hcfg : cfg.Sound) (hs : Placed cfg s) (hc : Chosen cfg s)
    (h : Stepped cfg s t a) : Taken cfg t := by
  cases h.moved with
  | submit hmask hdev htodo hhist =>
    have hgets := OnlyGets.of_submit hhist
    refine hn.keep h (by rw [hdev]; rfl) hgets.enqueues hgets.popsOn fun op hop => ?_
    rw [htodo, Multiset.mem_cons] at hop
    obtain rfl | hop := hop
    · exact Or.inr ⟨rfl, rfl⟩
    · exact Or.inl hop
  | exec hnext heff hop hdev htodo hhist => exact hn.exec hcfg hs hc h hop heff hdev htodo hhist
  | spawn hm =>
    refine hn.keep h hm.subcoreDatas (by rw [hm.hist]) (fun c => by rw [hm.hist]) fun op hop => ?_
    refine (hm.mem_todo hop).imp_right fun hstart => ?_
    cases op <;> first | exact hstart.elim | exact ⟨rfl, rfl⟩

theorem taken_init {now : ℕ} : Taken cfg ⟨.probed now, [], []⟩ where
  past j hj := (List.not_mem_nil hj).elim
  held c j hj := by
    obtain hj | hj := hj
    · exact (List.not_mem_nil hj).elim
    · cases hj
  worked op hop := (Multiset.notMem_zero op hop).elim
  core op hop := (Multiset.notMem_zero op hop).elim
  popped c j hj := (List.not_mem_nil hj).elim
  once c j hj := (List.not_mem_nil hj).elim
  current c j hj := by cases hj

end

/-! ## The run count -/

theorem countP_eq_succ {l : List ℕ} (hnd : l.Nodup) {c : ℕ} (hc : c ∈ l) {p q : ℕ → Bool}
    (hpq : ∀ x ∈ l, x ≠ c → p x = q x) (hp : p c = true) (hq : q c = false) :
    l.countP p = l.countP q + 1 := by
  induction l with
  | nil => cases hc
  | cons a l ih =>
    obtain ⟨ha, hnd⟩ := List.nodup_cons.mp hnd
    rw [List.countP_cons, List.countP_cons]
    by_cases hac : c = a
    · subst hac
      have hrest : l.countP p = l.countP q := by
        refine List.countP_congr fun x hx => ?_
        rw [hpq x (List.mem_cons_of_mem _ hx) fun hxc => ha (hxc ▸ hx)]
      simp [hrest, hp, hq]
    · have hcl : c ∈ l := (List.mem_cons.mp hc).resolve_left hac
      rw [ih hnd hcl fun x hx => hpq x (List.mem_cons_of_mem _ hx),
        hpq a List.mem_cons_self fun hcon => hac hcon.symm]
      omega

/-- How many cores of a job have taken it. -/
def popCount (cfg : Config) (s : JobState) (j : ℕ) : ℕ :=
  (coresOf cfg (s.dev.jobs j).args.coreMask).countP fun c => j ∈ popsOn c s.hist

structure Countdown (cfg : Config) (s : JobState) : Prop where
  counts : ∀ j ∈ enqueues s.hist, (s.dev.jobs j).runCount + popCount cfg s j =
    (coresOf cfg (s.dev.jobs j).args.coreMask).length + s.todo.count (.decRunCount j)
  commits : ∀ j, s.hist.count (.commit j) + s.todo.count (.commit j) =
    if j ∈ enqueues s.hist ∧ coresOf cfg (s.dev.jobs j).args.coreMask ≠ [] ∧
      (s.dev.jobs j).runCount = 0 then 1 else 0
  reached : ∀ op ∈ s.todo, ∀ j c, coreOf op = some (j, c) → j ∈ popsOn c s.hist

section
variable {cfg : Config} {s t : JobState} {a : JobLabel} {o : Outcome} {op : JobOp} {eff : Effect}
  {others : Multiset JobOp} {j : ℕ}

theorem Countdown.runCount_nonneg (hr : Countdown cfg s) (hj : j ∈ enqueues s.hist) :
    s.todo.count (.decRunCount j) ≤ (s.dev.jobs j).runCount := by
  have hcount := hr.counts j hj
  have hle : popCount cfg s j ≤ (coresOf cfg (s.dev.jobs j).args.coreMask).length :=
    List.countP_le_length
  omega

/-- A job that all its cores have taken is committed, or is about to be. -/
theorem Countdown.committed (hr : Countdown cfg s) (hj : j ∈ enqueues s.hist)
    (hne : coresOf cfg (s.dev.jobs j).args.coreMask ≠ [])
    (hpop : ∀ c ∈ coresOf cfg (s.dev.jobs j).args.coreMask, j ∈ popsOn c s.hist)
    (hdec : .decRunCount j ∉ s.todo) :
    s.hist.count (.commit j) + s.todo.count (.commit j) = 1 := by
  have hcount := hr.counts j hj
  have hall : popCount cfg s j = (coresOf cfg (s.dev.jobs j).args.coreMask).length :=
    List.countP_eq_length.mpr fun c hc => decide_eq_true (hpop c hc)
  rw [hall, Multiset.count_eq_zero.mpr hdec] at hcount
  rw [hr.commits j, if_pos ⟨hj, hne, by omega⟩]

/-- A job that is committed, or about to be, was taken by all its cores. -/
theorem Countdown.all_popped (hr : Countdown cfg s)
    (hj : .commit j ∈ s.hist ∨ .commit j ∈ s.todo) {c : ℕ}
    (hc : c ∈ coresOf cfg (s.dev.jobs j).args.coreMask) : j ∈ popsOn c s.hist := by
  have hpos : 0 < s.hist.count (.commit j) + s.todo.count (.commit j) := by
    obtain hj | hj := hj
    · exact Nat.add_pos_left (List.count_pos_iff.mpr hj) _
    · exact Nat.add_pos_right _ (Multiset.count_pos.mpr hj)
  rw [hr.commits j] at hpos
  split_ifs at hpos with hcond
  · obtain ⟨hq, -, hrun⟩ := hcond
    have hcount := hr.counts j hq
    have hle : popCount cfg s j ≤ (coresOf cfg (s.dev.jobs j).args.coreMask).length :=
      List.countP_le_length
    have hall : popCount cfg s j = (coresOf cfg (s.dev.jobs j).args.coreMask).length := by omega
    exact of_decide_eq_true (List.countP_eq_length.mp hall c hc)
  · exact (Nat.lt_irrefl 0 hpos).elim

theorem popCount_exec (hn : Taken cfg s) (h : Stepped cfg s t a) (hs : Placed cfg s)
    (heff : jobExec cfg s.dev o op = some eff) (hhist : t.hist = s.hist ++ eff.events)
    (hj : j ∈ enqueues s.hist) :
    popCount cfg t j = popCount cfg s j + if pops s.dev op = some j then 1 else 0 := by
  have hpops : ∀ c, j ∈ popsOn c t.hist ↔
      j ∈ popsOn c s.hist ∨ op = .pop c ∧ pops s.dev op = some j := by
    intro c
    rw [hhist, popsOn_append, List.mem_append, mem_popsOn heff]
  unfold popCount
  rw [((hn.past j hj).stepped h).2]
  split_ifs with hpop
  · obtain ⟨c, rfl, -, hlist⟩ := pops_holds hpop
    refine countP_eq_succ (nodup_coresOf cfg _) (hs.mem_coresOf_of_holds (Or.inl hlist))
      (fun d _ hd => ?_) ?_ ?_
    · refine decide_eq_decide.mpr ((hpops d).trans (or_iff_left ?_))
      rintro ⟨hcon, -⟩
      exact hd (JobOp.pop.inj hcon).symm
    · exact decide_eq_true ((hpops c).mpr (Or.inr ⟨rfl, hpop⟩))
    · exact decide_eq_false (hn.once c j hlist)
  · refine List.countP_congr fun c _ => ?_
    rw [decide_eq_true_eq, decide_eq_true_eq]
    exact (hpops c).trans (or_iff_left fun hcon => hpop hcon.2)

theorem Countdown.counts_exec (hr : Countdown cfg s) (hn : Taken cfg s) (hs : Placed cfg s)
    (hc : Chosen cfg s) (h : Stepped cfg s t a) (hop : s.todo = op ::ₘ others)
    (heff : jobExec cfg s.dev o op = some eff) (hdev : t.dev = eff.dev)
    (htodo : t.todo = (eff.calls : Multiset JobOp) + others)
    (hhist : t.hist = s.hist ++ eff.events) (hj : j ∈ enqueues t.hist) :
    (t.dev.jobs j).runCount + popCount cfg t j =
      (coresOf cfg (t.dev.jobs j).args.coreMask).length + t.todo.count (.decRunCount j) := by
  have hmem : op ∈ s.todo := by simp [hop]
  rw [hhist, enqueues_append, List.mem_append, events_enqueue heff] at hj
  have hdec : t.todo.count (.decRunCount j) =
      (if pops s.dev op = some j then 1 else 0) + others.count (.decRunCount j) := by
    rw [htodo, Multiset.count_add, Multiset.coe_count, calls_dec heff]
  by_cases hq : j ∈ enqueues s.hist
  · have hpast := hn.past j hq
    have hold := hr.counts j hq
    rw [hop, Multiset.count_cons] at hold
    rw [hdec, popCount_exec hn h hs heff hhist hq, (hpast.stepped h).2, hdev,
      runCount_eq heff (hpast.2 op hmem)]
    by_cases hcase : op = .decRunCount j
    · rw [if_pos hcase.symm] at hold
      rw [if_pos hcase]
      push_cast at hold ⊢
      omega
    · rw [if_neg fun hcon => hcase hcon.symm] at hold
      rw [if_neg hcase]
      push_cast at hold ⊢
      omega
  · obtain rfl := hj.resolve_left hq
    have hnone : others.count (.decRunCount j) = 0 := by
      refine Multiset.count_eq_zero.mpr fun hcon => hq ?_
      exact (hn.worked (.decRunCount j) (by simp [hop, hcon]) j rfl).1
    have hzero : popCount cfg t j = 0 := by
      refine List.countP_eq_zero.mpr fun c _ hcon => ?_
      rw [decide_eq_true_eq, hhist, popsOn_append, List.mem_append, mem_popsOn heff] at hcon
      obtain hcon | ⟨hcon, -⟩ := hcon
      · exact hq (hn.popped c j hcon).1
      · cases hcon
    have hfresh := (hc.fresh _ hmem j rfl).1
    obtain ⟨hmask, hrun, -⟩ | ⟨i, coreIndex, n, hcon, -⟩ := cores_of_before heff (j := j) rfl
    · rw [hdec, hzero, hnone, hdev, hrun, hmask, hfresh]
      simp [pops]
    · cases hcon

theorem Countdown.commits_exec (hr : Countdown cfg s) (hn : Taken cfg s)
    (hc : Chosen cfg s) (h : Stepped cfg s t a) (hop : s.todo = op ::ₘ others)
    (heff : jobExec cfg s.dev o op = some eff) (hdev : t.dev = eff.dev)
    (htodo : t.todo = (eff.calls : Multiset JobOp) + others)
    (hhist : t.hist = s.hist ++ eff.events) :
    t.hist.count (.commit j) + t.todo.count (.commit j) =
      if j ∈ enqueues t.hist ∧ coresOf cfg (t.dev.jobs j).args.coreMask ≠ [] ∧
        (t.dev.jobs j).runCount = 0 then 1 else 0 := by
  have hmem : op ∈ s.todo := by simp [hop]
  have hold := hr.commits j
  have hsum : t.hist.count (.commit j) + t.todo.count (.commit j) =
      s.hist.count (.commit j) + s.todo.count (.commit j) +
        if op = .decRunCount j ∧ (s.dev.jobs j).runCount - 1 = 0 then 1 else 0 := by
    have hcommits := count_exec hop htodo (.commit j)
    rw [calls_commit_count heff] at hcommits
    rw [hhist, List.count_append, events_commit_count heff]
    omega
  have hqueued : j ∈ enqueues t.hist ↔ j ∈ enqueues s.hist ∨ op = .enqueue j := by
    rw [hhist, enqueues_append, List.mem_append, events_enqueue heff]
  rw [hsum, hold]
  simp only [hqueued]
  by_cases hq : j ∈ enqueues s.hist
  · have hpast := hn.past j hq
    rw [(hpast.stepped h).2, hdev, runCount_eq heff (hpast.2 op hmem)]
    by_cases hdec : op = .decRunCount j
    · subst hdec
      have hne := (hn.worked _ hmem j rfl).2
      have hpos := hr.runCount_nonneg hq
      have hone : 1 ≤ s.todo.count (.decRunCount j) := Multiset.one_le_count_iff_mem.mpr hmem
      have hrun : ¬ (s.dev.jobs j).runCount = 0 := by omega
      simp [hq, hne, hrun]
    · simp [hq, hdec]
  · by_cases henq : op = .enqueue j
    · subst henq
      have hfresh := (hc.fresh _ hmem j rfl).1
      obtain ⟨hmask, hrun, -⟩ | ⟨i, coreIndex, n, hcon, -⟩ := cores_of_before heff (j := j) rfl
      · rw [hdev, hrun, hmask, hfresh]
        simp [hq]
      · cases hcon
    · have hdec : op ≠ .decRunCount j := fun hcon => hq (hn.worked op hmem j (by rw [hcon]; rfl)).1
      simp [hq, henq, hdec]

/-- A core is started, and its interrupts are handled, for jobs that it has taken. -/
theorem Countdown.reached_exec (hr : Countdown cfg s) (hn : Taken cfg s) (hc : Chosen cfg s)
    (hcfg : cfg.Sound) (hop : s.todo = op ::ₘ others) (heff : jobExec cfg s.dev o op = some eff)
    (htodo : t.todo = (eff.calls : Multiset JobOp) + others)
    (hhist : t.hist = s.hist ++ eff.events) :
    ∀ x ∈ t.todo, ∀ j c, coreOf x = some (j, c) → j ∈ popsOn c t.hist := by
  have hmem : op ∈ s.todo := by simp [hop]
  intro x hx j c hj
  rw [hhist, popsOn_append, List.mem_append]
  left
  rw [htodo, Multiset.mem_add] at hx
  obtain hx | hx := hx
  · obtain hop' | ⟨rfl, hcur⟩ | ⟨rfl, hcommit⟩ := calls_coreOf heff (Multiset.mem_coe.mp hx) hj
    · exact hr.reached op hmem j c hop'
    · exact hn.current c j hcur
    · have hon := (mem_commitCores (List.ne_nil_of_mem hcommit)).mp hcommit
      have hle := hc.masks j (hn.past j (hn.worked _ hmem j rfl).1).1
      exact hr.all_popped (Or.inr hmem) (mem_coresOf.mpr ⟨hcfg.masked _ hle c hon, hon⟩)
  · exact hr.reached x (by simp [hop, hx]) j c hj

theorem Countdown.keep (hr : Countdown cfg s) (hqueued : enqueues t.hist = enqueues s.hist)
    (hpops : ∀ c, popsOn c t.hist = popsOn c s.hist)
    (hjobs : ∀ j ∈ enqueues s.hist, t.dev.jobs j = s.dev.jobs j)
    (hdec : ∀ j, t.todo.count (.decRunCount j) = s.todo.count (.decRunCount j))
    (hcommit : ∀ j, t.hist.count (.commit j) + t.todo.count (.commit j) =
      s.hist.count (.commit j) + s.todo.count (.commit j))
    (hnew : ∀ op ∈ t.todo, op ∈ s.todo ∨ coreOf op = none) : Countdown cfg t := by
  refine ⟨fun j hj => ?_, fun j => ?_, fun x hx j c hj => ?_⟩
  · rw [hqueued] at hj
    unfold popCount
    simp only [hpops]
    rw [hjobs j hj, hdec]
    exact hr.counts j hj
  · rw [hcommit, hr.commits, hqueued]
    by_cases hj : j ∈ enqueues s.hist
    · rw [hjobs j hj]
    · simp [hj]
  · rw [hpops]
    obtain hx | hno := hnew x hx
    · exact hr.reached x hx j c hj
    · rw [hno] at hj
      cases hj

theorem Countdown.step (hr : Countdown cfg s) (hcfg : cfg.Sound) (hn : Taken cfg s)
    (hs : Placed cfg s) (hc : Chosen cfg s) (h : Stepped cfg s t a) : Countdown cfg t := by
  cases h.moved with
  | submit hmask hdev htodo hhist =>
    have hgets := OnlyGets.of_submit hhist
    refine hr.keep hgets.enqueues hgets.popsOn (fun j hj => ?_) (fun j => ?_) (fun j => ?_)
      fun x hx => ?_
    · rw [hdev, Dev.addJob_jobs, if_neg (Nat.ne_of_lt (hn.past j hj).1)]
    · rw [htodo]
      exact Multiset.count_cons_of_ne (by simp) _
    · rw [htodo, Multiset.count_cons_of_ne (by simp), hgets.count (by simp)]
    · rw [htodo, Multiset.mem_cons] at hx
      obtain rfl | hx := hx
      · exact Or.inr rfl
      · exact Or.inl hx
  | exec hnext heff hop hdev htodo hhist =>
    exact ⟨fun j hj => hr.counts_exec hn hs hc h hop heff hdev htodo hhist hj,
      fun j => hr.commits_exec hn hc h hop heff hdev htodo hhist,
      hr.reached_exec hn hc hcfg hop heff htodo hhist⟩
  | spawn hm =>
    obtain ⟨new, htodo, hnew⟩ := hm.todo
    have hcount : ∀ op, ¬ starting s.dev op → t.todo.count op = s.todo.count op := by
      intro op hop
      rw [htodo, Multiset.count_add, Multiset.count_eq_zero.mpr fun hmem => hop (hnew op hmem),
        zero_add]
    refine hr.keep (by rw [hm.hist]) (fun c => by rw [hm.hist]) (fun j _ => by rw [hm.jobs])
      (fun j => hcount _ id) (fun j => ?_) fun x hx => ?_
    · rw [hm.hist, hcount _ id]
    · refine (hm.mem_todo hx).imp_right fun hstart => ?_
      cases x <;> first | exact hstart.elim | rfl

theorem countdown_init {now : ℕ} : Countdown cfg ⟨.probed now, [], []⟩ where
  counts j hj := (List.not_mem_nil hj).elim
  commits j := by
    rw [if_neg fun hcon => List.not_mem_nil hcon.1]
    rfl
  reached op hop := (Multiset.notMem_zero op hop).elim

/-- What holds in every state of every run. -/
structure Known (cfg : Config) (s : JobState) : Prop where
  placed : Placed cfg s
  chosen : Chosen cfg s
  taken : Taken cfg s
  countdown : Countdown cfg s

theorem Known.step (hs : Known cfg s) (hcfg : cfg.Sound) (h : Stepped cfg s t a) : Known cfg t :=
  ⟨hs.placed.step h, hs.chosen.step hcfg hs.placed h, hs.taken.step hcfg hs.placed hs.chosen h,
    hs.countdown.step hcfg hs.taken hs.placed hs.chosen h⟩

theorem known_init {now : ℕ} : Known cfg ⟨.probed now, [], []⟩ :=
  ⟨placed_init, chosen_init, taken_init, countdown_init⟩

end
end RknpuDriver.Job
