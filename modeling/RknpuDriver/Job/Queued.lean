import RknpuDriver.Job.Positions
import RknpuDriver.Job.Masks
import RknpuDriver.Lib.Gang.Gathering

/-! # Freeing a job that is still queued

`rknpu_submit` frees its job without looking at the `todo_list`s. `leavesLists` says which
branches have to be avoided; the others leave no list with a job that is freed.
-/

namespace RknpuDriver.Job
set_option autoImplicit false
open RknpuDriver.Lib

/-- The job is on no `todo_list`. -/
def Unlinked (dev : Dev) (j : ℕ) : Prop := ∀ c, j ∉ (dev.subcoreDatas c).todoList

/-- The number of lists that a job is on. -/
def linked (cfg : Config) (dev : Dev) (j : ℕ) : ℕ :=
  ((List.range cfg.numIrqs).map fun c =>
    if j ∈ (dev.subcoreDatas c).todoList then 1 else 0).sum

/-- The three branches on which a freed job can stay on a list are not taken:
* `rknpu_submit` gives back a job without `RKNPU_JOB_PC`, for which it does not wait, while a
  core has not taken it;
* the removal loop of `rknpu_job_wait` ends before a list that the job is on;
* `rknpu_irq_handler` accepts an interrupt for a job that is not committed yet. -/
def leavesLists (cfg : Config) (dev : Dev) (o : Outcome) : JobOp → Bool
  | .blockRet j =>
    (dev.jobs j).args.flags &&& rknpuJobPc ≠ 0 ∨ (dev.jobs j).ret ≠ 0 ∨
      (dev.jobs j).runCount ≤ 0
  | .waitRemove j _ => ∀ c < cfg.numIrqs, (dev.jobs j).useCoreNum ≤ c →
      j ∉ (dev.subcoreDatas c).todoList
  | .irqStatus j c =>
    rknpuFuzzStatus o.status = (dev.jobs j).intMask c → (dev.jobs j).runCount ≤ 0
  | _ => true

/-! ## The lists a job is on -/

section
variable {cfg : Config} {s t : JobState} {a : JobLabel} {o : Outcome} {op : JobOp} {eff : Effect}

theorem unlinked_of_linked (hs : Placed cfg s) {j : ℕ} (h : linked cfg s.dev j = 0) :
    Unlinked s.dev j := by
  intro c hj
  have hc := (hs.held c j (Or.inl hj)).2.1
  have hle : 1 ≤ linked cfg s.dev j := by
    refine List.le_sum_of_mem (List.mem_map.mpr ⟨c, List.mem_range.mpr hc, ?_⟩)
    exact if_pos hj
  omega

theorem unlinked_of_before (hs : Placed cfg s) (hop : op ∈ s.todo) {j : ℕ}
    (hj : before op = some j) : Unlinked s.dev j :=
  fun c hmem => (hs.held c j (Or.inl hmem)).1.2 op hop hj

theorem unlinked_exec {dev : Dev} (h : jobExec cfg dev o op = some eff) {j : ℕ}
    (hj : Unlinked dev j) (hop : op ≠ .enqueue j) : Unlinked eff.dev j := by
  intro c hmem
  rw [todoList_eq h] at hmem
  rcases mem_todoListAfter hmem with hmem | ⟨rfl, -⟩
  · exact hj c hmem
  · exact hop rfl

theorem linked_le (hs : Placed cfg s) (j : ℕ) :
    linked cfg s.dev j ≤ (coresOf cfg (s.dev.jobs j).args.coreMask).length := by
  have hsum : ∀ l : List ℕ, (l.map fun c =>
      if j ∈ (s.dev.subcoreDatas c).todoList then 1 else 0).sum ≤
        (l.filter (onCore (s.dev.jobs j).args.coreMask)).length := by
    intro l
    induction l with
    | nil => exact Nat.zero_le _
    | cons c l ih =>
      rw [List.map_cons, List.sum_cons, List.filter_cons]
      split_ifs with hmem hon hon
      · rw [List.length_cons]
        omega
      · exact (hon (hs.held c j (Or.inl hmem)).2.2).elim
      · rw [List.length_cons]
        omega
      · omega
  exact hsum _

/-- A block that does not queue the job leaves it on no more lists, and takes it from one if it
pops it. -/
theorem linked_exec (hs : Placed cfg s) (h : jobExec cfg s.dev o op = some eff) {j : ℕ}
    (hop : op ≠ .enqueue j) :
    linked cfg eff.dev j + (if pops s.dev op = some j then 1 else 0) ≤ linked cfg s.dev j := by
  have hmem : ∀ c, j ∈ (eff.dev.subcoreDatas c).todoList →
      j ∈ (s.dev.subcoreDatas c).todoList := by
    intro c hc
    rw [todoList_eq h] at hc
    exact (mem_todoListAfter hc).resolve_right fun hcon => hop hcon.1
  split_ifs with hpop
  · cases op with
    | pop c =>
      simp only [pops] at hpop
      split_ifs at hpop with hcur
      have hj : j ∈ (s.dev.subcoreDatas c).todoList := List.mem_of_head? hpop
      refine Nat.le_of_eq (Gang.sum_map_eq_succ List.nodup_range
        (List.mem_range.mpr (hs.held c j (Or.inl hj)).2.1) (fun i _ hi => ?_) ?_).symm
      · rw [todoList_eq h]
        simp only [todoListAfter, hi, false_and, if_false]
      · rw [if_pos hj, todoList_eq h]
        simp only [todoListAfter, hcur, and_self, if_true]
        obtain ⟨rest, hrest⟩ : ∃ rest, (s.dev.subcoreDatas c).todoList = j :: rest := by
          cases hl : (s.dev.subcoreDatas c).todoList with
          | nil => simp [hl] at hpop
          | cons k rest => exact ⟨rest, by rw [hl, List.head?_cons] at hpop; cases hpop; rfl⟩
        have hnd := hs.nodup c
        rw [hrest] at hnd ⊢
        rw [List.tail_cons, if_neg (List.nodup_cons.mp hnd).1]
    | _ => cases hpop
  · rw [Nat.add_zero]
    refine List.sum_le_sum fun c _ => ?_
    split_ifs with h1 h2
    · exact Nat.le_refl 1
    · exact (h2 (hmem c h1)).elim
    · exact Nat.zero_le _
    · exact Nat.le_refl 0

end

/-! ## The run count -/

/-- What holds in every state of a run that takes none of the three branches. The run count is
at least the number of lists the job is on, so that a job that was committed is on none. -/
structure Linkage (cfg : Config) (s : JobState) : Prop where
  prepared : ∀ op ∈ s.todo, ∀ j, before op = some j →
    ((coresOf cfg (s.dev.jobs j).args.coreMask).length : ℤ) ≤ (s.dev.jobs j).runCount
  waiting : ∀ j, Past s j → (linked cfg s.dev j : ℤ) + s.todo.count (.decRunCount j) ≤
    (s.dev.jobs j).runCount
  committed : ∀ op ∈ s.todo, ∀ j, committing op = some j → (s.dev.jobs j).runCount ≤ 0
  programmed : ∀ j, (s.dev.jobs j).lastTask ≠ none →
    Past s j ∧ (s.dev.jobs j).runCount ≤ 0
  failed : ∀ j, (s.dev.jobs j).ret ≠ 0 → Past s j ∧ Unlinked s.dev j
  left : ∀ op ∈ s.todo, ∀ j, leaving op = some j → Unlinked s.dev j
  waited : ∀ j, .blockRet j ∈ s.todo → (s.dev.jobs j).args.flags &&& rknpuJobPc ≠ 0 →
    Unlinked s.dev j

section
variable {cfg : Config} {s t : JobState} {a : JobLabel} {o : Outcome} {op : JobOp} {eff : Effect}

theorem Linkage.unlinked (hs : Linkage cfg s) (hp : Placed cfg s) {j : ℕ} (hj : Past s j)
    (hrun : (s.dev.jobs j).runCount ≤ 0) : Unlinked s.dev j := by
  apply unlinked_of_linked hp
  have := hs.waiting j hj
  omega

theorem helper_of_committing {j : ℕ} (hj : committing op = some j) : helper op = some j := by
  cases op <;> cases hj <;> rfl

theorem after_of_leaving {j : ℕ} (hj : leaving op = some j) : after op = some j := by
  cases op <;> cases hj <;> rfl

theorem past_of_committing (hp : Placed cfg s) (hop : op ∈ s.todo) {j : ℕ}
    (hj : committing op = some j) : Past s j :=
  hp.helped op hop j (helper_of_committing hj)

theorem past_of_leaving (hp : Placed cfg s) (hop : op ∈ s.todo) {j : ℕ}
    (hj : leaving op = some j) : Past s j :=
  hp.past_of_after hop (after_of_leaving hj)

theorem Linkage.waiting_exec (hs : Linkage cfg s) (hp : Placed cfg s) (hq : Placed cfg t)
    {others : Multiset JobOp} (heff : jobExec cfg s.dev o op = some eff)
    (hop : s.todo = op ::ₘ others) (hdev : t.dev = eff.dev)
    (htodo : t.todo = (eff.calls : Multiset JobOp) + others) {j : ℕ} (hj : Past t j) :
    (linked cfg t.dev j : ℤ) + t.todo.count (.decRunCount j) ≤ (t.dev.jobs j).runCount := by
  have hmem : op ∈ s.todo := by simp [hop]
  have hcount : t.todo.count (.decRunCount j) =
      (if pops s.dev op = some j then 1 else 0) + others.count (.decRunCount j) := by
    rw [htodo, Multiset.count_add, Multiset.coe_count, calls_dec heff]
  by_cases hb : before op = some j
  · have hnone : others.count (.decRunCount j) = 0 := by
      refine Multiset.count_eq_zero.mpr fun hdec => ?_
      exact (hp.helped (.decRunCount j) (by simp [hop, hdec]) j rfl).2 op hmem hb
    have hpop : pops s.dev op ≠ some j := by
      cases op <;> cases hb <;> simp [pops]
    have hle := linked_le hq j
    have hready := hs.prepared op hmem j hb
    rw [hcount, if_neg hpop, hnone]
    rw [hdev] at hle ⊢
    rcases before_eq heff hb with ⟨hmask, hrun⟩ | ⟨i, hmask, hrun⟩
    · rw [hmask] at hle
      omega
    · rw [hmask] at hle
      have := coresOf_rknpuCoreMask_length_le cfg i
      omega
  · have hpast : Past s j := by
      refine ⟨?_, fun x hx hcon => ?_⟩
      · have := hj.1
        rwa [hdev, numJobs_eq heff] at this
      · rw [hop, Multiset.mem_cons] at hx
        rcases hx with rfl | hx
        · exact hb hcon
        · exact hj.2 x (by simp [htodo, hx]) hcon
    have hold := hs.waiting j hpast
    rw [hop, Multiset.count_cons] at hold
    have hlinked := linked_exec hp heff (j := j) fun hcon => hb (by rw [hcon]; rfl)
    have hrun := runCount_eq heff hb
    rw [hcount, hdev, hrun]
    by_cases hdec : op = .decRunCount j
    · subst hdec
      simp only [if_true] at hold ⊢
      omega
    · rw [if_neg fun hcon => hdec hcon.symm] at hold
      rw [if_neg hdec]
      omega

theorem Linkage.exec (hs : Linkage cfg s) (hp : Placed cfg s) (hq : Placed cfg t)
    {others : Multiset JobOp} (heff : jobExec cfg s.dev o op = some eff)
    (hop : s.todo = op ::ₘ others) (hdev : t.dev = eff.dev)
    (htodo : t.todo = (eff.calls : Multiset JobOp) + others) (h : Stepped cfg s t a)
    (hok : leavesLists cfg s.dev o op = true) : Linkage cfg t := by
  have hmem : op ∈ s.todo := by simp [hop]
  have hothers : ∀ x ∈ others, x ∈ s.todo := fun x hx => by simp [hop, hx]
  have hle : ∀ {j}, Past s j → (t.dev.jobs j).runCount ≤ (s.dev.jobs j).runCount := by
    intro j hj
    rw [hdev, runCount_eq heff (hj.2 op hmem)]
    split_ifs <;> omega
  have hkeep : ∀ {j}, Past s j → Unlinked s.dev j → Unlinked t.dev j := by
    intro j hj hun
    rw [hdev]
    exact unlinked_exec heff hun fun hcon => hj.2 op hmem (by rw [hcon]; rfl)
  refine ⟨?_, fun j => hs.waiting_exec hp hq heff hop hdev htodo, ?_, ?_, ?_, ?_, ?_⟩
  · intro x hx j hj
    rw [htodo, Multiset.mem_add] at hx
    rw [hdev]
    rcases hx with hx | hx
    · have hb := calls_before heff (Multiset.mem_coe.mp hx) hj
      rcases before_eq heff hb with ⟨hmask, hrun⟩ | ⟨i, hmask, hrun⟩
      · rw [hmask, hrun]
        exact hs.prepared op hmem j hb
      · rw [hmask, hrun]
        exact_mod_cast coresOf_rknpuCoreMask_length_le cfg i
    · have hb : before op ≠ some j := fun hcon => (hp.exclusive hop (Or.inl hcon) x hx).1 hj
      have hdec : op ≠ .decRunCount j := by
        rintro rfl
        exact (hp.helped _ hmem j rfl).2 x (hothers x hx) hj
      rw [coreMask_eq heff hb, runCount_eq heff hb, if_neg hdec, sub_zero]
      exact hs.prepared x (hothers x hx) j hj
  · intro x hx j hj
    rw [htodo, Multiset.mem_add] at hx
    rcases hx with hx | hx
    · obtain hc | ⟨rfl, hrun⟩ | ⟨c, rfl, hint⟩ :=
        calls_committing heff (Multiset.mem_coe.mp hx) hj
      · exact (hle (past_of_committing hp hmem hc)).trans (hs.committed op hmem j hc)
      · rw [hdev, runCount_eq heff (by simp [before]), if_pos rfl, hrun]
      · simp only [leavesLists, decide_eq_true_eq] at hok
        exact (hle (hp.helped _ hmem j rfl)).trans (hok hint)
    · exact (hle (past_of_committing hp (hothers x hx) hj)).trans
        (hs.committed x (hothers x hx) j hj)
  · intro j hj
    rw [hdev] at hj
    rcases lastTask_of heff hj with hj | ⟨c, rfl⟩
    · obtain ⟨hpast, hrun⟩ := hs.programmed j hj
      exact ⟨(hpast.stepped h).1, (hle hpast).trans hrun⟩
    · have hpast := hp.helped _ hmem j rfl
      exact ⟨(hpast.stepped h).1, (hle hpast).trans (hs.committed _ hmem j rfl)⟩
  · intro j hj
    rw [hdev] at hj
    rcases ret_of heff hj with hj | ⟨rfl, ho⟩ | ⟨c, rfl⟩ | ⟨ret, rfl⟩
    · obtain ⟨hpast, hun⟩ := hs.failed j hj
      exact ⟨(hpast.stepped h).1, hkeep hpast hun⟩
    · refine ⟨⟨?_, fun x hx hcon => ?_⟩, ?_⟩
      · rw [hdev, numJobs_eq heff]
        exact hp.submitted _ hmem j (Or.inl rfl)
      · rw [htodo, Multiset.mem_add] at hx
        rcases hx with hx | hx
        · exact calls_domainGet heff ho (Multiset.mem_coe.mp hx) j hcon
        · exact (hp.exclusive hop (Or.inl rfl) x hx).1 hcon
      · rw [hdev]
        exact unlinked_exec heff (unlinked_of_before hp hmem rfl) (by simp)
    · have hpast := hp.helped _ hmem j rfl
      have hun := hs.unlinked hp hpast (hs.committed _ hmem j rfl)
      exact ⟨(hpast.stepped h).1, hkeep hpast hun⟩
    · have hpast := past_of_leaving hp hmem (j := j) rfl
      exact ⟨(hpast.stepped h).1, hkeep hpast (hs.left _ hmem j rfl)⟩
  · intro x hx j hj
    rw [htodo, Multiset.mem_add] at hx
    rcases hx with hx | hx
    · rcases calls_leaving heff (Multiset.mem_coe.mp hx) hj with
        hl | ⟨ret, rfl, hlast⟩ | ⟨ret, rfl⟩ | ⟨rfl, hret⟩ | rfl | rfl
      · exact hkeep (past_of_leaving hp hmem hl) (hs.left op hmem j hl)
      · obtain ⟨hpast, hrun⟩ := hs.programmed j hlast
        exact hkeep hpast (hs.unlinked hp hpast hrun)
      · intro c hc
        simp only [leavesLists, decide_eq_true_eq] at hok
        rw [hdev, todoList_eq heff] at hc
        simp only [todoListAfter] at hc
        split_ifs at hc with hlt
        · exact ((hp.nodup c).mem_erase_iff.mp hc).1 rfl
        · exact hok c (hp.held c j (Or.inl hc)).2.1 (Nat.le_of_not_lt hlt) hc
      · obtain ⟨hpast, hun⟩ := hs.failed j hret
        exact hkeep hpast hun
      · have hpast := hp.past_of_after hmem (j := j) rfl
        apply hkeep hpast
        simp only [leavesLists, decide_eq_true_eq] at hok
        rcases hok with hpc | hret | hrun
        · exact hs.waited j hmem hpc
        · exact (hs.failed j hret).2
        · exact hs.unlinked hp hpast hrun
      · rw [hdev]
        exact unlinked_exec heff (unlinked_of_before hp hmem rfl) (by simp)
    · exact hkeep (past_of_leaving hp (hothers x hx) hj) (hs.left x (hothers x hx) j hj)
  · intro j hj hpc
    rw [htodo, Multiset.mem_add] at hj
    rw [hdev, flags_eq heff] at hpc
    rcases hj with hj | hj
    · rcases calls_blockRet heff (Multiset.mem_coe.mp hj) with ⟨ret, rfl⟩ | hno
      · exact hkeep (past_of_leaving hp hmem (j := j) rfl) (hs.left _ hmem j rfl)
      · exact (hpc hno).elim
    · exact hkeep (hp.past_of_after (hothers _ hj) (j := j) rfl) (hs.waited j (hothers _ hj) hpc)

theorem Linkage.spawn (hs : Linkage cfg s) {n : Multiset JobOp} (htodo : t.todo = n + s.todo)
    (hn : ∀ op ∈ n, before op = none ∧ after op = none ∧ committing op = none ∧
      ∀ j, op ≠ .decRunCount j)
    (hjobs : t.dev.jobs = s.dev.jobs) (hnum : t.dev.numJobs = s.dev.numJobs)
    (hcores : t.dev.subcoreDatas = s.dev.subcoreDatas) : Linkage cfg t := by
  have hpast : ∀ {j}, Past t j ↔ Past s j := by
    intro j
    unfold Past
    rw [hnum, htodo]
    refine and_congr_right fun _ => ⟨fun h x hx => h x (Multiset.mem_add.mpr (Or.inr hx)), ?_⟩
    intro h x hx
    rcases Multiset.mem_add.mp hx with hx | hx
    · simp [(hn x hx).1]
    · exact h x hx
  have hun : ∀ j, Unlinked t.dev j ↔ Unlinked s.dev j := by
    intro j
    unfold Unlinked
    rw [hcores]
  have hlinked : ∀ j, linked cfg t.dev j = linked cfg s.dev j := by
    intro j
    unfold linked
    rw [hcores]
  refine ⟨fun x hx j hj => ?_, fun j hj => ?_, fun x hx j hj => ?_, fun j hj => ?_,
    fun j hj => ?_, fun x hx j hj => ?_, fun j hj hpc => ?_⟩
  · rw [hjobs]
    rw [htodo, Multiset.mem_add] at hx
    rcases hx with hx | hx
    · simp [(hn x hx).1] at hj
    · exact hs.prepared x hx j hj
  · have hzero : n.count (.decRunCount j) = 0 :=
      Multiset.count_eq_zero.mpr fun hmem => (hn _ hmem).2.2.2 j rfl
    rw [hjobs, hlinked, htodo, Multiset.count_add, hzero, Nat.zero_add]
    exact hs.waiting j (hpast.mp hj)
  · rw [hjobs]
    rw [htodo, Multiset.mem_add] at hx
    rcases hx with hx | hx
    · simp [(hn x hx).2.2.1] at hj
    · exact hs.committed x hx j hj
  · rw [hjobs] at hj ⊢
    rw [hpast]
    exact hs.programmed j hj
  · rw [hjobs] at hj
    rw [hpast, hun]
    exact hs.failed j hj
  · have hafter := after_of_leaving hj
    rw [hun]
    rw [htodo, Multiset.mem_add] at hx
    rcases hx with hx | hx
    · simp [(hn x hx).2.1] at hafter
    · exact hs.left x hx j hj
  · rw [hun]
    rw [hjobs] at hpc
    rw [htodo, Multiset.mem_add] at hj
    rcases hj with hj | hj
    · cases (hn _ hj).2.1
    · exact hs.waited j hj hpc

theorem Linkage.submit (hs : Linkage cfg s) (hp : Placed cfg s) (h : Stepped cfg s t a)
    {args : Submit} {useDrmGem : Bool}
    (hdev : t.dev = s.dev.addJob (rknpuJobAlloc s.dev args useDrmGem))
    (htodo : t.todo = .fenceIn s.dev.numJobs ::ₘ s.todo) : Linkage cfg t := by
  have hjobs : ∀ {j}, j ≠ s.dev.numJobs → t.dev.jobs j = s.dev.jobs j := by
    intro j hj
    rw [hdev, Dev.addJob_jobs, if_neg hj]
  have hnew : t.dev.jobs s.dev.numJobs = rknpuJobAlloc s.dev args useDrmGem := by
    rw [hdev, Dev.addJob_jobs, if_pos rfl]
  have hcores : t.dev.subcoreDatas = s.dev.subcoreDatas := by
    rw [hdev]
    rfl
  have hne : ∀ {j}, Past s j → j ≠ s.dev.numJobs := fun hj => Nat.ne_of_lt hj.1
  have hold : ∀ {j}, j ≠ s.dev.numJobs → Past t j → Past s j := by
    intro j hj hpast
    have hlt := hpast.1
    rw [hdev, Dev.addJob_numJobs] at hlt
    exact ⟨by omega, fun x hx => hpast.2 x (by simp [htodo, hx])⟩
  have hnone : ∀ {x}, x ∈ t.todo → before x = none → x ∈ s.todo := by
    intro x hx hb
    rw [htodo, Multiset.mem_cons] at hx
    rcases hx with rfl | hx
    · cases hb
    · exact hx
  refine ⟨fun x hx j hj => ?_, fun j hj => ?_, fun x hx j hj => ?_, fun j hj => ?_,
    fun j hj => ?_, fun x hx j hj => ?_, fun j hj hpc => ?_⟩
  · by_cases hjn : j = s.dev.numJobs
    · subst hjn
      rw [hnew]
      exact Int.ofNat_le.mpr (coresOf_length_le cfg args.coreMask)
    · rw [hjobs hjn]
      rw [htodo, Multiset.mem_cons] at hx
      rcases hx with rfl | hx
      · exact (hjn (Option.some.inj hj).symm).elim
      · exact hs.prepared x hx j hj
  · have hjn : j ≠ s.dev.numJobs := by
      rintro rfl
      exact hj.2 (.fenceIn s.dev.numJobs) (by simp [htodo]) rfl
    have hlinked : linked cfg t.dev j = linked cfg s.dev j := by
      unfold linked
      rw [hcores]
    rw [hjobs hjn, hlinked, htodo, Multiset.count_cons_of_ne (by simp)]
    exact hs.waiting j (hold hjn hj)
  · have hx' := hnone hx (by cases x <;> cases hj <;> rfl)
    rw [hjobs (hne (past_of_committing hp hx' hj))]
    exact hs.committed x hx' j hj
  · by_cases hjn : j = s.dev.numJobs
    · subst hjn
      rw [hnew] at hj
      exact (hj rfl).elim
    · rw [hjobs hjn] at hj ⊢
      obtain ⟨hpast, hrun⟩ := hs.programmed j hj
      exact ⟨(hpast.stepped h).1, hrun⟩
  · unfold Unlinked
    rw [hcores]
    by_cases hjn : j = s.dev.numJobs
    · subst hjn
      rw [hnew] at hj
      exact (hj rfl).elim
    · rw [hjobs hjn] at hj
      obtain ⟨hpast, hun⟩ := hs.failed j hj
      exact ⟨(hpast.stepped h).1, hun⟩
  · unfold Unlinked
    rw [hcores]
    exact hs.left x (hnone hx (by cases x <;> cases hj <;> rfl)) j hj
  · unfold Unlinked
    have hj' := hnone hj rfl
    rw [hcores]
    rw [hjobs (hne (hp.past_of_after hj' rfl))] at hpc
    exact hs.waited j hj' hpc

theorem Linkage.step (hs : Linkage cfg s) (hp : Placed cfg s) (h : Stepped cfg s t a)
    (hok : onBlock (leavesLists cfg) s a = true) : Linkage cfg t := by
  have hq := hp.step h
  cases h with
  | refused ht =>
    rw [ht]
    exact hs
  | submit hmask hdev htodo hhist =>
    exact hs.submit hp (.submit hmask hdev htodo hhist) hdev htodo
  | exec hnext heff hop hdev htodo hhist =>
    rw [onBlock_exec hnext] at hok
    exact hs.exec hp hq heff hop hdev htodo (.exec hnext heff hop hdev htodo hhist) hok
  | irq hc hrunning hdev htodo hhist =>
    have hsame : t.dev.jobs = s.dev.jobs ∧ t.dev.numJobs = s.dev.numJobs ∧
        t.dev.subcoreDatas = s.dev.subcoreDatas := by
      rw [hdev]
      split_ifs <;> exact ⟨rfl, rfl, rfl⟩
    refine hs.spawn (htodo.trans (Multiset.singleton_add _ _).symm) ?_ hsame.1 hsame.2.1
      hsame.2.2
    intro op hop
    rw [Multiset.mem_singleton.mp hop]
    simp [before, after, committing]
  | tick hdev htodo hhist =>
    exact hs.spawn (htodo.trans (zero_add _).symm) (by simp) (by rw [hdev]) (by rw [hdev])
      (by rw [hdev])
  | _ =>
    rename_i hdev htodo hhist
    refine hs.spawn (htodo.trans (Multiset.singleton_add _ _).symm) ?_ (by rw [hdev])
      (by rw [hdev]) (by rw [hdev])
    intro op hop
    rw [Multiset.mem_singleton.mp hop]
    simp [before, after, committing]

theorem linkage_init {now : ℕ} : Linkage cfg ⟨.probed now, [], []⟩ := by
  refine ⟨fun op hop => ?_, fun j hj => ?_, fun op hop => ?_, fun j hj => ?_, fun j hj => ?_,
    fun op hop => ?_, fun j hj => ?_⟩
  · exact (Multiset.notMem_zero op hop).elim
  · exact (Nat.not_lt_zero j hj.1).elim
  · exact (Multiset.notMem_zero op hop).elim
  · exact (hj rfl).elim
  · exact (hj rfl).elim
  · exact (Multiset.notMem_zero op hop).elim
  · exact (Multiset.notMem_zero _ hj).elim

/-- The runs whose steps all avoid the three branches. -/
def leavingSystem (cfg : Config) : System JobState JobLabel :=
  (jobSystem cfg).guarded fun s a => onBlock (leavesLists cfg) s a = true

theorem linkage (hs : (leavingSystem cfg).Reachable s) : Placed cfg s ∧ Linkage cfg s := by
  refine hs.invariant (fun s => Placed cfg s ∧ Linkage cfg s) ?_ ?_
  · rintro s ⟨now, rfl⟩
    exact ⟨placed_init, linkage_init⟩
  · intro s a t hs h
    obtain ⟨hok, h⟩ := System.guarded_step.mp h
    exact ⟨hs.1.step (stepped h), hs.2.step hs.1 (stepped h) hok⟩

/-- **A freed job is on no list**: in runs that avoid the three branches, when `rknpu_submit`
is about to free its job, the job is on no core's `todo_list`. -/
theorem freed_unlinked (hs : (leavingSystem cfg).Reachable s) {j : ℕ} (hj : .free j ∈ s.todo)
    (c : ℕ) : j ∉ (s.dev.subcoreDatas c).todoList :=
  (linkage hs).2.left _ hj j rfl c

end

/-- A hung job, and a second one behind it whose wait runs out: both are on one core. -/
def timedOutWaiter (coreMask : UInt32) (hung waiter : ℕ) : List JobLabel :=
  .submit (oneTask rknpuJobPc coreMask) false true :: List.replicate hung (.exec 0 calm) ++
    .submit (oneTask rknpuJobPc coreMask) false true :: List.replicate waiter (.exec 1 expired)

/-- The second job is removed from the list of core `0` and freed. -/
theorem freed_unlinked_timed_out : ∃ s, (leavingSystem rk3588RknpuConfig).Reachable s ∧
    .free 1 ∈ s.todo ∧ 1 ∉ (s.dev.subcoreDatas 0).todoList := by
  obtain ⟨s, hs, hfree⟩ := System.Reachable.of_run_any
    (S := leavingSystem rk3588RknpuConfig) (p := fun s => decide (.free 1 ∈ s.todo))
    (l := timedOutWaiter rknpuCore0Mask 15 24) ⟨1, rfl⟩ (by decide +kernel)
  have hfree := of_decide_eq_true hfree
  exact ⟨s, hs, hfree, freed_unlinked hs hfree 0⟩

/-- On core `1` the removal loop ends before the list that the job is on. -/
theorem freed_linked_timed_out : ∃ s, (jobSystem rk3588RknpuConfig).Reachable s ∧
    .free 1 ∈ s.todo ∧ 1 ∈ (s.dev.subcoreDatas 1).todoList := by
  obtain ⟨s, hs, h⟩ := System.Reachable.of_run_any (S := jobSystem rk3588RknpuConfig)
    (p := fun s => decide (.free 1 ∈ s.todo ∧ 1 ∈ (s.dev.subcoreDatas 1).todoList))
    (l := timedOutWaiter rknpuCore1Mask 15 24) ⟨1, rfl⟩ (by decide +kernel)
  exact ⟨s, hs, of_decide_eq_true h⟩

end RknpuDriver.Job
