import RknpuDriver.Job.Frames
import Mathlib.Algebra.Order.BigOperators.Group.List
import Mathlib.Algebra.Order.BigOperators.Group.Multiset
import Mathlib.Algebra.Order.Group.Nat

/-! # Where a job is

What holds in every state of every run, whatever goes wrong in it: a job has at most one
submitter, who is at one place in `rknpu_submit`; and a job that other threads work on, that is
queued or that is a core's current job has been queued, on the cores of its mask, and will not
be queued again.
-/

namespace RknpuDriver.Job
set_option autoImplicit false
open RknpuDriver.Lib

/-- The job was submitted, and nothing that comes before it is queued is left to do. -/
def Past (s : JobState) (j : ℕ) : Prop :=
  j < s.dev.numJobs ∧ ∀ op ∈ s.todo, before op ≠ some j

/-- The job is on the list of core `c` or its current job. -/
def Holds (dev : Dev) (c j : ℕ) : Prop :=
  j ∈ (dev.subcoreDatas c).todoList ∨ (dev.subcoreDatas c).job = some j

structure Placed (cfg : Config) (s : JobState) : Prop where
  once : ∀ j, (s.todo.map (submitter j)).sum ≤ 1
  submitted : ∀ op ∈ s.todo, ∀ j, before op = some j ∨ after op = some j → j < s.dev.numJobs
  helped : ∀ op ∈ s.todo, ∀ j, helper op = some j → Past s j
  worked : ∀ j ∈ s.dev.works, Past s j
  held : ∀ c j, Holds s.dev c j →
    Past s j ∧ c < cfg.numIrqs ∧ onCore (s.dev.jobs j).args.coreMask c = true
  nodup : ∀ c, (s.dev.subcoreDatas c).todoList.Nodup

section
variable {cfg : Config} {s t : JobState} {a : JobLabel}

theorem Placed.exclusive (hs : Placed cfg s) {op : JobOp} {others : Multiset JobOp}
    (h : s.todo = op ::ₘ others) {j : ℕ} (hop : before op = some j ∨ after op = some j) :
    ∀ x ∈ others, before x ≠ some j ∧ after x ≠ some j := by
  intro x hx
  have honce := hs.once j
  rw [h, Multiset.map_cons, Multiset.sum_cons] at honce
  have hpos : submitter j op = 1 := if_pos hop
  have hle : submitter j x ≤ (others.map (submitter j)).sum :=
    Multiset.single_le_sum (fun _ _ => Nat.zero_le _) _ (Multiset.mem_map_of_mem _ hx)
  have hzero : submitter j x = 0 := by omega
  unfold submitter at hzero
  split_ifs at hzero with hcon
  exact not_or.mp hcon

theorem Placed.past_of_after (hs : Placed cfg s) {op : JobOp} (hop : op ∈ s.todo) {j : ℕ}
    (hj : after op = some j) : Past s j := by
  refine ⟨hs.submitted op hop j (Or.inr hj), fun x hx hbefore => ?_⟩
  obtain ⟨others, h⟩ := Multiset.exists_cons_of_mem hop
  rw [h, Multiset.mem_cons] at hx
  rcases hx with rfl | hx
  · cases x <;> cases hbefore <;> cases hj
  · exact (hs.exclusive h (Or.inr hj) x hx).1 hbefore

theorem Past.stepped {j : ℕ} (hj : Past s j) (h : Stepped cfg s t a) :
    Past t j ∧ (t.dev.jobs j).args.coreMask = (s.dev.jobs j).args.coreMask := by
  obtain ⟨hlt, hbefore⟩ := hj
  have hspawn : ∀ {op : JobOp}, before op = none → t.todo = op ::ₘ s.todo →
      ∀ x ∈ t.todo, before x ≠ some j := by
    intro op hop htodo x hx
    rw [htodo, Multiset.mem_cons] at hx
    rcases hx with rfl | hx
    · simp [hop]
    · exact hbefore x hx
  cases h with
  | refused ht =>
    rw [ht]
    exact ⟨⟨hlt, hbefore⟩, rfl⟩
  | submit hmask hdev htodo hhist =>
    have hne : j ≠ s.dev.numJobs := Nat.ne_of_lt hlt
    refine ⟨⟨?_, fun x hx => ?_⟩, ?_⟩
    · rw [hdev, Dev.addJob_numJobs]
      omega
    · rw [htodo, Multiset.mem_cons] at hx
      rcases hx with rfl | hx
      · simpa [before] using hne.symm
      · exact hbefore x hx
    · rw [hdev, Dev.addJob_jobs, if_neg hne]
  | exec hnext heff hop hdev htodo hhist =>
    have hne : ∀ x ∈ t.todo, before x ≠ some j := by
      intro x hx hcon
      rw [htodo, Multiset.mem_add] at hx
      rcases hx with hx | hx
      · exact hbefore _ (by simp [hop]) (calls_before heff (Multiset.mem_coe.mp hx) hcon)
      · exact hbefore x (by simp [hop, hx]) hcon
    rw [hdev]
    refine ⟨⟨?_, hne⟩, coreMask_eq heff (hbefore _ (by simp [hop]))⟩
    rw [hdev, numJobs_eq heff]
    exact hlt
  | irq hc hrunning hdev htodo hhist =>
    have hjobs : t.dev.jobs = s.dev.jobs ∧ t.dev.numJobs = s.dev.numJobs := by
      rw [hdev]
      split_ifs <;> exact ⟨rfl, rfl⟩
    rw [hjobs.1]
    exact ⟨⟨by rw [hjobs.2]; exact hlt, hspawn rfl htodo⟩, rfl⟩
  | runWork hj hdev htodo hhist =>
    rw [hdev]
    exact ⟨⟨by rw [hdev]; exact hlt, hspawn rfl htodo⟩, rfl⟩
  | actReset hdev htodo hhist =>
    rw [hdev]
    exact ⟨⟨by rw [hdev]; exact hlt, hspawn rfl htodo⟩, rfl⟩
  | timer hdev htodo hhist =>
    rw [hdev]
    exact ⟨⟨by rw [hdev]; exact hlt, hspawn rfl htodo⟩, rfl⟩
  | tick hdev htodo hhist =>
    rw [hdev]
    exact ⟨⟨by rw [hdev]; exact hlt, by rw [htodo]; exact hbefore⟩, rfl⟩

theorem mem_todoListAfter {dev : Dev} {op : JobOp} {c j : ℕ}
    (h : j ∈ todoListAfter cfg dev op c) : j ∈ (dev.subcoreDatas c).todoList ∨
      op = .enqueue j ∧ c < cfg.numIrqs ∧ onCore (dev.jobs j).args.coreMask c = true := by
  unfold todoListAfter at h
  split at h
  · split_ifs at h with hc
    · rcases List.mem_append.mp h with h | h
      · exact Or.inl h
      · rw [List.mem_singleton] at h
        subst h
        exact Or.inr ⟨rfl, hc⟩
    · exact Or.inl h
  · split_ifs at h
    · exact Or.inl (List.mem_of_mem_tail h)
    · exact Or.inl h
  · split_ifs at h
    · exact Or.inl (List.mem_of_mem_tail h)
    · exact Or.inl h
  · split_ifs at h
    · exact Or.inl (List.mem_of_mem_erase h)
    · exact Or.inl h
  · exact Or.inl h

theorem currentAfter_some {dev : Dev} {op : JobOp} {c j : ℕ}
    (h : currentAfter cfg dev op c = some j) : (dev.subcoreDatas c).job = some j ∨
      op = .pop c ∧ (dev.subcoreDatas c).todoList.head? = some j := by
  unfold currentAfter at h
  split at h <;> grind -ring -linarith -order

/-- A job that a block makes queued or current was being queued, or was queued. -/
theorem holds_exec {dev : Dev} {o : Outcome} {op : JobOp} {eff : Effect}
    (h : jobExec cfg dev o op = some eff) {c j : ℕ} (hj : Holds eff.dev c j) :
    Holds dev c j ∨
      op = .enqueue j ∧ c < cfg.numIrqs ∧ onCore (dev.jobs j).args.coreMask c = true := by
  rcases hj with hj | hj
  · rw [todoList_eq h] at hj
    rcases mem_todoListAfter hj with hj | hj
    · exact Or.inl (Or.inl hj)
    · exact Or.inr hj
  · rw [current_eq h] at hj
    rcases currentAfter_some hj with hj | ⟨-, hj⟩
    · exact Or.inl (Or.inr hj)
    · exact Or.inl (Or.inl (List.mem_of_head? hj))

/-- Steps other than running a block leave lists and current jobs alone. -/
theorem subcoreDatas_of_not_exec (h : Stepped cfg s t a) (ha : ∀ tid o, a ≠ .exec tid o) :
    t.dev.subcoreDatas = s.dev.subcoreDatas := by
  cases h with
  | exec => exact (ha _ _ rfl).elim
  | refused ht => rw [ht]
  | irq hc hrunning hdev htodo hhist =>
    rw [hdev]
    split_ifs <;> rfl
  | submit hmask hdev htodo hhist =>
    rw [hdev]
    rfl
  | _ =>
    rename_i hdev htodo hhist
    rw [hdev]

theorem Placed.nodup_exec {dev : Dev} {o : Outcome} {op : JobOp} {eff : Effect}
    (h : jobExec cfg dev o op = some eff) {c : ℕ} (hs : (dev.subcoreDatas c).todoList.Nodup)
    (hop : ∀ j, op = .enqueue j → j ∉ (dev.subcoreDatas c).todoList) :
    (eff.dev.subcoreDatas c).todoList.Nodup := by
  rw [todoList_eq h]
  unfold todoListAfter
  split
  · rename_i j
    split_ifs
    · exact List.nodup_append.mpr ⟨hs, List.nodup_singleton j, by
        intro x hx y hy
        rw [List.mem_singleton.mp hy]
        exact fun hxj => hop j rfl (hxj ▸ hx)⟩
    · exact hs
  · split_ifs
    · exact hs.tail
    · exact hs
  · split_ifs
    · exact hs.tail
    · exact hs
  · split_ifs
    · exact hs.erase _
    · exact hs
  · exact hs

/-- Steps that start at most a thread which belongs to no submitter. -/
theorem Placed.spawn (hs : Placed cfg s) (h : Stepped cfg s t a) {n : Multiset JobOp}
    (htodo : t.todo = n + s.todo) (hbefore : ∀ op ∈ n, before op = none)
    (hafter : ∀ op ∈ n, after op = none)
    (hhelper : ∀ op ∈ n, ∀ j, helper op = some j → Past s j)
    (hcores : t.dev.subcoreDatas = s.dev.subcoreDatas) (hnum : t.dev.numJobs = s.dev.numJobs)
    (hworks : ∀ j ∈ t.dev.works, j ∈ s.dev.works) : Placed cfg t where
  once j := by
    have hzero : (n.map (submitter j)).sum = 0 := by
      refine Multiset.sum_eq_zero fun w hw => ?_
      obtain ⟨op, hop, rfl⟩ := Multiset.mem_map.mp hw
      exact if_neg (by simp [hbefore op hop, hafter op hop])
    rw [htodo, Multiset.map_add, Multiset.sum_add, hzero, Nat.zero_add]
    exact hs.once j
  submitted x hx j hj := by
    rw [hnum]
    rw [htodo, Multiset.mem_add] at hx
    rcases hx with hx | hx
    · simp [hbefore x hx, hafter x hx] at hj
    · exact hs.submitted x hx j hj
  helped x hx j hj := by
    rw [htodo, Multiset.mem_add] at hx
    rcases hx with hx | hx
    · exact ((hhelper x hx j hj).stepped h).1
    · exact ((hs.helped x hx j hj).stepped h).1
  worked j hj := ((hs.worked j (hworks j hj)).stepped h).1
  held c j hj := by
    unfold Holds at hj
    rw [hcores] at hj
    obtain ⟨hpast, hc, hon⟩ := hs.held c j hj
    obtain ⟨hpast', hmask⟩ := hpast.stepped h
    exact ⟨hpast', hc, hmask ▸ hon⟩
  nodup := by
    rw [hcores]
    exact hs.nodup

theorem Placed.submit (hs : Placed cfg s) (h : Stepped cfg s t a) {job : RknpuJob}
    (hdev : t.dev = s.dev.addJob job) (htodo : t.todo = .fenceIn s.dev.numJobs ::ₘ s.todo) :
    Placed cfg t := by
  have hnum : t.dev.numJobs = s.dev.numJobs + 1 := by rw [hdev, Dev.addJob_numJobs]
  have hcores : t.dev.subcoreDatas = s.dev.subcoreDatas := by
    rw [hdev]
    rfl
  refine ⟨fun j => ?_, ?_, ?_, ?_, ?_, ?_⟩
  · rw [htodo, Multiset.map_cons, Multiset.sum_cons]
    by_cases hj : j = s.dev.numJobs
    · subst hj
      have hzero : (s.todo.map (submitter s.dev.numJobs)).sum = 0 := by
        refine Multiset.sum_eq_zero fun w hw => ?_
        obtain ⟨op, hop, rfl⟩ := Multiset.mem_map.mp hw
        exact if_neg fun hcon => Nat.lt_irrefl _ (hs.submitted op hop _ hcon)
      rw [hzero]
      unfold submitter
      split_ifs <;> simp
    · have hzero : submitter j (.fenceIn s.dev.numJobs) = 0 := by
        refine if_neg ?_
        rintro (h | h)
        · exact hj (Option.some.inj h).symm
        · cases h
      rw [hzero, Nat.zero_add]
      exact hs.once j
  · intro x hx j hj
    rw [hnum]
    rw [htodo, Multiset.mem_cons] at hx
    rcases hx with rfl | hx
    · rcases hj with hj | hj
      · rw [← Option.some.inj hj]
        exact Nat.lt_succ_self _
      · cases hj
    · exact Nat.lt_succ_of_lt (hs.submitted x hx j hj)
  · intro x hx j hj
    rw [htodo, Multiset.mem_cons] at hx
    rcases hx with rfl | hx
    · cases hj
    · exact ((hs.helped x hx j hj).stepped h).1
  · intro j hj
    rw [hdev, Dev.addJob_works] at hj
    exact ((hs.worked j hj).stepped h).1
  · intro c j hj
    unfold Holds at hj
    rw [hcores] at hj
    obtain ⟨hpast, hc, hon⟩ := hs.held c j hj
    obtain ⟨hpast', hmask⟩ := hpast.stepped h
    exact ⟨hpast', hc, hmask ▸ hon⟩
  · rw [hcores]
    exact hs.nodup

theorem Placed.exec (hs : Placed cfg s) (h : Stepped cfg s t a) {o : Outcome} {op : JobOp}
    {eff : Effect} {others : Multiset JobOp} (heff : jobExec cfg s.dev o op = some eff)
    (hop : s.todo = op ::ₘ others) (hdev : t.dev = eff.dev)
    (htodo : t.todo = (eff.calls : Multiset JobOp) + others) : Placed cfg t := by
  have hnum : t.dev.numJobs = s.dev.numJobs := by rw [hdev, numJobs_eq heff]
  have hmem : op ∈ s.todo := by simp [hop]
  have hothers : ∀ x ∈ others, x ∈ s.todo := fun x hx => by simp [hop, hx]
  refine ⟨fun j => ?_, ?_, ?_, ?_, ?_, ?_⟩
  · have honce := hs.once j
    have hcalls := calls_submitter heff j
    rw [hop, Multiset.map_cons, Multiset.sum_cons] at honce
    rw [htodo, Multiset.map_add, Multiset.sum_add, Multiset.map_coe, Multiset.sum_coe]
    omega
  · intro x hx j hj
    rw [hnum]
    rw [htodo, Multiset.mem_add] at hx
    rcases hx with hx | hx
    · refine hs.submitted op hmem j ?_
      have hle := calls_submitter heff j
      have hx1 : submitter j x = 1 := if_pos hj
      have : submitter j x ≤ (eff.calls.map (submitter j)).sum :=
        List.le_sum_of_mem (List.mem_map.mpr ⟨x, Multiset.mem_coe.mp hx, rfl⟩)
      by_contra hcon
      have hzero : submitter j op = 0 := if_neg hcon
      omega
    · exact hs.submitted x (hothers x hx) j hj
  · intro x hx j hj
    rw [htodo, Multiset.mem_add] at hx
    rcases hx with hx | hx
    · rcases calls_helper heff (Multiset.mem_coe.mp hx) hj with hj | ⟨c, hj⟩
      · exact ((hs.helped op hmem j hj).stepped h).1
      · exact ((hs.held c j hj.symm).1.stepped h).1
    · exact ((hs.helped x (hothers x hx) j hj).stepped h).1
  · intro j hj
    rw [hdev] at hj
    rcases mem_works heff hj with hj | ⟨c, rfl⟩ | rfl
    · exact ((hs.worked j hj).stepped h).1
    · exact ((hs.helped _ hmem j rfl).stepped h).1
    · exact ((hs.helped _ hmem j rfl).stepped h).1
  · intro c j hj
    rw [hdev] at hj
    rcases holds_exec heff hj with hj | ⟨rfl, hc, hon⟩
    · obtain ⟨hpast, hc, hon⟩ := hs.held c j hj
      obtain ⟨hpast', hmask⟩ := hpast.stepped h
      exact ⟨hpast', hc, hmask ▸ hon⟩
    · cases heff
      refine ⟨⟨hnum ▸ hs.submitted _ hmem j (Or.inl rfl), fun x hx => ?_⟩, hc, ?_⟩
      · rw [htodo, Multiset.mem_add] at hx
        rcases hx with hx | hx
        · rw [List.mem_singleton.mp (Multiset.mem_coe.mp hx)]
          simp [before]
        · exact (hs.exclusive hop (Or.inl rfl) x hx).1
      · rw [hdev]
        exact hon
  · intro c
    rw [hdev]
    refine nodup_exec heff (hs.nodup c) fun j hj hmem' => ?_
    subst hj
    exact (hs.held c j (Or.inl hmem')).1.2 _ hmem rfl

theorem Placed.step (hs : Placed cfg s) (h : Stepped cfg s t a) : Placed cfg t := by
  have hspawn : ∀ {op : JobOp}, t.todo = op ::ₘ s.todo → before op = none → after op = none →
      (∀ j, helper op = some j → Past s j) → t.dev.subcoreDatas = s.dev.subcoreDatas →
      t.dev.numJobs = s.dev.numJobs → (∀ j ∈ t.dev.works, j ∈ s.dev.works) → Placed cfg t := by
    intro op htodo hbefore hafter hhelper hcores hnum hworks
    refine hs.spawn h (htodo.trans (Multiset.singleton_add op _).symm) ?_ ?_ ?_ hcores hnum hworks
    all_goals
      intro x hx
      rw [Multiset.mem_singleton.mp hx]
      assumption
  cases h with
  | refused ht =>
    rw [ht]
    exact hs
  | submit hmask hdev htodo hhist =>
    exact hs.submit (.submit hmask hdev htodo hhist) hdev htodo
  | exec hnext heff hop hdev htodo hhist =>
    exact hs.exec (.exec hnext heff hop hdev htodo hhist) heff hop hdev htodo
  | irq hc hrunning hdev htodo hhist =>
    have hsame : t.dev.subcoreDatas = s.dev.subcoreDatas ∧ t.dev.numJobs = s.dev.numJobs ∧
        t.dev.works = s.dev.works := by
      rw [hdev]
      split_ifs <;> exact ⟨rfl, rfl, rfl⟩
    exact hspawn htodo rfl rfl (by simp [helper]) hsame.1 hsame.2.1 (by simp [hsame.2.2])
  | runWork hj hdev htodo hhist =>
    refine hspawn htodo rfl rfl ?_ (by rw [hdev]) (by rw [hdev]) ?_
    · rintro i hi
      rw [← Option.some.inj hi]
      exact hs.worked _ hj
    · intro i hi
      rw [hdev] at hi
      exact List.mem_of_mem_erase hi
  | actReset hdev htodo hhist =>
    exact hspawn htodo rfl rfl (by simp [helper]) (by rw [hdev]) (by rw [hdev]) (by simp [hdev])
  | timer hdev htodo hhist =>
    exact hspawn htodo rfl rfl (by simp [helper]) (by rw [hdev]) (by rw [hdev]) (by simp [hdev])
  | tick hdev htodo hhist =>
    refine hs.spawn (.tick hdev htodo hhist) (htodo.trans (zero_add _).symm) ?_ ?_ ?_
      (by rw [hdev]) (by rw [hdev]) (by simp [hdev])
    all_goals simp

theorem placed_init {now : ℕ} : Placed cfg ⟨.probed now, [], []⟩ where
  once j := Nat.zero_le _
  submitted op hop := (Multiset.notMem_zero op hop).elim
  helped op hop := (Multiset.notMem_zero op hop).elim
  worked j hj := (List.not_mem_nil hj).elim
  held c j hj := by
    rcases hj with hj | hj
    · exact (List.not_mem_nil hj).elim
    · cases hj
  nodup c := List.nodup_nil

theorem placed (hs : (jobSystem cfg).Reachable s) : Placed cfg s := by
  refine hs.invariant (Placed cfg) ?_ fun s a t hs h => hs.step (stepped h)
  rintro s ⟨now, rfl⟩
  exact placed_init

end
end RknpuDriver.Job
