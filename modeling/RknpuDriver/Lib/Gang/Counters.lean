import RknpuDriver.Lib.Gang.Gathering

/-! # The counters of a job -/

namespace RknpuDriver.Lib
set_option autoImplicit false

namespace Gang
variable {J C : Type} [DecidableEq C] [DecidableEq J]

/-! ## The counters of a job -/

/-- The number of cores that have not given a job up. -/
def held (s : Gang J C) (j : J) : ℕ :=
  ((s.data j).cores.map fun c => if j ∈ s.queue c ∨ s.current c = some j then 1 else 0).sum

structure Counted (s : Gang J C) : Prop where
  interruptCount : ∀ j ∈ s.order,
    (s.data j).interruptCount = s.held j + s.tasks.count (.finish j)
  commits : ∀ j ∈ s.order,
    s.commits j + s.tasks.count (.commit j) = if (s.data j).runCount = 0 then 1 else 0
  dones : ∀ j ∈ s.order,
    s.dones j + s.tasks.count (.setDone j) = if (s.data j).interruptCount = 0 then 1 else 0
  zero : ∀ j, j ∉ s.order → s.commits j = 0 ∧ s.dones j = 0

theorem Counted.frame {s t : Gang J C} (hs : s.Counted) (horder : t.order = s.order)
    (hrun : ∀ j ∈ s.order, (t.data j).runCount = (s.data j).runCount)
    (hint : ∀ j ∈ s.order, (t.data j).interruptCount = (s.data j).interruptCount)
    (hheld : ∀ j ∈ s.order, t.held j = s.held j) (hcommits : t.commits = s.commits)
    (hdones : t.dones = s.dones)
    (hfinish : ∀ j, t.tasks.count (.finish j) = s.tasks.count (.finish j))
    (hcommit : ∀ j, t.tasks.count (.commit j) = s.tasks.count (.commit j))
    (hsetDone : ∀ j, t.tasks.count (.setDone j) = s.tasks.count (.setDone j)) : t.Counted where
  interruptCount j hj := by
    rw [horder] at hj
    rw [hint j hj, hheld j hj, hfinish, hs.interruptCount j hj]
  commits j hj := by
    rw [horder] at hj
    rw [hcommits, hcommit, hrun j hj, hs.commits j hj]
  dones j hj := by
    rw [horder] at hj
    rw [hdones, hsetDone, hint j hj, hs.dones j hj]
  zero j hj := by
    rw [hcommits, hdones]
    exact hs.zero j (horder ▸ hj)

omit [DecidableEq C] in
theorem held_congr {s t : Gang J C} {j : J} (hcores : (t.data j).cores = (s.data j).cores)
    (h : ∀ c, (j ∈ t.queue c ∨ t.current c = some j) ↔ (j ∈ s.queue c ∨ s.current c = some j)) :
    t.held j = s.held j := by
  unfold held
  rw [hcores]
  simp only [h]

omit [DecidableEq C] in
theorem one_le_held {s : Gang J C} {j : J} {c : C} (hc : c ∈ (s.data j).cores)
    (h : j ∈ s.queue c ∨ s.current c = some j) : 1 ≤ s.held j := by
  have hmem : 1 ∈ (s.data j).cores.map
      fun c => if j ∈ s.queue c ∨ s.current c = some j then 1 else 0 :=
    List.mem_map.mpr ⟨c, hc, if_pos h⟩
  exact List.le_sum_of_mem hmem

/-- A job whose interrupts are all counted has left all its cores. -/
theorem Counted.gone {s : Gang J C} (hs : s.Counted) {j : J} (hj : j ∈ s.order)
    (h : (s.data j).interruptCount = 0) {c : C} (hc : c ∈ (s.data j).cores) :
    j ∉ s.queue c ∧ s.current c ≠ some j := by
  have hcount := hs.interruptCount j hj
  constructor <;>
  · intro hcon
    have := one_le_held hc (by simp [hcon])
    omega

theorem Counted.enqueue {s t : Gang J C} (hl : s.Lined) (hs : s.Counted) {j : J}
    {all : List C} {r : Multiset (Task J C)} (h : s.tasks = .prepare j ::ₘ r)
    (hready : (s.data j).Ready) (hdata : t.data = s.data) (hcurrent : t.current = s.current)
    (hqueue : ∀ c, t.queue c = if c ∈ (s.data j).cores then s.queue c ++ [j] else s.queue c)
    (horder : t.order = s.order ++ [j]) (hcommits : t.commits = s.commits)
    (hdones : t.dones = s.dones)
    (htasks : t.tasks = (all.map (.scan j) : List (Task J C)) + r) : t.Counted := by
  have hj : j ∉ s.order := hl.fresh j (by simp [h])
  have hcount : ∀ x : Task J C, x ≠ .prepare j → (∀ c, x ≠ .scan j c) →
      t.tasks.count x = s.tasks.count x := by
    intro x hx hscan
    rw [htasks, Multiset.count_add, count_map_of_ne hscan, h, Multiset.count_cons_of_ne hx,
      zero_add]
  have hnone : ∀ x : Task J C, queuedJob x = some j → s.tasks.count x = 0 := fun x hx =>
    Multiset.count_eq_zero.mpr fun hmem => hj (hl.named x hmem j hx)
  have hlen : (s.data j).cores.length ≠ 0 := by
    rw [ne_eq, List.length_eq_zero_iff]
    exact hready.cores_ne
  refine ⟨?_, ?_, ?_, ?_⟩
  · intro i hi
    rw [hdata, hcount _ (by simp) (by simp)]
    by_cases hij : i = j
    · subst hij
      have hall : t.held i = (s.data i).cores.length := by
        unfold held
        rw [hdata, List.map_congr_left (g := fun _ => 1) fun c hc => by simp [hqueue, hc]]
        simp
      rw [hall, hnone _ rfl, hready.interruptCount]
      rfl
    · rw [held_congr (s := s) (by rw [hdata]) fun c => ?_]
      · exact hs.interruptCount i (by simpa [horder, hij] using hi)
      · rw [hqueue, hcurrent]
        split_ifs <;> simp [hij]
  · intro i hi
    rw [hdata, hcommits, hcount _ (by simp) (by simp)]
    by_cases hij : i = j
    · subst hij
      rw [hnone _ rfl, (hs.zero i hj).1, hready.runCount, if_neg (by omega)]
    · exact hs.commits i (by simpa [horder, hij] using hi)
  · intro i hi
    rw [hdata, hdones, hcount _ (by simp) (by simp)]
    by_cases hij : i = j
    · subst hij
      rw [hnone _ rfl, (hs.zero i hj).2, hready.interruptCount, if_neg (by omega)]
    · exact hs.dones i (by simpa [horder, hij] using hi)
  · intro i hi
    rw [hcommits, hdones]
    exact hs.zero i fun hmem => hi (by simp [horder, hmem])

/-- The weight of `x` among tasks of which all others are different. -/
theorem count_if {p : Prop} [Decidable p] {x y : Task J C} (h : x ≠ y) :
    (if p then {y} else 0 : Multiset (Task J C)).count x = 0 := by
  split_ifs <;> simp [h]

theorem Counted.dec {s t : Gang J C} (hl : s.Lined) (hg : s.Gathered) (hs : s.Counted) {j : J}
    {r : Multiset (Task J C)} (h : s.tasks = .dec j ::ₘ r)
    (hcores : ∀ i, (t.data i).cores = (s.data i).cores)
    (hrun : ∀ i, (t.data i).runCount =
      if i = j then (s.data i).runCount - 1 else (s.data i).runCount)
    (hint : ∀ i, (t.data i).interruptCount = (s.data i).interruptCount)
    (hqueue : t.queue = s.queue) (hcurrent : t.current = s.current) (horder : t.order = s.order)
    (hcommits : t.commits = s.commits) (hdones : t.dones = s.dones)
    (htasks : t.tasks = (if (s.data j).runCount - 1 = 0 then {.commit j} else 0) + r) :
    t.Counted := by
  have hrunj := hg.runCount j (hl.named_cons h rfl)
  rw [h, Multiset.count_cons_self] at hrunj
  have hheld : ∀ i, t.held i = s.held i := fun i =>
    held_congr (hcores i) fun c => by rw [hqueue, hcurrent]
  refine ⟨fun i hi => ?_, fun i hi => ?_, fun i hi => ?_, fun i hi => ?_⟩ <;> rw [horder] at hi
  · rw [hint, hheld, hs.interruptCount i hi, htasks, h, Multiset.count_add, count_if (by simp)]
    simp
  · have hold := hs.commits i hi
    rw [h, Multiset.count_cons_of_ne (by simp)] at hold
    rw [hcommits, hrun, htasks, Multiset.count_add]
    by_cases hij : i = j
    · subst hij
      rw [if_neg (by omega)] at hold
      rw [if_pos rfl]
      by_cases hz : (s.data i).runCount - 1 = 0
      · rw [if_pos hz, if_pos hz, Multiset.count_singleton_self]
        omega
      · rw [if_neg hz, if_neg hz, Multiset.count_zero]
        omega
    · rw [count_if (by simp [hij]), if_neg hij, zero_add]
      exact hold
  · have hold := hs.dones i hi
    rw [h, Multiset.count_cons_of_ne (by simp)] at hold
    rw [hdones, hint, htasks, Multiset.count_add, count_if (by simp), zero_add]
    exact hold
  · rw [hcommits, hdones]
    exact hs.zero i hi

theorem Counted.commit {s t : Gang J C} (hl : s.Lined) (hs : s.Counted) {j : J}
    {r : Multiset (Task J C)} (h : s.tasks = .commit j ::ₘ r) (hdata : t.data = s.data)
    (hqueue : t.queue = s.queue) (hcurrent : t.current = s.current) (horder : t.order = s.order)
    (hcommits : ∀ i, t.commits i = if i = j then s.commits i + 1 else s.commits i)
    (hdones : t.dones = s.dones)
    (htasks : t.tasks = ((s.data j).cores.map (.start j) : List (Task J C)) + r) :
    t.Counted := by
  have hj := hl.named_cons h rfl
  have hcount : ∀ x : Task J C, (∀ c, x ≠ .start j c) → t.tasks.count x = r.count x := by
    intro x hx
    rw [htasks, Multiset.count_add, count_map_of_ne hx, zero_add]
  have hheld : ∀ i, t.held i = s.held i := fun i =>
    held_congr (by rw [hdata]) fun c => by rw [hqueue, hcurrent]
  refine ⟨fun i hi => ?_, fun i hi => ?_, fun i hi => ?_, fun i hi => ?_⟩ <;> rw [horder] at hi
  · rw [hdata, hheld, hs.interruptCount i hi, hcount _ (by simp), h]
    simp
  · have hold := hs.commits i hi
    rw [h, Multiset.count_cons] at hold
    rw [hdata, hcommits, hcount _ (by simp)]
    by_cases hij : i = j
    · rw [if_pos hij]
      rw [if_pos (by rw [hij])] at hold
      omega
    · rw [if_neg hij]
      rwa [if_neg (by simp [hij])] at hold
  · have hold := hs.dones i hi
    rw [h, Multiset.count_cons_of_ne (by simp)] at hold
    rw [hdata, hdones, hcount _ (by simp)]
    exact hold
  · have hij : i ≠ j := fun hij => hi (hij ▸ hj)
    rw [hcommits, hdones, if_neg hij]
    exact hs.zero i hi

theorem Counted.clear {s t : Gang J C} (hl : s.Lined) (hg : s.Gathered) (hs : s.Counted) {j : J}
    {c : C} {r : Multiset (Task J C)} (h : s.tasks = .clear j c ::ₘ r) (hdata : t.data = s.data)
    (hqueue : t.queue = s.queue)
    (hcurrent : ∀ c', t.current c' = if c' = c then none else s.current c')
    (horder : t.order = s.order) (hcommits : t.commits = s.commits) (hdones : t.dones = s.dones)
    (htasks : t.tasks = .finish j ::ₘ .pop c ::ₘ r) : t.Counted := by
  obtain ⟨hcur, -, -, -, -⟩ := hg.sole h rfl
  obtain ⟨hj, hc, hq⟩ := hl.current hcur
  refine ⟨fun i hi => ?_, fun i hi => ?_, fun i hi => ?_, fun i hi => ?_⟩ <;> rw [horder] at hi
  · have hold := hs.interruptCount i hi
    rw [h, Multiset.count_cons_of_ne (by simp)] at hold
    rw [hdata, htasks, Multiset.count_cons, Multiset.count_cons_of_ne (by simp)]
    by_cases hij : i = j
    · subst hij
      have hheld : s.held i = t.held i + 1 := by
        unfold held
        rw [hdata]
        refine sum_map_eq_succ (hl.needs i hi).2.1 hc (fun x _ hx => ?_) ?_
        · rw [hqueue, hcurrent, if_neg hx]
        · simp [hqueue, hcurrent, hq, hcur]
      rw [if_pos rfl]
      omega
    · have hheld : t.held i = s.held i := by
        refine held_congr (by rw [hdata]) fun c' => ?_
        rw [hqueue, hcurrent]
        split_ifs with hc'
        · subst hc'
          simp [hcur, Ne.symm hij]
        · rfl
      rw [hheld, if_neg (by simp [hij])]
      exact hold
  · have hold := hs.commits i hi
    rw [hcommits, hdata, ← hold, htasks, h]
    simp
  · have hold := hs.dones i hi
    rw [hdones, hdata, ← hold, htasks, h]
    simp
  · rw [hcommits, hdones]
    exact hs.zero i hi

theorem Counted.finish {s t : Gang J C} (hl : s.Lined) (hs : s.Counted) {j : J}
    {r : Multiset (Task J C)} (h : s.tasks = .finish j ::ₘ r)
    (hcores : ∀ i, (t.data i).cores = (s.data i).cores)
    (hrun : ∀ i, (t.data i).runCount = (s.data i).runCount)
    (hint : ∀ i, (t.data i).interruptCount =
      if i = j then (s.data i).interruptCount - 1 else (s.data i).interruptCount)
    (hqueue : t.queue = s.queue) (hcurrent : t.current = s.current) (horder : t.order = s.order)
    (hcommits : t.commits = s.commits) (hdones : t.dones = s.dones)
    (htasks : t.tasks = (if (s.data j).interruptCount - 1 = 0 then {.setDone j} else 0) + r) :
    t.Counted := by
  have hintj := hs.interruptCount j (hl.named_cons h rfl)
  rw [h, Multiset.count_cons_self] at hintj
  have hheld : ∀ i, t.held i = s.held i := fun i =>
    held_congr (hcores i) fun c => by rw [hqueue, hcurrent]
  refine ⟨fun i hi => ?_, fun i hi => ?_, fun i hi => ?_, fun i hi => ?_⟩ <;> rw [horder] at hi
  · have hold := hs.interruptCount i hi
    rw [h, Multiset.count_cons] at hold
    rw [hint, hheld, htasks, Multiset.count_add, count_if (by simp), zero_add]
    by_cases hij : i = j
    · rw [if_pos hij]
      rw [if_pos (by rw [hij])] at hold
      omega
    · rw [if_neg hij]
      rwa [if_neg (by simp [hij])] at hold
  · have hold := hs.commits i hi
    rw [h, Multiset.count_cons_of_ne (by simp)] at hold
    rw [hcommits, hrun, htasks, Multiset.count_add, count_if (by simp), zero_add]
    exact hold
  · have hold := hs.dones i hi
    rw [h, Multiset.count_cons_of_ne (by simp)] at hold
    rw [hdones, hint, htasks, Multiset.count_add]
    by_cases hij : i = j
    · subst hij
      rw [if_neg (by omega)] at hold
      rw [if_pos rfl]
      by_cases hz : (s.data i).interruptCount - 1 = 0
      · rw [if_pos hz, if_pos hz, Multiset.count_singleton_self]
        omega
      · rw [if_neg hz, if_neg hz, Multiset.count_zero]
        omega
    · rw [count_if (by simp [hij]), if_neg hij, zero_add]
      exact hold
  · rw [hcommits, hdones]
    exact hs.zero i hi

theorem Counted.setDone {s t : Gang J C} (hl : s.Lined) (hs : s.Counted) {j : J}
    {r : Multiset (Task J C)} (h : s.tasks = .setDone j ::ₘ r) (hdata : t.data = s.data)
    (hqueue : t.queue = s.queue) (hcurrent : t.current = s.current) (horder : t.order = s.order)
    (hcommits : t.commits = s.commits)
    (hdones : ∀ i, t.dones i = if i = j then s.dones i + 1 else s.dones i)
    (htasks : t.tasks = r) : t.Counted := by
  have hj := hl.named_cons h rfl
  have hheld : ∀ i, t.held i = s.held i := fun i =>
    held_congr (by rw [hdata]) fun c => by rw [hqueue, hcurrent]
  refine ⟨fun i hi => ?_, fun i hi => ?_, fun i hi => ?_, fun i hi => ?_⟩ <;> rw [horder] at hi
  · rw [hdata, hheld, hs.interruptCount i hi, htasks, h]
    simp
  · have hold := hs.commits i hi
    rw [h, Multiset.count_cons_of_ne (by simp)] at hold
    rw [hdata, hcommits, htasks]
    exact hold
  · have hold := hs.dones i hi
    rw [h, Multiset.count_cons] at hold
    rw [hdata, hdones, htasks]
    by_cases hij : i = j
    · rw [if_pos hij]
      rw [if_pos (by rw [hij])] at hold
      omega
    · rw [if_neg hij]
      rwa [if_neg (by simp [hij])] at hold
  · have hij : i ≠ j := fun hij => hi (hij ▸ hj)
    rw [hcommits, hdones, if_neg hij]
    exact hs.zero i hi

theorem Counted.step {s t : Gang J C} (hl : s.Lined) (hg : s.Gathered) (hs : s.Counted)
    (h : Step s t) : t.Counted := by
  cases h with
  | stutter => exact hs
  | submit j d hj hfree =>
    have hdata := setData_of_mem hj d
    refine hs.frame rfl (fun i hi => by rw [hdata i hi]) (fun i hi => by rw [hdata i hi])
      (fun i hi => held_congr (by rw [hdata i hi]) fun _ => Iff.rfl) rfl rfl ?_ ?_ ?_ <;> simp
  | adjust j d hj =>
    have hdata := setData_of_mem hj d
    exact hs.frame rfl (fun i hi => by rw [hdata i hi]) (fun i hi => by rw [hdata i hi])
      (fun i hi => held_congr (by rw [hdata i hi]) fun _ => Iff.rfl) rfl rfl (fun _ => rfl)
      (fun _ => rfl) fun _ => rfl
  | drop j r h | popNone c r h hc =>
    refine hs.frame rfl (fun _ _ => rfl) (fun _ _ => rfl) (fun _ _ => rfl) rfl rfl ?_ ?_ ?_ <;>
      simp [h]
  | enqueue j all r h hready hall =>
    exact hs.enqueue hl h hready rfl rfl (fun _ => rfl) rfl rfl rfl rfl
  | scan j c r h =>
    refine hs.frame rfl (fun _ _ => rfl) (fun _ _ => rfl) (fun _ _ => rfl) rfl rfl ?_ ?_ ?_ <;>
    · intro i
      by_cases hc : c ∈ (s.data j).cores <;> simp [h, hc]
  | pop c j rest r h hcur hq =>
    refine hs.frame rfl (fun _ _ => rfl) (fun _ _ => rfl) (fun i _ => ?_) rfl rfl ?_ ?_ ?_
    · refine held_congr rfl fun c' => ?_
      by_cases hc : c' = c
      · subst hc
        simp [hq, hcur, eq_comm, or_comm]
      · simp [hc]
    all_goals simp [h]
  | dec j r h =>
    refine hs.dec hl hg h (setData_congr (·.cores) (by rfl)) (fun i => ?_)
      (setData_congr (·.interruptCount) (by rfl)) rfl rfl rfl rfl rfl rfl
    simp only [setData_data]
    split_ifs with hij
    · rw [hij]
    · rfl
  | commit j r h =>
    exact hs.commit hl h rfl rfl rfl rfl (fun i => by by_cases hij : i = j <;> simp [hij]) rfl rfl
  | start j c r h =>
    refine hs.frame rfl (fun _ _ => rfl) (fun _ _ => rfl) (fun _ _ => rfl) rfl rfl ?_ ?_ ?_ <;>
      simp [h]
  | raise c j h =>
    refine hs.frame rfl (fun _ _ => rfl) (fun _ _ => rfl) (fun _ _ => rfl) rfl rfl ?_ ?_ ?_ <;>
      simp
  | irqNone c r h hcur =>
    refine hs.frame rfl (fun _ _ => rfl) (fun _ _ => rfl) (fun _ _ => rfl) rfl rfl ?_ ?_ ?_ <;>
      simp [h]
  | irq c j r h hcur =>
    refine hs.frame rfl (fun _ _ => rfl) (fun _ _ => rfl) (fun _ _ => rfl) rfl rfl ?_ ?_ ?_ <;>
      simp [h]
  | complete j c r h =>
    refine hs.frame rfl (fun i _ => setData_congr (·.runCount) (by rfl) i)
      (fun i _ => setData_congr (·.interruptCount) (by rfl) i)
      (fun i _ => held_congr (setData_congr (·.cores) (by rfl) i) fun _ => Iff.rfl) rfl rfl ?_ ?_
      ?_ <;>
    · intro i
      split_ifs <;> simp [h]
  | clear j c r h =>
    exact hs.clear hl hg h rfl rfl (fun _ => Function.update_apply ..) rfl rfl rfl rfl
  | finish j r h =>
    refine hs.finish hl h (setData_congr (·.cores) (by rfl)) (setData_congr (·.runCount) (by rfl))
      (fun i => ?_) rfl rfl rfl rfl rfl rfl
    simp only [setData_data]
    split_ifs with hij
    · rw [hij]
    · rfl
  | setDone j r h =>
    exact hs.setDone hl h rfl rfl rfl rfl rfl (fun i => by by_cases hij : i = j <;> simp [hij]) rfl

end Gang
end RknpuDriver.Lib
