import RknpuDriver.Lib.Gang.Lines

/-! # How a job gathers its cores -/

namespace RknpuDriver.Lib
set_option autoImplicit false

namespace Gang
variable {J C : Type} [DecidableEq C] [DecidableEq J]

/-! ## The gathering of a job's cores -/

/-- One for a task that belongs to a batch of core `c`. -/
def holds (c : C) : Task J C → ℕ
  | .start _ c' | .irq c' | .complete _ c' | .clear _ c' => if c' = c then 1 else 0
  | _ => 0

/-- The job and the core of a task that belongs to a batch. -/
def jobCore : Task J C → Option (J × C)
  | .start j c | .complete j c | .clear j c => some (j, c)
  | _ => none

/-- What is under way on core `c`: there is never more than one such thing. -/
def token (s : Gang J C) (c : C) : ℕ :=
  (s.tasks.map (holds c)).sum + (s.running c).toList.length

/-- The number of cores that a job has still to wait for. -/
def waiting (s : Gang J C) (j : J) : ℕ :=
  ((s.data j).cores.map fun c => if j ∈ s.queue c then 1 else 0).sum

/-- A job is committed once, when all its cores have taken it, and each of its cores then has
one thing under way until it gives the job up. -/
structure Gathered (s : Gang J C) : Prop where
  runCount : ∀ j ∈ s.order, (s.data j).runCount = s.waiting j + s.tasks.count (.dec j)
  idle : ∀ c, s.current c = none → s.token c = 0
  busy : ∀ c j, s.current c = some j →
    s.token c + s.tasks.count (.commit j) = if (s.data j).runCount = 0 then 1 else 0
  owner : ∀ x ∈ s.tasks, ∀ j c, jobCore x = some (j, c) → s.current c = some j
  running : ∀ c j, s.running c = some j → s.current c = some j
  all : ∀ j, .commit j ∈ s.tasks → ∀ c ∈ (s.data j).cores, s.current c = some j
  gone : ∀ j ∈ s.order, ∀ c ∈ (s.data j).cores, j ∉ s.queue c → s.current c ≠ some j →
    (s.data j).runCount = 0

theorem Gathered.frame {s t : Gang J C} (hs : s.Gathered) (horder : t.order = s.order)
    (hdata : ∀ j ∈ s.order, (t.data j).cores = (s.data j).cores ∧
      (t.data j).runCount = (s.data j).runCount)
    (hl : s.Lined) (hqueue : t.queue = s.queue) (hcurrent : t.current = s.current)
    (hrunning : ∀ c j, t.running c = some j → s.current c = some j)
    (hdec : ∀ j, t.tasks.count (.dec j) = s.tasks.count (.dec j))
    (hcommit : ∀ j, t.tasks.count (.commit j) = s.tasks.count (.commit j))
    (htoken : ∀ c, t.token c = s.token c)
    (howner : ∀ x ∈ t.tasks, x ∈ s.tasks ∨ ∀ j c, jobCore x = some (j, c) →
      s.current c = some j) : t.Gathered where
  runCount j hj := by
    rw [horder] at hj
    have hw : t.waiting j = s.waiting j := by
      unfold waiting
      rw [(hdata j hj).1, hqueue]
    rw [(hdata j hj).2, hw, hdec, hs.runCount j hj]
  idle c hc := by
    rw [hcurrent] at hc
    rw [htoken, hs.idle c hc]
  busy c j hc := by
    rw [hcurrent] at hc
    rw [htoken, hcommit, (hdata j (hl.current hc).1).2, hs.busy c j hc]
  owner x hx j c hxj := by
    rw [hcurrent]
    rcases howner x hx with hx | hx
    · exact hs.owner x hx j c hxj
    · exact hx j c hxj
  running c j hj := hcurrent ▸ hrunning c j hj
  all j hj c hc := by
    have hj' : .commit j ∈ s.tasks := by
      rw [← Multiset.count_pos] at hj ⊢
      rwa [hcommit] at hj
    rw [(hdata j (hl.named _ hj' j rfl)).1] at hc
    rw [hcurrent]
    exact hs.all j hj' c hc
  gone j hj c hc hq hcur := by
    rw [horder] at hj
    rw [(hdata j hj).1] at hc
    rw [hqueue] at hq
    rw [hcurrent] at hcur
    rw [(hdata j hj).2]
    exact hs.gone j hj c hc hq hcur

/-- A thread that goes from one task to others of the same weight. -/
theorem Gathered.swap {s t : Gang J C} (hl : s.Lined) (hs : s.Gathered) {x : Task J C}
    {n r : Multiset (Task J C)} (h : s.tasks = x ::ₘ r) (ht : t.tasks = n + r)
    (hdec : ∀ j, n.count (.dec j) = if .dec j = x then 1 else 0)
    (hcommit : ∀ j, n.count (.commit j) = if .commit j = x then 1 else 0)
    (hholds : ∀ c, (n.map (holds c)).sum = holds c x)
    (howner : ∀ y ∈ n, ∀ j c, jobCore y = some (j, c) → s.current c = some j)
    (horder : t.order = s.order)
    (hdata : ∀ j ∈ s.order, (t.data j).cores = (s.data j).cores ∧
      (t.data j).runCount = (s.data j).runCount)
    (hqueue : t.queue = s.queue) (hcurrent : t.current = s.current)
    (hrunning : t.running = s.running) : t.Gathered := by
  refine hs.frame horder hdata hl hqueue hcurrent (hrunning ▸ hs.running) ?_ ?_ ?_ ?_
  · intro j
    rw [h, ht, Multiset.count_add, Multiset.count_cons, hdec, Nat.add_comm]
  · intro j
    rw [h, ht, Multiset.count_add, Multiset.count_cons, hcommit, Nat.add_comm]
  · intro c
    rw [token, token, h, ht, hrunning, Multiset.map_add, Multiset.sum_add, hholds,
      Multiset.map_cons, Multiset.sum_cons]
  · intro y hy
    rw [ht] at hy
    rcases Multiset.mem_add.mp hy with hy | hy
    · exact Or.inr (howner y hy)
    · exact Or.inl (by simp [h, hy])

omit [DecidableEq C] in
theorem one_le_waiting {s : Gang J C} {j : J} {c : C} (hc : c ∈ (s.data j).cores)
    (hq : j ∈ s.queue c) : 1 ≤ s.waiting j := by
  unfold waiting
  have hmem : 1 ∈ (s.data j).cores.map fun c => if j ∈ s.queue c then 1 else 0 :=
    List.mem_map.mpr ⟨c, hc, if_pos hq⟩
  exact List.le_sum_of_mem hmem

/-- Taking a job shortens what it waits for by the core that took it. -/
theorem sum_map_eq_succ {l : List C} (hnd : l.Nodup) {c : C} (hc : c ∈ l) {f g : C → ℕ}
    (hfg : ∀ x ∈ l, x ≠ c → f x = g x) (h : f c = g c + 1) :
    (l.map f).sum = (l.map g).sum + 1 := by
  induction l with
  | nil => cases hc
  | cons a l ih =>
    obtain ⟨ha, hnd⟩ := List.nodup_cons.mp hnd
    simp only [List.map_cons, List.sum_cons]
    by_cases hac : c = a
    · subst hac
      have hrest : l.map f = l.map g := by
        refine List.map_congr_left fun x hx => hfg x (List.mem_cons_of_mem _ hx) ?_
        exact fun hxc => ha (hxc ▸ hx)
      rw [hrest, h]
      omega
    · have hcl : c ∈ l := (List.mem_cons.mp hc).resolve_left hac
      rw [ih hnd hcl fun x hx => hfg x (List.mem_cons_of_mem _ hx),
        hfg a List.mem_cons_self fun hac' => hac hac'.symm]
      omega

omit [DecidableEq J] in
theorem sum_holds_start (j : J) (l : List C) (c : C) :
    (((l.map (.start j) : List (Task J C)) : Multiset (Task J C)).map (holds c)).sum =
      l.count c := by
  induction l with
  | nil => rfl
  | cons a l ih =>
    simp only [List.map_cons, ← Multiset.cons_coe, Multiset.map_cons, Multiset.sum_cons, ih,
      holds, List.count_cons, beq_iff_eq]
    omega

theorem count_map_of_ne {f : C → Task J C} {l : List C} {x : Task J C} (h : ∀ c, x ≠ f c) :
    ((l.map f : List (Task J C)) : Multiset (Task J C)).count x = 0 := by
  refine Multiset.count_eq_zero.mpr fun hmem => ?_
  obtain ⟨c, -, hc⟩ := List.mem_map.mp (Multiset.mem_coe.mp hmem)
  exact h c hc.symm

theorem Gathered.enqueue {s t : Gang J C} (hl : s.Lined) (hs : s.Gathered) {j : J}
    {all : List C} {r : Multiset (Task J C)} (h : s.tasks = .prepare j ::ₘ r)
    (hready : (s.data j).Ready) (hdata : t.data = s.data) (hcurrent : t.current = s.current)
    (hqueue : ∀ c, t.queue c = if c ∈ (s.data j).cores then s.queue c ++ [j] else s.queue c)
    (hrunning : t.running = s.running) (horder : t.order = s.order ++ [j])
    (htasks : t.tasks = (all.map (.scan j) : List (Task J C)) + r) : t.Gathered := by
  have hj : j ∉ s.order := hl.fresh j (by simp [h])
  have hmem : ∀ i c, i ≠ j → (i ∈ t.queue c ↔ i ∈ s.queue c) := by
    intro i c hij
    rw [hqueue]
    split_ifs <;> simp [hij]
  have hcount : ∀ x : Task J C, x ≠ .prepare j → (∀ c, x ≠ .scan j c) →
      t.tasks.count x = s.tasks.count x := by
    intro x hx hscan
    rw [htasks, Multiset.count_add, count_map_of_ne hscan, h, Multiset.count_cons_of_ne hx,
      zero_add]
  have htoken : ∀ c, t.token c = s.token c := by
    intro c
    have hzero : (((all.map (.scan j) : List (Task J C)) : Multiset (Task J C)).map
        (holds c)).sum = 0 := by
      refine Multiset.sum_eq_zero fun n hn => ?_
      obtain ⟨x, hx, rfl⟩ := Multiset.mem_map.mp hn
      obtain ⟨c', -, rfl⟩ := List.mem_map.mp (Multiset.mem_coe.mp hx)
      rfl
    simp only [token, htasks, hrunning, h, Multiset.map_add, Multiset.sum_add, hzero,
      Multiset.map_cons, Multiset.sum_cons, holds]
  have hold : ∀ x ∈ t.tasks, x ∈ s.tasks ∨ ∃ c, x = .scan j c := by
    intro x hx
    rw [htasks] at hx
    rcases Multiset.mem_add.mp hx with hx | hx
    · obtain ⟨c, -, rfl⟩ := List.mem_map.mp (Multiset.mem_coe.mp hx)
      exact Or.inr ⟨c, rfl⟩
    · exact Or.inl (by simp [h, hx])
  refine ⟨?_, ?_, ?_, ?_, ?_, ?_, ?_⟩
  · intro i hi
    rw [hdata, hcount _ (by simp) (by simp)]
    by_cases hij : i = j
    · subst hij
      have hdec : s.tasks.count (.dec i) = 0 :=
        Multiset.count_eq_zero.mpr fun hmem => hj (hl.named _ hmem i rfl)
      have hall : t.waiting i = (s.data i).cores.length := by
        unfold waiting
        rw [hdata, List.map_congr_left (g := fun _ => 1) fun c hc => by simp [hqueue, hc]]
        simp
      rw [hdec, hall, hready.runCount]
      rfl
    · have hi' : i ∈ s.order := by simpa [horder, hij] using hi
      have hw : t.waiting i = s.waiting i := by
        simp only [waiting, hdata, hmem i _ hij]
      rw [hw, hs.runCount i hi']
  · intro c hc
    rw [htoken]
    exact hs.idle c (hcurrent ▸ hc)
  · intro c i hc
    rw [htoken, hdata, hcount _ (by simp) (by simp)]
    exact hs.busy c i (hcurrent ▸ hc)
  · intro x hx i c hxi
    rw [hcurrent]
    rcases hold x hx with hx | ⟨c', rfl⟩
    · exact hs.owner x hx i c hxi
    · cases hxi
  · rw [hrunning, hcurrent]
    exact hs.running
  · intro i hi
    rw [hdata, hcurrent]
    rcases hold _ hi with hi | ⟨c', hc'⟩
    · exact hs.all i hi
    · cases hc'
  · intro i hi c hc hq hcur
    rw [hdata] at hc ⊢
    rw [hcurrent] at hcur
    have hij : i ≠ j := by
      rintro rfl
      exact hq (by simp [hqueue, hc])
    have hi' : i ∈ s.order := by simpa [horder, hij] using hi
    exact hs.gone i hi' c hc (fun hmem' => hq ((hmem i c hij).mpr hmem')) hcur

omit [DecidableEq J] in
/-- A job that a core has left after a pop had been left by it before. -/
theorem left_of_pop {s t : Gang J C} {c : C} {j : J} {rest : List J} (hcur : s.current c = none)
    (hq : s.queue c = j :: rest)
    (hqueue : ∀ c', t.queue c' = if c' = c then rest else s.queue c')
    (hcurrent : ∀ c', t.current c' = if c' = c then some j else s.current c') {i : J} {c' : C}
    (hiq : i ∉ t.queue c') (hic : t.current c' ≠ some i) :
    i ∉ s.queue c' ∧ s.current c' ≠ some i := by
  rw [hqueue] at hiq
  rw [hcurrent] at hic
  split_ifs at hiq hic with hc
  · subst hc
    have hij : i ≠ j := fun hij => hic (by rw [hij])
    exact ⟨by simp [hq, hij, hiq], by simp [hcur]⟩
  · exact ⟨hiq, hic⟩

theorem Gathered.pop {s t : Gang J C} (hl : s.Lined) (hs : s.Gathered) {c : C} {j : J}
    {rest : List J} {r : Multiset (Task J C)} (h : s.tasks = .pop c ::ₘ r)
    (hcur : s.current c = none) (hq : s.queue c = j :: rest) (hdata : t.data = s.data)
    (hqueue : ∀ c', t.queue c' = if c' = c then rest else s.queue c')
    (hcurrent : ∀ c', t.current c' = if c' = c then some j else s.current c')
    (hrunning : t.running = s.running) (horder : t.order = s.order)
    (htasks : t.tasks = .dec j ::ₘ r) : t.Gathered := by
  have hjq : j ∈ s.queue c := by rw [hq]; exact List.mem_cons_self
  obtain ⟨hj, hjc⟩ := hl.mem_queue hjq
  have hnd : (j :: rest).Nodup := hq ▸ (List.nodup_append.mp (hl.nodup_line c)).2.1
  have hjrest : j ∉ rest := (List.nodup_cons.mp hnd).1
  have hne : ∀ c' i, s.current c' = some i → t.current c' = some i := by
    intro c' i hi
    rw [hcurrent, if_neg, hi]
    rintro rfl
    rw [hcur] at hi
    cases hi
  have htoken : ∀ c', t.token c' = s.token c' := by
    intro c'
    simp only [token, htasks, hrunning, h, Multiset.map_cons, Multiset.sum_cons, holds]
  have hcount : ∀ i, t.tasks.count (.commit i) = s.tasks.count (.commit i) := by
    intro i
    simp [htasks, h]
  have hwaiting : ∀ i ∈ s.order, i ≠ j → t.waiting i = s.waiting i := by
    intro i _ hij
    unfold waiting
    rw [hdata]
    congr 1
    refine List.map_congr_left fun c' _ => ?_
    rw [hqueue]
    split_ifs with hc' <;> simp_all
  have hwaitj : s.waiting j = t.waiting j + 1 := by
    unfold waiting
    rw [hdata]
    refine sum_map_eq_succ (hl.needs j hj).2.1 hjc (fun x _ hx => ?_) ?_
    · rw [hqueue, if_neg hx]
    · simp [hqueue, hjq, hjrest]
  refine ⟨?_, ?_, ?_, ?_, ?_, ?_, ?_⟩
  · intro i hi
    rw [horder] at hi
    have hold := hs.runCount i hi
    rw [h] at hold
    rw [hdata, htasks]
    by_cases hij : i = j
    · subst hij
      simp only [Multiset.count_cons, reduceCtorEq, if_false, if_true] at hold ⊢
      omega
    · rw [hwaiting i hi hij, hold]
      simp [hij]
  · intro c' hc'
    rw [hcurrent] at hc'
    split_ifs at hc'
    rw [htoken, hs.idle c' hc']
  · intro c' i hi
    rw [htoken, hcount, hdata]
    rw [hcurrent] at hi
    split_ifs at hi with hc
    · subst hc
      cases hi
      have hcommit : s.tasks.count (.commit j) = 0 := by
        refine Multiset.count_eq_zero.mpr fun hmem => ?_
        have := hs.all j hmem c' hjc
        rw [hcur] at this
        cases this
      have hrun : (s.data j).runCount ≠ 0 := by
        have := hs.runCount j hj
        have := one_le_waiting hjc hjq
        omega
      rw [hs.idle c' hcur, hcommit, if_neg hrun]
    · exact hs.busy c' i hi
  · intro x hx i c' hxi
    rw [htasks] at hx
    rcases Multiset.mem_cons.mp hx with rfl | hx
    · cases hxi
    · exact hne c' i (hs.owner x (by simp [h, hx]) i c' hxi)
  · intro c' i hi
    exact hne c' i (hs.running c' i (hrunning ▸ hi))
  · intro i hi c' hc'
    rw [hdata] at hc'
    exact hne c' i (hs.all i (by simpa [h, htasks] using hi) c' hc')
  · intro i hi c' hc' hiq hic
    obtain ⟨hiq, hic⟩ := left_of_pop hcur hq hqueue hcurrent hiq hic
    rw [hdata] at hc' ⊢
    exact hs.gone i (horder ▸ hi) c' hc' hiq hic

theorem Gathered.dec {s t : Gang J C} (hl : s.Lined) (hs : s.Gathered) {j : J}
    {r : Multiset (Task J C)} (h : s.tasks = .dec j ::ₘ r)
    (hcores : ∀ i, (t.data i).cores = (s.data i).cores)
    (hrun : ∀ i, (t.data i).runCount =
      if i = j then (s.data i).runCount - 1 else (s.data i).runCount)
    (hqueue : t.queue = s.queue) (hcurrent : t.current = s.current)
    (hrunning : t.running = s.running) (horder : t.order = s.order)
    (htasks : t.tasks = (if (s.data j).runCount - 1 = 0 then {.commit j} else 0) + r) :
    t.Gathered := by
  have hj := hl.named_cons h rfl
  have hrunj := hs.runCount j hj
  rw [h, Multiset.count_cons_self] at hrunj
  have hwaiting : ∀ i, t.waiting i = s.waiting i := by
    intro i
    unfold waiting
    rw [hcores, hqueue]
  have htoken : ∀ c, t.token c = s.token c := by
    intro c
    simp only [token, htasks, hrunning, h, Multiset.map_cons, Multiset.sum_cons, holds,
      Multiset.map_add, Multiset.sum_add]
    split_ifs <;> simp [holds]
  -- a job whose counter was positive is still current or queued on all its cores
  have hheld : ∀ c ∈ (s.data j).cores, j ∉ s.queue c → s.current c = some j := by
    intro c hc hq
    by_contra hcur
    have := hs.gone j hj c hc hq hcur
    omega
  refine ⟨?_, ?_, ?_, ?_, ?_, ?_, ?_⟩
  · intro i hi
    rw [horder] at hi
    have hold := hs.runCount i hi
    rw [h] at hold
    rw [hrun, hwaiting, htasks, Multiset.count_add]
    have hzero : Multiset.count (.dec i)
        (if (s.data j).runCount - 1 = 0 then {.commit j} else 0 : Multiset (Task J C)) = 0 := by
      split_ifs <;> simp
    simp only [Multiset.count_cons, Task.dec.injEq] at hold
    rw [hzero]
    split_ifs at hold ⊢ <;> omega
  · intro c hc
    rw [htoken, hs.idle c (hcurrent ▸ hc)]
  · intro c i hc
    rw [hcurrent] at hc
    have hold := hs.busy c i hc
    have hcount : s.tasks.count (.commit i) = r.count (.commit i) := by simp [h]
    rw [htoken, hrun, htasks, Multiset.count_add, ← hcount]
    by_cases hij : i = j
    · subst hij
      have hne : (s.data i).runCount ≠ 0 := by omega
      rw [if_neg hne] at hold
      split_ifs <;> simp_all
    · rw [if_neg hij, ← hold]
      split_ifs <;> simp [hij]
  · intro x hx i c hxi
    rw [hcurrent]
    rw [htasks] at hx
    rcases Multiset.mem_add.mp hx with hx | hx
    · split_ifs at hx
      · rw [Multiset.mem_singleton.mp hx] at hxi
        cases hxi
      · exact absurd hx (Multiset.notMem_zero _)
    · exact hs.owner x (by simp [h, hx]) i c hxi
  · rw [hrunning, hcurrent]
    exact hs.running
  · intro i hi c hc
    rw [hcores] at hc
    rw [hcurrent]
    rw [htasks] at hi
    rcases Multiset.mem_add.mp hi with hi | hi
    · split_ifs at hi with hzero
      · obtain rfl : i = j := by simpa using hi
        refine hheld c hc fun hq => ?_
        have := one_le_waiting hc hq
        omega
      · exact absurd hi (Multiset.notMem_zero _)
    · exact hs.all i (by simp [h, hi]) c hc
  · intro i hi c hc hq hcur
    rw [horder] at hi
    rw [hcores] at hc
    rw [hqueue] at hq
    rw [hcurrent] at hcur
    have hij : i ≠ j := by
      rintro rfl
      exact hcur (hheld c hc hq)
    rw [hrun, if_neg hij]
    exact hs.gone i hi c hc hq hcur

theorem Gathered.commit {s t : Gang J C} (hl : s.Lined) (hs : s.Gathered) {j : J}
    {r : Multiset (Task J C)} (h : s.tasks = .commit j ::ₘ r) (hdata : t.data = s.data)
    (hqueue : t.queue = s.queue) (hcurrent : t.current = s.current)
    (hrunning : t.running = s.running) (horder : t.order = s.order)
    (htasks : t.tasks = ((s.data j).cores.map (.start j) : List (Task J C)) + r) :
    t.Gathered := by
  have hj := hl.named_cons h rfl
  have hall := hs.all j (by simp [h])
  obtain ⟨hne, hnd, -⟩ := hl.needs j hj
  obtain ⟨c₀, hc₀⟩ := List.exists_mem_of_ne_nil _ hne
  have hcount : ∀ x : Task J C, x ≠ .commit j → (∀ c, x ≠ .start j c) →
      t.tasks.count x = s.tasks.count x := by
    intro x hx hstart
    rw [htasks, Multiset.count_add, count_map_of_ne hstart, h, Multiset.count_cons_of_ne hx,
      zero_add]
  have htoken : ∀ c, t.token c = s.token c + (s.data j).cores.count c := by
    intro c
    simp only [token, htasks, hrunning, h, Multiset.map_add, Multiset.sum_add, sum_holds_start,
      Multiset.map_cons, Multiset.sum_cons, holds]
    omega
  have hold : ∀ x ∈ t.tasks, x ∈ s.tasks ∨ ∃ c ∈ (s.data j).cores, x = .start j c := by
    intro x hx
    rw [htasks] at hx
    rcases Multiset.mem_add.mp hx with hx | hx
    · obtain ⟨c, hc, rfl⟩ := List.mem_map.mp (Multiset.mem_coe.mp hx)
      exact Or.inr ⟨c, hc, rfl⟩
    · exact Or.inl (by simp [h, hx])
  have honce : r.count (.commit j) = 0 := by
    have := hs.busy c₀ j (hall c₀ hc₀)
    rw [h, Multiset.count_cons_self] at this
    split_ifs at this
    omega
  have hcommitj : t.tasks.count (.commit j) = 0 := by
    rw [htasks, Multiset.count_add, honce]
    simp
  refine ⟨?_, ?_, ?_, ?_, ?_, ?_, ?_⟩
  · intro i hi
    have hw : t.waiting i = s.waiting i := by
      unfold waiting
      rw [hdata, hqueue]
    rw [horder] at hi
    rw [hdata, hw, hcount _ (by simp) (by simp), hs.runCount i hi]
  · intro c hc
    rw [hcurrent] at hc
    have hnot : c ∉ (s.data j).cores := by
      intro hmem
      rw [hall c hmem] at hc
      cases hc
    rw [htoken, hs.idle c hc, List.count_eq_zero.mpr hnot]
  · intro c i hc
    rw [hcurrent] at hc
    have hbusy := hs.busy c i hc
    rw [htoken, hdata]
    by_cases hij : i = j
    · subst hij
      rw [h, Multiset.count_cons_self, honce] at hbusy
      rw [hcommitj, List.count_eq_one_of_mem hnd (hl.current hc).2.1]
      omega
    · have hnot : c ∉ (s.data j).cores := by
        intro hmem
        rw [hall c hmem, Option.some.injEq] at hc
        exact hij hc.symm
      rw [List.count_eq_zero.mpr hnot, hcount _ (by simp [hij]) (by simp)]
      exact hbusy
  · intro x hx i c hxi
    rw [hcurrent]
    rcases hold x hx with hx | ⟨c', hc', rfl⟩
    · exact hs.owner x hx i c hxi
    · cases hxi
      exact hall c hc'
  · rw [hrunning, hcurrent]
    exact hs.running
  · intro i hi
    rw [hdata, hcurrent]
    rcases hold _ hi with hi | ⟨c', -, hc'⟩
    · exact hs.all i hi
    · cases hc'
  · rw [horder, hdata, hqueue, hcurrent]
    exact hs.gone

omit [DecidableEq J] in
theorem holds_of_jobCore {x : Task J C} {j : J} {c : C} (h : jobCore x = some (j, c)) :
    holds c x = 1 := by
  cases x <;> simp_all [jobCore, holds]

omit [DecidableEq J] in
theorem le_sum_holds {r : Multiset (Task J C)} {x : Task J C} (hx : x ∈ r) (c : C) :
    holds c x ≤ (r.map (holds c)).sum := by
  obtain ⟨r', rfl⟩ := Multiset.exists_cons_of_mem hx
  rw [Multiset.map_cons, Multiset.sum_cons]
  exact Nat.le_add_right _ _

theorem Gathered.sole {s : Gang J C} (hs : s.Gathered) {x : Task J C} {r : Multiset (Task J C)}
    (h : s.tasks = x ::ₘ r) {j : J} {c : C} (hx : jobCore x = some (j, c)) :
    s.current c = some j ∧ (r.map (holds c)).sum = 0 ∧ s.running c = none ∧
      (s.data j).runCount = 0 ∧ .commit j ∉ s.tasks := by
  have hcur : s.current c = some j := hs.owner x (by simp [h]) j c hx
  have hbusy := hs.busy c j hcur
  have htoken : s.token c = 1 + (r.map (holds c)).sum + (s.running c).toList.length := by
    rw [token, h, Multiset.map_cons, Multiset.sum_cons, holds_of_jobCore hx]
  have hrun : (s.data j).runCount = 0 := by
    by_contra hne
    rw [if_neg hne] at hbusy
    omega
  rw [if_pos hrun] at hbusy
  refine ⟨hcur, by omega, ?_, hrun, ?_⟩
  · have hlen : (s.running c).toList.length = 0 := by omega
    cases hc : s.running c with
    | none => rfl
    | some i => simp [hc] at hlen
  · intro hmem
    have := Multiset.count_pos.mpr hmem
    omega

theorem Gathered.start {s t : Gang J C} (hl : s.Lined) (hs : s.Gathered) {j : J} {c : C}
    {r : Multiset (Task J C)} (h : s.tasks = .start j c ::ₘ r) (hdata : t.data = s.data)
    (hqueue : t.queue = s.queue) (hcurrent : t.current = s.current)
    (hrunning : ∀ c', t.running c' = if c' = c then some j else s.running c')
    (horder : t.order = s.order) (htasks : t.tasks = r) : t.Gathered := by
  obtain ⟨hcur, -, hidle, -, -⟩ := hs.sole h rfl
  refine hs.frame horder (fun _ _ => by rw [hdata]; exact ⟨rfl, rfl⟩) hl hqueue hcurrent ?_ ?_ ?_
    ?_ ?_
  · intro c' i hi
    rw [hrunning] at hi
    split_ifs at hi with hc
    · cases hi
      rw [hc, hcur]
    · exact hs.running c' i hi
  · simp [htasks, h]
  · simp [htasks, h]
  · intro c'
    simp only [token, htasks, hrunning, h, Multiset.map_cons, Multiset.sum_cons, holds]
    by_cases hc : c' = c
    · subst hc
      simp [hidle, Nat.add_comm]
    · simp [hc, Ne.symm hc]
  · intro x hx
    exact Or.inl (by simp [h, ← htasks, hx])

theorem Gathered.clear {s t : Gang J C} (hs : s.Gathered) {j : J} {c : C}
    {r : Multiset (Task J C)} (h : s.tasks = .clear j c ::ₘ r) (hdata : t.data = s.data)
    (hqueue : t.queue = s.queue)
    (hcurrent : ∀ c', t.current c' = if c' = c then none else s.current c')
    (hrunning : t.running = s.running) (horder : t.order = s.order)
    (htasks : t.tasks = .finish j ::ₘ .pop c ::ₘ r) : t.Gathered := by
  obtain ⟨hcur, hzero, hidle, hrun, hcommit⟩ := hs.sole h rfl
  have htoken : ∀ c', c' ≠ c → t.token c' = s.token c' := by
    intro c' hc'
    simp [token, htasks, hrunning, h, holds, Ne.symm hc']
  have hcount : ∀ i, t.tasks.count (.commit i) = s.tasks.count (.commit i) := by
    intro i
    simp [htasks, h]
  have hother : ∀ c' i, c' ≠ c → s.current c' = some i → t.current c' = some i := by
    intro c' i hc' hi
    rw [hcurrent, if_neg hc', hi]
  refine ⟨?_, ?_, ?_, ?_, ?_, ?_, ?_⟩
  · intro i hi
    have hw : t.waiting i = s.waiting i := by
      unfold waiting
      rw [hdata, hqueue]
    rw [horder] at hi
    rw [hdata, hw, hs.runCount i hi]
    simp [htasks, h]
  · intro c' hc'
    by_cases hc : c' = c
    · subst hc
      simp [token, htasks, hrunning, holds, hzero, hidle]
    · rw [hcurrent, if_neg hc] at hc'
      rw [htoken c' hc, hs.idle c' hc']
  · intro c' i hi
    rw [hcurrent] at hi
    split_ifs at hi with hc
    rw [htoken c' hc, hcount, hdata]
    exact hs.busy c' i hi
  · intro x hx i c' hxi
    have hxr : x ∈ r := by
      rw [htasks, Multiset.mem_cons, Multiset.mem_cons] at hx
      rcases hx with rfl | rfl | hx
      · cases hxi
      · cases hxi
      · exact hx
    refine hother c' i ?_ (hs.owner x (by simp [h, hxr]) i c' hxi)
    rintro rfl
    have hle := le_sum_holds hxr c'
    rw [holds_of_jobCore hxi] at hle
    omega
  · intro c' i hi
    rw [hrunning] at hi
    refine hother c' i ?_ (hs.running c' i hi)
    rintro rfl
    rw [hidle] at hi
    cases hi
  · intro i hi c' hc'
    have hi' : .commit i ∈ r := by simpa [htasks] using hi
    rw [hdata] at hc'
    have hold := hs.all i (by simp [h, hi']) c' hc'
    refine hother c' i ?_ hold
    rintro rfl
    rw [hcur, Option.some.injEq] at hold
    exact hcommit (by simp [h, hold, hi'])
  · intro i hi c' hc' hq hic
    rw [horder] at hi
    rw [hdata] at hc' ⊢
    rw [hqueue] at hq
    rw [hcurrent] at hic
    by_cases hij : i = j
    · rw [hij, hrun]
    · split_ifs at hic with hc
      · subst hc
        exact hs.gone i hi c' hc' hq (by simp [hcur, Ne.symm hij])
      · exact hs.gone i hi c' hc' hq hic

theorem Gathered.step {s t : Gang J C} (hl : s.Lined) (hs : s.Gathered) (h : Step s t) :
    t.Gathered := by
  have hsame : ∀ i ∈ s.order, (s.data i).cores = (s.data i).cores ∧
    (s.data i).runCount = (s.data i).runCount := fun _ _ => ⟨rfl, rfl⟩
  have hkeep : ∀ j d, d.cores = (s.data j).cores → d.runCount = (s.data j).runCount →
      ∀ i ∈ s.order, ((s.setData j d).data i).cores = (s.data i).cores ∧
        ((s.setData j d).data i).runCount = (s.data i).runCount := fun j d h1 h2 i _ =>
    ⟨setData_congr (·.cores) h1 i, setData_congr (·.runCount) h2 i⟩
  cases h with
  | stutter => exact hs
  | enqueue j all r h hready hall =>
    exact hs.enqueue hl h hready rfl rfl (fun _ => rfl) rfl rfl rfl
  | pop c j rest r h hcur hq =>
    exact hs.pop hl h hcur hq rfl (fun _ => Function.update_apply ..)
      (fun _ => Function.update_apply ..) rfl rfl rfl
  | dec j r h =>
    refine hs.dec hl h (setData_congr (·.cores) (by rfl)) (fun i => ?_) rfl rfl rfl rfl rfl
    simp only [setData_data]
    split_ifs with hij
    · rw [hij]
    · rfl
  | commit j r h => exact hs.commit hl h rfl rfl rfl rfl rfl rfl
  | start j c r h =>
    exact hs.start hl h rfl rfl rfl (fun _ => Function.update_apply ..) rfl rfl
  | clear j c r h =>
    exact hs.clear h rfl rfl (fun _ => Function.update_apply ..) rfl rfl rfl
  | submit j d hj hnew =>
    refine hs.frame rfl (fun i hi => ?_) hl rfl rfl hs.running ?_ ?_ ?_ ?_
    · have hij : i ≠ j := fun hij => hj (hij ▸ hi)
      simp [hij]
    · simp
    · simp
    · intro c
      simp [token, holds, setData]
    · intro x hx
      rcases Multiset.mem_cons.mp hx with rfl | hx
      · exact Or.inr fun _ _ h => by cases h
      · exact Or.inl hx
  | adjust j d hj =>
    refine hs.frame rfl (fun i hi => ?_) hl rfl rfl hs.running (fun _ => rfl) (fun _ => rfl)
      (fun _ => rfl) fun x hx => Or.inl hx
    have hij : i ≠ j := fun hij => hj (hij ▸ hi)
    simp [hij]
  | drop j r h =>
    exact hs.swap hl h (zero_add r).symm (by simp) (by simp) (by simp [holds]) (by simp) rfl hsame
      rfl rfl rfl
  | scan j c r h =>
    by_cases hc : c ∈ (s.data j).cores <;> simp only [hc, if_true, if_false] <;>
      exact hs.swap hl h rfl (by simp) (by simp) (by simp [holds]) (by simp [jobCore]) rfl hsame
        rfl rfl rfl
  | popNone c r h hc =>
    exact hs.swap hl h (zero_add r).symm (by simp) (by simp) (by simp [holds]) (by simp) rfl hsame
      rfl rfl rfl
  | raise c j h =>
    refine hs.frame rfl hsame hl rfl rfl ?_ (by simp) (by simp) ?_ ?_
    · intro c' i hi
      simp only [Function.update_apply] at hi
      split_ifs at hi
      exact hs.running c' i hi
    · intro c'
      by_cases hc : c' = c
      · subst hc
        simp [token, holds, h]
        omega
      · simp [token, holds, hc, Ne.symm hc]
    · intro x hx
      rcases Multiset.mem_cons.mp hx with rfl | hx
      · exact Or.inr fun _ _ h => by cases h
      · exact Or.inl hx
  | irqNone c r h hcur =>
    have := hs.idle c hcur
    simp [token, h, holds] at this
  | irq c j r h hcur =>
    refine hs.swap hl h (Multiset.singleton_add _ r).symm (by simp) (by simp) (by simp [holds]) ?_
      rfl hsame rfl rfl rfl
    intro y hy i c' hyi
    rw [Multiset.mem_singleton.mp hy] at hyi
    cases hyi
    exact hcur
  | complete j c r h =>
    have hcur : s.current c = some j := hs.owner (.complete j c) (by simp [h]) j c rfl
    have hone : ∀ x : Task J C, jobCore x = some (j, c) → ∀ y ∈ ({x} : Multiset (Task J C)),
        ∀ i c', jobCore y = some (i, c') → s.current c' = some i := by
      intro x hx y hy i c' hyi
      rw [Multiset.mem_singleton.mp hy, hx] at hyi
      cases hyi
      exact hcur
    by_cases hlt : (s.data j).submitCount c + 1 < (s.data j).batches c <;>
      simp only [hlt, if_true, if_false] <;>
      refine hs.swap hl h (Multiset.singleton_add _ r).symm (by simp) (by simp) (by simp [holds]) ?_
        rfl (hkeep j _ rfl rfl) rfl rfl rfl
    · exact hone _ rfl
    · exact hone _ rfl
  | finish j r h =>
    by_cases hz : (s.data j).interruptCount - 1 = 0 <;> simp only [hz, if_true, if_false] <;>
      exact hs.swap hl h rfl (by simp) (by simp) (by simp [holds]) (by simp [jobCore]) rfl
        (hkeep j _ rfl rfl) rfl rfl rfl
  | setDone j r h =>
    exact hs.swap hl h (zero_add r).symm (by simp) (by simp) (by simp [holds]) (by simp) rfl hsame
      rfl rfl rfl

end Gang
end RknpuDriver.Lib
