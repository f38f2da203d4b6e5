import RknpuDriver.Lib.Gang.Gathering

/-! # The batches of a job -/

namespace RknpuDriver.Lib
set_option autoImplicit false

namespace Gang
variable {J C : Type} [DecidableEq C] [DecidableEq J]

/-! ## The batches of a job -/

/-- One for a task that stands for a batch whose interrupt was not counted yet. -/
def inBatch (c : C) : Task J C → ℕ
  | .irq c' | .complete _ c' => if c' = c then 1 else 0
  | _ => 0

/-- Batches of core `c` that were started and not counted. -/
def active (s : Gang J C) (c : C) : ℕ :=
  (s.tasks.map (inBatch c)).sum + (s.running c).toList.length

/-- What a task of a batch promises about the batches counted so far. -/
def Sound (s : Gang J C) : Task J C → Prop
  | .start j c | .complete j c => (s.data j).submitCount c < (s.data j).batches c
  | .irq c => ∀ j, s.current c = some j → (s.data j).submitCount c < (s.data j).batches c
  | .clear j c => (s.data j).submitCount c = (s.data j).batches c
  | .prepare _ | .scan _ _ | .pop _ | .dec _ | .commit _ | .finish _ | .setDone _ => True

/-- As long as a batch of a job is under way on a core, some batch of it has not been counted;
when the core is given up, all of them have been. -/
structure Batched (s : Gang J C) : Prop where
  fresh : ∀ j ∈ s.order, (s.data j).runCount ≠ 0 ∨ .commit j ∈ s.tasks →
    ∀ c, (s.data j).submitCount c = 0
  sound : ∀ x ∈ s.tasks, s.Sound x
  running : ∀ c j, s.running c = some j → (s.data j).submitCount c < (s.data j).batches c
  gone : ∀ j ∈ s.order, ∀ c ∈ (s.data j).cores, j ∉ s.queue c → s.current c ≠ some j →
    (s.data j).submitCount c = (s.data j).batches c
  starts : ∀ j ∈ s.order, ∀ c, (s.starts j c : ℤ) =
    (s.data j).submitCount c + if s.current c = some j then (s.active c : ℤ) else 0
  zero : ∀ j, j ∉ s.order → ∀ c, s.starts j c = 0

omit [DecidableEq J] in
theorem inBatch_le_holds (c : C) (x : Task J C) : inBatch c x ≤ holds c x := by
  cases x <;> simp [inBatch, holds]

omit [DecidableEq J] in
theorem sum_inBatch_le_holds (r : Multiset (Task J C)) (c : C) :
    (r.map (inBatch c)).sum ≤ (r.map (holds c)).sum :=
  Multiset.sum_map_le_sum_map _ _ fun x _ => inBatch_le_holds c x

/-- A promise depends on the job's batches and on the current job only. -/
theorem Sound.congr {s t : Gang J C} (ht : t.Lined)
    (hdata : ∀ j ∈ t.order, (t.data j).submitCount = (s.data j).submitCount ∧
      (t.data j).batches = (s.data j).batches)
    (hcurrent : ∀ c j, t.current c = some j → s.current c = some j) {x : Task J C}
    (hx : x ∈ t.tasks) (h : s.Sound x) : t.Sound x := by
  have hnamed := ht.named x hx
  cases x with
  | start j c | complete j c | clear j c =>
    obtain ⟨h1, h2⟩ := hdata j (hnamed j rfl)
    simpa only [Sound, h1, h2] using h
  | irq c =>
    intro j hj
    obtain ⟨h1, h2⟩ := hdata j (ht.current hj).1
    rw [h1, h2]
    exact h j (hcurrent c j hj)
  | prepare | scan | pop | dec | commit | finish | setDone => trivial

theorem Batched.frame {s t : Gang J C} (ht : t.Lined) (hs : s.Batched)
    (horder : t.order = s.order) (hcores : ∀ j ∈ s.order, (t.data j).cores = (s.data j).cores)
    (hdata : ∀ j ∈ s.order, (t.data j).submitCount = (s.data j).submitCount ∧
      (t.data j).batches = (s.data j).batches)
    (hqueue : t.queue = s.queue) (hcurrent : t.current = s.current)
    (hfresh : ∀ j ∈ s.order, (t.data j).runCount ≠ 0 ∨ .commit j ∈ t.tasks →
      (s.data j).runCount ≠ 0 ∨ .commit j ∈ s.tasks)
    (hrunning : ∀ c j, t.running c = some j →
      (s.data j).submitCount c < (s.data j).batches c)
    (hstarts : ∀ j ∈ s.order, ∀ c, (t.starts j c : ℤ) =
      (s.data j).submitCount c + if s.current c = some j then (t.active c : ℤ) else 0)
    (hzero : ∀ j, j ∉ s.order → ∀ c, t.starts j c = s.starts j c)
    (htasks : ∀ x ∈ t.tasks, s.Sound x) : t.Batched where
  fresh j hj hrun c := by
    rw [horder] at hj
    rw [(hdata j hj).1]
    exact hs.fresh j hj (hfresh j hj hrun) c
  sound x hx := Sound.congr ht (horder ▸ hdata) (fun c j h => hcurrent ▸ h) hx (htasks x hx)
  running c j hj := by
    obtain ⟨h1, h2⟩ := hdata j (horder ▸ ht.running c j hj)
    rw [h1, h2]
    exact hrunning c j hj
  gone j hj c hc hq hcur := by
    rw [horder] at hj
    rw [hcores j hj] at hc
    rw [(hdata j hj).1, (hdata j hj).2]
    exact hs.gone j hj c hc (hqueue ▸ hq) (hcurrent ▸ hcur)
  starts j hj c := by
    rw [horder] at hj
    rw [hcurrent, (hdata j hj).1]
    exact hstarts j hj c
  zero j hj c := by
    rw [horder] at hj
    rw [hzero j hj, hs.zero j hj]

omit [DecidableEq C] [DecidableEq J] in
/-- The weight of a multiset none of whose tasks weighs anything. -/
theorem sum_map_eq_zero {w : Task J C → ℕ} {r : Multiset (Task J C)}
    (h : ∀ x ∈ r, w x = 0) : (r.map w).sum = 0 := by
  refine Multiset.sum_eq_zero fun n hn => ?_
  obtain ⟨x, hx, rfl⟩ := Multiset.mem_map.mp hn
  exact h x hx

omit [DecidableEq J] in
theorem active_swap {s t : Gang J C} {x : Task J C} {n r : Multiset (Task J C)}
    (h : s.tasks = x ::ₘ r) (ht : t.tasks = n + r) (hrunning : t.running = s.running) {c : C}
    (hnew : (n.map (inBatch c)).sum = inBatch c x) : t.active c = s.active c := by
  rw [active, active, ht, h, hrunning, Multiset.map_add, Multiset.sum_add, hnew,
    Multiset.map_cons, Multiset.sum_cons]

/-- A thread that goes from one task to others that stand for as many batches. -/
theorem Batched.swap {s t : Gang J C} (ht : t.Lined) (hs : s.Batched) {x : Task J C}
    {n r : Multiset (Task J C)} (h : s.tasks = x ::ₘ r) (htasks : t.tasks = n + r)
    (hnew : ∀ y ∈ n, s.Sound y) (hbatch : ∀ c, (n.map (inBatch c)).sum = inBatch c x)
    (hcommit : ∀ j, .commit j ∈ n → (s.data j).runCount ≠ 0)
    (horder : t.order = s.order) (hcores : ∀ j, (t.data j).cores = (s.data j).cores)
    (hrun : ∀ j ∈ s.order, (t.data j).runCount ≠ 0 → (s.data j).runCount ≠ 0)
    (hdata : ∀ j, (t.data j).submitCount = (s.data j).submitCount ∧
      (t.data j).batches = (s.data j).batches)
    (hqueue : t.queue = s.queue) (hcurrent : t.current = s.current)
    (hrunning : t.running = s.running) (hstarts : t.starts = s.starts) : t.Batched := by
  refine hs.frame ht horder (fun j _ => hcores j) (fun j _ => hdata j) hqueue hcurrent ?_ ?_ ?_
    ?_ ?_
  · rintro j hj (hne | hmem)
    · exact Or.inl (hrun j hj hne)
    · rw [htasks] at hmem
      rcases Multiset.mem_add.mp hmem with hmem | hmem
      · exact Or.inl (hcommit j hmem)
      · exact Or.inr (by simp [h, hmem])
  · intro c j hj
    exact hs.running c j (hrunning ▸ hj)
  · intro j hj c
    rw [hstarts, active_swap h htasks hrunning (hbatch c)]
    exact hs.starts j hj c
  · intro j _ c
    rw [hstarts]
  · intro y hy
    rw [htasks] at hy
    rcases Multiset.mem_add.mp hy with hy | hy
    · exact hnew y hy
    · exact hs.sound y (by simp [h, hy])

theorem Batched.enqueue {s t : Gang J C} (hl : s.Lined) (ht : t.Lined) (hs : s.Batched) {j : J}
    {all : List C} {r : Multiset (Task J C)} (h : s.tasks = .prepare j ::ₘ r)
    (hready : (s.data j).Ready) (hdata : t.data = s.data) (hcurrent : t.current = s.current)
    (hqueue : ∀ c, t.queue c = if c ∈ (s.data j).cores then s.queue c ++ [j] else s.queue c)
    (hrunning : t.running = s.running) (horder : t.order = s.order ++ [j])
    (hstarts : t.starts = s.starts)
    (htasks : t.tasks = (all.map (.scan j) : List (Task J C)) + r) : t.Batched := by
  have hj : j ∉ s.order := hl.fresh j (by simp [h])
  have hscan : ∀ x ∈ ((all.map (.scan j) : List (Task J C)) : Multiset (Task J C)),
      ∃ c, x = .scan j c := by
    intro x hx
    obtain ⟨c, -, rfl⟩ := List.mem_map.mp (Multiset.mem_coe.mp hx)
    exact ⟨c, rfl⟩
  have hactive : ∀ c, t.active c = s.active c := by
    refine fun c => active_swap h htasks hrunning (sum_map_eq_zero fun x hx => ?_)
    obtain ⟨c, rfl⟩ := hscan x hx
    rfl
  have hold : ∀ x ∈ t.tasks, x ∈ s.tasks ∨ ∃ c, x = .scan j c := by
    intro x hx
    rw [htasks] at hx
    rcases Multiset.mem_add.mp hx with hx | hx
    · exact Or.inr (hscan x hx)
    · exact Or.inl (by simp [h, hx])
  have hcases : ∀ i ∈ t.order, i ≠ j → i ∈ s.order := by
    intro i hi hij
    simpa [horder, hij] using hi
  refine ⟨?_, ?_, ?_, ?_, ?_, ?_⟩
  · intro i hi hrun c
    rw [hdata] at hrun ⊢
    by_cases hij : i = j
    · rw [hij, hready.submitCount]
    · refine hs.fresh i (hcases i hi hij) (hrun.imp_right fun hmem => ?_) c
      rcases hold _ hmem with hmem | ⟨c, hc⟩
      · exact hmem
      · cases hc
  · intro x hx
    refine Sound.congr ht (fun _ _ => by rw [hdata]; exact ⟨rfl, rfl⟩)
      (fun _ _ h => hcurrent ▸ h) hx ?_
    rcases hold x hx with hx | ⟨c', rfl⟩
    · exact hs.sound x hx
    · trivial
  · rw [hdata, hrunning]
    exact hs.running
  · intro i hi c hc hq hcur
    rw [hdata] at hc ⊢
    have hij : i ≠ j := by
      rintro rfl
      exact hq (by simp [hqueue, hc])
    refine hs.gone i (hcases i hi hij) c hc (fun hmem => hq ?_) (hcurrent ▸ hcur)
    rw [hqueue]
    split_ifs <;> simp [hmem]
  · intro i hi c
    rw [hstarts, hcurrent, hactive, hdata]
    by_cases hij : i = j
    · have hcur : s.current c ≠ some j := fun hcur => hj (hl.current hcur).1
      rw [hij, hs.zero j hj, hready.submitCount, if_neg hcur]
      rfl
    · exact hs.starts i (hcases i hi hij) c
  · intro i hi c
    rw [hstarts]
    exact hs.zero i (fun hmem => hi (by simp [horder, hmem])) c

theorem Batched.pop {s t : Gang J C} (hg : s.Gathered) (hs : s.Batched) {c : C} {j : J}
    {rest : List J} {r : Multiset (Task J C)} (h : s.tasks = .pop c ::ₘ r)
    (hcur : s.current c = none) (hq : s.queue c = j :: rest) (hdata : t.data = s.data)
    (hqueue : ∀ c', t.queue c' = if c' = c then rest else s.queue c')
    (hcurrent : ∀ c', t.current c' = if c' = c then some j else s.current c')
    (hrunning : t.running = s.running) (horder : t.order = s.order)
    (hstarts : t.starts = s.starts) (htasks : t.tasks = .dec j ::ₘ r) : t.Batched := by
  have htoken := hg.idle c hcur
  have hactive : ∀ c', t.active c' = s.active c' := fun c' =>
    active_swap (n := {.dec j}) h (htasks.trans (Multiset.singleton_add _ r).symm) hrunning
      (by simp [inBatch])
  have hold : ∀ x ∈ t.tasks, x ∈ s.tasks ∨ x = .dec j := by
    intro x hx
    rw [htasks] at hx
    rcases Multiset.mem_cons.mp hx with hx | hx
    · exact Or.inr hx
    · exact Or.inl (by simp [h, hx])
  refine ⟨?_, ?_, ?_, ?_, ?_, ?_⟩
  · intro i hi hrun
    rw [hdata] at hrun ⊢
    refine hs.fresh i (horder ▸ hi) (hrun.imp_right fun hmem => ?_)
    rcases hold _ hmem with hmem | hmem
    · exact hmem
    · cases hmem
  · intro x hx
    rcases hold x hx with hmem | rfl
    · have hsound := hs.sound x hmem
      cases x with
      | irq c' =>
        intro i hi
        rw [hcurrent] at hi
        split_ifs at hi with hc
        · subst hc
          have hle := le_sum_holds hmem c'
          rw [token] at htoken
          simp only [holds, if_true] at hle
          omega
        · rw [hdata]
          exact hsound i hi
      | start | complete | clear => simpa only [Sound, hdata] using hsound
      | prepare | scan | pop | dec | commit | finish | setDone => trivial
    · trivial
  · rw [hdata, hrunning]
    exact hs.running
  · intro i hi c' hc' hiq hic
    obtain ⟨hiq, hic⟩ := left_of_pop hcur hq hqueue hcurrent hiq hic
    rw [hdata] at hc' ⊢
    exact hs.gone i (horder ▸ hi) c' hc' hiq hic
  · intro i hi c'
    rw [horder] at hi
    rw [hstarts, hcurrent, hactive, hdata, hs.starts i hi c']
    by_cases hc : c' = c
    · subst hc
      have hzero : s.active c' = 0 := by
        have hle := sum_inBatch_le_holds s.tasks c'
        rw [token] at htoken
        rw [active]
        omega
      simp [hcur, hzero]
    · simp [hc]
  · intro i hi c'
    rw [hstarts]
    exact hs.zero i (horder ▸ hi) c'

theorem Batched.start {s t : Gang J C} (hl : s.Lined) (hg : s.Gathered) (ht : t.Lined)
    (hs : s.Batched) {j : J} {c : C} {r : Multiset (Task J C)} (h : s.tasks = .start j c ::ₘ r)
    (hdata : t.data = s.data) (hqueue : t.queue = s.queue) (hcurrent : t.current = s.current)
    (hrunning : ∀ c', t.running c' = if c' = c then some j else s.running c')
    (horder : t.order = s.order)
    (hstarts : ∀ i c', t.starts i c' =
      if i = j ∧ c' = c then s.starts i c' + 1 else s.starts i c')
    (htasks : t.tasks = r) : t.Batched := by
  obtain ⟨hcur, hzero, hidle, -, -⟩ := hg.sole h rfl
  have hj := hl.named_cons h rfl
  have hsound : (s.data j).submitCount c < (s.data j).batches c :=
    hs.sound (.start j c) (by simp [h])
  refine hs.frame ht horder (fun _ _ => by rw [hdata]) (fun _ _ => by rw [hdata]; exact ⟨rfl, rfl⟩)
    hqueue hcurrent ?_ ?_ ?_ ?_ ?_
  · rw [hdata]
    exact fun i _ hrun => hrun.imp_right fun hmem => by simpa [h, htasks] using hmem
  · intro c' i hi
    rw [hrunning] at hi
    split_ifs at hi with hc
    · cases hi
      rw [hc]
      exact hsound
    · exact hs.running c' i hi
  · intro i hi c'
    have hold := hs.starts i hi c'
    rw [hstarts]
    by_cases hc : c' = c
    · subst hc
      have hnone : (r.map (inBatch c')).sum = 0 := by
        have := sum_inBatch_le_holds r c'
        omega
      have hsactive : s.active c' = 0 := by simp [active, h, inBatch, hidle, hnone]
      have htactive : t.active c' = 1 := by simp [active, htasks, hrunning, hnone]
      rw [hsactive] at hold
      rw [htactive]
      by_cases hij : i = j
      · subst hij
        simpa [hcur] using hold
      · simpa [hcur, hij, Ne.symm hij] using hold
    · have hactive : t.active c' = s.active c' := by
        simp [active, h, htasks, hrunning, inBatch, hc]
      rw [hactive]
      simpa [hc] using hold
  · intro i hi c'
    have hij : i ≠ j := fun hij => hi (hij ▸ hj)
    rw [hstarts, if_neg fun h => hij h.1]
  · intro x hx
    exact hs.sound x (by simp [h, ← htasks, hx])

theorem Batched.raise {s t : Gang J C} (hg : s.Gathered) (ht : t.Lined) (hs : s.Batched) {j : J}
    {c : C} (h : s.running c = some j) (hdata : t.data = s.data) (hqueue : t.queue = s.queue)
    (hcurrent : t.current = s.current)
    (hrunning : ∀ c', t.running c' = if c' = c then none else s.running c')
    (horder : t.order = s.order) (hstarts : t.starts = s.starts)
    (htasks : t.tasks = .irq c ::ₘ s.tasks) : t.Batched := by
  have hactive : ∀ c', t.active c' = s.active c' := by
    intro c'
    by_cases hc : c' = c
    · subst hc
      simp [active, htasks, hrunning, inBatch, h, Nat.add_comm]
    · simp [active, htasks, hrunning, inBatch, hc, Ne.symm hc]
  refine hs.frame ht horder (fun _ _ => by rw [hdata]) (fun _ _ => by rw [hdata]; exact ⟨rfl, rfl⟩)
    hqueue hcurrent ?_ ?_ ?_ ?_ ?_
  · rw [hdata]
    exact fun i _ hrun => hrun.imp_right fun hmem => by simpa [htasks] using hmem
  · intro c' i hi
    rw [hrunning] at hi
    split_ifs at hi
    exact hs.running c' i hi
  · intro i hi c'
    rw [hstarts, hactive]
    exact hs.starts i hi c'
  · intro i _ c'
    rw [hstarts]
  · intro x hx
    rw [htasks] at hx
    rcases Multiset.mem_cons.mp hx with rfl | hx
    · intro i hi
      rw [hg.running c j h, Option.some.injEq] at hi
      exact hi ▸ hs.running c j h
    · exact hs.sound x hx

theorem Batched.complete {s t : Gang J C} (hg : s.Gathered) (hs : s.Batched) {j : J} {c : C}
    {r : Multiset (Task J C)} (h : s.tasks = .complete j c ::ₘ r)
    (hcores : ∀ i, (t.data i).cores = (s.data i).cores)
    (hrun : ∀ i, (t.data i).runCount = (s.data i).runCount)
    (hbatches : ∀ i, (t.data i).batches = (s.data i).batches)
    (hsubmit : ∀ i c', (t.data i).submitCount c' =
      if i = j ∧ c' = c then (s.data i).submitCount c' + 1 else (s.data i).submitCount c')
    (hqueue : t.queue = s.queue) (hcurrent : t.current = s.current)
    (hrunning : t.running = s.running) (horder : t.order = s.order)
    (hstarts : t.starts = s.starts)
    (htasks : t.tasks = (if (s.data j).submitCount c + 1 < (s.data j).batches c then .start j c
      else .clear j c) ::ₘ r) : t.Batched := by
  obtain ⟨hcur, hzero, hidle, hrunj, hcommitj⟩ := hg.sole h rfl
  have hsound : (s.data j).submitCount c < (s.data j).batches c :=
    hs.sound (.complete j c) (by simp [h])
  have hother : ∀ x ∈ r, holds c x = 0 := by
    intro x hx
    have := le_sum_holds hx c
    omega
  have hsame : ∀ i c', c' ≠ c → (t.data i).submitCount c' = (s.data i).submitCount c' := by
    intro i c' hc
    rw [hsubmit, if_neg fun h => hc h.2]
  refine ⟨?_, ?_, ?_, ?_, ?_, ?_⟩
  · intro i hi hfresh c'
    rw [horder] at hi
    rw [hrun] at hfresh
    have hold : (s.data i).runCount ≠ 0 ∨ .commit i ∈ s.tasks := by
      refine hfresh.imp_right fun hmem => ?_
      rw [htasks] at hmem
      rcases Multiset.mem_cons.mp hmem with hmem | hmem
      · split_ifs at hmem
      · simp [h, hmem]
    have hij : i ≠ j := by
      rintro rfl
      rcases hold with hne | hmem
      · exact hne hrunj
      · exact hcommitj hmem
    rw [hsubmit, if_neg fun h => hij h.1]
    exact hs.fresh i hi hold c'
  · intro x hx
    rw [htasks] at hx
    rcases Multiset.mem_cons.mp hx with rfl | hx
    · by_cases hlt : (s.data j).submitCount c + 1 < (s.data j).batches c
      · rw [if_pos hlt]
        simpa [Sound, hsubmit, hbatches] using hlt
      · rw [if_neg hlt]
        simp only [Sound, hsubmit, hbatches, and_self, if_true]
        omega
    · have hold := hs.sound x (by simp [h, hx])
      have hlight := hother x hx
      cases x with
      | start i c' | complete i c' | clear i c' =>
        have hc : c' ≠ c := by
          rintro rfl
          simp [holds] at hlight
        simpa only [Sound, hsame i c' hc, hbatches] using hold
      | irq c' =>
        have hc : c' ≠ c := by
          rintro rfl
          simp [holds] at hlight
        intro i hi
        rw [hsame i c' hc, hbatches]
        exact hold i (hcurrent ▸ hi)
      | prepare | scan | pop | dec | commit | finish | setDone => trivial
  · intro c' i hi
    rw [hrunning] at hi
    have hc : c' ≠ c := by
      rintro rfl
      rw [hidle] at hi
      cases hi
    rw [hsame i c' hc, hbatches]
    exact hs.running c' i hi
  · intro i hi c' hc' hq hic
    rw [horder] at hi
    rw [hcores] at hc'
    rw [hcurrent] at hic
    have hnot : ¬ (i = j ∧ c' = c) := by
      rintro ⟨rfl, rfl⟩
      exact hic hcur
    rw [hsubmit, if_neg hnot, hbatches]
    exact hs.gone i hi c' hc' (hqueue ▸ hq) hic
  · intro i hi c'
    rw [horder] at hi
    have hold := hs.starts i hi c'
    rw [hstarts, hcurrent, hsubmit]
    by_cases hc : c' = c
    · subst hc
      have hnone : (r.map (inBatch c')).sum = 0 := by
        have := sum_inBatch_le_holds r c'
        omega
      have hsactive : s.active c' = 1 := by simp [active, h, inBatch, hidle, hnone]
      have htactive : t.active c' = 0 := by
        split_ifs at htasks <;> simp [active, htasks, hrunning, inBatch, hidle, hnone]
      rw [hsactive] at hold
      rw [htactive]
      by_cases hij : i = j
      · subst hij
        simpa [hcur] using hold
      · simpa [hcur, hij, Ne.symm hij] using hold
    · have hactive : t.active c' = s.active c' := by
        split_ifs at htasks <;> simp [active, h, htasks, hrunning, inBatch, Ne.symm hc]
      rw [hactive]
      simpa [hc] using hold
  · intro i hi c'
    rw [hstarts]
    exact hs.zero i (horder ▸ hi) c'

theorem Batched.clear {s t : Gang J C} (hg : s.Gathered) (ht : t.Lined) (hs : s.Batched) {j : J}
    {c : C} {r : Multiset (Task J C)} (h : s.tasks = .clear j c ::ₘ r) (hdata : t.data = s.data)
    (hqueue : t.queue = s.queue)
    (hcurrent : ∀ c', t.current c' = if c' = c then none else s.current c')
    (hrunning : t.running = s.running) (horder : t.order = s.order)
    (hstarts : t.starts = s.starts) (htasks : t.tasks = .finish j ::ₘ .pop c ::ₘ r) :
    t.Batched := by
  obtain ⟨hcur, hzero, hidle, -, -⟩ := hg.sole h rfl
  have hactive : ∀ c', t.active c' = s.active c' := fun c' =>
    active_swap (n := {.finish j, .pop c}) h (by simp [htasks]) hrunning (by simp [inBatch])
  refine ⟨?_, ?_, ?_, ?_, ?_, ?_⟩
  · intro i hi hfresh
    rw [hdata] at hfresh ⊢
    exact hs.fresh i (horder ▸ hi) (hfresh.imp_right fun hmem => by
      simpa [h, htasks] using hmem)
  · intro x hx
    refine Sound.congr (s := s) ht (fun _ _ => by rw [hdata]; exact ⟨rfl, rfl⟩)
      (fun c' i hi => ?_) hx ?_
    · rw [hcurrent] at hi
      split_ifs at hi
      exact hi
    · rw [htasks, Multiset.mem_cons, Multiset.mem_cons] at hx
      rcases hx with rfl | rfl | hx
      · trivial
      · trivial
      · exact hs.sound x (by simp [h, hx])
  · rw [hdata, hrunning]
    exact hs.running
  · intro i hi c' hc' hq hic
    rw [horder] at hi
    rw [hdata] at hc' ⊢
    rw [hqueue] at hq
    rw [hcurrent] at hic
    split_ifs at hic with hc
    · subst hc
      by_cases hij : i = j
      · rw [hij]
        exact hs.sound (.clear j c') (by simp [h])
      · exact hs.gone i hi c' hc' hq (by simp [hcur, Ne.symm hij])
    · exact hs.gone i hi c' hc' hq hic
  · intro i hi c'
    rw [horder] at hi
    rw [hstarts, hcurrent, hactive, hdata, hs.starts i hi c']
    by_cases hc : c' = c
    · subst hc
      have hnone : s.active c' = 0 := by
        have := sum_inBatch_le_holds r c'
        simp only [active, h, hidle, Multiset.map_cons, Multiset.sum_cons, inBatch,
          Option.toList_none, List.length_nil]
        omega
      simp [hnone]
    · simp [hc]
  · intro i hi c'
    rw [hstarts]
    exact hs.zero i (horder ▸ hi) c'

theorem Batched.step {s t : Gang J C} (hl : s.Lined) (hg : s.Gathered) (hs : s.Batched)
    (h : Step s t) : t.Batched := by
  have ht := hl.step h
  have hkeep : ∀ (j : J) (d : JobData C), d.submitCount = (s.data j).submitCount →
      d.batches = (s.data j).batches → ∀ i,
      ((s.setData j d).data i).submitCount = (s.data i).submitCount ∧
        ((s.setData j d).data i).batches = (s.data i).batches := fun j d h1 h2 i =>
    ⟨setData_congr (·.submitCount) h1 i, setData_congr (·.batches) h2 i⟩
  cases h with
  | stutter => exact hs
  | submit j d hj hfree =>
    have hdata := setData_of_mem hj d
    refine hs.frame ht rfl (fun i hi => by rw [hdata i hi])
      (fun i hi => by rw [hdata i hi]; exact ⟨rfl, rfl⟩) rfl rfl
      (fun i hi => ?_) hs.running (fun i hi c => ?_) (fun _ _ _ => rfl) ?_
    · intro hrun
      refine hrun.imp (fun hne => by rwa [hdata i hi] at hne) fun hmem => by simpa using hmem
    · have hactive : active { s.setData j d with tasks := .prepare j ::ₘ s.tasks } c =
          s.active c := by
        simp [active, inBatch, setData]
      rw [hactive]
      exact hs.starts i hi c
    · intro x hx
      rcases Multiset.mem_cons.mp hx with rfl | hx
      · trivial
      · exact hs.sound x hx
  | adjust j d hj =>
    have hdata := setData_of_mem hj d
    refine hs.frame ht rfl (fun i hi => by rw [hdata i hi])
      (fun i hi => by rw [hdata i hi]; exact ⟨rfl, rfl⟩) rfl rfl
      (fun i hi hrun => by rwa [hdata i hi] at hrun) hs.running hs.starts (fun _ _ _ => rfl)
      hs.sound
  | drop j r h =>
    exact hs.swap ht h (zero_add r).symm (by simp) (by simp [inBatch]) (by simp) rfl (fun _ => rfl)
      (fun _ _ h => h) (fun _ => ⟨rfl, rfl⟩) rfl rfl rfl rfl
  | enqueue j all r h hready hall =>
    exact hs.enqueue hl ht h hready rfl rfl (fun _ => rfl) rfl rfl rfl rfl
  | scan j c r h =>
    by_cases hc : c ∈ (s.data j).cores <;> simp only [hc, if_true, if_false] at ht ⊢ <;>
      exact hs.swap ht h rfl (by simp [Sound]) (by simp [inBatch]) (by simp) rfl (fun _ => rfl)
        (fun _ _ h => h) (fun _ => ⟨rfl, rfl⟩) rfl rfl rfl rfl
  | popNone c r h hc =>
    exact hs.swap ht h (zero_add r).symm (by simp) (by simp [inBatch]) (by simp) rfl (fun _ => rfl)
      (fun _ _ h => h) (fun _ => ⟨rfl, rfl⟩) rfl rfl rfl rfl
  | pop c j rest r h hcur hq =>
    exact hs.pop hg h hcur hq rfl (fun _ => Function.update_apply ..)
      (fun _ => Function.update_apply ..) rfl rfl rfl rfl
  | dec j r h =>
    have hj := hl.named_cons h rfl
    have hrunj := hg.runCount j hj
    rw [h, Multiset.count_cons_self] at hrunj
    have hrun : ∀ i ∈ s.order, ((s.setData j { s.data j with
        runCount := (s.data j).runCount - 1 }).data i).runCount ≠ 0 →
        (s.data i).runCount ≠ 0 := by
      intro i hi hne
      by_cases hij : i = j
      · rw [hij]
        omega
      · simpa [hij] using hne
    by_cases hz : (s.data j).runCount - 1 = 0 <;> simp only [hz, if_true, if_false] at ht ⊢ hrun <;>
      refine hs.swap ht h rfl (by simp [Sound]) (by simp [inBatch]) ?_ rfl
        (setData_congr (·.cores) (by rfl)) hrun (hkeep j _ rfl rfl) rfl rfl rfl rfl
    · intro i hi
      have hij : i = j := by simpa using hi
      rw [hij]
      omega
    · simp
  | commit j r h =>
    have hj := hl.named_cons h rfl
    refine hs.swap ht h rfl ?_ (fun c => ?_) ?_ rfl (fun _ => rfl) (fun _ _ h => h)
      (fun _ => ⟨rfl, rfl⟩) rfl rfl rfl rfl
    · intro x hx
      obtain ⟨c, hc, rfl⟩ := List.mem_map.mp (Multiset.mem_coe.mp hx)
      have hpos := (hl.needs j hj).2.2 c hc
      have hzero := hs.fresh j hj (Or.inr (by simp [h])) c
      simp only [Sound]
      omega
    · refine sum_map_eq_zero fun x hx => ?_
      obtain ⟨c, hc, rfl⟩ := List.mem_map.mp (Multiset.mem_coe.mp hx)
      rfl
    · simp
  | start j c r h =>
    refine hs.start hl hg ht h rfl rfl rfl (fun _ => Function.update_apply ..) rfl (fun i c' => ?_)
      rfl
    by_cases hij : i = j
    · subst hij
      by_cases hc : c' = c
      · subst hc
        simp
      · simp [hc]
    · simp [hij]
  | raise c j h =>
    exact hs.raise hg ht h rfl rfl rfl (fun _ => Function.update_apply ..) rfl rfl rfl
  | irqNone c r h hcur =>
    have hidle := hg.idle c hcur
    simp [token, h, holds] at hidle
  | irq c j r h hcur =>
    have hsound : s.Sound (.irq c) := hs.sound (.irq c) (by simp [h])
    refine hs.swap (n := {.complete j c}) ht h (Multiset.singleton_add _ r).symm ?_
      (by simp [inBatch]) (by simp) rfl (fun _ => rfl) (fun _ _ h => h) (fun _ => ⟨rfl, rfl⟩) rfl
      rfl rfl rfl
    intro x hx
    rw [Multiset.mem_singleton.mp hx]
    exact hsound j hcur
  | complete j c r h =>
    refine hs.complete hg h (setData_congr (·.cores) (by rfl))
      (setData_congr (·.runCount) (by rfl)) (setData_congr (·.batches) (by rfl)) (fun i c' => ?_)
      rfl rfl rfl rfl rfl rfl
    by_cases hij : i = j
    · subst hij
      by_cases hc : c' = c
      · subst hc
        simp
      · simp [hc]
    · simp [hij]
  | clear j c r h =>
    exact hs.clear hg ht h rfl rfl (fun _ => Function.update_apply ..) rfl rfl rfl rfl
  | finish j r h =>
    by_cases hz : (s.data j).interruptCount - 1 = 0 <;>
      simp only [hz, if_true, if_false] at ht ⊢ <;>
      exact hs.swap ht h rfl (by simp [Sound]) (by simp [inBatch]) (by simp) rfl
        (setData_congr (·.cores) (by rfl))
        (fun i _ hne => by rwa [setData_congr (·.runCount) (by rfl) i] at hne)
        (hkeep j _ rfl rfl) rfl rfl rfl rfl
  | setDone j r h =>
    exact hs.swap ht h (zero_add r).symm (by simp) (by simp [inBatch]) (by simp) rfl (fun _ => rfl)
      (fun _ _ h => h) (fun _ => ⟨rfl, rfl⟩) rfl rfl rfl rfl

end Gang
end RknpuDriver.Lib
