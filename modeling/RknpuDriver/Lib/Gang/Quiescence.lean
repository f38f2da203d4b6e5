import RknpuDriver.Lib.Gang.Batches
import RknpuDriver.Lib.Gang.Counters

/-! # Idle cores, and what holds of every state

* `Inv`: all invariants; `Inv.step` keeps them.
* `Inv.commit_once`, `Inv.start_idle`, `Inv.finished_batches`: safety.
* `Inv.quiescent`, `Inv.quiescent_done`: when nothing is left to do, nobody waits.
-/

namespace RknpuDriver.Lib
set_option autoImplicit false

namespace Gang
variable {J C : Type} [DecidableEq C] [DecidableEq J]

/-! ## Idle cores -/

/-- Running the task makes core `c` look at its queue. -/
def Wakes (s : Gang J C) (c : C) : Task J C → Prop
  | .pop c' => c' = c
  | .scan j c' => c' = c ∧ c ∈ (s.data j).cores
  | _ => False

omit [DecidableEq C] [DecidableEq J] in
theorem Wakes.of_cores {s t : Gang J C} {c : C} {x : Task J C} (hwakes : s.Wakes c x)
    (hcores : ∀ j, queuedJob x = some j → (t.data j).cores = (s.data j).cores) : t.Wakes c x := by
  cases x with
  | scan j c' => exact ⟨hwakes.1, (hcores j rfl).symm ▸ hwakes.2⟩
  | pop c' => exact hwakes
  | prepare | dec | commit | start | irq | complete | clear | finish | setDone => exact hwakes

/-- Some thread is about to let an idle core with a queue take its next job. -/
def Waking (s : Gang J C) : Prop :=
  ∀ c, s.current c = none → s.queue c ≠ [] → ∃ x ∈ s.tasks, s.Wakes c x

theorem Waking.swap {s t : Gang J C} (hl : s.Lined) (hs : s.Waking) {x : Task J C}
    {n r : Multiset (Task J C)} (h : s.tasks = x ::ₘ r) (ht : t.tasks = n + r)
    (hx : ∀ c, s.Wakes c x → t.current c = none → t.queue c ≠ [] → ∃ y ∈ n, t.Wakes c y)
    (hcores : ∀ j ∈ s.order, (t.data j).cores = (s.data j).cores)
    (hqueue : t.queue = s.queue) (hcurrent : t.current = s.current) : t.Waking := by
  intro c hc hq
  obtain ⟨y, hy, hwakes⟩ := hs c (hcurrent ▸ hc) (hqueue ▸ hq)
  rw [h] at hy
  rcases Multiset.mem_cons.mp hy with rfl | hy
  · obtain ⟨z, hz, hzw⟩ := hx c hwakes hc hq
    exact ⟨z, by simp [ht, hz], hzw⟩
  · refine ⟨y, by simp [ht, hy], ?_⟩
    exact hwakes.of_cores fun j hj => hcores j (hl.named y (by simp [h, hy]) j hj)

omit [DecidableEq J] in
theorem Waking.enqueue {s t : Gang J C} (hs : s.Waking) {j : J} {all : List C}
    {r : Multiset (Task J C)} (h : s.tasks = .prepare j ::ₘ r)
    (hall : ∀ c ∈ (s.data j).cores, c ∈ all) (hdata : t.data = s.data)
    (hcurrent : t.current = s.current)
    (hqueue : ∀ c, t.queue c = if c ∈ (s.data j).cores then s.queue c ++ [j] else s.queue c)
    (htasks : t.tasks = (all.map (.scan j) : List (Task J C)) + r) : t.Waking := by
  intro c hc hq
  rw [hqueue] at hq
  split_ifs at hq with hmem
  · refine ⟨.scan j c, ?_, rfl, hdata ▸ hmem⟩
    rw [htasks]
    exact Multiset.mem_add.mpr (Or.inl (Multiset.mem_coe.mpr
      (List.mem_map.mpr ⟨c, hall c hmem, rfl⟩)))
  · obtain ⟨x, hx, hwakes⟩ := hs c (hcurrent ▸ hc) hq
    have hne : x ≠ .prepare j := by
      rintro rfl
      exact hwakes
    refine ⟨x, ?_, ?_⟩
    · rw [h] at hx
      simp [htasks, (Multiset.mem_cons.mp hx).resolve_left hne]
    · exact hwakes.of_cores fun i _ => by rw [hdata]

omit [DecidableEq J] in
theorem Waking.pop {s t : Gang J C} (hs : s.Waking) {c : C} {j : J} {rest : List J}
    {r : Multiset (Task J C)} (h : s.tasks = .pop c ::ₘ r) (hdata : t.data = s.data)
    (hqueue : ∀ c', t.queue c' = if c' = c then rest else s.queue c')
    (hcurrent : ∀ c', t.current c' = if c' = c then some j else s.current c')
    (htasks : t.tasks = .dec j ::ₘ r) : t.Waking := by
  intro c' hc' hq
  rw [hcurrent] at hc'
  rw [hqueue] at hq
  split_ifs at hc' hq with hc
  obtain ⟨x, hx, hwakes⟩ := hs c' hc' hq
  have hne : x ≠ .pop c := by
    rintro rfl
    exact hc hwakes.symm
  refine ⟨x, ?_, ?_⟩
  · rw [h] at hx
    simp [htasks, (Multiset.mem_cons.mp hx).resolve_left hne]
  · exact hwakes.of_cores fun i _ => by rw [hdata]

omit [DecidableEq J] in
theorem Waking.clear {s t : Gang J C} (hs : s.Waking) {j : J} {c : C}
    {r : Multiset (Task J C)} (h : s.tasks = .clear j c ::ₘ r) (hdata : t.data = s.data)
    (hqueue : t.queue = s.queue)
    (hcurrent : ∀ c', t.current c' = if c' = c then none else s.current c')
    (htasks : t.tasks = .finish j ::ₘ .pop c ::ₘ r) : t.Waking := by
  intro c' hc' hq
  rw [hcurrent] at hc'
  split_ifs at hc' with hc
  · exact ⟨.pop c, by simp [htasks], hc.symm⟩
  · obtain ⟨x, hx, hwakes⟩ := hs c' hc' (hqueue ▸ hq)
    have hne : x ≠ .clear j c := by
      rintro rfl
      exact hwakes
    refine ⟨x, ?_, ?_⟩
    · rw [h] at hx
      simp [htasks, (Multiset.mem_cons.mp hx).resolve_left hne]
    · exact hwakes.of_cores fun i _ => by rw [hdata]

theorem Waking.step {s t : Gang J C} (hl : s.Lined) (hs : s.Waking) (h : Step s t) :
    t.Waking := by
  have hnew : ∀ (j : J) (d : JobData C) (_ : j ∉ s.order) i, i ∈ s.order →
      ((s.setData j d).data i).cores = (s.data i).cores := fun j d hj i hi => by
    rw [setData_of_mem hj d i hi]
  have hkeep : ∀ x, x ∈ s.tasks → ∀ {u : Gang J C} {c : C},
      (∀ i ∈ s.order, (u.data i).cores = (s.data i).cores) → s.Wakes c x → u.Wakes c x := by
    intro x hx u c hcores hwakes
    exact hwakes.of_cores fun i hi => hcores i (hl.named x hx i hi)
  cases h with
  | stutter => exact hs
  | submit j d hj hfree =>
    intro c hc hq
    obtain ⟨x, hx, hwakes⟩ := hs c hc hq
    exact ⟨x, Multiset.mem_cons_of_mem hx, hkeep x hx (hnew j d hj) hwakes⟩
  | adjust j d hj =>
    intro c hc hq
    obtain ⟨x, hx, hwakes⟩ := hs c hc hq
    exact ⟨x, hx, hkeep x hx (hnew j d hj) hwakes⟩
  | drop j r h =>
    exact hs.swap hl h (zero_add r).symm (fun _ hx => hx.elim) (fun _ _ => rfl) rfl rfl
  | enqueue j all r h hready hall => exact hs.enqueue h hall rfl rfl (fun _ => rfl) rfl
  | scan j c r h =>
    refine hs.swap hl h rfl ?_ (fun _ _ => rfl) rfl rfl
    rintro c' ⟨rfl, hmem⟩ - -
    exact ⟨.pop c, by simp [hmem], rfl⟩
  | popNone c r h hc =>
    refine hs.swap hl h (zero_add r).symm ?_ (fun _ _ => rfl) rfl rfl
    rintro c' rfl hcur hq
    rcases hc with hc | hc
    · exact absurd hcur hc
    · exact absurd hc hq
  | pop c j rest r h hcur hq =>
    exact hs.pop h rfl (fun _ => Function.update_apply ..) (fun _ => Function.update_apply ..) rfl
  | dec j r h =>
    exact hs.swap hl h rfl (fun _ hx => hx.elim) (fun i _ => setData_congr (·.cores) (by rfl) i)
      rfl rfl
  | commit j r h => exact hs.swap hl h rfl (fun _ hx => hx.elim) (fun _ _ => rfl) rfl rfl
  | start j c r h =>
    exact hs.swap hl h (zero_add r).symm (fun _ hx => hx.elim) (fun _ _ => rfl) rfl rfl
  | raise c j h =>
    intro c' hc hq
    obtain ⟨x, hx, hwakes⟩ := hs c' hc hq
    exact ⟨x, Multiset.mem_cons_of_mem hx, hwakes⟩
  | irqNone c r h hcur | irq c j r h hcur =>
    exact hs.swap hl h (Multiset.singleton_add _ r).symm (fun _ hx => hx.elim) (fun _ _ => rfl) rfl
      rfl
  | complete j c r h =>
    exact hs.swap hl h (Multiset.singleton_add _ r).symm (fun _ hx => hx.elim)
      (fun i _ => setData_congr (·.cores) (by rfl) i) rfl rfl
  | clear j c r h =>
    exact hs.clear h rfl rfl (fun _ => Function.update_apply ..) rfl
  | finish j r h =>
    exact hs.swap hl h rfl (fun _ hx => hx.elim) (fun i _ => setData_congr (·.cores) (by rfl) i)
      rfl rfl
  | setDone j r h =>
    exact hs.swap hl h (zero_add r).symm (fun _ hx => hx.elim) (fun _ _ => rfl) rfl rfl

/-! ## All of it -/

structure Inv (s : Gang J C) : Prop where
  lined : s.Lined
  gathered : s.Gathered
  batched : s.Batched
  counted : s.Counted
  waking : s.Waking

theorem inv_init {s : Gang J C} (horder : s.order = []) (htasks : s.tasks = 0)
    (hqueue : ∀ c, s.queue c = []) (hcurrent : ∀ c, s.current c = none)
    (hrunning : ∀ c, s.running c = none) (hpopped : ∀ c, s.popped c = [])
    (hcommits : ∀ j, s.commits j = 0) (hdones : ∀ j, s.dones j = 0)
    (hstarts : ∀ j c, s.starts j c = 0) : s.Inv := by
  have hno : ∀ j, j ∉ s.order := by simp [horder]
  refine ⟨⟨?_, ?_, ?_, ?_, ?_, ?_, ?_, ?_⟩, ⟨?_, ?_, ?_, ?_, ?_, ?_, ?_⟩, ⟨?_, ?_, ?_, ?_, ?_, ?_⟩,
    ⟨?_, ?_, ?_, ?_⟩, fun c _ hq => (hq (hqueue c)).elim⟩
  all_goals intros
  all_goals simp_all [token]

theorem Inv.step {s t : Gang J C} (hs : s.Inv) (h : Step s t) : t.Inv where
  lined := hs.lined.step h
  gathered := hs.gathered.step hs.lined h
  batched := hs.batched.step hs.lined hs.gathered h
  counted := hs.counted.step hs.lined hs.gathered h
  waking := hs.waking.step hs.lined h

/-! ## What the invariant says -/

theorem Inv.token_le {s : Gang J C} (hs : s.Inv) (c : C) : s.token c ≤ 1 := by
  cases hc : s.current c with
  | none =>
    rw [hs.gathered.idle c hc]
    exact Nat.zero_le 1
  | some j =>
    have hbusy := hs.gathered.busy c j hc
    split_ifs at hbusy <;> omega

/-- When a batch is about to be started, nothing is outstanding on the core. -/
theorem Inv.start_idle {s : Gang J C} (hs : s.Inv) {j : J} {c : C} (h : .start j c ∈ s.tasks) :
    s.running c = none ∧ ∀ x ∈ s.tasks, inBatch c x = 0 := by
  obtain ⟨r, hr⟩ := Multiset.exists_cons_of_mem h
  have htoken := hs.token_le c
  rw [token, hr, Multiset.map_cons, Multiset.sum_cons] at htoken
  have hone : holds c (.start j c) = 1 := if_pos rfl
  refine ⟨?_, fun x hx => ?_⟩
  · cases hc : s.running c with
    | none => rfl
    | some i =>
      rw [hc, Option.toList_some, List.length_singleton] at htoken
      omega
  · rw [hr, Multiset.mem_cons] at hx
    rcases hx with rfl | hx
    · rfl
    · have hle := inBatch_le_holds c x
      have := le_sum_holds hx c
      omega

theorem Inv.commit_once {s : Gang J C} (hs : s.Inv) (j : J) :
    s.commits j + s.tasks.count (.commit j) ≤ 1 := by
  by_cases hj : j ∈ s.order
  · have hcommits := hs.counted.commits j hj
    split_ifs at hcommits <;> omega
  · have hno : s.tasks.count (.commit j) = 0 :=
      Multiset.count_eq_zero.mpr fun hmem => hj (hs.lined.named _ hmem j rfl)
    rw [(hs.counted.zero j hj).1, hno]
    exact Nat.zero_le 1

theorem Inv.done_once {s : Gang J C} (hs : s.Inv) (j : J) :
    s.dones j + s.tasks.count (.setDone j) ≤ 1 := by
  by_cases hj : j ∈ s.order
  · have hdones := hs.counted.dones j hj
    split_ifs at hdones <;> omega
  · have hno : s.tasks.count (.setDone j) = 0 :=
      Multiset.count_eq_zero.mpr fun hmem => hj (hs.lined.named _ hmem j rfl)
    rw [(hs.counted.zero j hj).2, hno]
    exact Nat.zero_le 1

/-- A job that is done, or is about to be, was queued, and its interrupts are all counted. -/
theorem Inv.finished {s : Gang J C} (hs : s.Inv) {j : J}
    (h : 0 < s.dones j + s.tasks.count (.setDone j)) :
    j ∈ s.order ∧ (s.data j).interruptCount = 0 := by
  have hj : j ∈ s.order := by
    by_contra hj
    have hno : s.tasks.count (.setDone j) = 0 :=
      Multiset.count_eq_zero.mpr fun hmem => hj (hs.lined.named _ hmem j rfl)
    rw [(hs.counted.zero j hj).2, hno] at h
    exact Nat.lt_irrefl 0 h
  refine ⟨hj, ?_⟩
  have hdones := hs.counted.dones j hj
  split_ifs at hdones with hzero
  · exact hzero
  · omega

/-- All batches of a finished job were started and counted, on all its cores. -/
theorem Inv.finished_batches {s : Gang J C} (hs : s.Inv) {j : J}
    (h : 0 < s.dones j + s.tasks.count (.setDone j)) {c : C} (hc : c ∈ (s.data j).cores) :
    (s.data j).submitCount c = (s.data j).batches c ∧ s.starts j c = (s.data j).batches c := by
  obtain ⟨hj, hzero⟩ := hs.finished h
  obtain ⟨hqueue, hcurrent⟩ := hs.counted.gone hj hzero hc
  have hcount := hs.batched.gone j hj c hc hqueue hcurrent
  have hstarts := hs.batched.starts j hj c
  rw [if_neg hcurrent, add_zero] at hstarts
  exact ⟨hcount, hstarts.trans hcount⟩

theorem Inv.finished_tasks {s : Gang J C} (hs : s.Inv) {j : J} (h : 0 < s.dones j)
    {x : Task J C} (hx : x ∈ s.tasks) (hj : queuedJob x = some j) : ∃ c, x = .scan j c := by
  obtain ⟨horder, hzero⟩ := hs.finished (Nat.lt_of_lt_of_le h (Nat.le_add_right _ _))
  have hgone := fun c hc => hs.counted.gone horder hzero (c := c) hc
  have howner : ∀ c, jobCore x ≠ some (j, c) := by
    intro c hcon
    have hcur := hs.gathered.owner x hx j c hcon
    exact (hgone c (hs.lined.current hcur).2.1).2 hcur
  obtain ⟨c, hc⟩ := List.exists_mem_of_ne_nil _ (hs.lined.needs j horder).1
  cases x with
  | scan i c =>
    obtain rfl : i = j := Option.some.inj hj
    exact ⟨c, rfl⟩
  | dec i =>
    obtain rfl : i = j := Option.some.inj hj
    have hrun := hs.gathered.gone i horder c hc (hgone c hc).1 (hgone c hc).2
    have hcount := hs.gathered.runCount i horder
    have := Multiset.count_pos.mpr hx
    omega
  | commit i =>
    obtain rfl : i = j := Option.some.inj hj
    exact ((hgone c hc).2 (hs.gathered.all i hx c hc)).elim
  | start i d | complete i d | clear i d =>
    obtain rfl : i = j := Option.some.inj hj
    exact (howner d rfl).elim
  | finish i =>
    obtain rfl : i = j := Option.some.inj hj
    have hcount := hs.counted.interruptCount i horder
    have := Multiset.count_pos.mpr hx
    omega
  | setDone i =>
    obtain rfl : i = j := Option.some.inj hj
    have honce := hs.done_once i
    have := Multiset.count_pos.mpr hx
    omega
  | prepare i | pop d | irq d => cases hj

/-- A core's current job and those behind it. -/
def line (s : Gang J C) (c : C) : List J := (s.current c).toList ++ s.queue c

theorem Lined.line_sublist {s : Gang J C} (hs : s.Lined) (c : C) :
    (s.line c).Sublist s.order := by
  have hfilter : (s.popped c ++ s.queue c).Sublist s.order := by
    rw [hs.fifo c]
    exact List.filter_sublist
  refine List.Sublist.trans ?_ hfilter
  refine List.Sublist.append_right ?_ _
  cases hc : s.current c with
  | none => exact List.nil_sublist _
  | some j =>
    obtain ⟨l, hl⟩ := hs.last c j hc
    rw [hl]
    exact List.sublist_append_right l [j]

/-- **No deadlock**: when nothing is left to do for jobs that were queued and no batch runs,
every queue is empty and no core has a job. -/
theorem Inv.quiescent {s : Gang J C} (hs : s.Inv) (htasks : ∀ x ∈ s.tasks, ∃ j, x = .prepare j)
    (hrunning : ∀ c, s.running c = none) (c : C) : s.queue c = [] ∧ s.current c = none := by
  have hcount : ∀ x, (∀ j, x ≠ .prepare j) → s.tasks.count x = 0 := by
    intro x hx
    refine Multiset.count_eq_zero.mpr fun hmem => ?_
    obtain ⟨j, hj⟩ := htasks x hmem
    exact hx j hj
  have hsum : ∀ c, (s.tasks.map (holds c)).sum = 0 := by
    intro c
    refine Multiset.sum_eq_zero fun n hn => ?_
    obtain ⟨x, hx, rfl⟩ := Multiset.mem_map.mp hn
    obtain ⟨j, rfl⟩ := htasks x hx
    rfl
  have hidle : ∀ c, s.current c = none → s.queue c = [] := by
    intro c hc
    by_contra hq
    obtain ⟨x, hx, hwakes⟩ := hs.waking c hc hq
    obtain ⟨j, rfl⟩ := htasks x hx
    exact hwakes
  have hwait : ∀ c j, (s.line c).head? = some j → ∃ c', j ∈ (s.line c').tail := by
    intro c j hj
    cases hc : s.current c with
    | none =>
      rw [line, hc, hidle c hc] at hj
      cases hj
    | some i =>
      obtain rfl : i = j := by simpa [line, hc] using hj
      have hbusy := hs.gathered.busy c i hc
      rw [token, hsum, hrunning c, hcount _ fun j => by simp] at hbusy
      have hrun : (s.data i).runCount ≠ 0 := by
        intro hz
        rw [if_pos hz] at hbusy
        cases hbusy
      have hwaiting := hs.gathered.runCount i (hs.lined.current hc).1
      rw [hcount _ fun j => by simp] at hwaiting
      have hpos : 0 < s.waiting i := by omega
      obtain ⟨c', hc', hq⟩ : ∃ c' ∈ (s.data i).cores, i ∈ s.queue c' := by
        by_contra hcon
        push Not at hcon
        have : s.waiting i = 0 := by
          refine List.sum_eq_zero fun n hn => ?_
          obtain ⟨c', hc', rfl⟩ := List.mem_map.mp hn
          exact if_neg (hcon c' hc')
        omega
      refine ⟨c', ?_⟩
      cases hcur : s.current c' with
      | none =>
        rw [hidle c' hcur] at hq
        cases hq
      | some k => simpa [line, hcur] using hq
  have hline := no_circular_wait hs.lined.nodup hs.lined.line_sublist hwait c
  rw [line, List.append_eq_nil_iff] at hline
  exact ⟨hline.2, by simpa using hline.1⟩

theorem Inv.quiescent_done {s : Gang J C} (hs : s.Inv)
    (htasks : ∀ x ∈ s.tasks, ∃ j, x = .prepare j) (hrunning : ∀ c, s.running c = none) {j : J}
    (hj : j ∈ s.order) : s.dones j = 1 := by
  have hcount : ∀ x, (∀ j, x ≠ .prepare j) → s.tasks.count x = 0 := by
    intro x hx
    refine Multiset.count_eq_zero.mpr fun hmem => ?_
    obtain ⟨j, hj⟩ := htasks x hmem
    exact hx j hj
  have hheld : s.held j = 0 := by
    refine List.sum_eq_zero fun n hn => ?_
    obtain ⟨c, -, rfl⟩ := List.mem_map.mp hn
    obtain ⟨hqueue, hcurrent⟩ := hs.quiescent htasks hrunning c
    simp [hqueue, hcurrent]
  have hint := hs.counted.interruptCount j hj
  have hdones := hs.counted.dones j hj
  rw [hheld, hcount _ fun j => by simp] at hint
  rw [hcount _ fun j => by simp, if_pos (by simpa using hint)] at hdones
  simpa using hdones

end Gang
end RknpuDriver.Lib
