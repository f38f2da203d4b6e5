import Mathlib.Algebra.BigOperators.Group.Multiset.Basic
import Mathlib.Algebra.GroupWithZero.Nat
import Mathlib.Algebra.Order.BigOperators.Group.List
import Mathlib.Algebra.Order.BigOperators.Group.Multiset
import Mathlib.Algebra.Order.Group.Multiset
import Mathlib.Algebra.Order.Group.Nat
import Mathlib.Data.List.Nodup
import Mathlib.Data.Multiset.Count
import Mathlib.Tactic.SplitIfs

/-! # Gang scheduling over FIFO queues

A job needs several cores at once. It is put on the queues of all its cores in one step; every
core takes the head of its own queue as its current job; when the last of its cores has taken
a job, the job is committed: a batch is started on each core, and each core is given up when
all its batches have raised their interrupt.

All of this is done by many threads in many small steps. `tasks` is the multiset of what the
threads still have to do, `Step` one step of one thread. `Gang` only knows which cores and how
many batches a job needs; the rest of the state are the queues, the current jobs, the running
batches, two counters for each job and one for each job and core.

* `Inv`: what every step keeps (`Inv.step`).
* `no_circular_wait`: lines that are ordered alike cannot wait for each other in a circle.
* `Inv.quiescent`: when nothing is left to do and nothing runs, all queues are empty.
-/

namespace RknpuDriver.Lib
set_option autoImplicit false

variable {J C : Type}

/-! ## Lines ordered alike -/

theorem pairwise_idxOf [DecidableEq J] {order : List J} (hnd : order.Nodup) :
    order.Pairwise fun a b => order.idxOf a < order.idxOf b := by
  rw [List.pairwise_iff_getElem]
  intro x y hx hy hxy
  rwa [hnd.idxOf_getElem x hx, hnd.idxOf_getElem y hy]

/-- Lines that are sublists of one order and wait for each other only forwards are empty. -/
theorem no_circular_wait {order : List J} {line : C → List J} (hnd : order.Nodup)
    (hsub : ∀ c, (line c).Sublist order)
    (hwait : ∀ c j, (line c).head? = some j → ∃ c', j ∈ (line c').tail) (c : C) :
    line c = [] := by
  classical
  -- the head of a line stands behind the head of another one, which comes earlier in `order`
  have hnone : ∀ n c j, (line c).head? = some j → order.idxOf j = n → False := by
    intro n
    induction n using Nat.strong_induction_on with
    | _ n ih =>
      intro c j hj hn
      obtain ⟨c', hmem⟩ := hwait c j hj
      cases hline : line c' with
      | nil =>
        rw [hline] at hmem
        exact List.not_mem_nil hmem
      | cons k rest =>
        rw [hline, List.tail_cons] at hmem
        have hpair : [k, j].Sublist order :=
          ((List.singleton_sublist.mpr hmem).cons_cons k).trans (hline ▸ hsub c')
        have hlt : order.idxOf k < order.idxOf j := by
          simpa using (pairwise_idxOf hnd).sublist hpair
        exact ih (order.idxOf k) (hn ▸ hlt) c' k (by rw [hline]; rfl) rfl
  cases hline : line c with
  | nil => rfl
  | cons j rest => exact (hnone _ c j (by rw [hline]; rfl) rfl).elim

/-- Two elements that stand in two lines of one order stand there the same way round. -/
theorem same_order {order l m : List J} (hnd : order.Nodup) (hl : l.Sublist order)
    (hm : m.Sublist order) {a b : J} (hab : [a, b].Sublist l) (ha : a ∈ m) (hb : b ∈ m) :
    [a, b].Sublist m := by
  classical
  have hlt : order.idxOf a < order.idxOf b := by
    simpa using (pairwise_idxOf hnd).sublist (hab.trans hl)
  have hm' := (pairwise_idxOf hnd).sublist hm
  obtain ⟨s, t, rfl⟩ := List.append_of_mem ha
  rcases List.mem_append.mp hb with hb | hb
  · have := (List.pairwise_append.mp hm').2.2 b hb a List.mem_cons_self
    omega
  · rcases List.mem_cons.mp hb with rfl | hb
    · omega
    · exact ((List.singleton_sublist.mpr hb).cons_cons a).trans (List.sublist_append_right s _)

/-! ## States and steps -/

/-- What a thread still has to do. `prepare` is everything before a job is queued. -/
inductive Task (J C : Type) where
  | prepare (j : J)
  | scan (j : J) (c : C)
  | pop (c : C)
  | dec (j : J)
  | commit (j : J)
  | start (j : J) (c : C)
  | irq (c : C)
  | complete (j : J) (c : C)
  | clear (j : J) (c : C)
  | finish (j : J)
  | setDone (j : J)
  deriving DecidableEq

structure JobData (C : Type) where
  runCount : ℤ
  interruptCount : ℤ
  submitCount : C → ℤ
  cores : List C
  batches : C → ℤ

/-- `order`, `popped`, `commits`, `dones` and `starts` record the run: the jobs in the order in
which they were queued, the jobs each core took, and how often a job was committed, was done,
and had a batch started on a core. -/
@[ext] structure Gang (J C : Type) where
  data : J → JobData C
  queue : C → List J
  current : C → Option J
  running : C → Option J
  tasks : Multiset (Task J C)
  order : List J
  popped : C → List J
  commits : J → ℕ
  dones : J → ℕ
  starts : J → C → ℕ

/-- A job as it is queued: its counters are those of a job that was never taken, and it needs
a core, no core twice, and a batch on each. -/
structure JobData.Ready (d : JobData C) : Prop where
  cores_ne : d.cores ≠ []
  nodup : d.cores.Nodup
  runCount : d.runCount = d.cores.length
  interruptCount : d.interruptCount = d.cores.length
  submitCount : ∀ c, d.submitCount c = 0
  batches : ∀ c ∈ d.cores, 1 ≤ d.batches c

namespace Gang

section
variable [DecidableEq J]

def setData (s : Gang J C) (j : J) (d : JobData C) : Gang J C :=
  { s with data := Function.update s.data j d }

@[simp] theorem setData_data (s : Gang J C) (j i : J) (d : JobData C) :
    (s.setData j d).data i = if i = j then d else s.data i := Function.update_apply ..

theorem setData_of_mem {s : Gang J C} {j : J} (hj : j ∉ s.order) (d : JobData C) (i : J)
    (hi : i ∈ s.order) : (s.setData j d).data i = s.data i := by
  have hij : i ≠ j := fun hij => hj (hij ▸ hi)
  rw [setData_data, if_neg hij]

theorem setData_congr {β : Type} {s : Gang J C} {j : J} {d : JobData C} (f : JobData C → β)
    (hf : f d = f (s.data j)) (i : J) : f ((s.setData j d).data i) = f (s.data i) := by
  rw [setData_data]
  split_ifs with h
  · rw [hf, h]
  · rfl

end

variable [DecidableEq C]

theorem filter_congr_cores {s t : Gang J C}
    (h : ∀ j ∈ s.order, (t.data j).cores = (s.data j).cores) (c : C) :
    (s.order.filter fun j => c ∈ (t.data j).cores) =
      s.order.filter fun j => c ∈ (s.data j).cores := by
  refine List.filter_congr fun j hj => ?_
  rw [h j hj]

variable [DecidableEq J]

/-- One step of one thread, or of the hardware (`raise`). -/
inductive Step (s : Gang J C) : Gang J C → Prop where
  | stutter : Step s s
  | submit (j : J) (d : JobData C) (hj : j ∉ s.order) (hnew : .prepare j ∉ s.tasks) :
      Step s { s.setData j d with tasks := .prepare j ::ₘ s.tasks }
  | adjust (j : J) (d : JobData C) (hj : j ∉ s.order) : Step s (s.setData j d)
  | drop (j : J) (r : Multiset (Task J C)) (h : s.tasks = .prepare j ::ₘ r) :
      Step s { s with tasks := r }
  | enqueue (j : J) (all : List C) (r : Multiset (Task J C)) (h : s.tasks = .prepare j ::ₘ r)
      (hready : (s.data j).Ready) (hall : ∀ c ∈ (s.data j).cores, c ∈ all) :
      Step s { s with
        queue := fun c => if c ∈ (s.data j).cores then s.queue c ++ [j] else s.queue c
        order := s.order ++ [j]
        tasks := (all.map (.scan j) : List (Task J C)) + r }
  | scan (j : J) (c : C) (r : Multiset (Task J C)) (h : s.tasks = .scan j c ::ₘ r) :
      Step s { s with tasks := (if c ∈ (s.data j).cores then {.pop c} else 0) + r }
  | popNone (c : C) (r : Multiset (Task J C)) (h : s.tasks = .pop c ::ₘ r)
      (hc : s.current c ≠ none ∨ s.queue c = []) : Step s { s with tasks := r }
  | pop (c : C) (j : J) (rest : List J) (r : Multiset (Task J C)) (h : s.tasks = .pop c ::ₘ r)
      (hcur : s.current c = none) (hq : s.queue c = j :: rest) :
      Step s { s with
        queue := Function.update s.queue c rest
        current := Function.update s.current c (some j)
        popped := Function.update s.popped c (s.popped c ++ [j])
        tasks := .dec j ::ₘ r }
  | dec (j : J) (r : Multiset (Task J C)) (h : s.tasks = .dec j ::ₘ r) :
      Step s { s.setData j { s.data j with runCount := (s.data j).runCount - 1 } with
        tasks := (if (s.data j).runCount - 1 = 0 then {.commit j} else 0) + r }
  | commit (j : J) (r : Multiset (Task J C)) (h : s.tasks = .commit j ::ₘ r) :
      Step s { s with
        commits := Function.update s.commits j (s.commits j + 1)
        tasks := ((s.data j).cores.map (.start j) : List (Task J C)) + r }
  | start (j : J) (c : C) (r : Multiset (Task J C)) (h : s.tasks = .start j c ::ₘ r) :
      Step s { s with
        running := Function.update s.running c (some j)
        starts := Function.update s.starts j
          (Function.update (s.starts j) c (s.starts j c + 1))
        tasks := r }
  | raise (c : C) (j : J) (h : s.running c = some j) :
      Step s { s with
        running := Function.update s.running c none
        tasks := .irq c ::ₘ s.tasks }
  | irqNone (c : C) (r : Multiset (Task J C)) (h : s.tasks = .irq c ::ₘ r)
      (hcur : s.current c = none) : Step s { s with tasks := .pop c ::ₘ r }
  | irq (c : C) (j : J) (r : Multiset (Task J C)) (h : s.tasks = .irq c ::ₘ r)
      (hcur : s.current c = some j) : Step s { s with tasks := .complete j c ::ₘ r }
  | complete (j : J) (c : C) (r : Multiset (Task J C)) (h : s.tasks = .complete j c ::ₘ r) :
      Step s { s.setData j { s.data j with
          submitCount := Function.update (s.data j).submitCount c
            ((s.data j).submitCount c + 1) } with
        tasks := (if (s.data j).submitCount c + 1 < (s.data j).batches c then .start j c
          else .clear j c) ::ₘ r }
  | clear (j : J) (c : C) (r : Multiset (Task J C)) (h : s.tasks = .clear j c ::ₘ r) :
      Step s { s with
        current := Function.update s.current c none
        tasks := .finish j ::ₘ .pop c ::ₘ r }
  | finish (j : J) (r : Multiset (Task J C)) (h : s.tasks = .finish j ::ₘ r) :
      Step s { s.setData j { s.data j with interruptCount := (s.data j).interruptCount - 1 } with
        tasks := (if (s.data j).interruptCount - 1 = 0 then {.setDone j} else 0) + r }
  | setDone (j : J) (r : Multiset (Task J C)) (h : s.tasks = .setDone j ::ₘ r) :
      Step s { s with dones := Function.update s.dones j (s.dones j + 1), tasks := r }

/-! ## The lines -/

/-- The job a task works for, when it is a job that was queued. -/
def queuedJob : Task J C → Option J
  | .scan j _ | .dec j | .commit j | .start j _ | .complete j _ | .clear j _ | .finish j
  | .setDone j => some j
  | .prepare _ | .pop _ | .irq _ => none

/-- Every core's line is a part of the one order in which the jobs were queued. -/
structure Lined (s : Gang J C) : Prop where
  nodup : s.order.Nodup
  once : ∀ j, s.tasks.count (.prepare j) ≤ 1
  fresh : ∀ j, .prepare j ∈ s.tasks → j ∉ s.order
  named : ∀ t ∈ s.tasks, ∀ j, queuedJob t = some j → j ∈ s.order
  running : ∀ c j, s.running c = some j → j ∈ s.order
  needs : ∀ j ∈ s.order, (s.data j).cores ≠ [] ∧ (s.data j).cores.Nodup ∧
    ∀ c ∈ (s.data j).cores, 1 ≤ (s.data j).batches c
  fifo : ∀ c, s.popped c ++ s.queue c = s.order.filter fun j => c ∈ (s.data j).cores
  last : ∀ c j, s.current c = some j → ∃ l, s.popped c = l ++ [j]

theorem Lined.mem_queue {s : Gang J C} (hs : s.Lined) {c : C} {j : J} (h : j ∈ s.queue c) :
    j ∈ s.order ∧ c ∈ (s.data j).cores := by
  have hmem : j ∈ s.popped c ++ s.queue c := List.mem_append_right _ h
  rw [hs.fifo c] at hmem
  simpa using hmem

theorem Lined.nodup_line {s : Gang J C} (hs : s.Lined) (c : C) :
    (s.popped c ++ s.queue c).Nodup := by
  rw [hs.fifo c]
  exact hs.nodup.filter _

theorem Lined.current {s : Gang J C} (hs : s.Lined) {c : C} {j : J}
    (h : s.current c = some j) : j ∈ s.order ∧ c ∈ (s.data j).cores ∧ j ∉ s.queue c := by
  obtain ⟨l, hl⟩ := hs.last c j h
  have hmem : j ∈ s.popped c := by simp [hl]
  have hfilter : j ∈ s.popped c ++ s.queue c := List.mem_append_left _ hmem
  refine ⟨?_, ?_, fun hq => ?_⟩
  · rw [hs.fifo c] at hfilter
    exact (List.mem_filter.mp hfilter).1
  · rw [hs.fifo c] at hfilter
    simpa using (List.mem_filter.mp hfilter).2
  · exact List.disjoint_of_nodup_append (hs.nodup_line c) hmem hq

theorem Lined.frame {s t : Gang J C} (hs : s.Lined) (horder : t.order = s.order)
    (hdata : ∀ j ∈ s.order, (t.data j).cores = (s.data j).cores ∧
      (t.data j).batches = (s.data j).batches)
    (hqueue : t.queue = s.queue) (hpopped : t.popped = s.popped)
    (hcurrent : ∀ c j, t.current c = some j → s.current c = some j)
    (hrunning : ∀ c j, t.running c = some j → j ∈ s.order)
    (hold : ∀ j, t.tasks.count (.prepare j) ≤ s.tasks.count (.prepare j))
    (htasks : ∀ x ∈ t.tasks, x ∈ s.tasks ∨ ∀ j, queuedJob x = some j → j ∈ s.order) :
    t.Lined where
  nodup := horder ▸ hs.nodup
  once j := Nat.le_trans (hold j) (hs.once j)
  fresh j hj := by
    rw [horder]
    refine hs.fresh j (Multiset.count_pos.mp ?_)
    have := Multiset.count_pos.mpr hj
    have := hold j
    omega
  named x hx j hj := by
    rw [horder]
    rcases htasks x hx with hx | hx
    · exact hs.named x hx j hj
    · exact hx j hj
  running c j hj := horder ▸ hrunning c j hj
  needs j hj := by
    rw [horder] at hj
    rw [(hdata j hj).1, (hdata j hj).2]
    exact hs.needs j hj
  fifo c := by
    rw [hpopped, hqueue, horder, hs.fifo c]
    exact (filter_congr_cores (fun j hj => (hdata j hj).1) c).symm
  last c j hj := hpopped ▸ hs.last c j (hcurrent c j hj)

theorem Lined.enqueue {s : Gang J C} (hs : s.Lined) {j : J} {r : Multiset (Task J C)}
    (h : s.tasks = .prepare j ::ₘ r) (hready : (s.data j).Ready) (all : List C) :
    Lined { s with
      queue := fun c => if c ∈ (s.data j).cores then s.queue c ++ [j] else s.queue c
      order := s.order ++ [j]
      tasks := (all.map (.scan j) : List (Task J C)) + r } := by
  have hj : j ∉ s.order := hs.fresh j (by simp [h])
  have hold : ∀ i, ((all.map (.scan j) : List (Task J C)) + r).count (.prepare i) =
      r.count (.prepare i) := by
    intro i
    simp
  refine ⟨?_, ?_, ?_, ?_, ?_, ?_, ?_, hs.last⟩
  · rw [List.nodup_append]
    refine ⟨hs.nodup, List.nodup_singleton j, fun a ha b hb => ?_⟩
    rw [List.mem_singleton.mp hb]
    exact fun hab => hj (hab ▸ ha)
  · intro i
    have := hs.once i
    rw [h, Multiset.count_cons] at this
    rw [hold]
    omega
  · intro i hi
    have hi' : .prepare i ∈ r := by simpa using hi
    have hne : i ≠ j := by
      rintro rfl
      have := hs.once i
      rw [h, Multiset.count_cons_self] at this
      have := Multiset.count_pos.mpr hi'
      omega
    have := hs.fresh i (by simp [h, hi'])
    simp [this, hne]
  · intro x hx i hi
    rcases Multiset.mem_add.mp hx with hx | hx
    · obtain ⟨c, -, rfl⟩ := List.mem_map.mp (Multiset.mem_coe.mp hx)
      cases hi
      simp
    · exact List.mem_append_left _ (hs.named x (by simp [h, hx]) i hi)
  · intro c i hi
    exact List.mem_append_left _ (hs.running c i hi)
  · intro i hi
    rcases List.mem_append.mp hi with hi | hi
    · exact hs.needs i hi
    · rw [List.mem_singleton.mp hi]
      exact ⟨hready.cores_ne, hready.nodup, hready.batches⟩
  · intro c
    simp only [List.filter_append, ← hs.fifo c]
    by_cases hc : c ∈ (s.data j).cores <;> simp [hc]

theorem Lined.pop {s : Gang J C} (hs : s.Lined) {c : C} {j : J} {rest : List J}
    {r : Multiset (Task J C)} (h : s.tasks = .pop c ::ₘ r) (hq : s.queue c = j :: rest) :
    Lined { s with
      queue := Function.update s.queue c rest
      current := Function.update s.current c (some j)
      popped := Function.update s.popped c (s.popped c ++ [j])
      tasks := .dec j ::ₘ r } := by
  have hj : j ∈ s.order := (hs.mem_queue (by rw [hq]; exact List.mem_cons_self)).1
  have hr : ∀ x ∈ r, x ∈ s.tasks := fun x hx => by simp [h, hx]
  refine ⟨hs.nodup, ?_, ?_, ?_, hs.running, hs.needs, ?_, ?_⟩
  · intro i
    have := hs.once i
    rw [h] at this
    simpa using this
  · intro i hi
    exact hs.fresh i (hr _ (by simpa using hi))
  · intro x hx i hi
    rcases Multiset.mem_cons.mp hx with rfl | hx
    · cases hi
      exact hj
    · exact hs.named x (hr x hx) i hi
  · intro c'
    by_cases hc : c' = c
    · subst hc
      simp [← hs.fifo c', hq]
    · simpa [Function.update_of_ne hc] using hs.fifo c'
  · intro c' i hi
    by_cases hc : c' = c
    · subst hc
      simp only [Function.update_self, Option.some.injEq] at hi ⊢
      exact ⟨_, by rw [hi]⟩
    · simp only [Function.update_of_ne hc] at hi ⊢
      exact hs.last c' i hi

/-- A thread that goes from one task of a queued job to others keeps the lines, unless it
queues or takes a job. -/
theorem Lined.swap {s t : Gang J C} (hs : s.Lined) {x : Task J C}
    {n r : Multiset (Task J C)} (h : s.tasks = x ::ₘ r) (ht : t.tasks = n + r)
    (hnew : ∀ y ∈ n, (∀ i, y ≠ .prepare i) ∧ ∀ i, queuedJob y = some i → i ∈ s.order)
    (horder : t.order = s.order)
    (hdata : ∀ j ∈ s.order, (t.data j).cores = (s.data j).cores ∧
      (t.data j).batches = (s.data j).batches)
    (hqueue : t.queue = s.queue) (hpopped : t.popped = s.popped)
    (hcurrent : ∀ c j, t.current c = some j → s.current c = some j)
    (hrunning : ∀ c j, t.running c = some j → j ∈ s.order) : t.Lined := by
  refine hs.frame horder hdata hqueue hpopped hcurrent hrunning ?_ ?_
  · intro i
    have hzero : n.count (.prepare i) = 0 :=
      Multiset.count_eq_zero.mpr fun hi => (hnew _ hi).1 i rfl
    rw [h, ht, Multiset.count_add, Multiset.count_cons]
    omega
  · intro y hy
    rw [ht] at hy
    rcases Multiset.mem_add.mp hy with hy | hy
    · exact Or.inr (hnew y hy).2
    · exact Or.inl (by simp [h, hy])

theorem Lined.named_cons {s : Gang J C} (hs : s.Lined) {x : Task J C}
    {r : Multiset (Task J C)} (h : s.tasks = x ::ₘ r) {j : J} (hj : queuedJob x = some j) :
    j ∈ s.order := hs.named x (by simp [h]) j hj

theorem Lined.step {s t : Gang J C} (hs : s.Lined) (h : Step s t) : t.Lined := by
  have hsame : ∀ i ∈ s.order, (s.data i).cores = (s.data i).cores ∧
    (s.data i).batches = (s.data i).batches := fun _ _ => ⟨rfl, rfl⟩
  cases h with
  | stutter => exact hs
  | enqueue j all r h hready hall => exact hs.enqueue h hready all
  | pop c j rest r h hcur hq => exact hs.pop h hq
  | submit j d hj hnew =>
    refine ⟨hs.nodup, ?_, ?_, ?_, hs.running, ?_, ?_, hs.last⟩
    · intro i
      rw [Multiset.count_cons]
      split_ifs with hi
      · cases hi
        rw [Multiset.count_eq_zero.mpr hnew]
      · exact hs.once i
    · intro i hi
      rcases Multiset.mem_cons.mp hi with hi | hi
      · cases hi
        exact hj
      · exact hs.fresh i hi
    · intro x hx i hi
      rcases Multiset.mem_cons.mp hx with rfl | hx
      · cases hi
      · exact hs.named x hx i hi
    · intro i hi
      have hij : i ≠ j := fun hij => hj (hij ▸ hi)
      simpa [hij] using hs.needs i hi
    · intro c
      refine (hs.fifo c).trans (filter_congr_cores (fun i hi => ?_) c).symm
      have hij : i ≠ j := fun hij => hj (hij ▸ hi)
      simp [hij]
  | adjust j d hj =>
    refine hs.frame rfl (fun i hi => ?_) rfl rfl (fun _ _ h => h) hs.running
      (fun _ => Nat.le_refl _) fun x hx => Or.inl hx
    have hij : i ≠ j := fun hij => hj (hij ▸ hi)
    simp [hij]
  | drop j r h =>
    exact hs.swap h (zero_add r).symm (by simp) rfl hsame rfl rfl (fun _ _ h => h) hs.running
  | scan j c r h =>
    refine hs.swap h rfl ?_ rfl hsame rfl rfl (fun _ _ h => h) hs.running
    split_ifs <;> simp [queuedJob]
  | popNone c r h hc =>
    exact hs.swap h (zero_add r).symm (by simp) rfl hsame rfl rfl (fun _ _ h => h) hs.running
  | dec j r h =>
    have hj := hs.named_cons h rfl
    refine hs.swap h rfl ?_ rfl ?_ rfl rfl (fun _ _ h => h) hs.running
    · split_ifs <;> simp [queuedJob, hj]
    · exact fun i _ => ⟨setData_congr (·.cores) (by rfl) i, setData_congr (·.batches) (by rfl) i⟩
  | commit j r h =>
    have hj := hs.named_cons h rfl
    exact hs.swap h rfl (by simp [queuedJob, hj]) rfl hsame rfl rfl (fun _ _ h => h) hs.running
  | start j c r h =>
    refine hs.swap h (zero_add r).symm (by simp) rfl hsame rfl rfl (fun _ _ h => h) ?_
    intro c' i hi
    simp only [Function.update_apply] at hi
    split_ifs at hi with hc
    · cases hi
      exact hs.named_cons h rfl
    · exact hs.running c' i hi
  | raise c j h =>
    refine hs.frame rfl hsame rfl rfl (fun _ _ h => h) ?_ (fun i => by simp) ?_
    · intro c' i hi
      simp only [Function.update_apply] at hi
      split_ifs at hi
      exact hs.running c' i hi
    · intro x hx
      rcases Multiset.mem_cons.mp hx with rfl | hx
      · exact Or.inr fun i hi => by cases hi
      · exact Or.inl hx
  | irqNone c r h hcur =>
    exact hs.swap h (Multiset.singleton_add _ r).symm (by simp [queuedJob]) rfl hsame rfl rfl
      (fun _ _ h => h) hs.running
  | irq c j r h hcur =>
    have hj := (hs.current hcur).1
    exact hs.swap h (Multiset.singleton_add _ r).symm (by simp [queuedJob, hj]) rfl hsame rfl rfl
      (fun _ _ h => h) hs.running
  | complete j c r h =>
    have hj := hs.named_cons h rfl
    refine hs.swap h (Multiset.singleton_add _ r).symm ?_ rfl ?_ rfl rfl (fun _ _ h => h)
      hs.running
    · split_ifs <;> simp [queuedJob, hj]
    · exact fun i _ => ⟨setData_congr (·.cores) (by rfl) i, setData_congr (·.batches) (by rfl) i⟩
  | clear j c r h =>
    have hj := hs.named_cons h rfl
    refine hs.swap (n := {.finish j, .pop c}) h (by simp) (by simp [queuedJob, hj]) rfl hsame
      rfl rfl ?_ hs.running
    intro c' i hi
    simp only [Function.update_apply] at hi
    split_ifs at hi
    exact hi
  | finish j r h =>
    have hj := hs.named_cons h rfl
    refine hs.swap h rfl ?_ rfl ?_ rfl rfl (fun _ _ h => h) hs.running
    · split_ifs <;> simp [queuedJob, hj]
    · exact fun i _ => ⟨setData_congr (·.cores) (by rfl) i, setData_congr (·.batches) (by rfl) i⟩
  | setDone j r h =>
    exact hs.swap h (zero_add r).symm (by simp) rfl hsame rfl rfl (fun _ _ h => h) hs.running

end Gang
end RknpuDriver.Lib
