import RknpuDriver.Iommu.Domains
import RknpuDriver.Job.InFences
import RknpuDriver.Job.Matching
import RknpuDriver.Job.References
import Mathlib.Algebra.BigOperators.Intervals

/-! # Jobs that put their domain reference once

The abort of a wait that times out and the completion of a late interrupt both put the reference of
a job, and `rknpu_job_timeout_clean` puts none. `putsOnce` says when every job puts what it got,
once, and while none of its batches executes (`domain_put_once`).

* `Withdrawn`: a job that no core will complete.
* `Putting`: the invariant of the runs that keep to `putsOnce`.
-/

namespace RknpuDriver.Job
set_option autoImplicit false
open RknpuDriver.Lib

/-- The handler waits for the status of its line. -/
def readsStatus : JobOp → Bool
  | .irqStatus _ _ => true
  | _ => false

/-- No interrupt has finished the job, and none will: no core has it to take, its batches do not
execute, and no block is left that works for it, but handlers that will read no completion. -/
def withdrawn (cfg : Config) (s : LineState) (j : ℕ) : Bool :=
  (s.job.dev.jobs j).interruptCount ≠ 0 ∧
    (∀ c < cfg.numIrqs, j ∉ (s.job.dev.subcoreDatas c).todoList ∧
      ((s.job.dev.subcoreDatas c).job = some j → s.quiet c = true)) ∧
    ∀ op ∈ s.job.threads.flatten, taken op = some j → readsStatus op = true

/-- * An interrupt is accepted only for a job whose `int_mask` is set.
* `rknpu_iommu_domain_get_and_switch` does not fail.
* A job is aborted only when no interrupt has finished it or will.
* A job is given back without an abort only when it is done.
* `rknpu_job_timeout_clean` finds no job that has timed out. -/
def putsOnce (cfg : Config) (s : LineState) (o : Outcome) : JobOp → Bool
  | .irqStatus j c => rknpuFuzzStatus o.status = (s.job.dev.jobs j).intMask c →
      (s.job.dev.jobs j).intMask c ≠ 0
  | .domainGet _ => o.ret = 0
  | .nonblockRet j => (s.job.dev.jobs j).ret ≠ 0 → withdrawn cfg s j = true
  | .blockRet j =>
    if (s.job.dev.jobs j).ret ≠ 0 then withdrawn cfg s j else (s.job.dev.jobs j).done
  | .timeoutCheck _ _ j => !timeoutHit s.job.dev j
  | _ => true

def puttingSystem (cfg : Config) : System LineState LineLabel :=
  (lineSystem cfg).guarded fun s a => onLineBlock (putsOnce cfg s) s a = true

/-! ## Runs in which each job puts once -/

/-- No interrupt has finished the job, and none will. -/
structure Withdrawn (s : LineState) (j : ℕ) : Prop where
  past : Past s.job j
  live : (s.job.dev.jobs j).interruptCount ≠ 0
  listed : ∀ c, j ∉ (s.job.dev.subcoreDatas c).todoList
  idle : ∀ c, (s.job.dev.subcoreDatas c).job = some j → s.quiet c = true
  blocks : ∀ op ∈ s.job.todo, taken op = some j → readsStatus op = true

structure Putting (s : LineState) : Prop where
  uncleaned : ∀ op ∈ s.job.todo, cleaning op = false
  queued : ∀ op ∈ s.job.todo, ∀ j, after op = some j → op = .free j ∨ j ∈ enqueues s.job.hist
  withdrawn : ∀ j, .abort j ∈ s.job.hist ∨ .abortClear j ∈ s.job.todo →
    j ∈ enqueues s.job.hist ∧ Withdrawn s j
  closed : ∀ j, .free j ∈ s.job.todo ∨ .cleanupWork j ∈ s.job.todo ∨ j ∈ s.job.dev.works ∨
    .free j ∈ s.job.hist → Past s.job j ∧ putsOf j s.job.hist = getsOf j s.job.hist
  batch : ∀ c, s.executing c = true → ∃ j, (s.job.dev.subcoreDatas c).job = some j ∧
    s.job.dev.running c = some j

/-- What holds in every state of such a run. -/
structure Put (cfg : Config) (s : LineState) : Prop where
  worked : Worked cfg s
  vacating : Vacating s
  fifo : Fifo s.job
  referenced : Referenced s.job
  putting : Putting s

section
variable {cfg : Config} {s t : LineState} {a : LineLabel} {o : Outcome} {op : JobOp} {eff : Effect}
  {others : Multiset JobOp} {rest : List JobOp} {tid j c : ℕ}

theorem Placed.count_le_one {s : JobState} (hs : Placed cfg s)
    (hop : before op = some j ∨ after op = some j) : s.todo.count op ≤ 1 := by
  by_contra hcon
  obtain ⟨others, hothers⟩ := Multiset.exists_cons_of_mem
    (Multiset.count_pos.mp (by omega : 0 < s.todo.count op))
  rw [hothers, Multiset.count_cons_self] at hcon
  have hmem : op ∈ others := Multiset.count_pos.mp (by omega)
  obtain ⟨hbefore, hafter⟩ := hs.exclusive hothers hop op hmem
  exact hop.elim hbefore hafter

theorem Put.gets_le_one (hs : Put cfg s) : getsOf j s.job.hist ≤ 1 := by
  rw [hs.referenced.gets j]
  by_cases henq : .enqueue j ∈ s.job.todo
  · have hnot : (enqueues s.job.hist).count j = 0 := List.count_eq_zero.mpr fun hj =>
      (hs.worked.lined.known.taken.past j hj).2 _ henq rfl
    have hone : s.job.todo.count (.enqueue j) ≤ 1 :=
      hs.worked.lined.known.placed.count_le_one (j := j) (Or.inl rfl)
    omega
  · rw [Multiset.count_eq_zero.mpr henq, Nat.zero_add]
    exact List.nodup_iff_count_le_one.mp hs.fifo.once j

theorem Put.ends_le (hs : Put cfg s) : s.job.hist.count (.done j) + s.job.todo.count (.setDone j) +
    (s.job.hist.count (.abort j) + s.job.todo.count (.abortClear j)) ≤ getsOf j s.job.hist := by
  have hdones := hs.worked.lined.cleared.dones j
  have hgets := hs.referenced.gets j
  have hqueued : j ∈ enqueues s.job.hist → 1 ≤ getsOf j s.job.hist := by
    intro hj
    have hpos := List.count_pos_iff.mpr hj
    omega
  by_cases habort : .abort j ∈ s.job.hist ∨ .abortClear j ∈ s.job.todo
  · obtain ⟨hq, hwithdrawn⟩ := hs.putting.withdrawn j habort
    have hge := hqueued hq
    rw [if_neg fun hcon => hwithdrawn.live hcon.2.2] at hdones
    have hone : s.job.hist.count (.abort j) + s.job.todo.count (.abortClear j) ≤ 1 := by
      by_cases hhist : .abort j ∈ s.job.hist
      · obtain ⟨-, hcount, hafter⟩ := hs.referenced.aborted j hhist
        have hzero : s.job.todo.count (.abortClear j) = 0 := by
          refine Multiset.count_eq_zero.mpr fun hcon => ?_
          obtain hcon | hcon := hafter _ hcon rfl
          · cases hcon
          · cases hcon
        omega
      · rw [List.count_eq_zero.mpr hhist, Nat.zero_add]
        exact hs.worked.lined.known.placed.count_le_one (j := j) (Or.inr rfl)
    omega
  · push Not at habort
    rw [List.count_eq_zero.mpr habort.1, Multiset.count_eq_zero.mpr habort.2, hdones]
    split_ifs with hcond
    · exact hqueued hcond.1
    · exact Nat.zero_le _

theorem Put.puts_le_gets (hs : Put cfg s) :
    putsOf j s.job.hist + s.job.todo.count (.domainPut j) ≤ getsOf j s.job.hist := by
  rw [hs.referenced.puts j]
  exact hs.ends_le

theorem Put.puts_eq_gets (hs : Put cfg s) (hj : .done j ∈ s.job.hist ∨ .abort j ∈ s.job.hist) :
    putsOf j s.job.hist = getsOf j s.job.hist := by
  have hputs := hs.referenced.puts j
  have hends := hs.ends_le (j := j)
  have hone := hs.gets_le_one (j := j)
  have hpending := pending_domainPut_le hs.referenced.paired (j := j)
  have hpos : 0 < s.job.hist.count (.done j) + s.job.hist.count (.abort j) := by
    obtain hj | hj := hj
    · exact Nat.add_pos_left (List.count_pos_iff.mpr hj) _
    · exact Nat.add_pos_right _ (List.count_pos_iff.mpr hj)
  change s.job.todo.count (.domainPut j) ≤
    s.job.todo.count (.setDone j) + s.job.todo.count (.abortClear j) at hpending
  omega

/-- A put is pending only while no batch of its job executes. -/
theorem Put.idle_of_put (hs : Put cfg s) (hj : .domainPut j ∈ s.job.todo)
    (hexec : s.executing c = true) : s.job.dev.running c ≠ some j := by
  intro hrunning
  obtain ⟨k, hcur, hk⟩ := hs.putting.batch c hexec
  obtain rfl : j = k := by
    rw [hrunning] at hk
    exact Option.some.inj hk
  have hpending := pending_domainPut_le hs.referenced.paired (j := j)
  have hpos := Multiset.count_pos.mpr hj
  change s.job.todo.count (.domainPut j) ≤
    s.job.todo.count (.setDone j) + s.job.todo.count (.abortClear j) at hpending
  by_cases hclear : .abortClear j ∈ s.job.todo
  · have hquiet := (hs.putting.withdrawn j (Or.inr hclear)).2.idle c hcur
    rw [(quiet_iff.mp hquiet).1] at hexec
    cases hexec
  · rw [Multiset.count_eq_zero.mpr hclear] at hpending
    have hset : .setDone j ∈ s.job.todo := Multiset.count_pos.mp (by omega)
    have hheld : Holds s.job.dev c j := Or.inr hcur
    have hgone := (hs.worked.lined.cleared.of_done (Or.inr hset)).2 c
      (hs.worked.lined.known.placed.mem_coresOf_of_holds hheld)
    exact hs.worked.lined.cleared.gone j c hgone hheld

theorem Withdrawn.exec (hj : Withdrawn s j) (hm : Manned s)
    (hmatched : ∀ c, op = .irqStatus j c →
      rknpuFuzzStatus o.status = (s.job.dev.jobs j).intMask c → (s.job.dev.jobs j).intMask c ≠ 0)
    (hstatus : ∀ j c, op = .irqStatus j c → s.raised c = none → o.status = 0) {b : JobLabel}
    (h : Stepped cfg s.job t.job b) (hop : s.job.todo = op ::ₘ others)
    (heff : jobExec cfg s.job.dev o op = some eff) (hdev : t.job.dev = eff.dev)
    (htodo : t.job.todo = (eff.calls : Multiset JobOp) + others) (ht : t = s.ran cfg o op t.job) :
    Withdrawn t j := by
  have hmem : op ∈ s.job.todo := by simp [hop]
  refine ⟨(hj.past.stepped h).1, ?_, fun c hc => ?_, fun c hc => ?_, fun x hx hxj => ?_⟩
  · have hdec : op ≠ .doneDec j := by
      rintro rfl
      exact Bool.false_ne_true (hj.blocks _ hmem rfl)
    rw [hdev, interruptCount_eq heff (hj.past.2 op hmem), if_neg hdec, sub_zero]
    exact hj.live
  · rw [hdev, todoList_eq heff] at hc
    obtain hc | ⟨rfl, -⟩ := mem_todoListAfter hc
    · exact hj.listed c hc
    · exact hj.past.2 _ hmem rfl
  · rw [hdev] at hc
    obtain hold | ⟨rfl, hpop⟩ := current_exec heff hc
    · refine quiet_ran ht (hj.idle c hold) (Bool.eq_false_iff.mpr fun hstart => ?_)
      obtain ⟨k, rfl, -⟩ := startsBatch_iff heff hstart
      have hk := hm.current _ hmem k c rfl
      rw [hold] at hk
      cases hk
      exact Bool.false_ne_true (hj.blocks _ hmem rfl)
    · obtain ⟨d, -, -, hlist⟩ := pops_holds hpop
      exact (hj.listed d hlist).elim
  · rw [htodo, Multiset.mem_add] at hx
    obtain hx | hx := hx
    · have hx := Multiset.mem_coe.mp hx
      have hno : op ≠ .decRunCount j ∧ (∀ c, op ≠ .doneCount j c) ∧ op ≠ .commit j := by
        refine ⟨?_, fun c => ?_, ?_⟩
        all_goals
          rintro rfl
          exact Bool.false_ne_true (hj.blocks _ hmem rfl)
      cases x with
      | irqStatus k c => rfl
      | decRunCount k =>
        cases hxj
        obtain ⟨c, -, -, hlist⟩ := pops_holds (calls_decRunCount heff hx)
        exact (hj.listed c hlist).elim
      | commit k =>
        cases hxj
        exact (hno.1 (calls_commit heff hx).1).elim
      | subcoreCommit k c =>
        cases hxj
        obtain ⟨hcon, -⟩ | ⟨hcon, -⟩ := calls_subcoreCommit heff hx
        · exact (hno.2.2 hcon).elim
        · exact (hno.2.1 c hcon).elim
      | doneCount k c =>
        cases hxj
        obtain ⟨rfl, hint⟩ := calls_doneCount heff hx
        have hquiet := hj.idle c (hm.current _ hmem j c rfl)
        have hzero := hstatus j c rfl (quiet_iff.mp hquiet).2
        have hne := hmatched c rfl hint
        rw [← hint, hzero, fuzzStatus_zero] at hne
        exact (hne rfl).elim
      | doneClear k c =>
        cases hxj
        exact (hno.2.1 c (calls_doneClear heff hx).1).elim
      | doneDec | setDone | setRet | fenceSignal =>
        obtain hop' | ⟨c, rfl, -, hcon⟩ := calls_stage heff hx hxj
        · have hread := hj.blocks op hmem (taken_of_stage hop')
          cases op <;> try cases hread
          simp only [jobExec, Option.some.injEq] at heff
          subst heff
          simp only [irqHandlerStatus] at hx
          split_ifs at hx <;> simp at hx
        · cases hcon
      | _ => cases hxj
    · exact hj.blocks x (by simp [hop, hx]) hxj

end

section
variable {cfg : Config} {s t : LineState} {a : LineLabel} {o : Outcome} {op : JobOp} {eff : Effect}
  {others : Multiset JobOp} {rest : List JobOp} {tid j c : ℕ}

theorem running_of {dev : Dev} (heff : jobExec cfg dev o op = some eff) :
    eff.dev.running c = dev.running c ∨ op = .resetDeassert ∧ o.ret = 0 ∨
      ∃ k, op = .subcoreCommit k c ∧ eff.dev.running c = some k := by
  cases op <;> grind -ring -linarith -order

theorem running_of_start {dev : Dev} (heff : jobExec cfg dev o (.subcoreCommit j c) = some eff)
    (hstart : startsBatch cfg dev o (.subcoreCommit j c) c = true) :
    eff.dev.running c = some j := by
  grind -ring -linarith -order [startsBatch]

theorem withdrawn_of (hs : Placed cfg s.job) (hj : Past s.job j)
    (h : withdrawn cfg s j = true) : Withdrawn s j := by
  simp only [withdrawn, decide_eq_true_eq] at h
  obtain ⟨hlive, hcores, hblocks⟩ := h
  refine ⟨hj, hlive, fun c hc => ?_, fun c hc => ?_, fun op hop => ?_⟩
  · exact (hcores c (hs.held c j (Or.inl hc)).2.1).1 hc
  · exact (hcores c (hs.held c j (Or.inr hc)).2.1).2 hc
  · exact hblocks op (Multiset.mem_coe.mp hop)

theorem Withdrawn.keep (hj : Withdrawn s j) (hpast : Past t.job j)
    (hjobs : ∀ i < s.job.dev.numJobs, t.job.dev.jobs i = s.job.dev.jobs i)
    (hcores : t.job.dev.subcoreDatas = s.job.dev.subcoreDatas)
    (hquiet : ∀ c, s.quiet c = true → t.quiet c = true)
    (hnew : ∀ op ∈ t.job.todo, op ∈ s.job.todo ∨ taken op = none) : Withdrawn t j := by
  refine ⟨hpast, ?_, fun c => ?_, fun c hc => ?_, fun op hop hopj => ?_⟩
  · rw [hjobs j hj.past.1]
    exact hj.live
  · rw [hcores]
    exact hj.listed c
  · rw [hcores] at hc
    exact hquiet c (hj.idle c hc)
  · obtain hop | hnone := hnew op hop
    · exact hj.blocks op hop hopj
    · rw [hnone] at hopj
      cases hopj

/-- The blocks of these runs give up only cores on which nothing is left to do. -/
theorem Put.vacates (hs : Put cfg s) (hop : op ∈ s.job.todo) (hok : putsOnce cfg s o op = true) :
    Vacates cfg s o op := by
  refine ⟨?_, fun j c haway hj => ?_⟩
  · rintro j c rfl hint
    simp only [putsOnce, decide_eq_true_eq] at hok
    exact hok hint
  · cases op with
    | timeoutClear i k => cases hs.putting.uncleaned _ hop
    | abortClear k =>
      simp only [takesAway, decide_eq_true_eq] at haway
      obtain ⟨-, -, hk, hentry⟩ := haway
      obtain rfl : k = j := by
        rw [hk] at hj
        exact Option.some.inj hj
      obtain ⟨-, hw⟩ := hs.putting.withdrawn k (Or.inr hop)
      refine ⟨hw.idle c hj, fun x hx hcore => ?_, hw.past, hw.listed, fun hcon => ?_,
        fun hcon => ?_⟩
      · have htaken : taken x = some k := by
          cases x <;> cases hcore <;> rfl
        have hread := hw.blocks x hx htaken
        cases x with
        | irqStatus i d =>
          cases hcore
          rw [hs.referenced.entered _ _ hx] at hentry
          cases hentry
        | _ => cases hread
      · cases hw.blocks _ hcon rfl
      · cases hw.blocks _ hcon rfl
    | _ => cases haway

theorem Putting.uncleaned_exec (hs : Put cfg s) (hop : s.job.todo = op ::ₘ others)
    (heff : jobExec cfg s.job.dev o op = some eff)
    (htodo : t.job.todo = (eff.calls : Multiset JobOp) + others)
    (hok : putsOnce cfg s o op = true) : ∀ x ∈ t.job.todo, cleaning x = false := by
  intro x hx
  rw [htodo, Multiset.mem_add] at hx
  obtain hx | hx := hx
  · rw [Bool.eq_false_iff]
    intro hclean
    obtain hcon | ⟨m, i, k, rfl, hhit⟩ := calls_cleaning heff (Multiset.mem_coe.mp hx) hclean
    · rw [hs.putting.uncleaned op (by simp [hop])] at hcon
      cases hcon
    · simp only [putsOnce, hhit] at hok
      cases hok
  · exact hs.putting.uncleaned x (by simp [hop, hx])

theorem Putting.queued_exec (hs : Put cfg s) (hop : s.job.todo = op ::ₘ others)
    (heff : jobExec cfg s.job.dev o op = some eff)
    (htodo : t.job.todo = (eff.calls : Multiset JobOp) + others)
    (hhist : t.job.hist = s.job.hist ++ eff.events) (hok : putsOnce cfg s o op = true) :
    ∀ x ∈ t.job.todo, ∀ j, after x = some j → x = .free j ∨ j ∈ enqueues t.job.hist := by
  intro x hx j hxj
  rw [hhist, enqueues_append, List.mem_append]
  rw [htodo, Multiset.mem_add] at hx
  obtain hx | hx := hx
  · obtain hafter | ⟨-, rfl⟩ | ⟨rfl, hret⟩ | rfl := calls_after heff (Multiset.mem_coe.mp hx) hxj
    · obtain rfl | hq := hs.putting.queued op (by simp [hop]) j hafter
      · cases heff
        exact (List.not_mem_nil hx).elim
      · exact Or.inr (Or.inl hq)
    · exact Or.inl rfl
    · simp only [putsOnce, decide_eq_true_eq] at hok
      exact (hret hok).elim
    · exact Or.inr (Or.inr ((events_enqueue heff).mpr rfl))
  · exact (hs.putting.queued x (by simp [hop, hx]) j hxj).imp_right Or.inl

theorem Putting.aborts (hs : Put cfg s) (hop : op ∈ s.job.todo)
    (hok : putsOnce cfg s o op = true) (habort : abortsJob s.job.dev op j) :
    j ∈ enqueues s.job.hist ∧ Withdrawn s j := by
  obtain ⟨hwhich, hret⟩ := habort
  have hafter : after op = some j := by
    obtain rfl | rfl := hwhich
    · rfl
    · rfl
  have hplaced := hs.worked.lined.known.placed
  refine ⟨?_, withdrawn_of hplaced (hplaced.past_of_after hop hafter) ?_⟩
  · refine (hs.putting.queued op hop j hafter).resolve_left fun hcon => ?_
    obtain rfl | rfl := hwhich
    · cases hcon
    · cases hcon
  · obtain rfl | rfl := hwhich
    · simp only [putsOnce, decide_eq_true_eq] at hok
      exact hok hret
    · simp only [putsOnce, if_pos hret] at hok
      exact hok

theorem Putting.withdrawn_exec (hs : Put cfg s) {b : JobLabel} (h : Stepped cfg s.job t.job b)
    (hstatus : ∀ j c, op = .irqStatus j c → s.raised c = none → o.status = 0)
    (hop : s.job.todo = op ::ₘ others) (heff : jobExec cfg s.job.dev o op = some eff)
    (hdev : t.job.dev = eff.dev) (htodo : t.job.todo = (eff.calls : Multiset JobOp) + others)
    (hhist : t.job.hist = s.job.hist ++ eff.events) (ht : t = s.ran cfg o op t.job)
    (hok : putsOnce cfg s o op = true)
    (hj : .abort j ∈ t.job.hist ∨ .abortClear j ∈ t.job.todo) :
    j ∈ enqueues t.job.hist ∧ Withdrawn t j := by
  have hmem : op ∈ s.job.todo := by simp [hop]
  have hold : j ∈ enqueues s.job.hist ∧ Withdrawn s j := by
    obtain hj | hj := hj
    · rw [hhist, List.mem_append] at hj
      obtain hj | hj := hj
      · exact hs.putting.withdrawn j (Or.inl hj)
      · exact hs.putting.withdrawn j (Or.inr (events_abort heff hj ▸ hmem))
    · rw [htodo, Multiset.mem_add] at hj
      obtain hj | hj := hj
      · refine Putting.aborts hs hmem hok ?_
        have hcount := calls_abortClear_count heff j
        have hpos := List.count_pos_iff.mpr (Multiset.mem_coe.mp hj)
        by_contra hcon
        rw [if_neg hcon] at hcount
        omega
      · exact hs.putting.withdrawn j (Or.inr (by simp [hop, hj]))
  obtain ⟨hq, hw⟩ := hold
  refine ⟨by rw [hhist, enqueues_append]; exact List.mem_append_left _ hq, ?_⟩
  exact hw.exec hs.worked.manned (fun c => (hs.vacates hmem hok).matched j c) hstatus h hop heff
    hdev htodo ht

end

section
variable {cfg : Config} {s t : LineState} {a : LineLabel} {o : Outcome} {op : JobOp} {eff : Effect}
  {others : Multiset JobOp} {rest : List JobOp} {tid j c : ℕ}

theorem Put.even_of_before (hs : Put cfg s) (hop : op ∈ s.job.todo) (hj : before op = some j)
    (henq : op ≠ .enqueue j) : putsOf j s.job.hist = getsOf j s.job.hist := by
  have hgets := hs.referenced.gets j
  have hnot : (enqueues s.job.hist).count j = 0 := List.count_eq_zero.mpr fun hcon =>
    (hs.worked.lined.known.taken.past j hcon).2 op hop hj
  have hnone : s.job.todo.count (.enqueue j) = 0 := by
    obtain ⟨others, hothers⟩ := Multiset.exists_cons_of_mem hop
    rw [hothers, Multiset.count_cons_of_ne henq.symm]
    refine Multiset.count_eq_zero.mpr fun hcon => ?_
    exact (hs.worked.lined.known.placed.exclusive hothers (Or.inl hj) _ hcon).1 rfl
  have hle := hs.puts_le_gets (j := j)
  omega

/-- What a block that closes a job, or makes it be closed, finds. -/
theorem Putting.closes (hs : Put cfg s) (hop : s.job.todo = op ::ₘ others)
    (heff : jobExec cfg s.job.dev o op = some eff) (hok : putsOnce cfg s o op = true)
    (hj : .free j ∈ eff.calls ∨ .cleanupWork j ∈ eff.calls ∨ j ∈ eff.dev.works ∨
      .free j ∈ eff.events) :
    putsOf j s.job.hist = getsOf j s.job.hist ∧ op ≠ .domainGet j := by
  have hmem : op ∈ s.job.todo := by simp [hop]
  have hclosed : (.free j ∈ s.job.todo ∨ .cleanupWork j ∈ s.job.todo ∨ j ∈ s.job.dev.works ∨
      .free j ∈ s.job.hist) → putsOf j s.job.hist = getsOf j s.job.hist ∧ op ≠ .domainGet j := by
    intro hcon
    obtain ⟨hpast, heven⟩ := hs.putting.closed j hcon
    exact ⟨heven, fun hget => hpast.2 op hmem (by rw [hget]; rfl)⟩
  obtain hj | hj | hj | hj := hj
  · obtain rfl | rfl | rfl := calls_free heff hj
    · exact ⟨hs.even_of_before hmem rfl (by simp), by simp⟩
    · refine ⟨hs.puts_eq_gets (Or.inl ?_), by simp⟩
      have hret : ¬ (s.job.dev.jobs j).ret ≠ 0 := by
        intro hret
        cases heff
        simp only [submitBlockRet, if_pos hret, rknpuJobAbort] at hj
        simp at hj
      simp only [putsOnce, if_neg hret] at hok
      exact hs.referenced.finished j (Or.inl hok)
    · exact ⟨hs.puts_eq_gets (Or.inr (hs.referenced.reported j hmem)), by simp⟩
  · exact (calls_cleanupWork heff j hj).elim
  · obtain hj | ⟨i, rfl⟩ | rfl := mem_works heff hj
    · exact hclosed (Or.inr (Or.inr (Or.inl hj)))
    · cases hs.putting.uncleaned _ hmem
    · refine ⟨hs.puts_eq_gets (Or.inl ?_), by simp⟩
      exact hs.referenced.finished j (Or.inr (Or.inr (Or.inr hmem)))
  · obtain rfl | rfl := (events_free heff).mp hj
    · exact hclosed (Or.inl hmem)
    · exact hclosed (Or.inr (Or.inl hmem))

theorem Putting.closed_exec (hs : Put cfg s) (ht : Known cfg t.job) {b : JobLabel}
    (h : Stepped cfg s.job t.job b) (hop : s.job.todo = op ::ₘ others)
    (heff : jobExec cfg s.job.dev o op = some eff) (hdev : t.job.dev = eff.dev)
    (htodo : t.job.todo = (eff.calls : Multiset JobOp) + others)
    (hhist : t.job.hist = s.job.hist ++ eff.events) (hok : putsOnce cfg s o op = true)
    (hj : .free j ∈ t.job.todo ∨ .cleanupWork j ∈ t.job.todo ∨ j ∈ t.job.dev.works ∨
      .free j ∈ t.job.hist) : Past t.job j ∧ putsOf j t.job.hist = getsOf j t.job.hist := by
  have hmem : op ∈ s.job.todo := by simp [hop]
  have hold : (.free j ∈ s.job.todo ∨ .cleanupWork j ∈ s.job.todo ∨ j ∈ s.job.dev.works ∨
      .free j ∈ s.job.hist) → putsOf j s.job.hist = getsOf j s.job.hist ∧ op ≠ .domainGet j := by
    intro hcon
    obtain ⟨hpast, heven⟩ := hs.putting.closed j hcon
    exact ⟨heven, fun hget => hpast.2 op hmem (by rw [hget]; rfl)⟩
  have hpast : Past t.job j := by
    obtain hj | hj | hj | hj := hj
    · exact ht.placed.past_of_after hj rfl
    · exact ht.placed.helped _ hj j rfl
    · exact ht.placed.worked j hj
    · rw [hhist, List.mem_append] at hj
      obtain hj | hj := hj
      · exact ((hs.putting.closed j (Or.inr (Or.inr (Or.inr hj)))).1.stepped h).1
      · obtain rfl | rfl := (events_free heff).mp hj
        · exact ((hs.putting.closed j (Or.inl hmem)).1.stepped h).1
        · exact ((hs.putting.closed j (Or.inr (Or.inl hmem))).1.stepped h).1
  have heven : putsOf j s.job.hist = getsOf j s.job.hist ∧ op ≠ .domainGet j := by
    rw [htodo, hdev, hhist, Multiset.mem_add, Multiset.mem_add, Multiset.mem_coe,
      Multiset.mem_coe, List.mem_append] at hj
    obtain (hj | hj) | (hj | hj) | hj | hj | hj := hj
    · exact Putting.closes hs hop heff hok (Or.inl hj)
    · exact hold (Or.inl (by simp [hop, hj]))
    · exact Putting.closes hs hop heff hok (Or.inr (Or.inl hj))
    · exact hold (Or.inr (Or.inl (by simp [hop, hj])))
    · exact Putting.closes hs hop heff hok (Or.inr (Or.inr (Or.inl hj)))
    · exact hold (Or.inr (Or.inr (Or.inr hj)))
    · exact Putting.closes hs hop heff hok (Or.inr (Or.inr (Or.inr hj)))
  refine ⟨hpast, ?_⟩
  obtain ⟨heven, hget⟩ := heven
  have hput : op ≠ .domainPut j := by
    rintro rfl
    have hle := hs.puts_le_gets (j := j)
    have hpos := Multiset.count_pos.mpr hmem
    omega
  unfold putsOf getsOf at heven ⊢
  rw [hhist, List.count_append, List.count_append, events_domainGet_count heff,
    events_domainPut_count heff, if_neg hput, if_neg fun hcon => hget hcon.1, heven]

theorem Putting.batch_exec (hs : Put cfg s) (hop : s.job.todo = op ::ₘ others)
    (heff : jobExec cfg s.job.dev o op = some eff) (hdev : t.job.dev = eff.dev)
    (ht : t = s.ran cfg o op t.job) (hok : putsOnce cfg s o op = true)
    (hc : t.executing c = true) :
    ∃ j, (t.job.dev.subcoreDatas c).job = some j ∧ t.job.dev.running c = some j := by
  have hmem : op ∈ s.job.todo := by simp [hop]
  rw [hdev]
  by_cases hstart : startsBatch cfg s.job.dev o op c = true
  · obtain ⟨k, rfl, -⟩ := startsBatch_iff heff hstart
    refine ⟨k, ?_, running_of_start heff hstart⟩
    rw [current_eq heff]
    exact hs.worked.manned.current _ hmem k c rfl
  · have hold : s.executing c = true ∧ ¬ (op = .resetDeassert ∧ o.ret = 0) := by
      rw [ht] at hc
      simp only [LineState.ran, Bool.eq_false_iff.mpr hstart, Bool.false_or, Bool.and_eq_true,
        Bool.not_eq_true', decide_eq_false_iff_not] at hc
      exact hc
    obtain ⟨hexec, hreset⟩ := hold
    obtain ⟨j, hcur, hrunning⟩ := hs.putting.batch c hexec
    have hbusy : s.quiet c = true → False := by
      intro hquiet
      rw [(quiet_iff.mp hquiet).1] at hexec
      cases hexec
    obtain hkept | ⟨k, rfl⟩ | haway := current_kept heff hcur
    · refine ⟨j, hkept, ?_⟩
      obtain hsame | hcon | ⟨k, rfl, -⟩ := running_of (c := c) heff
      · rw [hsame]
        exact hrunning
      · exact (hreset hcon).elim
      · exact (hbusy (hs.worked.manned.quiet_of_mem hs.worked.issued hs.worked.lined.known hmem rfl
          (by simp))).elim
    · exact (hbusy (hs.worked.manned.quiet_of_mem hs.worked.issued hs.worked.lined.known hmem rfl
        (by simp))).elim
    · exact (hbusy ((hs.vacates hmem hok).vacant j c haway hcur).quiet).elim

theorem Put.put_exec (hs : Put cfg s) (ht' : Known cfg t.job) {b : JobLabel}
    (h : Stepped cfg s.job t.job b)
    (hstatus : ∀ j c, op = .irqStatus j c → s.raised c = none → o.status = 0)
    (hop : s.job.todo = op ::ₘ others) (heff : jobExec cfg s.job.dev o op = some eff)
    (hdev : t.job.dev = eff.dev) (htodo : t.job.todo = (eff.calls : Multiset JobOp) + others)
    (hhist : t.job.hist = s.job.hist ++ eff.events) (ht : t = s.ran cfg o op t.job)
    (hok : putsOnce cfg s o op = true) : Putting t where
  uncleaned := Putting.uncleaned_exec hs hop heff htodo hok
  queued := Putting.queued_exec hs hop heff htodo hhist hok
  withdrawn _ hj := Putting.withdrawn_exec hs h hstatus hop heff hdev htodo hhist ht hok hj
  closed _ hj := Putting.closed_exec hs ht' h hop heff hdev htodo hhist hok hj
  batch _ hc := Putting.batch_exec hs hop heff hdev ht hok hc

theorem Putting.keep (hs : Putting s)
    (hpast : ∀ j, Past s.job j → Past t.job j)
    (hjobs : ∀ i < s.job.dev.numJobs, t.job.dev.jobs i = s.job.dev.jobs i)
    (hcores : t.job.dev.subcoreDatas = s.job.dev.subcoreDatas)
    (hrunning : t.job.dev.running = s.job.dev.running)
    (hworks : ∀ j ∈ t.job.dev.works, j ∈ s.job.dev.works)
    (hquiet : ∀ c, s.quiet c = true → t.quiet c = true)
    (hexec : ∀ c, t.executing c = true → s.executing c = true)
    (hgets : OnlyGets s.job.hist t.job.hist)
    (hnew : ∀ op ∈ t.job.todo, op ∈ s.job.todo ∨ taken op = none ∧ after op = none ∧
      cleaning op = false ∧ ∀ j, op = .cleanupWork j → j ∈ s.job.dev.works) : Putting t := by
  have hqueued : ∀ j ∈ enqueues s.job.hist, j ∈ enqueues t.job.hist := by
    intro j hj
    rw [hgets.enqueues]
    exact hj
  refine ⟨fun op hop => ?_, fun op hop j hj => ?_, fun j hj => ?_, fun j hj => ?_,
    fun c hc => ?_⟩
  · obtain hop | hop := hnew op hop
    · exact hs.uncleaned op hop
    · exact hop.2.2.1
  · obtain hop | hop := hnew op hop
    · exact (hs.queued op hop j hj).imp_right (hqueued j)
    · rw [hop.2.1] at hj
      cases hj
  · obtain ⟨hq, hw⟩ := hs.withdrawn j (hj.imp (hgets.mem_iff (by simp)).mp fun hop =>
      (hnew _ hop).resolve_right fun hcon => by cases hcon.2.1)
    exact ⟨hqueued j hq, hw.keep (hpast j hw.past) hjobs hcores hquiet fun op hop =>
      (hnew op hop).imp_right And.left⟩
  · have hold : .free j ∈ s.job.todo ∨ .cleanupWork j ∈ s.job.todo ∨ j ∈ s.job.dev.works ∨
        .free j ∈ s.job.hist := by
      obtain hj | hj | hj | hj := hj
      · refine Or.inl ((hnew _ hj).resolve_right fun hcon => ?_)
        cases hcon.2.1
      · obtain hj | hj := hnew _ hj
        · exact Or.inr (Or.inl hj)
        · exact Or.inr (Or.inr (Or.inl (hj.2.2.2 j rfl)))
      · exact Or.inr (Or.inr (Or.inl (hworks j hj)))
      · exact Or.inr (Or.inr (Or.inr ((hgets.mem_iff (by simp)).mp hj)))
    obtain ⟨hp, heven⟩ := hs.closed j hold
    refine ⟨hpast j hp, ?_⟩
    unfold putsOf getsOf at heven ⊢
    rw [hgets.count (by simp), hgets.count (by simp), heven]
  · rw [hcores, hrunning]
    exact hs.batch c (hexec c hc)

theorem LineMoved.putting (h : LineMoved cfg s t a) (hcfg : cfg.Sound) (hs : Put cfg s)
    (hok : onLineBlock (putsOnce cfg s) s a = true) : Putting t := by
  have hknown := h.known hcfg hs.worked.lined.known
  cases h with
  | @complete d hexec ht =>
    refine hs.putting.keep (fun j hj => by rw [ht]; exact hj) (fun i _ => by rw [ht])
      (by rw [ht]) (by rw [ht]) (fun j hj => by rw [ht] at hj; exact hj) (fun c hc => ?_)
      (fun c hc => ?_) (.of_eq (by rw [ht]))
      fun op hop => Or.inl (by rw [ht] at hop; exact hop)
    · obtain ⟨hidle, hnone⟩ := quiet_iff.mp hc
      have hcd : c ≠ d := by
        rintro rfl
        rw [hexec] at hidle
        cases hidle
      rw [ht, quiet_iff]
      simp only [if_neg hcd]
      exact ⟨hidle, hnone⟩
    · rw [ht] at hc
      simp only at hc
      split_ifs at hc
      exact hc
  | @irq d h hidle hdev hhist hthreads ht =>
    refine hs.putting.keep (fun j hj => (hj.stepped h).1) (fun i _ => by rw [hdev])
      (by rw [hdev]) (by rw [hdev]) (fun j hj => by rw [hdev] at hj; exact hj)
      (fun c hc => by rw [ht]; exact hc) (fun c hc => by rw [ht] at hc; exact hc)
      (.of_eq hhist) fun op hop => ?_
    obtain hop | hop := mem_todo_of_threads hthreads hop
    · exact Or.inl hop
    · rw [hop]
      exact Or.inr ⟨rfl, rfl, rfl, by simp⟩
  | @exec tid o op rest eff others h hnext hstatus heff hop hdev htodo hhist hthreads ht =>
    rw [onLineBlock, onBlock_exec hnext] at hok
    exact hs.put_exec hknown h hstatus hop heff hdev htodo hhist ht hok
  | submit h hmask hdev hhist hthreads ht =>
    refine hs.putting.keep (fun j hj => (hj.stepped h).1) (fun i hi => ?_)
      (by rw [hdev]; rfl) (by rw [hdev]; rfl) (fun j hj => by rw [hdev] at hj; exact hj)
      (fun c hc => by rw [ht]; exact hc) (fun c hc => by rw [ht] at hc; exact hc)
      (.of_submit hhist) fun op hop => ?_
    · rw [hdev, Dev.addJob_jobs, if_neg (Nat.ne_of_lt hi)]
    · obtain hop | hop := mem_todo_of_threads hthreads hop
      · exact Or.inl hop
      · rw [hop]
        exact Or.inr ⟨rfl, rfl, rfl, by simp⟩
  | spawn h hm hrunning hthreads ht =>
    refine hs.putting.keep (fun j hj => (hj.stepped h).1) (fun i _ => by rw [hm.jobs])
      hm.subcoreDatas hrunning hm.works (fun c hc => by rw [ht]; exact hc)
      (fun c hc => by rw [ht] at hc; exact hc) (.of_eq hm.hist) fun op hop => ?_
    refine (hm.mem_todo hop).imp_right fun hstart => ?_
    cases op with
    | cleanupWork j => exact ⟨rfl, rfl, rfl, fun k hk => by cases hk; exact hstart⟩
    | irqEntry | resetBegin | timerTick => exact ⟨rfl, rfl, rfl, by simp⟩
    | _ => exact hstart.elim

theorem putting_run (hcfg : cfg.Sound) (hs : (puttingSystem cfg).Reachable s) : Put cfg s := by
  refine hs.invariant (Put cfg) ?_ ?_
  · rintro s ⟨now, rfl⟩
    refine ⟨worked_init, vacating_init, ⟨fun i j c hij => ?_, fun i j c hij => ?_, List.nodup_nil⟩,
      referenced_init, ⟨fun op hop => ?_, fun op hop => ?_, fun j hj => ?_, fun j hj => ?_,
        fun c hc => ?_⟩⟩
    · exact (List.not_mem_nil (hij.subset List.mem_cons_self)).elim
    · exact (List.not_mem_nil (hij.subset List.mem_cons_self)).elim
    · exact (Multiset.notMem_zero op hop).elim
    · exact (Multiset.notMem_zero op hop).elim
    · obtain hj | hj := hj
      · exact (List.not_mem_nil hj).elim
      · exact (Multiset.notMem_zero _ hj).elim
    · obtain hj | hj | hj | hj := hj
      · exact (Multiset.notMem_zero _ hj).elim
      · exact (Multiset.notMem_zero _ hj).elim
      · exact (List.not_mem_nil hj).elim
      · exact (List.not_mem_nil hj).elim
    · cases hc
  · rintro s a t hs h
    obtain ⟨hok, h⟩ := System.guarded_step.mp h
    have hmoved := line_moved h
    have hvacates : runsBlock (Vacates cfg s) s a :=
      runsBlock_imp (fun o op hop hg => hs.vacates hop hg) (runsBlock_of hok)
    obtain ⟨hworked, hvacating⟩ := hmoved.vacated hcfg hs.worked hs.vacating hvacates
    refine ⟨hworked, hvacating, ?_, hmoved.referenced hs.worked.lined.known hs.referenced,
      hmoved.putting hcfg hs hok⟩
    cases hmoved with
    | complete hexec ht =>
      rw [ht]
      exact hs.fifo
    | irq hstep | exec hstep | submit hstep | spawn hstep =>
      exact hs.fifo.step hs.worked.lined.known hstep

end

/-! ## The reference count -/

/-- The domain fields after the gets and the puts of a run. -/
def domainAfter (dev : Iommu.DomainDev) : List Event → Iommu.DomainDev
  | [] => dev
  | .domainGet _ :: hist => domainAfter dev.inc hist
  | .domainPut _ :: hist => domainAfter (Iommu.rknpuIommuDomainPut dev) hist
  | _ :: hist => domainAfter dev hist

/-- How many jobs hold a reference. -/
def referencesHeld (s : JobState) : ℕ :=
  (List.range s.dev.numJobs).countP fun j => putsOf j s.hist < getsOf j s.hist

section
variable {cfg : Config} {s : LineState} {j c : ℕ}

theorem refcount_domainAfter (dev : Iommu.DomainDev) {hist : List Event} {n : ℕ}
    (h : ∀ j, .domainGet j ∈ hist ∨ .domainPut j ∈ hist → j < n) :
    (domainAfter dev hist).iommuDomainRefcount = dev.iommuDomainRefcount +
      ∑ j ∈ Finset.range n, ((getsOf j hist : ℤ) - putsOf j hist) := by
  induction hist generalizing dev with
  | nil => simp [domainAfter, getsOf, putsOf]
  | cons e hist ih =>
    have hrest : ∀ j, .domainGet j ∈ hist ∨ .domainPut j ∈ hist → j < n := fun j hj =>
      h j (hj.imp (List.mem_cons_of_mem e) (List.mem_cons_of_mem e))
    have hcons : ∀ (k : ℕ) (v : ℤ), k < n → (∀ j, (getsOf j (e :: hist) : ℤ) -
        putsOf j (e :: hist) = ((getsOf j hist : ℤ) - putsOf j hist) + if k = j then v else 0) →
          ∑ j ∈ Finset.range n, ((getsOf j (e :: hist) : ℤ) - putsOf j (e :: hist)) =
            ∑ j ∈ Finset.range n, ((getsOf j hist : ℤ) - putsOf j hist) + v := by
      intro k v hk hv
      rw [Finset.sum_congr rfl fun j _ => hv j, Finset.sum_add_distrib, Finset.sum_ite_eq,
        if_pos (Finset.mem_range.mpr hk)]
    cases e with
    | domainGet k =>
      rw [domainAfter, ih dev.inc hrest, hcons k 1 (h k (Or.inl List.mem_cons_self)) fun j => ?_]
      · simp only [Iommu.DomainDev.inc]
        omega
      · simp only [getsOf, putsOf, List.count_cons, beq_iff_eq, Event.domainGet.injEq,
          reduceCtorEq, if_false]
        split_ifs <;> push_cast <;> omega
    | domainPut k =>
      rw [domainAfter, ih (Iommu.rknpuIommuDomainPut dev) hrest,
        hcons k (-1) (h k (Or.inr List.mem_cons_self)) fun j => ?_]
      · simp only [Iommu.rknpuIommuDomainPut]
        omega
      · simp only [getsOf, putsOf, List.count_cons, beq_iff_eq, Event.domainPut.injEq,
          reduceCtorEq, if_false]
        split_ifs <;> push_cast <;> omega
    | _ =>
      rw [domainAfter, ih dev hrest]
      · simp [getsOf, putsOf]
      all_goals simp

/-- The jobs that got a reference or put one are jobs in memory. -/
theorem Put.lt_numJobs (hs : Put cfg s) (hj : 0 < getsOf j s.job.hist) :
    j < s.job.dev.numJobs := by
  rw [hs.referenced.gets j] at hj
  by_cases hq : j ∈ enqueues s.job.hist
  · exact (hs.worked.lined.known.taken.past j hq).1
  · rw [List.count_eq_zero.mpr hq, Nat.add_zero] at hj
    exact hs.worked.lined.known.placed.submitted _ (Multiset.count_pos.mp hj) j (Or.inl rfl)

theorem sum_held (s : JobState) (h : ∀ j, putsOf j s.hist ≤ getsOf j s.hist)
    (hone : ∀ j, getsOf j s.hist ≤ 1) :
    ∑ j ∈ Finset.range s.dev.numJobs, ((getsOf j s.hist : ℤ) - putsOf j s.hist) =
      referencesHeld s := by
  unfold referencesHeld
  induction s.dev.numJobs with
  | zero => rfl
  | succ n ih =>
    have hle := h n
    have hle1 := hone n
    rw [Finset.sum_range_succ, ih, List.range_succ, List.countP_append, List.countP_singleton]
    split_ifs with hlt
    · rw [decide_eq_true_eq] at hlt
      push_cast
      omega
    · rw [decide_eq_true_eq] at hlt
      push_cast
      omega

/-- **Each job puts its domain reference once**: never more often than it got it, not while a batch
of it executes, and before it is given back; the count is the number of jobs with a reference. -/
theorem domain_put_once (hcfg : cfg ∈ rknpuConfigs) (hs : (puttingSystem cfg).Reachable s) :
    (∀ j, putsOf j s.job.hist ≤ getsOf j s.job.hist ∧ getsOf j s.job.hist ≤ 1) ∧
    (∀ j, .free j ∈ s.job.hist → putsOf j s.job.hist = getsOf j s.job.hist) ∧
    (∀ j c, .domainPut j ∈ s.job.todo → s.executing c = true →
      s.job.dev.running c ≠ some j) ∧
    ∀ dev : Iommu.DomainDev, (domainAfter dev s.job.hist).iommuDomainRefcount =
      dev.iommuDomainRefcount + referencesHeld s.job := by
  have hput := putting_run (rknpuConfigs_sound hcfg) hs
  have hle : ∀ j, putsOf j s.job.hist ≤ getsOf j s.job.hist := fun j =>
    (Nat.le_add_right _ _).trans hput.puts_le_gets
  refine ⟨fun j => ⟨hle j, hput.gets_le_one⟩, fun j hj => ?_, fun j c hj hexec => ?_,
    fun dev => ?_⟩
  · exact (hput.putting.closed j (Or.inr (Or.inr (Or.inr hj)))).2
  · exact hput.idle_of_put hj hexec
  · rw [refcount_domainAfter dev, sum_held s.job hle fun j => hput.gets_le_one]
    intro j hj
    apply hput.lt_numJobs
    obtain hj | hj := hj
    · exact List.count_pos_iff.mpr hj
    · exact (List.count_pos_iff.mpr hj).trans_le (hle j)

end

theorem domain_put_once_done : ∃ s, (puttingSystem rk356xRknpuConfig).Reachable s ∧
    .free 0 ∈ s.job.hist ∧ putsOf 0 s.job.hist = 1 := by
  obtain ⟨s, hs, h⟩ := System.Reachable.of_run_any (S := puttingSystem rk356xRknpuConfig)
    (p := fun s => decide (.free 0 ∈ s.job.hist ∧ getsOf 0 s.job.hist = 1))
    (l := (.submit (oneTask rknpuJobPc rknpuCore0Mask) false true ::
        List.replicate 13 (.exec 0 calm)).map .job ++ .complete 0 ::
      (.irq 0 false :: List.replicate 10 (.exec 1 calm) ++
        List.replicate 6 (.exec 0 calm) : List JobLabel).map .job)
    ⟨1, rfl⟩ (by decide +kernel)
  obtain ⟨hfree, hget⟩ := of_decide_eq_true h
  refine ⟨s, hs, hfree, ?_⟩
  rw [(domain_put_once (by decide) hs).2.1 0 hfree]
  exact hget

/-- Job `1` is submitted without waiting, when the time of job `0` is over. -/
def timedOutJob : List LineLabel :=
  ((.submit (oneTask (rknpuJobPc ||| rknpuJobNonblock) rknpuCore0Mask) false true ::
      List.replicate 14 (.exec 0 calm)) ++ [.tick 2000000,
    .submit (oneTask (rknpuJobPc ||| rknpuJobNonblock) rknpuCore0Mask) false true] ++
    List.replicate 12 (.exec 1 calm) ++ [.runWork 0, .exec 2 calm] : List JobLabel).map .job

/-- A wait that times out puts while the batch executes, and the completion puts once more;
`rknpu_job_timeout_clean` gives a job back that has not put. -/
theorem domain_put_astray :
    (∃ s, (lineSystem rk356xRknpuConfig).Reachable s ∧ .domainPut 0 ∈ s.job.todo ∧
      s.executing 0 = true ∧ s.job.dev.running 0 = some 0) ∧
    (∃ s, (lineSystem rk356xRknpuConfig).Reachable s ∧ getsOf 0 s.job.hist = 1 ∧
      putsOf 0 s.job.hist = 2) ∧
    ∃ s, (lineSystem rk356xRknpuConfig).Reachable s ∧ .free 0 ∈ s.job.hist ∧
      getsOf 0 s.job.hist = 1 ∧ putsOf 0 s.job.hist = 0 := by
  refine ⟨?_, ?_, ?_⟩
  · obtain ⟨s, hs, h⟩ := System.Reachable.of_run_any (S := lineSystem rk356xRknpuConfig)
      (p := fun s => decide (.domainPut 0 ∈ s.job.threads.flatten ∧ s.executing 0 = true ∧
        s.job.dev.running 0 = some 0))
      (l := (.submit (oneTask rknpuJobPc rknpuCore0Mask) false true ::
        List.replicate 13 (.exec 0 calm) ++
          List.replicate 9 (.exec 0 expired) : List JobLabel).map .job)
      ⟨1, rfl⟩ (by decide +kernel)
    obtain ⟨hput, hexec⟩ := of_decide_eq_true h
    exact ⟨s, hs, Multiset.mem_coe.mpr hput, hexec⟩
  · obtain ⟨s, hs, h⟩ := System.Reachable.of_run_any (S := lineSystem rk356xRknpuConfig)
      (p := fun s => decide (getsOf 0 s.job.hist = 1 ∧ putsOf 0 s.job.hist = 2))
      (l := (.submit (oneTask rknpuJobPc rknpuCore0Mask) false true ::
        List.replicate 13 (.exec 0 calm) ++
          List.replicate 10 (.exec 0 expired) : List JobLabel).map .job ++ .complete 0 ::
        (.irq 0 false :: List.replicate 6 (.exec 1 calm) : List JobLabel).map .job)
      ⟨1, rfl⟩ (by decide +kernel)
    exact ⟨s, hs, of_decide_eq_true h⟩
  · obtain ⟨s, hs, h⟩ := System.Reachable.of_run_any (S := lineSystem rk356xRknpuConfig)
      (p := fun s => decide (.free 0 ∈ s.job.hist ∧ getsOf 0 s.job.hist = 1 ∧
        putsOf 0 s.job.hist = 0)) (l := timedOutJob) ⟨1, rfl⟩ (by decide +kernel)
    exact ⟨s, hs, of_decide_eq_true h⟩

end RknpuDriver.Job
