import RknpuDriver.Job.Lifetime

/-! # Jobs that a thread waits for

When nobody submits with `RKNPU_JOB_NONBLOCK`, a job that was queued is freed or its submitter is
still inside `rknpu_submit` (`Waited.waits`). So while a core has a job, or a block reads or writes
the registers for one, the thread that submitted the job has not returned (`attended`).
-/

namespace RknpuDriver.Job
set_option autoImplicit false
open RknpuDriver.Lib

/-- A job is submitted without `RKNPU_JOB_NONBLOCK`. -/
def waiting : JobLabel → Bool
  | .submit args _ _ => args.flags &&& rknpuJobNonblock = 0
  | _ => true

/-- The runs of `releasingSystem` in which every submitter waits. -/
def waitingSystem (cfg : Config) : System JobState JobLabel :=
  (releasingSystem cfg).guarded fun _ a => waiting a = true

/-- The blocks in which `rknpu_job.c` reads or writes the registers of a core for a job. -/
def registers : JobOp → Option ℕ
  | .subcoreCommit j _ | .irqStatus j _ | .waitEnd j _ => some j
  | _ => none

structure Waited (s : JobState) : Prop where
  blocking : ∀ j, (s.dev.jobs j).args.flags &&& rknpuJobNonblock = 0
  returns : ∀ j, .nonblockRet j ∉ s.todo
  waits : ∀ j ∈ enqueues s.hist, s.dev.freed j = true ∨ ∃ op ∈ s.todo, after op = some j

section
variable {cfg : Config} {s t : JobState} {a : JobLabel} {dev : Dev} {o : Outcome} {op : JobOp}
  {eff : Effect} {j : ℕ}

theorem leaves_after (h : jobExec cfg dev o op = some eff) (hj : after op = some j) :
    (∃ x ∈ eff.calls, after x = some j) ∨ eff.dev.freed j = true ∨ op = .nonblockRet j := by
  have hany : eff.calls.any (fun x => after x = some j) = true ∨ eff.dev.freed j = true ∨
      op = .nonblockRet j := by
    cases op <;> first | (cases hj; done) | grind -ring -linarith -order
  refine hany.imp (fun hcall => ?_) id
  obtain ⟨x, hx, hafter⟩ := List.any_eq_true.mp hcall
  exact ⟨x, hx, of_decide_eq_true hafter⟩

theorem calls_nonblockRet (h : jobExec cfg dev o op = some eff) (hj : .nonblockRet j ∈ eff.calls) :
    (dev.jobs j).args.flags &&& rknpuJobNonblock ≠ 0 := by
  cases op with
  | doneClear k c =>
    cases h
    simp [jobDoneClear, Effect.goto] at hj
  | _ => grind -ring -linarith -order

theorem submitter_of_call (h : jobExec cfg dev o op = some eff) {x : JobOp} (hx : x ∈ eff.calls)
    (hj : before x = some j ∨ after x = some j) : before op = some j ∨ after op = some j := by
  have hle := calls_submitter h j
  have hone : submitter j x ≤ (eff.calls.map (submitter j)).sum :=
    List.single_le_sum (fun _ _ => Nat.zero_le _) _ (List.mem_map_of_mem hx)
  by_contra hop
  rw [submitter, if_pos hj] at hone
  rw [submitter, if_neg hop] at hle
  omega

end

section
variable {cfg : Config} {s t : JobState} {a : JobLabel}

theorem waited_init {now : ℕ} : Waited ⟨.probed now, [], []⟩ where
  blocking _ := by
    show (0 : UInt32) &&& rknpuJobNonblock = 0
    decide
  returns _ hj := (Multiset.notMem_zero _ hj).elim
  waits _ hj := (List.not_mem_nil hj).elim

theorem Waited.keep (hn : Waited s) {n : Multiset JobOp} (hjobs : t.dev.jobs = s.dev.jobs)
    (hfreed : t.dev.freed = s.dev.freed) (htodo : t.todo = n + s.todo)
    (hnew : ∀ j, .nonblockRet j ∉ n) (hhist : enqueues t.hist = enqueues s.hist) : Waited t where
  blocking j := by
    rw [hjobs]
    exact hn.blocking j
  returns j hj := by
    rw [htodo, Multiset.mem_add] at hj
    exact hj.elim (hnew j) (hn.returns j)
  waits j hj := by
    rw [hhist] at hj
    obtain hj | ⟨op, hop, hafter⟩ := hn.waits j hj
    · exact Or.inl (by rw [hfreed]; exact hj)
    · exact Or.inr ⟨op, by rw [htodo]; exact Multiset.mem_add.mpr (Or.inr hop), hafter⟩

theorem Waited.exec (hn : Waited s) {o : Outcome} {op : JobOp} {eff : Effect}
    {others : Multiset JobOp} (heff : jobExec cfg s.dev o op = some eff)
    (hop : s.todo = op ::ₘ others) (hdev : t.dev = eff.dev)
    (htodo : t.todo = (eff.calls : Multiset JobOp) + others)
    (hhist : t.hist = s.hist ++ eff.events) : Waited t where
  blocking j := by
    rw [hdev, flags_eq heff]
    exact hn.blocking j
  returns j hj := by
    rw [htodo, Multiset.mem_add] at hj
    obtain hj | hj := hj
    · exact calls_nonblockRet heff (Multiset.mem_coe.mp hj) (hn.blocking j)
    · exact hn.returns j (by rw [hop]; exact Multiset.mem_cons_of_mem hj)
  waits j hj := by
    have hcalled : ∀ x ∈ eff.calls, x ∈ t.todo := by
      intro x hx
      rw [htodo]
      exact Multiset.mem_add.mpr (Or.inl (Multiset.mem_coe.mpr hx))
    rw [hhist, enqueues_append, List.mem_append, events_enqueue heff] at hj
    obtain hj | rfl := hj
    · obtain hfreed | ⟨x, hx, hafter⟩ := hn.waits j hj
      · refine Or.inl ?_
        rw [hdev, freed_eq heff, hfreed, Bool.true_or]
      · rw [hop, Multiset.mem_cons] at hx
        obtain rfl | hx := hx
        · obtain ⟨y, hy, hyafter⟩ | hfreed | rfl := leaves_after heff hafter
          · exact Or.inr ⟨y, hcalled y hy, hyafter⟩
          · exact Or.inl (by rw [hdev]; exact hfreed)
          · exact (hn.returns j (by rw [hop]; exact Multiset.mem_cons_self _ _)).elim
        · refine Or.inr ⟨x, ?_, hafter⟩
          rw [htodo]
          exact Multiset.mem_add.mpr (Or.inr hx)
    · cases heff
      exact Or.inr ⟨.scanMask j 0, hcalled _ (List.mem_singleton_self _), rfl⟩

theorem Waited.step (hn : Waited s) (h : Stepped cfg s t a) (hok : waiting a = true) :
    Waited t := by
  have hone : ∀ {op : JobOp}, (∀ j, .nonblockRet j ≠ op) →
      ∀ j, .nonblockRet j ∉ ({op} : Multiset JobOp) :=
    fun hne j hj => hne j (Multiset.mem_singleton.mp hj)
  cases h with
  | refused ht =>
    rw [ht]
    exact hn
  | submit hmask hdev htodo hhist =>
    have horder : enqueues t.hist = enqueues s.hist := (OnlyGets.of_submit hhist).enqueues
    refine ⟨fun j => ?_, fun j hj => ?_, fun j hj => ?_⟩
    · rw [hdev, Dev.addJob_jobs]
      split_ifs
      · exact of_decide_eq_true hok
      · exact hn.blocking j
    · rw [htodo, Multiset.mem_cons] at hj
      obtain hj | hj := hj
      · cases hj
      · exact hn.returns j hj
    · rw [horder] at hj
      rw [hdev, Dev.addJob_freed]
      refine (hn.waits j hj).imp_right ?_
      rintro ⟨op, hop, hafter⟩
      exact ⟨op, by rw [htodo]; exact Multiset.mem_cons_of_mem hop, hafter⟩
  | exec hnext heff hop hdev htodo hhist => exact hn.exec heff hop hdev htodo hhist
  | irq hc hrunning hdev htodo hhist =>
    refine hn.keep ?_ ?_ (htodo.trans (Multiset.singleton_add _ _).symm) (hone nofun)
      (by rw [hhist])
    · rw [hdev]
      split_ifs <;> rfl
    · rw [hdev]
      split_ifs <;> rfl
  | runWork hj hdev htodo hhist =>
    exact hn.keep (by rw [hdev]) (by rw [hdev]) (htodo.trans (Multiset.singleton_add _ _).symm)
      (hone nofun) (by rw [hhist])
  | actReset hdev htodo hhist | timer hdev htodo hhist =>
    exact hn.keep (by rw [hdev]) (by rw [hdev]) (htodo.trans (Multiset.singleton_add _ _).symm)
      (hone nofun) (by rw [hhist])
  | tick hdev htodo hhist =>
    exact hn.keep (by rw [hdev]) (by rw [hdev]) (htodo.trans (zero_add _).symm)
      (fun j => Multiset.notMem_zero _) (by rw [hhist])

/-! ## Whose job it is -/

theorem waited (hcfg : cfg.Sound) (hs : (waitingSystem cfg).Reachable s) :
    Calm cfg s ∧ Kept s ∧ Waited s := by
  refine ⟨(kept hcfg hs.unguarded).1, (kept hcfg hs.unguarded).2, ?_⟩
  refine hs.invariant Waited ?_ ?_
  · rintro s ⟨now, rfl⟩
    exact waited_init
  · intro s a t hn h
    obtain ⟨hok, h⟩ := System.guarded_step.mp h
    exact hn.step (stepped (System.guarded_step.mp (System.guarded_step.mp h).2).2) hok

/-- A block that reads or writes registers belongs to a job that was queued and is not done. -/
theorem Calm.registers_live (hs : Calm cfg s) {op : JobOp} {j : ℕ} (hop : op ∈ s.todo)
    (hj : registers op = some j) :
    after op = some j ∨ j ∈ enqueues s.hist ∧ (s.dev.jobs j).done ≠ true := by
  by_contra hnot
  push Not at hnot
  have hthrough : j ∉ enqueues s.hist ∨ (s.dev.jobs j).done = true := by
    by_cases hmem : j ∈ enqueues s.hist
    · exact Or.inr (hnot.2 hmem)
    · exact Or.inl hmem
  cases op with
  | subcoreCommit i c | irqStatus i c =>
    obtain rfl : i = j := Option.some.inj hj
    obtain ⟨d, hd⟩ := hs.through hthrough hop (Multiset.mem_singleton_self _) rfl
    cases hd
  | waitEnd i ret => exact hnot.1 hj
  | _ => cases hj

/-- **A job at work has its submitter inside `rknpu_submit`**: one that a core has or has queued,
and one for which a block reads or writes registers. -/
theorem attended (hcfg : cfg.Sound) (hs : (waitingSystem cfg).Reachable s) {j : ℕ}
    (hj : (∃ c, Holds s.dev c j) ∨ ∃ op ∈ s.todo, registers op = some j) :
    ∃ op ∈ s.todo, after op = some j := by
  obtain ⟨hcalm, hkept, hwaited⟩ := waited hcfg hs
  have hlive : (∃ op ∈ s.todo, after op = some j) ∨
      j ∈ enqueues s.hist ∧ (s.dev.jobs j).done ≠ true := by
    obtain ⟨c, hc⟩ | ⟨op, hop, hreg⟩ := hj
    · by_contra hnot
      push Not at hnot
      refine hcalm.not_holds ?_ c hc
      by_cases hmem : j ∈ enqueues s.hist
      · exact Or.inr (hnot.2 hmem)
      · exact Or.inl hmem
    · exact (hcalm.registers_live hop hreg).imp_left fun hafter => ⟨op, hop, hafter⟩
  obtain hserved | ⟨hmem, hdone⟩ := hlive
  · exact hserved
  · obtain hfreed | hserved := hwaited.waits j hmem
    · have hover := hkept.freed j hfreed
      exact (hover.through.elim (fun hnot => hnot hmem) hdone).elim
    · exact hserved

end
end RknpuDriver.Job
