import RknpuDriver.Job.Timeline

/-! # In-fences

`rknpu_submit` waits for an in-fence of another driver, and does not for one of its own context:
there it relies on the order of the queues. `inFenceSystem` adds the fences to the runs of
`jobSystem`; `respects` says when both are enough (`in_fence_respected`).

* `Fifo`: what a core takes, it takes in the order of the queueing.
-/

namespace RknpuDriver.Job
set_option autoImplicit false
open RknpuDriver.Lib

/-- What `sync_file_get_fence` finds: a fence of another driver, or an array with one in it; or
out-fences of jobs of this driver only. -/
inductive InFence where
  | foreign (f : ℕ)
  | own (jobs : List ℕ)
  deriving DecidableEq, Repr

/-- `inFence j` is the in-fence of job `j`, once `rknpu_submit` has looked it up. -/
structure InFenceState where
  job : JobState
  inFence : ℕ → Option InFence
  foreignSignaled : ℕ → Bool

/-- `fence` is the in-fence of a step that looks one up; `signal f` is another driver signaling. -/
inductive InFenceLabel where
  | job (a : JobLabel) (fence : Option InFence)
  | signal (f : ℕ)

def InFenceState.signaled (s : InFenceState) : InFence → Bool
  | .foreign f => s.foreignSignaled f
  | .own jobs => jobs.all s.job.dev.fenceSignaled

/-- The result of the lookup and the wait: `-EINVAL` for no fence, no wait for fences of the
context, and of `dma_fence_wait_timeout` a positive number when the fence is signaled, `0` when the
time is over and a negative number for an error. -/
def InFenceState.waitResult (s : InFenceState) (ret : ℤ) : Option InFence → Bool
  | none => ret = -einval
  | some (.own jobs) => ret = 0 ∧ ∀ i ∈ jobs, (s.job.dev.jobs i).fence ≠ none
  | some (.foreign f) => 0 < ret → s.foreignSignaled f = true

/-- The job whose in-fence a step looks up. -/
def lookup (s : JobState) : JobLabel → Option ℕ
  | .exec tid _ =>
    match nextBlock s.threads tid with
    | some (.fenceIn j, _) =>
      if (s.dev.jobs j).args.flags &&& rknpuJobFenceIn ≠ 0 then some j else none
    | _ => none
  | _ => none

def InFenceState.allows (s : InFenceState) (a : JobLabel) (fence : Option InFence) : Bool :=
  match a with
  | .exec _ o => (lookup s.job a).isSome → s.waitResult o.ret fence
  | _ => true

def inFenceStep (cfg : Config) (s : InFenceState) : InFenceLabel → Option InFenceState
  | .job a fence =>
    if s.allows a fence then (jobStep cfg s.job a).map fun t => { s with
      job := t
      inFence := fun j => if lookup s.job a = some j then fence else s.inFence j }
    else none
  | .signal f => some { s with
      foreignSignaled := fun i => if i = f then true else s.foreignSignaled i }

def inFenceSystem (cfg : Config) : System InFenceState InFenceLabel where
  init s := ∃ now, s = ⟨⟨.probed now, [], []⟩, fun _ => none, fun _ => false⟩
  step := inFenceStep cfg

/-- The jobs whose out-fences are the in-fence of `j`. -/
def InFenceState.awaits (s : InFenceState) (j : ℕ) : List ℕ :=
  match s.inFence j with
  | some (.own jobs) => jobs
  | _ => []

/-- Job `i` comes before job `j` on a core: `i` was queued before `j`, on no core that is not one of
`j`, and some core still holds it. -/
def InFenceState.ahead (cfg : Config) (s : InFenceState) (i j : ℕ) : Bool :=
  [i, j].Sublist (enqueues s.job.hist) ∧ within cfg s.job.dev i j = true ∧ ∃ c < cfg.numIrqs,
    i ∈ (s.job.dev.subcoreDatas c).todoList ∨ (s.job.dev.subcoreDatas c).job = some i

/-- * No wait for a fence of another driver runs out.
* When a core takes a job, each job whose out-fence it needs has signaled it, or comes before it.
* No interrupt is accepted for a job that needs an out-fence and is not committed yet. -/
def respects (cfg : Config) (s : InFenceState) (fence : Option InFence) (o : Outcome) :
    JobOp → Bool
  | .fenceIn j =>
    match fence with
    | some (.foreign _) => (s.job.dev.jobs j).args.flags &&& rknpuJobFenceIn ≠ 0 → o.ret ≠ 0
    | _ => true
  | .pop c =>
    match pops s.job.dev (.pop c) with
    | some j => ∀ i ∈ s.awaits j, s.job.dev.fenceSignaled i = true ∨ s.ahead cfg i j = true
    | none => true
  | .irqStatus j c =>
    rknpuFuzzStatus o.status = (s.job.dev.jobs j).intMask c →
      (∀ i ∈ s.awaits j, s.job.dev.fenceSignaled i = true) ∨ (s.job.dev.jobs j).runCount ≤ 0
  | _ => true

def respecting (cfg : Config) (s : InFenceState) : InFenceLabel → Bool
  | .job a fence => onBlock (fun _ => respects cfg s fence) s.job a
  | .signal _ => true

def respectingSystem (cfg : Config) : System InFenceState InFenceLabel :=
  (inFenceSystem cfg).guarded fun s a => respecting cfg s a = true

/-! ## The order of the queues -/

/-- Of two jobs, the one that was queued first is before the other on every core that holds both,
and a core that takes the other has nothing to do any more for the first. -/
structure Fifo (s : JobState) : Prop where
  line : ∀ i j c, [i, j].Sublist (enqueues s.hist) → ¬ [j, i].Sublist (queueOn s.dev c)
  first : ∀ i j c, [i, j].Sublist (enqueues s.hist) → j ∈ popsOn c s.hist → ¬ Holds s.dev c i
  once : (enqueues s.hist).Nodup

section
variable {cfg : Config} {s t : JobState} {a : JobLabel} {o : Outcome} {op : JobOp} {eff : Effect}
  {i j c : ℕ}

theorem holds_of_mem_queueOn {dev : Dev} (hj : j ∈ queueOn dev c) : Holds dev c j := by
  unfold queueOn at hj
  rw [List.mem_append, Option.mem_toList] at hj
  exact hj.symm

theorem Fifo.ne (hn : Fifo s) (hij : [i, j].Sublist (enqueues s.hist)) : i ≠ j := by
  have hnd := hij.nodup hn.once
  simp only [List.nodup_cons, List.mem_singleton] at hnd
  exact hnd.1

theorem Fifo.not_holds_of_pops (hn : Fifo s) (hij : [i, j].Sublist (enqueues s.hist))
    (hpop : pops s.dev (.pop c) = some j) : ¬ Holds s.dev c i := by
  obtain ⟨d, hd, hcur, -⟩ := pops_holds hpop
  cases hd
  simp only [pops, if_pos hcur] at hpop
  rintro (hlist | hcon)
  · apply hn.line i j c hij
    unfold queueOn
    rw [hcur]
    cases hl : (s.dev.subcoreDatas c).todoList with
    | nil =>
      rw [hl] at hlist
      cases hlist
    | cons k rest =>
      rw [hl] at hpop hlist
      cases hpop
      have hrest : i ∈ rest := (List.mem_cons.mp hlist).resolve_left (hn.ne hij)
      exact (List.singleton_sublist.mpr hrest).cons_cons j
  · rw [hcur] at hcon
    cases hcon

theorem Fifo.exec (hn : Fifo s) (hs : Known cfg s) (hmem : op ∈ s.todo)
    (heff : jobExec cfg s.dev o op = some eff) (hdev : t.dev = eff.dev)
    (hhist : t.hist = s.hist ++ eff.events) : Fifo t := by
  have hnot : ∀ {k}, op = .enqueue k → k ∉ enqueues s.hist :=
    fun hop hk => (hs.taken.past _ hk).2 op hmem (by rw [hop]; rfl)
  have henq : ∀ {k}, op = .enqueue k → enqueues t.hist = enqueues s.hist ++ [k] := by
    rintro k rfl
    rw [hhist, enqueues_append]
    cases heff
    rfl
  have hkeep : (∀ k, op ≠ .enqueue k) → enqueues t.hist = enqueues s.hist := by
    intro hop
    rw [hhist, enqueues_append]
    have hnil : enqueues eff.events = [] :=
      List.eq_nil_iff_forall_not_mem.mpr fun k hk => hop k ((events_enqueue heff).mp hk)
    rw [hnil, List.append_nil]
  -- two jobs of which only now the second was queued: no core knows it
  have hsplit : ∀ {i j}, [i, j].Sublist (enqueues t.hist) →
      [i, j].Sublist (enqueues s.hist) ∨ op = .enqueue j ∧ i ∈ enqueues s.hist := by
    intro i j hij
    by_cases hop : ∃ k, op = .enqueue k
    · obtain ⟨k, hop⟩ := hop
      rw [henq hop] at hij
      by_cases hjk : j = k
      · subst hjk
        refine Or.inr ⟨hop, ?_⟩
        have hi : i ≠ j := by
          have hnd : (enqueues s.hist ++ [j]).Nodup :=
            List.nodup_append_comm.mp (List.nodup_cons.mpr ⟨hnot hop, hn.once⟩)
          have hpair := hij.nodup hnd
          simp only [List.nodup_cons, List.mem_singleton] at hpair
          exact hpair.1
        have hmem' := hij.subset List.mem_cons_self
        rw [List.mem_append, List.mem_singleton] at hmem'
        exact hmem'.resolve_right hi
      · exact Or.inl (pair_sublist_append hij hjk)
    · push Not at hop
      rw [hkeep hop] at hij
      exact Or.inl hij
  have hbefore : ∀ {i j c}, [i, j].Sublist (enqueues t.hist) →
      ¬ [j, i].Sublist (queueOn s.dev c) ∧ (j ∈ popsOn c s.hist → ¬ Holds s.dev c i) ∧
        op ≠ .enqueue i := by
    intro i j c hij
    obtain hij | ⟨hop, hi⟩ := hsplit hij
    · exact ⟨hn.line i j c hij, hn.first i j c hij,
        fun hcon => hnot hcon (hij.subset List.mem_cons_self)⟩
    · refine ⟨fun hsub => ?_, fun hpop => ?_, fun hcon => hnot hcon hi⟩
      · exact (hnot hop (hs.taken.held c j (holds_of_mem_queueOn (hsub.subset List.mem_cons_self))))
      · exact (hnot hop (hs.taken.popped c j hpop).1).elim
  refine ⟨fun i j c hij hsub => ?_, fun i j c hij hj hheld => ?_, ?_⟩
  · obtain ⟨hline, -, hop⟩ := hbefore (c := c) hij
    rw [hdev] at hsub
    obtain hqueue | ⟨k, rfl, hqueue⟩ := queueOn_exec heff c
    · exact hline (hsub.trans hqueue)
    · rw [hqueue] at hsub
      exact hline (pair_sublist_append hsub fun hik => hop (by rw [hik]))
  · obtain ⟨-, hfirst, hop⟩ := hbefore (c := c) hij
    rw [hdev] at hheld
    have hheld := (holds_exec heff hheld).resolve_right fun hcon => hop hcon.1
    rw [hhist, popsOn_append, List.mem_append, mem_popsOn heff] at hj
    obtain hj | ⟨rfl, hpop⟩ := hj
    · exact hfirst hj hheld
    · obtain hij | ⟨hcon, -⟩ := hsplit hij
      · exact hn.not_holds_of_pops hij hpop hheld
      · cases hcon
  · by_cases hop : ∃ k, op = .enqueue k
    · obtain ⟨k, hop⟩ := hop
      rw [henq hop]
      exact List.nodup_append_comm.mp (List.nodup_cons.mpr ⟨hnot hop, hn.once⟩)
    · push Not at hop
      rw [hkeep hop]
      exact hn.once

theorem Fifo.step (hn : Fifo s) (hs : Known cfg s) (h : Stepped cfg s t a) : Fifo t := by
  have hkeep : enqueues t.hist = enqueues s.hist → (∀ c, popsOn c t.hist = popsOn c s.hist) →
      t.dev.subcoreDatas = s.dev.subcoreDatas → Fifo t := by
    intro hqueued hpops hcores
    refine ⟨fun i j c hij => ?_, fun i j c hij hj => ?_, ?_⟩
    · rw [hqueued] at hij
      unfold queueOn
      rw [hcores]
      exact hn.line i j c hij
    · rw [hqueued] at hij
      rw [hpops] at hj
      unfold Holds
      rw [hcores]
      exact hn.first i j c hij hj
    · rw [hqueued]
      exact hn.once
  cases h.moved with
  | submit hmask hdev htodo hhist =>
    have hgets := OnlyGets.of_submit hhist
    exact hkeep hgets.enqueues hgets.popsOn (by rw [hdev]; rfl)
  | exec hnext heff hop hdev htodo hhist => exact hn.exec hs (by simp [hop]) heff hdev hhist
  | spawn hm => exact hkeep (by rw [hm.hist]) (fun c => by rw [hm.hist]) hm.subcoreDatas

end

/-! ## Jobs with in-fences -/

/-- A job needs an out-fence that is not signaled. -/
def InFenceState.due (s : InFenceState) (j : ℕ) : Prop :=
  ∃ i ∈ s.awaits j, s.job.dev.fenceSignaled i = false

structure Respecting (cfg : Config) (s : InFenceState) : Prop where
  found : ∀ j, (s.job.dev.jobs j).args.flags &&& rknpuJobFenceIn ≠ 0 →
    j ∈ enqueues s.job.hist ∨ (∃ op ∈ s.job.todo, before op = some j ∧ op ≠ .fenceIn j) →
      ∃ fence, s.inFence j = some fence ∧
        ∀ f, fence = .foreign f → s.foreignSignaled f = true
  behind : ∀ j ∈ enqueues s.job.hist, s.due j →
    coresOf cfg (s.job.dev.jobs j).args.coreMask ≠ [] →
      ∃ c ∈ coresOf cfg (s.job.dev.jobs j).args.coreMask, j ∉ popsOn c s.job.hist
  committed : ∀ op ∈ s.job.todo, ∀ j, committing op = some j → s.due j →
    (s.job.dev.jobs j).runCount ≤ 0
  started : ∀ j c, 0 < startsOn j c s.job.hist → j ∈ enqueues s.job.hist ∧ ¬ s.due j

section
variable {cfg : Config} {s t : InFenceState} {a : JobLabel} {o : Outcome} {op : JobOp}
  {eff : Effect} {others : Multiset JobOp} {fence : Option InFence} {i j : ℕ}

theorem Countdown.all_popped_of_le {s : JobState} (hr : Countdown cfg s) (hj : j ∈ enqueues s.hist)
    (hrun : (s.dev.jobs j).runCount ≤ 0) {c : ℕ}
    (hc : c ∈ coresOf cfg (s.dev.jobs j).args.coreMask) : j ∈ popsOn c s.hist := by
  have hcount := hr.counts j hj
  have hle : popCount cfg s j ≤ (coresOf cfg (s.dev.jobs j).args.coreMask).length :=
    List.countP_le_length
  have hall : popCount cfg s j = (coresOf cfg (s.dev.jobs j).args.coreMask).length := by omega
  exact of_decide_eq_true (List.countP_eq_length.mp hall c hc)

/-- A job that needs an out-fence has run count left: a core has not taken it. -/
theorem Respecting.runCount_pos (hn : Respecting cfg s) (hs : Known cfg s.job)
    (hj : j ∈ enqueues s.job.hist) (hdue : s.due j)
    (hne : coresOf cfg (s.job.dev.jobs j).args.coreMask ≠ []) :
    ¬ (s.job.dev.jobs j).runCount ≤ 0 := by
  intro hrun
  obtain ⟨c, hc, hpop⟩ := hn.behind j hj hdue hne
  exact hpop (hs.countdown.all_popped_of_le hj hrun hc)

theorem taken_of_committing (hj : committing op = some j) : taken op = some j := by
  cases op <;> first | exact hj | cases hj

/-- What the step that runs a block does to the in-fences. -/
def lookedUp (s : InFenceState) (op : JobOp) (fence : Option InFence) (j : ℕ) : Option InFence :=
  if op = .fenceIn j ∧ (s.job.dev.jobs j).args.flags &&& rknpuJobFenceIn ≠ 0 then fence
  else s.inFence j

theorem lookedUp_of_ne (hop : op ≠ .fenceIn j) : lookedUp s op fence j = s.inFence j :=
  if_neg fun hcon => hop hcon.1

theorem awaits_eq (hin : t.inFence = lookedUp s op fence) (hop : op ≠ .fenceIn j) :
    t.awaits j = s.awaits j := by
  unfold InFenceState.awaits
  rw [hin, lookedUp_of_ne hop]

theorem due_exec (hs : Known cfg s.job) (hmem : op ∈ s.job.todo)
    (heff : jobExec cfg s.job.dev o op = some eff) (hdev : t.job.dev = eff.dev)
    (hin : t.inFence = lookedUp s op fence) (hj : j ∈ enqueues s.job.hist) (hdue : t.due j) :
    s.due j := by
  obtain ⟨i, hi, hsignaled⟩ := hdue
  have hop : op ≠ .fenceIn j :=
    fun hcon => (hs.taken.past j hj).2 op hmem (by rw [hcon]; rfl)
  rw [awaits_eq hin hop] at hi
  rw [hdev, fenceSignaled_eq heff, Bool.or_eq_false_iff] at hsignaled
  exact ⟨i, hi, hsignaled.1⟩

theorem Respecting.found_exec (hn : Respecting cfg s) (hs : Known cfg s.job)
    (hop : s.job.todo = op ::ₘ others) (heff : jobExec cfg s.job.dev o op = some eff)
    (hdev : t.job.dev = eff.dev) (htodo : t.job.todo = (eff.calls : Multiset JobOp) + others)
    (hhist : t.job.hist = s.job.hist ++ eff.events)
    (hin : t.inFence = lookedUp s op fence) (hforeign : t.foreignSignaled = s.foreignSignaled)
    (hwait : ∀ k, op = .fenceIn k → (s.job.dev.jobs k).args.flags &&& rknpuJobFenceIn ≠ 0 →
      s.waitResult o.ret fence = true)
    (hok : respects cfg s fence o op = true)
    (hflag : (t.job.dev.jobs j).args.flags &&& rknpuJobFenceIn ≠ 0)
    (hj : j ∈ enqueues t.job.hist ∨ ∃ op ∈ t.job.todo, before op = some j ∧ op ≠ .fenceIn j) :
    ∃ fence, t.inFence j = some fence ∧ ∀ f, fence = .foreign f → t.foreignSignaled f = true := by
  have hmem : op ∈ s.job.todo := by simp [hop]
  rw [hdev, flags_eq heff] at hflag
  rw [hin, hforeign]
  have hsame : op ≠ .fenceIn j → (j ∈ enqueues s.job.hist ∨
      ∃ op ∈ s.job.todo, before op = some j ∧ op ≠ .fenceIn j) →
      ∃ fence', lookedUp s op fence j = some fence' ∧
        ∀ f, fence' = .foreign f → s.foreignSignaled f = true := by
    intro hne hold
    rw [lookedUp_of_ne hne]
    exact hn.found j hflag hold
  obtain hj | ⟨x, hx, hb, hxne⟩ := hj
  · rw [hhist, enqueues_append, List.mem_append, events_enqueue heff] at hj
    obtain hj | rfl := hj
    · exact hsame (fun hcon => (hs.taken.past j hj).2 op hmem (by rw [hcon]; rfl)) (Or.inl hj)
    · exact hsame (by simp) (Or.inr ⟨_, hmem, rfl, by simp⟩)
  · rw [htodo, Multiset.mem_add, Multiset.mem_coe] at hx
    obtain hx | hx := hx
    · have hb' := calls_before heff hx hb
      by_cases hne : op = .fenceIn j
      · subst hne
        have hresult := hwait j rfl hflag
        have hret : ¬ o.ret < 0 := by
          intro hneg
          cases heff
          simp [submitFenceIn, hflag, hneg] at hx
        have hlook : lookedUp s (.fenceIn j) fence j = fence := if_pos ⟨rfl, hflag⟩
        rw [hlook]
        cases fence with
        | none =>
          simp only [InFenceState.waitResult, decide_eq_true_eq] at hresult
          rw [hresult] at hret
          exact (hret (by decide)).elim
        | some fence =>
          refine ⟨fence, rfl, ?_⟩
          rintro f rfl
          simp only [respects, decide_eq_true_eq] at hok
          simp only [InFenceState.waitResult, decide_eq_true_eq] at hresult
          have hne := hok hflag
          exact hresult (by omega)
      · exact hsame hne (Or.inr ⟨op, hmem, hb', hne⟩)
    · have hne : op ≠ .fenceIn j :=
        fun hcon => (hs.placed.exclusive hop (Or.inl (by rw [hcon]; rfl)) x hx).1 hb
      exact hsame hne (Or.inr ⟨x, by simp [hop, hx], hb, hxne⟩)

/-- A core that takes a job leaves it to a core that still holds a job before it. -/
theorem Respecting.behind_exec (hn : Respecting cfg s) (hs : Known cfg s.job) (hf : Fifo s.job)
    {b : JobLabel} (h : Stepped cfg s.job t.job b) (hop : s.job.todo = op ::ₘ others)
    (heff : jobExec cfg s.job.dev o op = some eff) (hdev : t.job.dev = eff.dev)
    (hhist : t.job.hist = s.job.hist ++ eff.events) (hin : t.inFence = lookedUp s op fence)
    (hok : respects cfg s fence o op = true) (hj : j ∈ enqueues t.job.hist) (hdue : t.due j)
    (hne : coresOf cfg (t.job.dev.jobs j).args.coreMask ≠ []) :
    ∃ c ∈ coresOf cfg (t.job.dev.jobs j).args.coreMask, j ∉ popsOn c t.job.hist := by
  have hmem : op ∈ s.job.todo := by simp [hop]
  have hpops : ∀ {c}, j ∈ popsOn c t.job.hist ↔
      j ∈ popsOn c s.job.hist ∨ op = .pop c ∧ pops s.job.dev op = some j := by
    intro c
    rw [hhist, popsOn_append, List.mem_append, mem_popsOn heff]
  rw [hhist, enqueues_append, List.mem_append, events_enqueue heff] at hj
  obtain hj | rfl := hj
  · have hold := due_exec hs hmem heff hdev hin hj hdue
    rw [((hs.taken.past j hj).stepped h).2] at hne ⊢
    by_cases hpop : ∃ c, op = .pop c ∧ pops s.job.dev op = some j
    · obtain ⟨c, rfl, hpop⟩ := hpop
      obtain ⟨i, hi, hsignaled⟩ := hold
      simp only [respects, hpop, decide_eq_true_eq] at hok
      have hahead := (hok i hi).resolve_left (by simp [hsignaled])
      simp only [InFenceState.ahead, within, decide_eq_true_eq] at hahead
      obtain ⟨hij, hwithin, d, -, hd⟩ := hahead
      obtain ⟨hlt, hon⟩ := mem_coresOf.mp (hs.placed.mem_coresOf_of_holds hd)
      refine ⟨d, mem_coresOf.mpr ⟨hlt, hwithin d hlt hon⟩, fun hcon => ?_⟩
      obtain hcon | ⟨hcon, -⟩ := hpops.mp hcon
      · exact hf.first i j d hij hcon hd
      · cases hcon
        exact hf.not_holds_of_pops hij hpop hd
    · obtain ⟨c, hc, hno⟩ := hn.behind j hj hold hne
      refine ⟨c, hc, fun hcon => ?_⟩
      obtain hcon | hcon := hpops.mp hcon
      · exact hno hcon
      · exact hpop ⟨c, hcon⟩
  · obtain ⟨c, hc⟩ := List.exists_mem_of_ne_nil _ hne
    refine ⟨c, hc, fun hcon => ?_⟩
    obtain hcon | ⟨hcon, -⟩ := hpops.mp hcon
    · exact (hs.taken.past j (hs.taken.popped c j hcon).1).2 _ hmem rfl
    · cases hcon

theorem Respecting.exec (hn : Respecting cfg s) (hs : Known cfg s.job) (hf : Fifo s.job)
    {b : JobLabel} (h : Stepped cfg s.job t.job b) (hop : s.job.todo = op ::ₘ others)
    (heff : jobExec cfg s.job.dev o op = some eff) (hdev : t.job.dev = eff.dev)
    (htodo : t.job.todo = (eff.calls : Multiset JobOp) + others)
    (hhist : t.job.hist = s.job.hist ++ eff.events)
    (hin : t.inFence = lookedUp s op fence) (hforeign : t.foreignSignaled = s.foreignSignaled)
    (hwait : ∀ k, op = .fenceIn k → (s.job.dev.jobs k).args.flags &&& rknpuJobFenceIn ≠ 0 →
      s.waitResult o.ret fence = true)
    (hok : respects cfg s fence o op = true) : Respecting cfg t := by
  have hmem : op ∈ s.job.todo := by simp [hop]
  have hle : ∀ {j}, j ∈ enqueues s.job.hist →
      (t.job.dev.jobs j).runCount ≤ (s.job.dev.jobs j).runCount := by
    intro j hj
    rw [hdev, runCount_eq heff ((hs.taken.past j hj).2 op hmem)]
    split_ifs <;> omega
  have hdue : ∀ {j}, j ∈ enqueues s.job.hist → t.due j → s.due j :=
    fun hj => due_exec hs hmem heff hdev hin hj
  refine ⟨fun j hflag hj => ?_, fun j hj => ?_, fun x hx j hj hdue' => ?_, fun j c hj => ?_⟩
  · exact hn.found_exec hs hop heff hdev htodo hhist hin hforeign hwait hok hflag hj
  · exact hn.behind_exec hs hf h hop heff hdev hhist hin hok hj
  · rw [htodo, Multiset.mem_add, Multiset.mem_coe] at hx
    obtain hx | hx := hx
    · obtain hc | ⟨rfl, hrun⟩ | ⟨c, rfl, hint⟩ := calls_committing heff hx hj
      · have hq := (hs.taken.worked op hmem j (taken_of_committing hc)).1
        exact (hle hq).trans (hn.committed op hmem j hc (hdue hq hdue'))
      · rw [hdev, runCount_eq heff (by simp [before]), if_pos rfl, hrun]
      · have hq := (hs.taken.worked _ hmem j rfl).1
        simp only [respects, decide_eq_true_eq] at hok
        refine (hle hq).trans ((hok hint).resolve_left fun hall => ?_)
        obtain ⟨i, hi, hsignaled⟩ := hdue hq hdue'
        rw [hall i hi] at hsignaled
        cases hsignaled
    · have hx' : x ∈ s.job.todo := by simp [hop, hx]
      have hq := (hs.taken.worked x hx' j (taken_of_committing hj)).1
      exact (hle hq).trans (hn.committed x hx' j hj (hdue hq hdue'))
  · rw [hhist, startsOn_append, events_startsOn heff] at hj
    have hold : j ∈ enqueues s.job.hist ∧ ¬ s.due j := by
      split_ifs at hj with hstart
      · obtain ⟨rfl, -⟩ := hstart
        obtain ⟨hq, hne⟩ := hs.taken.worked _ hmem j rfl
        refine ⟨hq, fun hdue' => hn.runCount_pos hs hq hdue' hne ?_⟩
        exact hn.committed _ hmem j rfl hdue'
      · exact hn.started j c hj
    rw [hhist, enqueues_append]
    exact ⟨List.mem_append_left _ hold.1, fun hcon => hold.2 (hdue hold.1 hcon)⟩

theorem Respecting.keep (hn : Respecting cfg s) (hs : Known cfg s.job)
    (hin : t.inFence = s.inFence)
    (hforeign : ∀ f, s.foreignSignaled f = true → t.foreignSignaled f = true)
    (hjobs : ∀ j < s.job.dev.numJobs, t.job.dev.jobs j = s.job.dev.jobs j)
    (hsignaled : t.job.dev.fenceSignaled = s.job.dev.fenceSignaled)
    (hqueued : enqueues t.job.hist = enqueues s.job.hist)
    (hpops : ∀ c, popsOn c t.job.hist = popsOn c s.job.hist)
    (hstarts : ∀ j c, startsOn j c t.job.hist = startsOn j c s.job.hist)
    (hnew : ∀ x ∈ t.job.todo, x ∈ s.job.todo ∨ committing x = none ∧
      ∀ j, before x = some j → x = .fenceIn j) : Respecting cfg t := by
  have hawaits : ∀ {j}, t.awaits j = s.awaits j := by
    intro j
    unfold InFenceState.awaits
    rw [hin]
  have hdue : ∀ {j}, t.due j ↔ s.due j := by
    intro j
    unfold InFenceState.due
    rw [hawaits, hsignaled]
  have hold : ∀ {j}, j ∈ enqueues s.job.hist → t.job.dev.jobs j = s.job.dev.jobs j :=
    fun hj => hjobs _ (hs.taken.past _ hj).1
  refine ⟨fun j hflag hj => ?_, fun j hj hd hne => ?_, fun x hx j hj hd => ?_, fun j c hj => ?_⟩
  · have hj : j ∈ enqueues s.job.hist ∨
        ∃ op ∈ s.job.todo, before op = some j ∧ op ≠ .fenceIn j := by
      rw [hqueued] at hj
      refine hj.imp_right ?_
      rintro ⟨x, hx, hb, hxne⟩
      exact ⟨x, (hnew x hx).resolve_right fun hcon => hxne (hcon.2 j hb), hb, hxne⟩
    have hlt : j < s.job.dev.numJobs := by
      obtain hj | ⟨x, hx, hb, -⟩ := hj
      · exact (hs.taken.past j hj).1
      · exact hs.placed.submitted x hx j (Or.inl hb)
    rw [hjobs j hlt] at hflag
    obtain ⟨fence, hfence, hall⟩ := hn.found j hflag hj
    rw [hin]
    exact ⟨fence, hfence, fun f hf => hforeign f (hall f hf)⟩
  · rw [hqueued] at hj
    rw [hold hj] at hne ⊢
    obtain ⟨c, hc, hpop⟩ := hn.behind j hj (hdue.mp hd) hne
    refine ⟨c, hc, ?_⟩
    rw [hpops]
    exact hpop
  · obtain hx | ⟨hnone, -⟩ := hnew x hx
    · rw [hold (hs.taken.worked x hx j (taken_of_committing hj)).1]
      exact hn.committed x hx j hj (hdue.mp hd)
    · rw [hnone] at hj
      cases hj
  · rw [hstarts] at hj
    rw [hqueued, hdue]
    exact hn.started j c hj

theorem inFenceStep_job {a : JobLabel} (h : inFenceStep cfg s (.job a fence) = some t) :
    ∃ u, jobStep cfg s.job a = some u ∧ { s with
      job := u
      inFence := fun j => if lookup s.job a = some j then fence else s.inFence j } = t := by
  simp only [inFenceStep] at h
  split_ifs at h
  exact Option.map_eq_some_iff.mp h

theorem Respecting.step {a : InFenceLabel} (hn : Respecting cfg s) (hs : Known cfg s.job)
    (hf : Fifo s.job) (h : inFenceStep cfg s a = some t) (hok : respecting cfg s a = true) :
    Respecting cfg t := by
  cases a with
  | signal f =>
    cases h
    refine hn.keep hs rfl (fun i hi => ?_) (fun _ _ => rfl) rfl rfl (fun _ => rfl)
      (fun _ _ => rfl) fun x hx => Or.inl hx
    show (if i = f then true else s.foreignSignaled i) = true
    split_ifs
    · rfl
    · exact hi
  | job a fence =>
    simp only [inFenceStep] at h
    split_ifs at h with hallows
    obtain ⟨u, hu, rfl⟩ := Option.map_eq_some_iff.mp h
    have hstep := stepped hu
    by_cases hexec : ∃ tid o, a = .exec tid o
    · obtain ⟨tid, o, rfl⟩ := hexec
      cases hstep with
      | @exec _ _ op rest eff others hnext heff hop hdev htodo hhist =>
        have hlooked : (fun j => if lookup s.job (.exec tid o) = some j then fence
            else s.inFence j) = lookedUp s op fence := by
          funext j
          unfold lookedUp
          refine if_congr ?_ rfl rfl
          simp only [lookup, hnext]
          cases op with
          | fenceIn k =>
            simp only [Option.ite_none_right_eq_some, Option.some.injEq, JobOp.fenceIn.injEq]
            refine ⟨fun hk => ⟨hk.2, hk.2 ▸ hk.1⟩, fun hk => ⟨hk.1 ▸ hk.2, hk.1⟩⟩
          | _ => simp
        rw [respecting, onBlock_exec hnext] at hok
        refine hn.exec hs hf (stepped hu) hop heff hdev htodo hhist hlooked rfl ?_ hok
        rintro k rfl hk
        simp only [InFenceState.allows, lookup, hnext, if_pos hk, decide_eq_true_eq] at hallows
        exact hallows rfl
    · push Not at hexec
      have hnone : (fun j => if lookup s.job a = some j then fence else s.inFence j) =
          s.inFence := by
        have hlook : lookup s.job a = none := by
          cases a with
          | exec tid o => exact (hexec tid o rfl).elim
          | _ => rfl
        rw [hlook]
        rfl
      cases hstep.moved with
      | submit hmask hdev htodo hhist =>
        have hgets := OnlyGets.of_submit hhist
        refine hn.keep hs hnone (fun _ hi => hi) (fun j hj => ?_) (by rw [hdev]; rfl)
          hgets.enqueues hgets.popsOn hgets.startsOn fun x hx => ?_
        · rw [hdev, Dev.addJob_jobs, if_neg (Nat.ne_of_lt hj)]
        · rw [htodo, Multiset.mem_cons] at hx
          obtain rfl | hx := hx
          · exact Or.inr ⟨rfl, fun j hj => by cases hj; rfl⟩
          · exact Or.inl hx
      | exec => exact (hexec _ _ rfl).elim
      | spawn hm =>
        refine hn.keep hs hnone (fun _ hi => hi) (fun j _ => by rw [hm.jobs])
          hm.fenceSignaled (by rw [hm.hist]) (fun c => by rw [hm.hist]) (fun j c => by rw [hm.hist])
          fun x hx => ?_
        refine (hm.mem_todo hx).imp_right fun hstart => ?_
        cases x <;> first | exact hstart.elim | exact ⟨rfl, fun j hj => by cases hj⟩

theorem respecting_run (hcfg : cfg.Sound) (hs : (respectingSystem cfg).Reachable s) :
    Known cfg s.job ∧ Fifo s.job ∧ Respecting cfg s := by
  refine hs.invariant (fun s => Known cfg s.job ∧ Fifo s.job ∧ Respecting cfg s) ?_ ?_
  · rintro s ⟨now, rfl⟩
    refine ⟨known_init, ⟨fun i j c hij => ?_, fun i j c hij => ?_, List.nodup_nil⟩,
      ⟨fun j _ hj => ?_, fun j hj => ?_, fun op hop => ?_, fun j c hj => ?_⟩⟩
    · exact (List.not_mem_nil (hij.subset List.mem_cons_self)).elim
    · exact (List.not_mem_nil (hij.subset List.mem_cons_self)).elim
    · obtain hj | ⟨op, hop, -⟩ := hj
      · exact (List.not_mem_nil hj).elim
      · exact (Multiset.notMem_zero op hop).elim
    · exact (List.not_mem_nil hj).elim
    · exact (Multiset.notMem_zero op hop).elim
    · exact (Nat.lt_irrefl 0 hj).elim
  · rintro s a t ⟨hs, hf, hn⟩ h
    obtain ⟨hok, h⟩ := System.guarded_step.mp h
    refine ⟨?_, ?_, hn.step hs hf h hok⟩
    · cases a with
      | signal f =>
        cases h
        exact hs
      | job a fence =>
        obtain ⟨u, hu, rfl⟩ := inFenceStep_job h
        exact hs.step hcfg (stepped hu)
    · cases a with
      | signal f =>
        cases h
        exact hf
      | job a fence =>
        obtain ⟨u, hu, rfl⟩ := inFenceStep_job h
        exact hf.step hs (stepped hu)

/-- **A job is committed only after its in-fence has signaled**, when every wait for another driver
is successful and the queues give the order of the context. -/
theorem in_fence_respected (hcfg : cfg ∈ rknpuConfigs) (hs : (respectingSystem cfg).Reachable s)
    (hflag : (s.job.dev.jobs j).args.flags &&& rknpuJobFenceIn ≠ 0)
    (hj : .commit j ∈ s.job.hist ∨ ∃ c, 0 < startsOn j c s.job.hist) :
    ∃ fence, s.inFence j = some fence ∧ s.signaled fence = true := by
  obtain ⟨hk, -, hn⟩ := respecting_run (rknpuConfigs_sound hcfg) hs
  have hready : j ∈ enqueues s.job.hist ∧ ¬ s.due j := by
    obtain hj | ⟨c, hc⟩ := hj
    · have hcount := hk.countdown.commits j
      have hpos := List.count_pos_iff.mpr hj
      split_ifs at hcount with hcommit
      · obtain ⟨hq, hne, hrun⟩ := hcommit
        exact ⟨hq, fun hdue => hn.runCount_pos hk hq hdue hne (le_of_eq hrun)⟩
      · omega
    · exact hn.started j c hc
  obtain ⟨hq, hdue⟩ := hready
  obtain ⟨fence, hfence, hforeign⟩ := hn.found j hflag (Or.inl hq)
  refine ⟨fence, hfence, ?_⟩
  cases fence with
  | foreign f => exact hforeign f rfl
  | own jobs =>
    refine List.all_eq_true.mpr fun i hi => ?_
    by_contra hcon
    refine hdue ⟨i, ?_, Bool.eq_false_iff.mpr hcon⟩
    unfold InFenceState.awaits
    rw [hfence]
    exact hi

end

/-- A job whose out-fence is the in-fence of a second one, which runs its first blocks. -/
def chainedJobs (mask : UInt32) (blocks : ℕ) : List InFenceLabel :=
  (.submit (oneTask (rknpuJobPc ||| rknpuJobFenceOut) rknpuCore0Mask) false true ::
    List.replicate 16 (.exec 0 calm)).map (fun a => .job a none) ++
  (.submit (oneTask (rknpuJobPc ||| rknpuJobFenceIn) mask) false true ::
    List.replicate blocks (.exec 1 calm)).map (fun a => .job a (some (.own [0])))

theorem in_fence_respected_own : ∃ s, (respectingSystem rk3588RknpuConfig).Reachable s ∧
    .commit 1 ∈ s.job.hist ∧ s.inFence 1 = some (.own [0]) ∧ s.job.dev.fenceSignaled 0 = true := by
  obtain ⟨s, hs, h⟩ := System.Reachable.of_run_any (S := respectingSystem rk3588RknpuConfig)
    (p := fun s => decide (.commit 1 ∈ s.job.hist ∧
      (s.job.dev.jobs 1).args.flags &&& rknpuJobFenceIn ≠ 0 ∧ s.inFence 1 = some (.own [0])))
    (l := chainedJobs rknpuCore0Mask 12 ++
      (.irq 0 true :: List.replicate 15 (.exec 2 calm)).map (fun a => .job a none))
    ⟨1, rfl⟩ (by decide +kernel)
  obtain ⟨hcommit, hflag, hfence⟩ := of_decide_eq_true h
  refine ⟨s, hs, hcommit, hfence, ?_⟩
  obtain ⟨fence, hin, hall⟩ := in_fence_respected (by decide) hs hflag (Or.inl hcommit)
  rw [hfence] at hin
  cases hin
  exact List.all_eq_true.mp hall 0 List.mem_cons_self

/-- A wait for another driver that runs out, and a job on a core of its own, which does not wait. -/
theorem in_fence_ignored :
    (∃ s, (inFenceSystem rk356xRknpuConfig).Reachable s ∧ .commit 0 ∈ s.job.hist ∧
      s.inFence 0 = some (.foreign 0) ∧ s.foreignSignaled 0 = false) ∧
    ∃ s, (inFenceSystem rk3588RknpuConfig).Reachable s ∧ .commit 1 ∈ s.job.hist ∧
      s.inFence 1 = some (.own [0]) ∧ s.job.dev.fenceSignaled 0 = false := by
  constructor
  · obtain ⟨s, hs, h⟩ := System.Reachable.of_run_any (S := inFenceSystem rk356xRknpuConfig)
      (p := fun s => decide (.commit 0 ∈ s.job.hist ∧ s.inFence 0 = some (.foreign 0) ∧
        s.foreignSignaled 0 = false))
      (l := (.submit (oneTask (rknpuJobPc ||| rknpuJobFenceIn) rknpuCore0Mask) false true ::
        List.replicate 13 (.exec 0 calm)).map fun a => .job a (some (.foreign 0)))
      ⟨1, rfl⟩ (by decide +kernel)
    exact ⟨s, hs, of_decide_eq_true h⟩
  · obtain ⟨s, hs, h⟩ := System.Reachable.of_run_any (S := inFenceSystem rk3588RknpuConfig)
      (p := fun s => decide (.commit 1 ∈ s.job.hist ∧ s.inFence 1 = some (.own [0]) ∧
        s.job.dev.fenceSignaled 0 = false))
      (l := chainedJobs rknpuCore1Mask 15) ⟨1, rfl⟩ (by decide +kernel)
    exact ⟨s, hs, of_decide_eq_true h⟩

end RknpuDriver.Job
