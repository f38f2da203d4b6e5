import RknpuDriver.Job.Fences
import RknpuDriver.Job.Lines

/-! # The order of the out-fences

`rknpu_fence_alloc` numbers the out-fences, and `rknpu_job_done` signals them. `keepsOrder` says
when the numbers are signaled in increasing order (`fences_in_order`).
-/

namespace RknpuDriver.Job
set_option autoImplicit false
open RknpuDriver.Lib

/-- The numbers of the fences, in the order in which they were signaled. -/
def signals (hist : List Event) : List ℕ :=
  hist.filterMap fun
    | .fenceSignal _ n => some n
    | _ => none

@[simp] theorem signals_append (hist evs : List Event) :
    signals (hist ++ evs) = signals hist ++ signals evs := List.filterMap_append

/-- The out-fence of `i` has a smaller number than that of `j`. -/
def earlier (dev : Dev) (i j : ℕ) : Bool :=
  match (dev.jobs i).fence, (dev.jobs j).fence with
  | some m, some n => m < n
  | _, _ => false

/-- No core holds the job, and no handler works for it. -/
def atRest (cfg : Config) (s : JobState) (i : ℕ) : Bool :=
  (∀ c < cfg.numIrqs, i ∉ (s.dev.subcoreDatas c).todoList ∧ (s.dev.subcoreDatas c).job ≠ some i) ∧
    ∀ op ∈ s.threads.flatten, stage op ≠ some i

/-- The cores of job `i` are cores of job `j`. -/
def within (cfg : Config) (dev : Dev) (i j : ℕ) : Bool :=
  ∀ c < cfg.numIrqs, onCore (dev.jobs i).args.coreMask c = true →
    onCore (dev.jobs j).args.coreMask c = true

/-- Fences are numbered one after the other, and the number does not wrap; and a job with a fence is
queued after all jobs whose fences have smaller numbers and are not signaled, and on all cores on
which these are still at work. -/
def keepsOrder (cfg : Config) (s : JobState) : JobOp → Bool
  | .fenceInit _ seqno => seqno = s.dev.fenceSeqno ∧ seqno + 1 < 2 ^ 32
  | .enqueue j => ∀ i < s.dev.numJobs, earlier s.dev i j = true → s.dev.fenceSignaled i = false →
      (∀ op ∈ s.threads.flatten, before op ≠ some i) ∧
        (atRest cfg s i = true ∨ within cfg s.dev i j = true)
  | _ => true

def inOrder (cfg : Config) (s : LineState) : LineLabel → Bool
  | .job a => onBlock (fun _ _ op => keepsOrder cfg s.job op) s.job a
  | .complete _ => true

def timelineSystem (cfg : Config) : System LineState LineLabel :=
  (lineSystem cfg).guarded fun s a => inOrder cfg s a = true

/-! ## Invariants -/

/-- The interrupt of job `j` on core `c` is being handled, or was handled to its end. -/
def Reached (s : LineState) (j c : ℕ) : Prop :=
  s.cleared j c = true ∨ ∃ op ∈ s.job.todo, coreOf op = some (j, c) ∧ lineOf op = some c

/-- The handler of line `c` works for job `i`. -/
def Serving (s : LineState) (c i : ℕ) : Prop :=
  ∃ tid thread, s.handler c = some tid ∧ s.job.threads[tid]? = some thread ∧
    ∃ op ∈ thread, stage op = some i

/-- On core `c` job `j` comes after job `i`. -/
structure Behind (s : LineState) (c i j : ℕ) : Prop where
  line : ¬ [j, i].Sublist (queueOn s.job.dev c)
  reached : Reached s j c → ¬ Holds s.job.dev c i ∧ ¬ Serving s c i

/-- No core will complete the job any more. -/
structure Ended (s : LineState) (i : ℕ) : Prop where
  past : Past s.job i
  held : ∀ c, ¬ Holds s.job.dev c i
  stages : ∀ op ∈ s.job.todo, stage op ≠ some i

/-- Job `j`, which is queued, will not be signaled before job `i`. -/
def Follows (cfg : Config) (s : LineState) (i j : ℕ) : Prop :=
  s.job.dev.fenceSignaled i = true ∨ Ended s i ∨
    i ∈ enqueues s.job.hist ∧ (∀ c ∈ coresOf cfg (s.job.dev.jobs i).args.coreMask,
      c ∈ coresOf cfg (s.job.dev.jobs j).args.coreMask ∧ Behind s c i j)

structure Timeline (cfg : Config) (s : LineState) : Prop where
  seqno : ∀ j n, (s.job.dev.jobs j).fence = some n →
    j < s.job.dev.numJobs ∧ n ≤ s.job.dev.fenceSeqno
  inj : ∀ i j n, (s.job.dev.jobs i).fence = some n → (s.job.dev.jobs j).fence = some n → i = j
  signaled : ∀ j n, .fenceSignal j n ∈ s.job.hist → (s.job.dev.jobs j).fence = some n ∧
    s.job.dev.fenceSignaled j = true
  finished : ∀ j, s.job.dev.fenceSignaled j = true ∨ (∃ op ∈ s.job.todo, signaling j op = true) →
    .done j ∈ s.job.hist
  once : ∀ j, s.job.todo.count (.setRet j) + s.job.todo.count (.fenceSignal j) +
    (if s.job.dev.fenceSignaled j then 1 else 0) ≤ s.job.hist.count (.done j)
  follows : ∀ i j, earlier s.job.dev i j = true → j ∈ enqueues s.job.hist → Follows cfg s i j
  sorted : (signals s.job.hist).Pairwise (· < ·)

/-! ## Blocks -/

section
variable {cfg : Config} {dev : Dev} {o : Outcome} {op : JobOp} {eff : Effect} {j : ℕ}

theorem calls_setRet_count (h : jobExec cfg dev o op = some eff) (j : ℕ) :
    eff.calls.count (.setRet j) = if op = .setDone j then 1 else 0 := by
  cases op with
  | commit k => simp [calls_commit_eq_zero h]
  | doneClear k c =>
    cases h
    rfl
  | _ => grind -ring -linarith -order

theorem calls_fenceSignal_count (h : jobExec cfg dev o op = some eff) (j : ℕ) :
    eff.calls.count (.fenceSignal j) = if op = .setRet j then 1 else 0 := by
  cases op with
  | commit k => simp [calls_commit_eq_zero h]
  | doneClear k c =>
    cases h
    rfl
  | setRet k =>
    cases h
    simp [jobSetRet, Effect.goto, List.count_cons]
  | _ => grind -ring -linarith -order

theorem calls_signaling (h : jobExec cfg dev o op = some eff) {x : JobOp} (hx : x ∈ eff.calls)
    (hj : signaling j x = true) : op = .setDone j ∨ signaling j op = true := by
  cases x with
  | setRet i =>
    obtain rfl : i = j := of_decide_eq_true hj
    have hpos := List.count_pos_iff.mpr hx
    rw [calls_setRet_count h] at hpos
    split_ifs at hpos with hop
    · exact Or.inl hop
    · exact (Nat.lt_irrefl 0 hpos).elim
  | fenceSignal i =>
    obtain rfl : i = j := of_decide_eq_true hj
    have hpos := List.count_pos_iff.mpr hx
    rw [calls_fenceSignal_count h] at hpos
    split_ifs at hpos with hop
    · exact Or.inr (by rw [hop]; exact decide_eq_true rfl)
    · exact (Nat.lt_irrefl 0 hpos).elim
  | _ => cases hj

theorem events_signals (h : jobExec cfg dev o op = some eff) {n : ℕ} (hn : n ∈ signals eff.events) :
    ∃ j, op = .fenceSignal j ∧ (dev.jobs j).fence = some n ∧ signals eff.events = [n] := by
  obtain ⟨e, he, hen⟩ := List.mem_filterMap.mp hn
  cases e with
  | fenceSignal j m =>
    cases hen
    obtain ⟨rfl, hfence⟩ := (events_fenceSignal h).mp he
    refine ⟨j, rfl, hfence, ?_⟩
    cases h
    simp [jobFenceSignal, hfence, signals]
  | _ => cases hen

end

/-! ## Jobs that follow each other -/

section
variable {cfg : Config} {s t : LineState} {a : LineLabel} {o : Outcome} {op : JobOp} {eff : Effect}
  {others : Multiset JobOp} {rest : List JobOp} {tid i j c : ℕ}

theorem Serving.of_getElem {thread : List JobOp} (hc : s.handler c = some tid)
    (hget : s.job.threads[tid]? = some thread) (hop : op ∈ thread) (hi : stage op = some i) :
    Serving s c i := ⟨tid, thread, hc, hget, op, hop, hi⟩

theorem Lined.popped_of_reached (hs : Lined cfg s) (hj : Reached s j c) :
    j ∈ popsOn c s.job.hist := by
  obtain hj | ⟨op, hop, hcore, -⟩ := hj
  · exact hs.cleared.popped j c hj
  · exact hs.known.countdown.reached op hop j c hcore

theorem Ended.exec (hi : Ended s i) {b : JobLabel} (h : Stepped cfg s.job t.job b)
    (hop : s.job.todo = op ::ₘ others) (heff : jobExec cfg s.job.dev o op = some eff)
    (hdev : t.job.dev = eff.dev) (htodo : t.job.todo = (eff.calls : Multiset JobOp) + others) :
    Ended t i := by
  have hmem : op ∈ s.job.todo := by simp [hop]
  refine ⟨(hi.past.stepped h).1, fun c hc => ?_, fun x hx hstage => ?_⟩
  · rw [hdev] at hc
    obtain hc | ⟨rfl, -⟩ := holds_exec heff hc
    · exact hi.held c hc
    · exact hi.past.2 _ hmem rfl
  · rw [htodo, Multiset.mem_add] at hx
    obtain hx | hx := hx
    · obtain hop' | ⟨c, -, hcur, -⟩ := calls_stage heff (Multiset.mem_coe.mp hx) hstage
      · exact hi.stages op hmem hop'
      · exact hi.held c (Or.inr hcur)
    · exact hi.stages x (by simp [hop, hx]) hstage

/-- A job that the handler of a line does not work for, and its core does not hold, is not taken up
by that handler. -/
theorem serving_exec (hs : Lined cfg s) (hnext : nextBlock s.job.threads tid = some (op, rest))
    (heff : jobExec cfg s.job.dev o op = some eff)
    (hthreads : t.job.threads = advance s.job.threads tid eff.calls rest)
    (hhandler : t.handler = s.handler) (hheld : ¬ Holds s.job.dev c i)
    (hserving : ¬ Serving s c i) :
    ¬ Serving t c i := by
  rintro ⟨k, thread, hk, hget, x, hx, hstage⟩
  rw [hhandler] at hk
  rw [hthreads, advance, List.getElem?_set] at hget
  have hthread := getElem_of_nextBlock hnext
  split_ifs at hget with hki hlt
  · subst hki
    cases hget
    obtain hx | hx := List.mem_append.mp hx
    · obtain hop' | ⟨d, rfl, hcur, -⟩ := calls_stage heff hx hstage
      · exact hserving (.of_getElem hk hthread List.mem_cons_self hop')
      · obtain rfl := hs.handled.inj d c tid (hs.handled.line.next hnext d rfl) hk
        exact hheld (Or.inr hcur)
    · exact hserving (.of_getElem hk hthread (List.mem_cons_of_mem op hx) hstage)
  · exact hserving (.of_getElem hk hget hx hstage)

theorem Behind.exec (hij : Behind s c i j) (hne : i ≠ j) (hs : Lined cfg s)
    (hi : i ∈ enqueues s.job.hist) (hnext : nextBlock s.job.threads tid = some (op, rest))
    (hop : s.job.todo = op ::ₘ others)
    (heff : jobExec cfg s.job.dev o op = some eff) (hdev : t.job.dev = eff.dev)
    (htodo : t.job.todo = (eff.calls : Multiset JobOp) + others)
    (hthreads : t.job.threads = advance s.job.threads tid eff.calls rest)
    (ht : t = s.ran cfg o op t.job) : Behind t c i j := by
  have hmem : op ∈ s.job.todo := by simp [hop]
  have hnot : op ≠ .enqueue i := fun hcon =>
    (hs.known.taken.past i hi).2 op hmem (by rw [hcon]; rfl)
  have hhandler : t.handler = s.handler := by
    rw [ht]
    rfl
  refine ⟨fun hsub => ?_, fun hreached => ?_⟩
  · rw [hdev] at hsub
    obtain hqueue | ⟨k, rfl, hqueue⟩ := queueOn_exec heff c
    · exact hij.line (hsub.trans hqueue)
    · rw [hqueue] at hsub
      exact hij.line (pair_sublist_append hsub fun hik => hnot (by rw [hik]))
  · have hbefore : (¬ Holds s.job.dev c i ∧ ¬ Serving s c i) := by
      have hkept : ∀ {x}, x ∈ s.job.todo → coreOf x = some (j, c) → lineOf x = some c →
          ¬ Holds s.job.dev c i ∧ ¬ Serving s c i :=
        fun hx hcore hline => hij.reached (Or.inr ⟨_, hx, hcore, hline⟩)
      obtain hcleared | ⟨x, hx, hcore, hline⟩ := hreached
      · obtain hcleared | rfl := (cleared_ran ht j c).mp hcleared
        · exact hij.reached (Or.inl hcleared)
        · exact hkept hmem rfl rfl
      · rw [htodo, Multiset.mem_add] at hx
        obtain hx | hx := hx
        · have hop' := calls_lineOf heff (Multiset.mem_coe.mp hx) hline
          obtain hcore' | ⟨rfl, hcur⟩ | ⟨rfl, -⟩ := calls_coreOf heff (Multiset.mem_coe.mp hx) hcore
          · exact hkept hmem hcore' hop'
          · refine ⟨?_, ?_⟩
            · rintro (hlist | hcur')
              · apply hij.line
                unfold queueOn
                rw [hcur]
                exact (List.singleton_sublist.mpr hlist).cons_cons j
              · rw [hcur] at hcur'
                exact hne (Option.some.inj hcur').symm
            · rintro ⟨k, thread, hk, hget, y, hy, hstage⟩
              have hline := hs.handled.line.next hnext c rfl
              rw [hk] at hline
              cases hline
              rw [hs.handled.fresh.next hnext c rfl] at hget
              cases hget
              rw [List.mem_singleton.mp hy] at hstage
              cases hstage
          · cases hop'
        · exact hkept (by simp [hop, hx]) hcore hline
    refine ⟨fun hheld => ?_, serving_exec hs hnext heff hthreads hhandler hbefore.1 hbefore.2⟩
    rw [hdev] at hheld
    obtain hheld | ⟨hcon, -⟩ := holds_exec heff hheld
    · exact hbefore.1 hheld
    · exact hnot hcon

theorem Follows.exec (hij : Follows cfg s i j) (hne : i ≠ j) (hs : Lined cfg s)
    (hmask : (t.job.dev.jobs j).args.coreMask = (s.job.dev.jobs j).args.coreMask)
    {b : JobLabel} (h : Stepped cfg s.job t.job b)
    (hnext : nextBlock s.job.threads tid = some (op, rest)) (hop : s.job.todo = op ::ₘ others)
    (heff : jobExec cfg s.job.dev o op = some eff) (hdev : t.job.dev = eff.dev)
    (htodo : t.job.todo = (eff.calls : Multiset JobOp) + others)
    (hhist : t.job.hist = s.job.hist ++ eff.events)
    (hthreads : t.job.threads = advance s.job.threads tid eff.calls rest)
    (ht : t = s.ran cfg o op t.job) : Follows cfg t i j := by
  obtain hsignaled | hover | ⟨hi, hcores⟩ := hij
  · left
    rw [hdev, fenceSignaled_eq heff, hsignaled]
    rfl
  · exact Or.inr (Or.inl (hover.exec h hop heff hdev htodo))
  · refine Or.inr (Or.inr ⟨?_, fun c hc => ?_⟩)
    · rw [hhist, enqueues_append]
      exact List.mem_append_left _ hi
    · rw [((hs.known.taken.past i hi).stepped h).2] at hc
      rw [hmask]
      obtain ⟨hcj, hbehind⟩ := hcores c hc
      exact ⟨hcj, hbehind.exec hne hs hi hnext hop heff hdev htodo hthreads ht⟩

theorem serving_spawn (hs : Lined cfg s) (hthreads : t.job.threads = s.job.threads ++ [[op]])
    (hop : stage op = none) (hhandler : ∀ k, t.handler c = some k →
      s.handler c = some k ∨ k = s.job.threads.length) (hserving : Serving t c i) :
    Serving s c i := by
  obtain ⟨k, thread, hk, hget, x, hx, hstage⟩ := hserving
  rw [hthreads, List.getElem?_append] at hget
  obtain hk | rfl := hhandler k hk
  · rw [if_pos (hs.handled.started c k hk)] at hget
    exact .of_getElem hk hget hx hstage
  · simp only [Nat.lt_irrefl, if_false, Nat.sub_self, List.getElem?_cons_zero,
      Option.some.injEq] at hget
    rw [← hget, List.mem_singleton] at hx
    rw [hx, hop] at hstage
    cases hstage

theorem Follows.keep (hij : Follows cfg s i j) (hs : Lined cfg s) (hj : j ∈ enqueues s.job.hist)
    (hcleared : t.cleared = s.cleared) (hcores : t.job.dev.subcoreDatas = s.job.dev.subcoreDatas)
    (hqueued : enqueues t.job.hist = enqueues s.job.hist)
    (hsignaled : t.job.dev.fenceSignaled = s.job.dev.fenceSignaled)
    (hpast : ∀ k, Past s.job k → Past t.job k ∧
      (t.job.dev.jobs k).args.coreMask = (s.job.dev.jobs k).args.coreMask)
    (hnew : ∀ x ∈ t.job.todo, x ∈ s.job.todo ∨ stage x = none ∧ coreOf x = none)
    (hserving : ∀ c, Serving t c i → Serving s c i) : Follows cfg t i j := by
  have hmask : ∀ {k}, k ∈ enqueues s.job.hist →
      (t.job.dev.jobs k).args.coreMask = (s.job.dev.jobs k).args.coreMask :=
    fun hk => (hpast _ (hs.known.taken.past _ hk)).2
  obtain hsig | ⟨hi, hheld, hstages⟩ | ⟨hi, hbehind⟩ := hij
  · left
    rw [hsignaled]
    exact hsig
  · refine Or.inr (Or.inl ⟨(hpast i hi).1, fun c hc => ?_, fun x hx hstage => ?_⟩)
    · unfold Holds at hc
      rw [hcores] at hc
      exact hheld c hc
    · obtain hx | ⟨hno, -⟩ := hnew x hx
      · exact hstages x hx hstage
      · rw [hno] at hstage
        cases hstage
  · refine Or.inr (Or.inr ⟨hqueued ▸ hi, fun c hc => ?_⟩)
    rw [hmask hi] at hc
    rw [hmask hj]
    obtain ⟨hcj, hline, hreached⟩ := hbehind c hc
    refine ⟨hcj, ?_, fun hr => ?_⟩
    · unfold queueOn
      rw [hcores]
      exact hline
    · have hr' : Reached s j c := by
        obtain hr | ⟨x, hx, hcore, hlined⟩ := hr
        · exact Or.inl (hcleared ▸ hr)
        · obtain hx | ⟨-, hno⟩ := hnew x hx
          · exact Or.inr ⟨x, hx, hcore, hlined⟩
          · rw [hno] at hcore
            cases hcore
      obtain ⟨hheld, hserve⟩ := hreached hr'
      refine ⟨fun hheld' => hheld ?_, fun hserve' => hserve (hserving c hserve')⟩
      unfold Holds at hheld' ⊢
      rwa [hcores] at hheld'

end

/-! ## Runs -/

section
variable {cfg : Config} {s t : LineState} {a : LineLabel} {o : Outcome} {op : JobOp} {eff : Effect}
  {others : Multiset JobOp} {rest : List JobOp} {tid i j : ℕ}

theorem earlier_iff {dev : Dev} : earlier dev i j = true ↔
    ∃ m n, (dev.jobs i).fence = some m ∧ (dev.jobs j).fence = some n ∧ m < n := by
  unfold earlier
  split
  · rename_i m n hm hn
    simp [hm, hn]
  · rename_i hno
    refine ⟨fun h => (Bool.false_ne_true h).elim, ?_⟩
    rintro ⟨m, n, hm, hn, -⟩
    exact (hno m n hm hn).elim

/-- A job that is being queued comes after those with earlier fences. -/
theorem follows_of_enqueue (hs : Lined cfg s) (hs' : Timeline cfg s)
    (hop : s.job.todo = .enqueue j ::ₘ others) (hok : keepsOrder cfg s.job (.enqueue j) = true)
    (hij : earlier s.job.dev i j = true) : Follows cfg s i j := by
  have hmem : .enqueue j ∈ s.job.todo := by simp [hop]
  have hnot : j ∉ enqueues s.job.hist := fun hcon => (hs.known.taken.past j hcon).2 _ hmem rfl
  have hreached : ∀ c, ¬ Reached s j c ∧ j ∉ queueOn s.job.dev c := by
    refine fun c => ⟨fun hr => hnot (hs.known.taken.popped c j (hs.popped_of_reached hr)).1, ?_⟩
    intro hqueue
    unfold queueOn at hqueue
    rw [List.mem_append, Option.mem_toList] at hqueue
    exact hnot (hs.known.taken.held c j hqueue.symm)
  obtain ⟨m, n, hm, hn, hlt⟩ := earlier_iff.mp hij
  by_cases hsig : s.job.dev.fenceSignaled i = true
  · exact Or.inl hsig
  · simp only [keepsOrder, decide_eq_true_eq] at hok
    obtain ⟨hbefore, hrest⟩ := hok i (hs'.seqno i m hm).1 hij (Bool.not_eq_true _ ▸ hsig)
    have hpast : Past s.job i :=
      ⟨(hs'.seqno i m hm).1, fun x hx => hbefore x (Multiset.mem_coe.mp hx)⟩
    by_cases hq : i ∈ enqueues s.job.hist
    · obtain hrest | hwithin := hrest
      · simp only [atRest, decide_eq_true_eq] at hrest
        refine Or.inr (Or.inl ⟨hpast, fun c hc => ?_, fun x hx => ?_⟩)
        · obtain ⟨hlist, hcur⟩ := hrest.1 c (hs.known.placed.held c i hc).2.1
          exact hc.elim hlist hcur
        · exact hrest.2 x (Multiset.mem_coe.mp hx)
      · simp only [within, decide_eq_true_eq] at hwithin
        refine Or.inr (Or.inr ⟨hq, fun c hc => ?_⟩)
        obtain ⟨hlt, hon⟩ := mem_coresOf.mp hc
        refine ⟨mem_coresOf.mpr ⟨hlt, hwithin c hlt hon⟩, fun hsub => ?_, fun hr => ?_⟩
        · exact (hreached c).2 (hsub.subset List.mem_cons_self)
        · exact ((hreached c).1 hr).elim
    · refine Or.inr (Or.inl
        ⟨hpast, fun c hc => hq (hs.known.taken.held c i hc), fun x hx hstage => ?_⟩)
      exact hq (hs.known.taken.worked x hx i (taken_of_stage hstage)).1

theorem fence_init {dev : Dev} {n : ℕ} (h : jobExec cfg dev o (.fenceInit j n) = some eff)
    (hn : n + 1 < 2 ^ 32) : eff.dev.fenceSeqno = n + 1 ∧ ∀ i, (eff.dev.jobs i).fence =
      if i = j then some (n + 1) else (dev.jobs i).fence := by
  have hnext : nextSeqno n = n + 1 := Nat.mod_eq_of_lt hn
  cases h
  refine ⟨hnext, fun i => ?_⟩
  simp only [rknpuFenceAlloc, Dev.modifyJob_jobs, hnext]
  split_ifs <;> rfl

theorem Timeline.fences_exec (hn : Timeline cfg s) (hs : Lined cfg s) (hmem : op ∈ s.job.todo)
    (heff : jobExec cfg s.job.dev o op = some eff) (hdev : t.job.dev = eff.dev)
    (hok : keepsOrder cfg s.job op = true) :
    (∀ j n, (t.job.dev.jobs j).fence = some n →
      j < t.job.dev.numJobs ∧ n ≤ t.job.dev.fenceSeqno) ∧
    ∀ i j n, (t.job.dev.jobs i).fence = some n → (t.job.dev.jobs j).fence = some n → i = j := by
  rw [hdev]
  by_cases hinit : ∃ k m, op = .fenceInit k m
  · obtain ⟨k, m, rfl⟩ := hinit
    obtain ⟨hm, hwrap⟩ : m = s.job.dev.fenceSeqno ∧ m + 1 < 2 ^ 32 := of_decide_eq_true hok
    obtain ⟨hseqno, hfence⟩ := fence_init heff hwrap
    have hk := hs.known.placed.submitted _ hmem k (Or.inl rfl)
    refine ⟨fun j n hj => ?_, fun i j n hi hj => ?_⟩
    · rw [numJobs_eq heff, hseqno]
      rw [hfence] at hj
      split_ifs at hj with hjk
      · cases hj
        exact ⟨hjk ▸ hk, Nat.le_refl _⟩
      · obtain ⟨hlt, hle⟩ := hn.seqno j n hj
        exact ⟨hlt, by omega⟩
    · rw [hfence] at hi hj
      split_ifs at hi hj with hik hjk hjk
      · rw [hik, hjk]
      · cases hi
        have := (hn.seqno j _ hj).2
        omega
      · cases hj
        have := (hn.seqno i _ hi).2
        omega
      · exact hn.inj i j n hi hj
  · push Not at hinit
    have hfence : ∀ j, (eff.dev.jobs j).fence = (s.job.dev.jobs j).fence :=
      fun j => fence_eq heff fun n => hinit j n
    refine ⟨fun j n hj => ?_, fun i j n hi hj => ?_⟩
    · rw [hfence] at hj
      rw [numJobs_eq heff, fenceSeqno_eq heff hinit]
      exact hn.seqno j n hj
    · rw [hfence] at hi hj
      exact hn.inj i j n hi hj

theorem Timeline.follows_exec (hn : Timeline cfg s) (hs : Lined cfg s)
    {b : JobLabel} (h : Stepped cfg s.job t.job b)
    (hnext : nextBlock s.job.threads tid = some (op, rest)) (hop : s.job.todo = op ::ₘ others)
    (heff : jobExec cfg s.job.dev o op = some eff) (hdev : t.job.dev = eff.dev)
    (htodo : t.job.todo = (eff.calls : Multiset JobOp) + others)
    (hhist : t.job.hist = s.job.hist ++ eff.events)
    (hthreads : t.job.threads = advance s.job.threads tid eff.calls rest)
    (ht : t = s.ran cfg o op t.job) (hok : keepsOrder cfg s.job op = true)
    (hij : earlier t.job.dev i j = true) (hj : j ∈ enqueues t.job.hist) : Follows cfg t i j := by
  have hmem : op ∈ s.job.todo := by simp [hop]
  rw [hhist, enqueues_append, List.mem_append, events_enqueue heff] at hj
  obtain ⟨m, n, hm, hn', hlt⟩ := earlier_iff.mp hij
  have hinit : ∀ k, op ≠ .fenceInit j k := by
    rintro k rfl
    obtain hj | hj := hj
    · exact (hs.known.taken.past j hj).2 _ hmem rfl
    · cases hj
  rw [hdev, fence_eq heff hinit] at hn'
  have hold : earlier s.job.dev i j = true := by
    refine earlier_iff.mpr ⟨m, n, ?_, hn', hlt⟩
    by_cases hi : ∃ k, op = .fenceInit i k
    · obtain ⟨k, rfl⟩ := hi
      obtain ⟨hk, hwrap⟩ : k = s.job.dev.fenceSeqno ∧ k + 1 < 2 ^ 32 := of_decide_eq_true hok
      rw [hdev, (fence_init heff hwrap).2, if_pos rfl] at hm
      cases hm
      have := (hn.seqno j n hn').2
      omega
    · push Not at hi
      rw [hdev, fence_eq heff hi] at hm
      exact hm
  have hne : i ≠ j := by
    rintro rfl
    obtain ⟨m', n', hm', hn'', hlt'⟩ := earlier_iff.mp hold
    rw [hm'] at hn''
    cases hn''
    exact Nat.lt_irrefl _ hlt'
  obtain hj | rfl := hj
  · exact (hn.follows i j hold hj).exec hne hs ((hs.known.taken.past j hj).stepped h).2 h hnext hop
      heff hdev htodo hhist hthreads ht
  · refine (follows_of_enqueue hs hn hop hok hold).exec hne hs ?_ h hnext hop heff hdev htodo hhist
      hthreads ht
    obtain ⟨hmask, -⟩ | ⟨k, coreIndex, n, hcon, -⟩ := cores_of_before heff (j := j) rfl
    · rw [hdev, hmask]
    · cases hcon

theorem Timeline.signals_lt (hn : Timeline cfg s) (hs : Lined cfg s)
    (hnext : nextBlock s.job.threads tid = some (.fenceSignal j, rest)) {m n : ℕ}
    (hfence : (s.job.dev.jobs j).fence = some n) (hm : m ∈ signals s.job.hist) : m < n := by
  have hmem : .fenceSignal j ∈ s.job.todo := mem_pending_of_nextBlock hnext
  have hunsignaled : s.job.dev.fenceSignaled j ≠ true := by
    intro hsig
    have honce := hn.once j
    rw [hsig, if_pos rfl] at honce
    have hone : 1 ≤ s.job.todo.count (.fenceSignal j) := Multiset.one_le_count_iff_mem.mpr hmem
    have hdones := hs.cleared.dones j
    split_ifs at hdones <;> omega
  obtain ⟨e, he, hem⟩ := List.mem_filterMap.mp hm
  cases e with
  | fenceSignal i m' =>
    cases hem
    obtain ⟨hi, hsig⟩ := hn.signaled i m he
    obtain hlt | rfl | hgt := Nat.lt_trichotomy m n
    · exact hlt
    · rw [hn.inj i j m hi hfence] at hsig
      exact (hunsignaled hsig).elim
    · exfalso
      obtain ⟨hiq, hgone⟩ := hs.cleared.of_done (Or.inl (hn.finished i (Or.inl hsig)))
      obtain hsig' | hover | ⟨-, hcores⟩ :=
        hn.follows j i (earlier_iff.mpr ⟨n, m, hfence, hi, hgt⟩) hiq
      · exact hunsignaled hsig'
      · exact hover.stages _ hmem rfl
      · obtain ⟨c, hc, hcj⟩ := hs.handled.stages.next hnext j rfl
        obtain ⟨hci, hbehind⟩ := hcores c hcj
        refine (hbehind.reached (Or.inl (hgone c hci))).2 ?_
        exact .of_getElem hc (getElem_of_nextBlock hnext) List.mem_cons_self rfl
  | _ => cases hem

theorem Timeline.exec (hn : Timeline cfg s) (hs : Lined cfg s) {b : JobLabel}
    (h : Stepped cfg s.job t.job b) (hnext : nextBlock s.job.threads tid = some (op, rest))
    (hop : s.job.todo = op ::ₘ others) (heff : jobExec cfg s.job.dev o op = some eff)
    (hdev : t.job.dev = eff.dev) (htodo : t.job.todo = (eff.calls : Multiset JobOp) + others)
    (hhist : t.job.hist = s.job.hist ++ eff.events)
    (hthreads : t.job.threads = advance s.job.threads tid eff.calls rest)
    (ht : t = s.ran cfg o op t.job) (hok : keepsOrder cfg s.job op = true) : Timeline cfg t := by
  have hmem : op ∈ s.job.todo := by simp [hop]
  have hsignaled : ∀ j, t.job.dev.fenceSignaled j = (s.job.dev.fenceSignaled j ||
      (op = .fenceSignal j ∧ (s.job.dev.jobs j).fence ≠ none)) := by
    intro j
    rw [hdev]
    exact fenceSignaled_eq heff j
  have hdone : ∀ j, .done j ∈ s.job.hist → .done j ∈ t.job.hist := by
    intro j hj
    rw [hhist]
    exact List.mem_append_left _ hj
  obtain ⟨hseqno, hinj⟩ := hn.fences_exec hs hmem heff hdev hok
  refine ⟨hseqno, hinj, fun j n hj => ?_, fun j hj => ?_, fun j => ?_, fun i j hij hj => ?_, ?_⟩
  · rw [hhist, List.mem_append, events_fenceSignal heff] at hj
    rw [hsignaled]
    obtain hj | ⟨rfl, hfence⟩ := hj
    · obtain ⟨hfence, hsig⟩ := hn.signaled j n hj
      have hpast := hs.known.taken.past j (hs.cleared.of_done (Or.inl (hn.finished j (Or.inl hsig)))).1
      rw [hdev, fence_eq heff (hpast.not_fenceInit hmem), hsig]
      exact ⟨hfence, rfl⟩
    · rw [hdev, fence_eq heff (by simp), hfence]
      simp
  · rw [hsignaled, Bool.or_eq_true, decide_eq_true_eq] at hj
    obtain (hj | ⟨rfl, -⟩) | ⟨x, hx, hsig⟩ := hj
    · exact hdone j (hn.finished j (Or.inl hj))
    · exact hdone j (hn.finished j (Or.inr ⟨_, hmem, decide_eq_true rfl⟩))
    · rw [htodo, Multiset.mem_add] at hx
      obtain hx | hx := hx
      · obtain rfl | hop' := calls_signaling heff (Multiset.mem_coe.mp hx) hsig
        · rw [hhist]
          exact List.mem_append_right _ ((events_done heff).mpr rfl)
        · exact hdone j (hn.finished j (Or.inr ⟨op, hmem, hop'⟩))
      · exact hdone j (hn.finished j (Or.inr ⟨x, by simp [hop, hx], hsig⟩))
  · have hold := hn.once j
    have hset := count_exec hop htodo (.setRet j)
    have hsignal := count_exec hop htodo (.fenceSignal j)
    rw [calls_setRet_count heff] at hset
    rw [calls_fenceSignal_count heff] at hsignal
    rw [hhist, List.count_append, events_done_count heff, hsignaled]
    by_cases hop' : op = .fenceSignal j
    · subst hop'
      simp only [reduceCtorEq, if_true, if_false] at hset hsignal ⊢
      split_ifs at hold ⊢ <;> omega
    · rw [if_neg hop'] at hsignal
      simp only [hop', false_and, decide_false, Bool.or_false]
      omega
  · exact hn.follows_exec hs h hnext hop heff hdev htodo hhist hthreads ht hok hij hj
  · rw [hhist, signals_append, List.pairwise_append]
    refine ⟨hn.sorted, ?_, fun m hm n hn' => ?_⟩
    · cases hl : signals eff.events with
      | nil => exact List.Pairwise.nil
      | cons n l =>
        obtain ⟨j, -, -, hone⟩ := events_signals heff (n := n) (by simp [hl])
        rw [← hl, hone]
        exact List.pairwise_singleton _ n
    · obtain ⟨j, rfl, hfence, -⟩ := events_signals heff hn'
      exact hn.signals_lt hs hnext hfence hm

theorem Timeline.keep (hn : Timeline cfg s) (hs : Lined cfg s) (new : Multiset JobOp)
    (htodo : t.job.todo = new + s.job.todo)
    (hnew : ∀ x ∈ new, stage x = none ∧ coreOf x = none)
    (hfence : ∀ j, (t.job.dev.jobs j).fence = (s.job.dev.jobs j).fence)
    (hnum : s.job.dev.numJobs ≤ t.job.dev.numJobs)
    (hseqno : t.job.dev.fenceSeqno = s.job.dev.fenceSeqno)
    (hsignaled : t.job.dev.fenceSignaled = s.job.dev.fenceSignaled)
    (hcores : t.job.dev.subcoreDatas = s.job.dev.subcoreDatas)
    (hcleared : t.cleared = s.cleared)
    (hgets : OnlyGets s.job.hist t.job.hist)
    (hpast : ∀ k, Past s.job k → Past t.job k ∧
      (t.job.dev.jobs k).args.coreMask = (s.job.dev.jobs k).args.coreMask)
    (hserving : ∀ c i, Serving t c i → Serving s c i) : Timeline cfg t := by
  have hearlier : ∀ i j, earlier t.job.dev i j = earlier s.job.dev i j := by
    intro i j
    unfold earlier
    rw [hfence, hfence]
  have hx : ∀ x ∈ t.job.todo, x ∈ s.job.todo ∨ stage x = none ∧ coreOf x = none := by
    intro x hx
    rw [htodo, Multiset.mem_add] at hx
    exact hx.symm.imp_right (hnew x)
  have hcount : ∀ x, stage x ≠ none → t.job.todo.count x = s.job.todo.count x := by
    intro x hx
    rw [htodo, Multiset.count_add, Multiset.count_eq_zero.mpr fun hcon => hx (hnew x hcon).1,
      zero_add]
  refine ⟨fun j n hj => ?_, fun i j n hi hj => ?_, fun j n hj => ?_, fun j hj => ?_, fun j => ?_,
    fun i j hij hj => ?_, ?_⟩
  · rw [hfence] at hj
    obtain ⟨hlt, hle⟩ := hn.seqno j n hj
    exact ⟨hlt.trans_le hnum, hseqno ▸ hle⟩
  · rw [hfence] at hi hj
    exact hn.inj i j n hi hj
  · rw [hgets.mem_iff (by simp)] at hj
    rw [hfence, hsignaled]
    exact hn.signaled j n hj
  · rw [hgets.mem_iff (by simp)]
    rw [hsignaled] at hj
    refine hn.finished j (hj.imp_right ?_)
    rintro ⟨x, hxt, hsig⟩
    refine ⟨x, (hx x hxt).resolve_right fun hcon => ?_, hsig⟩
    cases x <;> first | cases hsig | cases hcon.1
  · rw [hcount _ (by simp [stage]), hcount _ (by simp [stage]), hsignaled, hgets.count (by simp)]
    exact hn.once j
  · rw [hearlier] at hij
    rw [hgets.enqueues] at hj
    exact (hn.follows i j hij hj).keep hs hj hcleared hcores hgets.enqueues hsignaled hpast hx
      fun c => hserving c i
  · have hsame : signals t.job.hist = signals s.job.hist := hgets.filterMap _ fun _ => rfl
    rw [hsame]
    exact hn.sorted

theorem Timeline.step (hn : Timeline cfg s) (hs : Lined cfg s) (h : LineMoved cfg s t a)
    (hok : inOrder cfg s a = true) : Timeline cfg t := by
  cases h with
  | complete hexec ht =>
    refine hn.keep hs 0 (by rw [ht]; exact (zero_add _).symm)
      (fun x hx => (Multiset.notMem_zero x hx).elim) (fun j => by rw [ht]) (by rw [ht]) (by rw [ht])
      (by rw [ht]) (by rw [ht]) (by rw [ht]) (.of_eq (by rw [ht]))
      (fun k hk => by rw [ht]; exact ⟨hk, rfl⟩) ?_
    rw [ht]
    exact fun c i hserving => hserving
  | @irq c h hidle hdev hhist hthreads ht =>
    refine hn.keep hs {.irqEntry c} ?_ (fun x hx => ?_) (fun j => by rw [hdev])
      (by rw [hdev]) (by rw [hdev]) (by rw [hdev]) (by rw [hdev]) (by rw [ht])
      (.of_eq hhist) (fun k hk => hk.stepped h) fun d i => ?_
    · exact todo_of_threads hthreads
    · rw [Multiset.mem_singleton.mp hx]
      exact ⟨rfl, rfl⟩
    · refine serving_spawn hs hthreads rfl fun k hk => ?_
      rw [ht] at hk
      simp only at hk
      split_ifs at hk
      · exact Or.inr (Option.some.inj hk).symm
      · exact Or.inl hk
  | exec h hnext hstatus heff hop hdev htodo hhist hthreads ht =>
    rw [inOrder, onBlock_exec hnext] at hok
    exact hn.exec hs h hnext hop heff hdev htodo hhist hthreads ht hok
  | submit h hmask hdev hhist hthreads ht =>
    refine hn.keep hs {.fenceIn s.job.dev.numJobs} ?_ (fun x hx => ?_) (fun j => ?_)
      (by rw [hdev]; exact Nat.le_succ _) (by rw [hdev]; rfl) (by rw [hdev]; rfl)
      (by rw [hdev]; rfl) (by rw [ht]) (.of_submit hhist) (fun k hk => hk.stepped h) fun d i => ?_
    · exact todo_of_threads hthreads
    · rw [Multiset.mem_singleton.mp hx]
      exact ⟨rfl, rfl⟩
    · rw [hdev, Dev.addJob_jobs]
      split_ifs with hj
      · symm
        refine Option.eq_none_iff_forall_not_mem.mpr fun n hfence => ?_
        rw [hj] at hfence
        exact Nat.lt_irrefl _ (hn.seqno _ n hfence).1
      · rfl
    · exact serving_spawn hs hthreads rfl fun k hk => Or.inl (by rwa [ht] at hk)
  | spawn h hm hrunning hthreads ht =>
    obtain ⟨new, htodo, hnew⟩ := hm.todo
    have hidle : ∀ {x}, starting s.job.dev x → stage x = none ∧ coreOf x = none := by
      intro x hx
      cases x <;> first | exact hx.elim | exact ⟨rfl, rfl⟩
    refine hn.keep hs new htodo (fun x hx => hidle (hnew x hx))
      (fun j => by rw [hm.jobs]) (Nat.le_of_eq hm.numJobs.symm) hm.fenceSeqno hm.fenceSignaled
      hm.subcoreDatas (by rw [ht]) (.of_eq hm.hist) (fun k hk => hk.stepped h) fun c i => ?_
    have hhandler : ∀ k, t.handler c = some k → s.handler c = some k := by
      intro k hk
      rwa [ht] at hk
    obtain hthreads | ⟨op, hstart, -, hthreads⟩ := hthreads
    · rintro ⟨k, thread, hk, hget, hx⟩
      rw [hthreads] at hget
      exact ⟨k, thread, hhandler k hk, hget, hx⟩
    · exact serving_spawn hs hthreads (hidle hstart).1 fun k hk => Or.inl (hhandler k hk)

theorem timeline (hcfg : cfg.Sound) (hs : (timelineSystem cfg).Reachable s) :
    Lined cfg s ∧ Timeline cfg s := by
  refine hs.invariant (fun s => Lined cfg s ∧ Timeline cfg s) ?_ ?_
  · rintro s ⟨now, rfl⟩
    refine ⟨lined_init, fun j n hj => ?_, fun i j n hi => ?_, fun j n hj => ?_, fun j hj => ?_,
      fun j => Nat.zero_le 0, fun i j hij hj => ?_, List.Pairwise.nil⟩
    · cases hj
    · cases hi
    · exact (List.not_mem_nil hj).elim
    · obtain hj | ⟨op, hop, -⟩ := hj
      · cases hj
      · exact (Multiset.notMem_zero op hop).elim
    · exact (List.not_mem_nil hj).elim
  · intro s a t hs h
    obtain ⟨hok, h⟩ := System.guarded_step.mp h
    exact ⟨(line_moved h).lined hcfg hs.1, hs.2.step hs.1 (line_moved h) hok⟩

/-- **The out-fences are a timeline** when jobs are queued in the order of their fences, each on all
cores on which earlier ones are still at work, and the 32-bit number does not wrap: on every device
of the driver, and whatever times out, fails or is reset, the numbers are signaled in increasing
order. -/
theorem fences_in_order (hcfg : cfg ∈ rknpuConfigs) (hs : (timelineSystem cfg).Reachable s) :
    (signals s.job.hist).Pairwise (· < ·) :=
  (timeline (rknpuConfigs_sound hcfg) hs).2.sorted

end

/-- Two jobs with out-fences, each for one core, up to the waits of their threads. -/
def fencedJobs (mask mask' : UInt32) (blocks : ℕ) : List LineLabel :=
  .job (.submit (oneTask (rknpuJobPc ||| rknpuJobFenceOut) mask) false true) ::
    List.replicate 16 (.job (.exec 0 calm)) ++
    .job (.submit (oneTask (rknpuJobPc ||| rknpuJobFenceOut) mask') false true) ::
      List.replicate blocks (.job (.exec 1 calm))

/-- The batch on core `c` completes, and thread `tid` handles its interrupt. -/
def completesIn (c tid blocks : ℕ) : List LineLabel :=
  [.complete c, .job (.irq c false)] ++ List.replicate blocks (.job (.exec tid calm))

/-- Both jobs are for core `0`. -/
theorem fences_in_order_one_core : ∃ s, (timelineSystem rk3588RknpuConfig).Reachable s ∧
    signals s.job.hist = [1, 2] ∧ (signals s.job.hist).Pairwise (· < ·) := by
  obtain ⟨s, hs, h⟩ := System.Reachable.of_run_any (S := timelineSystem rk3588RknpuConfig)
    (p := fun s => decide (signals s.job.hist = [1, 2]))
    (l := fencedJobs rknpuCore0Mask rknpuCore0Mask 13 ++ completesIn 0 2 15 ++ completesIn 0 3 12)
    ⟨1, rfl⟩ (by decide +kernel)
  exact ⟨s, hs, of_decide_eq_true h, fences_in_order (by decide) hs⟩

/-- The jobs are for the cores `0` and `1`, and the second one is the first to complete. -/
theorem fences_out_of_order : ∃ s, (lineSystem rk3588RknpuConfig).Reachable s ∧
    signals s.job.hist = [2, 1] ∧ ¬ (signals s.job.hist).Pairwise (· < ·) := by
  obtain ⟨s, hs, h⟩ := System.Reachable.of_run_any (S := lineSystem rk3588RknpuConfig)
    (p := fun s => decide (signals s.job.hist = [2, 1]))
    (l := fencedJobs rknpuCore0Mask rknpuCore1Mask 16 ++ completesIn 1 2 12 ++ completesIn 0 3 12)
    ⟨1, rfl⟩ (by decide +kernel)
  have hsignals := of_decide_eq_true h
  refine ⟨s, hs, hsignals, ?_⟩
  rw [hsignals]
  decide

end RknpuDriver.Job
