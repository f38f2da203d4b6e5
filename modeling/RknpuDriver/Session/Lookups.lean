import RknpuDriver.Session.Teardown

/-! # What MEM_SYNC looks up

The search of MEM_SYNC takes no reference. A MEM_DESTROY that has taken the object off its list
can unmap and free it while a MEM_SYNC has still to use it. While that does not happen
(`KeepsLookups`), no use of an object comes after it was unmapped or freed.
-/

namespace RknpuDriver.Session
open RknpuDriver.Lib
set_option autoImplicit false

/-- The MEM_SYNC that waits to run this block has still to use the object. -/
def MemOp.uses (id : ℕ) : MemOp → Bool
  | .syncDir _ i _ _ | .syncSg i _ _ _ _ => i = id
  | _ => false

theorem MemOp.uses_of_starts {op : MemOp} (h : op.starts = true) (id : ℕ) :
    op.uses id = false := by
  cases op <;> first | rfl | cases h

/-- Some MEM_SYNC has looked the object up and has still to use it. -/
def FileState.looksUp (s : FileState) (id : ℕ) : Bool := s.threads.flatten.any (MemOp.uses id)

/-- **A MEM_DESTROY unmaps no object that a MEM_SYNC has still to use.** -/
def KeepsLookups (s : FileState) : FileLabel → Prop
  | .exec tid _ =>
    match nextBlock s.threads tid with
    | some (.teardown addr .unmap, _) => ∀ x ∈ s.session.deref addr, s.looksUp x.id = false
    | _ => True
  | _ => True

instance (s : FileState) (label : FileLabel) : Decidable (KeepsLookups s label) := by
  unfold KeepsLookups
  split
  · split <;> infer_instance
  · infer_instance

/-- The second event is no use of an object that the first one has unmapped or freed. -/
def InOrder : MemEvent → MemEvent → Prop
  | .torn .unmap id, .used id' | .torn .kfree id, .used id' => id ≠ id'
  | _, _ => True

instance (e e' : MemEvent) : Decidable (InOrder e e') := by
  unfold InOrder
  split <;> infer_instance

/-- No use so far came after an unmap or a free, and what is looked up is mapped. -/
structure LookedUp (s : FileState) : Prop where
  ordered : s.session.hist.Pairwise InOrder
  mapped : ∀ op ∈ pending s.threads, ∀ id, op.uses id = true →
    s.session.torn .unmap id = 0 ∧ s.session.torn .kfree id = 0

section
variable {s t : FileState} {tid : ℕ} {o : Except ℤ NewObject} {op : MemOp} {rest : List MemOp}
  {label : FileLabel} {id : ℕ}

theorem looksUp_eq_false : s.looksUp id = false ↔ ∀ op ∈ pending s.threads, op.uses id = false := by
  unfold FileState.looksUp
  simp only [List.any_eq_false, pending, Multiset.mem_coe, Bool.not_eq_true]

theorem torn_eq_zero {session : SessionState} {stage : Stage} :
    session.torn stage id = 0 ↔ .torn stage id ∉ session.hist :=
  List.count_eq_zero

theorem inOrder_used {session : SessionState} (hunmap : session.torn .unmap id = 0)
    (hkfree : session.torn .kfree id = 0) : ∀ e ∈ session.hist, InOrder e (.used id) := by
  intro e he
  rw [torn_eq_zero] at hunmap hkfree
  cases e with
  | torn stage i =>
    cases stage with
    | unmap =>
      rintro rfl
      exact hunmap he
    | kfree =>
      rintro rfl
      exact hkfree he
    | vunmap | detach | put => trivial
  | added i | used i | returned tid ret => trivial

theorem Ledger.torn_listed (hs : Ledger s) {addr : ℕ} {x : RknpuMemObject}
    (haddr : addr ∈ s.session.listed) (hx : s.session.deref addr = some x) (stage : Stage) :
    s.session.torn stage x.id = 0 := by
  have hle : s.session.torn stage x.id ≤ weigh (MemOp.past stage addr) s.threads :=
    hs.live_le _ (deref_some hx) stage
  have hpast := weigh_past_le stage addr s.threads
  have hone := hs.owns_le addr
  have hpos := List.count_pos_iff.mpr haddr
  omega

theorem LookedUp.keep (hs : LookedUp s) (hnext : nextBlock s.threads tid = some (op, rest))
    (e : Option MemEvent)
    (hhist : (s.session.exec tid o op).1.hist = s.session.hist ++ e.toList)
    (hused : ∀ id, e = some (.used id) → op.uses id = true)
    (htorn : ∀ st id, e = some (.torn st id) → st = .unmap ∨ st = .kfree → s.looksUp id = false)
    (hcalls : ∀ y ∈ (s.session.exec tid o op).2, ∀ id, y.uses id = true →
      (s.session.torn .unmap id = 0 ∧ s.session.torn .kfree id = 0) ∧
        ∀ st, e ≠ some (.torn st id)) : LookedUp (s.after tid o op rest) := by
  obtain ⟨others, hop, hadv⟩ := pending_advance hnext
  have hafter : pending (s.after tid o op rest).threads =
      ((s.session.exec tid o op).2 : Multiset MemOp) + others := hadv _
  have hcount : ∀ st id, e ≠ some (.torn st id) → s.session.torn st id = 0 →
      (s.after tid o op rest).session.torn st id = 0 := by
    intro st id hne hzero
    rw [torn_eq_zero] at hzero ⊢
    show _ ∉ (s.session.exec tid o op).1.hist
    rw [hhist, List.mem_append, not_or]
    exact ⟨hzero, fun hmem => hne (Option.mem_toList.mp hmem)⟩
  constructor
  · show (s.session.exec tid o op).1.hist.Pairwise InOrder
    rw [hhist]
    refine List.pairwise_append.mpr ⟨hs.ordered, ?_, fun e₁ he₁ e₂ he₂ => ?_⟩
    · cases e <;> simp
    · have heq : e = some e₂ := Option.mem_toList.mp he₂
      cases e₂ with
      | used id =>
        have hmapped := hs.mapped op (mem_pending_of_nextBlock hnext) id (hused id heq)
        exact inOrder_used hmapped.1 hmapped.2 e₁ he₁
      | added id | returned tid ret => cases e₁ <;> unfold InOrder <;> split <;> trivial
      | torn st id => cases e₁ <;> unfold InOrder <;> split <;> trivial
  · intro y hy id huses
    rw [hafter, Multiset.mem_add, Multiset.mem_coe] at hy
    obtain hy | hy := hy
    · obtain ⟨⟨hunmap, hkfree⟩, hne⟩ := hcalls y hy id huses
      exact ⟨hcount .unmap id (hne _) hunmap, hcount .kfree id (hne _) hkfree⟩
    · have hmem : y ∈ pending s.threads := hop ▸ Multiset.mem_cons_of_mem hy
      obtain ⟨hunmap, hkfree⟩ := hs.mapped y hmem id huses
      have hne : ∀ st : Stage, st = .unmap ∨ st = .kfree → e ≠ some (.torn st id) := by
        intro st hst heq
        have hno := looksUp_eq_false.mp (htorn st id heq hst) y hmem
        rw [huses] at hno
        cases hno
      exact ⟨hcount .unmap id (hne _ (Or.inl rfl)) hunmap,
        hcount .kfree id (hne _ (Or.inr rfl)) hkfree⟩

theorem LookedUp.quiet (hs : LookedUp s) (hnext : nextBlock s.threads tid = some (op, rest))
    (e : Option MemEvent)
    (hhist : (s.session.exec tid o op).1.hist = s.session.hist ++ e.toList)
    (he : ∀ id, e ≠ some (.used id) ∧ e ≠ some (.torn .unmap id) ∧ e ≠ some (.torn .kfree id))
    (hcalls : ∀ y ∈ (s.session.exec tid o op).2, ∀ id, y.uses id = false) :
    LookedUp (s.after tid o op rest) := by
  refine hs.keep hnext e hhist (fun id heq => absurd heq (he id).1) (fun st id heq hst => ?_)
    fun y hy id huses => ?_
  · obtain rfl | rfl := hst
    · exact absurd heq (he id).2.1
    · exact absurd heq (he id).2.2
  · rw [hcalls y hy id] at huses
    cases huses

theorem LookedUp.teardown {addr : ℕ} {stage : Stage} (hs : LookedUp s) (hledger : Ledger s)
    (hnext : nextBlock s.threads tid = some (.teardown addr stage, rest))
    (hok : stage = .unmap → ∀ x ∈ s.session.deref addr, s.looksUp x.id = false) :
    LookedUp (s.after tid o (.teardown addr stage) rest) := by
  have hmem := mem_pending_of_nextBlock hnext
  obtain ⟨x, hx⟩ := Option.ne_none_iff_exists'.mp
    (hledger.deref_ne_none addr hmem (by simp [MemOp.owns]))
  have hkfree : stage = .kfree → s.looksUp x.id = false := by
    rintro rfl
    rw [looksUp_eq_false]
    intro y hy
    by_contra huses
    have hzero := (hs.mapped y hy x.id (by simpa using huses)).1
    have heq : s.session.torn .unmap x.id = weigh (MemOp.past .unmap addr) s.threads :=
      hledger.live_eq _ (deref_some hx) .unmap rfl
    have hle := le_weigh hmem (MemOp.past .unmap addr)
    simp [MemOp.past, Stage.rank] at hle
    omega
  have hexec : s.session.exec tid o (.teardown addr stage) = s.session.teardown addr stage := rfl
  have hcalls : ∀ y ∈ (s.session.exec tid o (.teardown addr stage)).2, ∀ id, y.uses id = false := by
    rw [hexec]
    simp only [SessionState.teardown, hx]
    cases stage <;> simp [MemOp.uses]
  cases stage with
  | vunmap =>
    apply hs.quiet hnext (if x.kvAddr then some (.torn .vunmap x.id) else none) _ _ hcalls
    · rw [hexec]
      simp only [SessionState.teardown, hx]
      cases x.kvAddr <;> simp [SessionState.event, SessionState.clearKvAddr]
    · intro id
      cases x.kvAddr <;> simp
  | detach =>
    apply hs.quiet hnext (some (.torn .detach x.id)) _ _ hcalls
    · rw [hexec]
      simp only [SessionState.teardown, hx]
      rfl
    · simp
  | put =>
    apply hs.quiet hnext (if x.owner then none else some (.torn .put x.id)) _ _ hcalls
    · rw [hexec]
      simp only [SessionState.teardown, hx]
      cases x.owner <;> simp [SessionState.event]
    · intro id
      cases x.owner <;> simp
  | unmap =>
    refine hs.keep hnext (some (.torn .unmap x.id)) ?_ (fun id h => ?_) (fun st id h _ => ?_)
      fun y hy id huses => ?_
    · rw [hexec]
      simp only [SessionState.teardown, hx]
      rfl
    · cases h
    · cases h
      exact hok rfl x hx
    · rw [hcalls y hy id] at huses
      cases huses
  | kfree =>
    refine hs.keep hnext (some (.torn .kfree x.id)) ?_ (fun id h => ?_) (fun st id h _ => ?_)
      fun y hy id huses => ?_
    · rw [hexec]
      simp only [SessionState.teardown, hx]
      rfl
    · cases h
    · cases h
      exact hkfree rfl
    · rw [hcalls y hy id] at huses
      cases huses

theorem LookedUp.sync {args : RknpuMemSync} (hs : LookedUp s) (hledger : Ledger s)
    (hnext : nextBlock s.threads tid = some (.sync args, rest)) :
    LookedUp (s.after tid o (.sync args) rest) := by
  by_cases hfound : args.objAddr ∈ s.session.listed
  · obtain ⟨x, hx⟩ : ∃ x, s.session.deref args.objAddr = some x := by
      apply Option.ne_none_iff_exists'.mp
      intro hnone
      have hcount := hledger.owned args.objAddr
      have hpos := List.count_pos_iff.mpr hfound
      rw [List.count_eq_zero.mpr (deref_none hnone)] at hcount
      omega
    obtain ⟨list, hlist⟩ : ∃ list, s.session.list = some list := by
      apply Option.ne_none_iff_exists'.mp
      intro hnone
      unfold SessionState.listed at hfound
      rw [hnone] at hfound
      cases hfound
    have hmem : args.objAddr ∈ list := by
      unfold SessionState.listed at hfound
      rw [hlist] at hfound
      exact hfound
    have hcalls : ∀ y ∈ (s.session.exec tid o (.sync args)).2, ∀ id, y.uses id = true →
        id = x.id := by
      simp only [SessionState.exec, SessionState.sync, hlist]
      rw [if_pos hmem]
      intro y hy id huses
      simp only [hx, Option.map_some, Option.getD_some, List.mem_append, List.mem_singleton] at hy
      obtain (hy | hy) | rfl := hy
      · split_ifs at hy
        · cases List.mem_singleton.mp hy
          simpa [MemOp.uses, eq_comm] using huses
        · cases hy
      · split_ifs at hy
        · cases List.mem_singleton.mp hy
          simpa [MemOp.uses, eq_comm] using huses
        · cases hy
      · cases huses
    refine hs.keep hnext none ?_ (fun id h => ?_) (fun st id h => ?_) fun y hy id huses => ?_
    · simp only [SessionState.exec, SessionState.sync, hlist]
      rw [if_pos hmem]
      simp
    · cases h
    · cases h
    · rw [hcalls y hy id huses]
      exact ⟨⟨hledger.torn_listed hfound hx _, hledger.torn_listed hfound hx _⟩, by simp⟩
  · have hexec : ∃ e, s.session.exec tid o (.sync args) = (s.session, [.ret e]) := by
      simp only [SessionState.exec, SessionState.sync]
      cases hlist : s.session.list with
      | none => exact ⟨_, rfl⟩
      | some list =>
        simp only [SessionState.listed, hlist, Option.getD_some] at hfound
        simp only
        rw [if_neg hfound]
        exact ⟨_, rfl⟩
    obtain ⟨e, hexec⟩ := hexec
    apply hs.quiet hnext none
    · rw [hexec]
      simp
    · simp
    · rw [hexec]
      simp [MemOp.uses]

theorem LookedUp.exec (hs : LookedUp s) (hledger : Ledger s) (hlife : Lifecycle s)
    (hnext : nextBlock s.threads tid = some (op, rest)) (hok : KeepsLookups s (.exec tid o)) :
    LookedUp (s.after tid o op rest) := by
  have hmem := mem_pending_of_nextBlock hnext
  cases op with
  | create =>
    apply hs.quiet hnext none
    · cases o <;> simp [SessionState.exec, SessionState.kzalloc]
    · simp
    · cases o <;> simp [SessionState.exec, MemOp.uses]
  | listAdd addr =>
    have hopen : s.isOpen = true := by
      by_contra hclosed
      exact Bool.false_ne_true (hlife.closing (by simpa using hclosed) _ hmem)
    obtain ⟨list, hlist⟩ := Option.ne_none_iff_exists'.mp (hlife.opened hopen).1
    obtain ⟨x, hx⟩ := Option.ne_none_iff_exists'.mp
      (hledger.deref_ne_none addr hmem (by simp [MemOp.owns]))
    have hexec : s.session.exec tid o (.listAdd addr) =
        (({ s.session with list := some (list ++ [addr]) } : SessionState).event (.added x.id),
          [.ret 0]) := by
      have hderef : ({ s.session with list := some (list ++ [addr]) } : SessionState).deref addr =
          some x := hx
      simp only [SessionState.exec, SessionState.listAdd, hlist, hderef]
    apply hs.quiet hnext (some (.added x.id))
    · rw [hexec]
      rfl
    · simp
    · rw [hexec]
      simp [MemOp.uses]
  | destroy objAddr =>
    apply hs.quiet hnext none
    · simp only [SessionState.exec, SessionState.destroy]
      split
      · simp
      · split_ifs <;> simp
    · simp
    · simp only [SessionState.exec, SessionState.destroy]
      split
      · simp [MemOp.uses]
      · split_ifs <;> simp [MemOp.uses]
  | teardown addr stage =>
    apply hs.teardown hledger hnext
    rintro rfl
    simpa only [KeepsLookups, hnext] using hok
  | sync args => exact hs.sync hledger hnext
  | syncDir addr id offset length =>
    have hmapped := hs.mapped _ hmem id (by simp [MemOp.uses])
    refine hs.keep hnext (some (.used id)) rfl (fun i h => ?_) (fun st i h => ?_)
      fun y hy i huses => ?_
    · cases h
      simp [MemOp.uses]
    · cases h
    · cases List.mem_singleton.mp hy
      have hid : id = i := by simpa [MemOp.uses] using huses
      exact ⟨hid ▸ hmapped, by simp⟩
  | syncSg id sgl len offset length =>
    have hmapped := hs.mapped _ hmem id (by simp [MemOp.uses])
    cases sgl with
    | nil =>
      apply hs.quiet hnext none
      · simp [SessionState.exec, SessionState.syncSg]
      · simp
      · simp [SessionState.exec, SessionState.syncSg]
    | cons sgLength sgl =>
      have hcalls : ∀ y ∈ (s.session.syncSg id (sgLength :: sgl) len offset length).2, ∀ i,
          y.uses i = true → id = i := by
        simp only [SessionState.syncSg]
        split_ifs <;> simp [MemOp.uses]
      refine hs.keep hnext (some (.used id)) ?_ (fun i h => ?_) (fun st i h => ?_)
        fun y hy i huses => ?_
      · simp only [SessionState.exec, SessionState.syncSg]
        split_ifs <;> rfl
      · cases h
        simp [MemOp.uses]
      · cases h
      · exact ⟨hcalls y hy i huses ▸ hmapped, by simp⟩
  | release =>
    apply hs.quiet hnext none
    · simp only [SessionState.exec, SessionState.release]
      split <;> simp
    · simp
    · simp only [SessionState.exec, SessionState.release]
      split
      · simp [MemOp.uses]
      · intro y hy id
        simp only [List.mem_append, List.mem_map, List.mem_singleton] at hy
        obtain ⟨addr, -, rfl⟩ | rfl := hy <;> rfl
  | ret ret =>
    apply hs.quiet hnext (some (.returned tid ret))
    · rfl
    · simp
    · simp [SessionState.exec]

theorem lookedUp_step (hs : LookedUp s) (hledger : Ledger s) (hlife : Lifecycle s)
    (hok : KeepsLookups s label) (h : fileStep s label = some t) : LookedUp t := by
  by_cases hlabel : ∃ tid o, label = .exec tid o
  · obtain ⟨tid, o, rfl⟩ := hlabel
    obtain ⟨op, rest, hnext, -, rfl⟩ := fileStep_exec h
    exact hs.exec hledger hlife hnext hok
  · obtain ⟨-, op, isOpen, hop, rfl, -⟩ :=
      fileStep_call (fun tid o heq => hlabel ⟨tid, o, heq⟩) h
    refine ⟨hs.ordered, fun y hy id huses => ?_⟩
    have hy' : y ∈ pending (s.threads ++ [[op]]) := hy
    rw [pending_spawn, Multiset.mem_add, Multiset.mem_coe, List.mem_singleton] at hy'
    obtain hy' | rfl := hy'
    · exact hs.mapped y hy' id huses
    · rw [MemOp.uses_of_starts hop] at huses
      cases huses

end

/-- **Use after lookup, on every run in which a MEM_DESTROY unmaps no object that a MEM_SYNC has
still to use**: no use of an object comes after it was unmapped or freed. -/
theorem used_while_mapped {s : FileState}
    (hs : (fileSystem.guarded KeepsLookups).Reachable s) : s.session.hist.Pairwise InOrder := by
  have hall : (Ledger s ∧ Lifecycle s) ∧ LookedUp s := by
    refine hs.invariant (fun s => (Ledger s ∧ Lifecycle s) ∧ LookedUp s) ?_ fun s label t hs h => ?_
    · intro s hinit
      refine ⟨ledger (System.Reachable.init hinit), ?_⟩
      obtain rfl := hinit
      exact ⟨List.Pairwise.nil, fun op hop => absurd hop (Multiset.notMem_zero op)⟩
    · obtain ⟨hok, hstep⟩ := System.guarded_step.mp h
      obtain ⟨⟨hledger, hlife⟩, hlooked⟩ := hs
      exact ⟨⟨ledger_step hledger hstep, lifecycle_step hlife hstep⟩,
        lookedUp_step hlooked hledger hlife hok hstep⟩
  exact hall.2.ordered

/-- A MEM_SYNC that runs while a MEM_DESTROY has its object off the list already. -/
theorem used_while_mapped_unlisted : ∃ s, (fileSystem.guarded KeepsLookups).Reachable s ∧
    .used 0 ∈ s.session.hist ∧ .torn .kfree 0 ∈ s.session.hist ∧
    s.session.hist.Pairwise InOrder := by
  obtain ⟨s, hs, h⟩ := System.Reachable.of_run_any (S := fileSystem.guarded KeepsLookups)
    (p := fun s => decide (.used 0 ∈ s.session.hist ∧ .torn .kfree 0 ∈ s.session.hist))
    (l := [.memCreate, .exec 0 (.ok ⟨100, false, false, [4096]⟩), .exec 0 (.error 0),
      .memSync ⟨1, 0, 100, 0, 64⟩ true, .exec 1 (.error 0), .memDestroy ⟨0, 0, 100⟩ true,
      .exec 2 (.error 0), .exec 2 (.error 0), .exec 1 (.error 0), .exec 1 (.error 0),
      .exec 2 (.error 0), .exec 2 (.error 0), .exec 2 (.error 0), .exec 2 (.error 0)])
    rfl (by decide +kernel)
  obtain ⟨hused, hfreed⟩ := of_decide_eq_true h
  exact ⟨s, hs, hused, hfreed, used_while_mapped hs⟩

/-- A MEM_SYNC looks an object up, a MEM_DESTROY unmaps and frees it, and the MEM_SYNC uses it. -/
theorem used_after_free : ∃ s, fileSystem.Reachable s ∧
    ¬ s.session.hist.Pairwise InOrder ∧
    s.session.hist = [.added 0, .torn .unmap 0, .torn .detach 0, .torn .put 0, .torn .kfree 0,
      .used 0] := by
  obtain ⟨s, hs, h⟩ := System.Reachable.of_run_any (S := fileSystem)
    (p := fun s => decide (s.session.hist = [.added 0, .torn .unmap 0, .torn .detach 0,
      .torn .put 0, .torn .kfree 0, .used 0]))
    (l := [.memCreate, .exec 0 (.ok ⟨100, false, false, [4096]⟩), .exec 0 (.error 0),
      .memSync ⟨1, 0, 100, 0, 64⟩ true, .exec 1 (.error 0), .memDestroy ⟨0, 0, 100⟩ true,
      .exec 2 (.error 0), .exec 2 (.error 0), .exec 2 (.error 0), .exec 2 (.error 0),
      .exec 2 (.error 0), .exec 2 (.error 0), .exec 1 (.error 0)])
    rfl (by decide +kernel)
  have hhist := of_decide_eq_true h
  refine ⟨s, hs, ?_, hhist⟩
  rw [hhist]
  decide

end RknpuDriver.Session
