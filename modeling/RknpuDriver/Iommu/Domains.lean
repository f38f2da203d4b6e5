import RknpuDriver.Basic
import RknpuDriver.Lib.System
import RknpuDriver.Lib.Threads
import Mathlib.Algebra.GroupWithZero.Nat
import Mathlib.Tactic.SplitIfs

/-! # IOMMU domains of `rknpu_iommu.c`

The build with `CONFIG_NO_GKI`. The blocks are the test of the fast path, its increment, the
section under `domain_lock` with the test of the time that follows it, and the decrement of
`rknpu_iommu_domain_put`. A thread that has got a reference has its put still to run, so that
the references held are the puts that are pending.

* `rknpuIommuSwitchDomain_switched`: what `rknpu_iommu_switch_domain` changes.
* `domain_exclusive`: with two domains or more, readers of one domain exclude the others.
* `granted_iff`: from the state of `rknpu_iommu_init_domain` no domain but the first is ever
  reached, so a reference is for the domain that was asked for exactly when that is domain 0.
-/

namespace RknpuDriver.Iommu
open RknpuDriver.Lib
set_option autoImplicit false

abbrev rknpuMaxIommuDomainNum : ℤ := 16

/-- The domain fields of `struct rknpu_device`. A `struct iommu_domain` is a number, `attached`
is the one that `iommu_get_domain_for_dev` returns, and `numDomains` counts those allocated. -/
structure DomainDev where
  iommuEn : Bool
  bus : Bool
  iommuDomainId : ℤ
  iommuDomains : ℕ → Option ℕ
  iommuDomainNum : ℤ
  iommuDomainRefcount : ℤ
  attached : Option ℕ
  numDomains : ℕ

/-- What the calls of one critical section return, and whether its thread has waited for
`RKNPU_SWITCH_DOMAIN_WAIT_TIME_MS` after it. `left` is what the device is attached to after the
last call of `iommu_attach_device`, when this fails: the IOMMU core decides it. -/
structure DomainOutcome where
  allocOk : Bool
  attachRet : ℤ
  reattachRet : ℤ
  left : Option ℕ
  timedOut : Bool
  deriving DecidableEq, Repr

/-- `rknpu_iommu_init_domain`. -/
def rknpuIommuInitDomain (dev : DomainDev) : DomainDev :=
  if dev.iommuDomains 0 = none then
    { dev with
      iommuDomainId := 0
      iommuDomains := fun i => if i = 0 then dev.attached else dev.iommuDomains i
      iommuDomainNum := 1 }
  else dev

/-- The switch to a domain of the table; when it cannot be attached to, the old one is tried. -/
def switchToKnown (dev : DomainDev) (o : DomainOutcome) (domainId : ℤ) (dst : ℕ) :
    ℤ × DomainDev :=
  if o.attachRet ≠ 0 then
    (o.attachRet, { dev with attached := if o.reattachRet ≠ 0 then o.left else dev.attached })
  else (0, { dev with attached := some dst, iommuDomainId := domainId })

/-- The switch to a new domain; when it cannot be attached to, the old one is not tried. -/
def switchToNew (dev : DomainDev) (o : DomainOutcome) (domainId : ℤ) : ℤ × DomainDev :=
  if o.allocOk = false then (-eio, dev)
  else if o.attachRet ≠ 0 then
    (o.attachRet, { dev with attached := o.left, numDomains := dev.numDomains + 1 })
  else (0, { dev with
    attached := some dev.numDomains
    iommuDomainId := domainId
    iommuDomains := fun i =>
      if i = domainId.toNat then some dev.numDomains else dev.iommuDomains i
    iommuDomainNum := dev.iommuDomainNum + 1
    numDomains := dev.numDomains + 1 })

def rknpuIommuSwitchDomain (dev : DomainDev) (o : DomainOutcome) (domainId : ℤ) :
    ℤ × DomainDev :=
  if dev.iommuEn = false then (-einval, dev)
  else if domainId < 0 ∨ rknpuMaxIommuDomainNum - 1 < domainId then (-einval, dev)
  else if dev.bus = false then (-efault, dev)
  else if domainId = dev.iommuDomainId then (0, dev)
  else if dev.attached ≠ dev.iommuDomains dev.iommuDomainId.toNat then (-einval, dev)
  else
    match dev.iommuDomains domainId.toNat with
    | some dst => switchToKnown dev o domainId dst
    | none => switchToNew dev o domainId

inductive DomainOp where
  | get (domainId : ℤ)
  | fastInc (domainId : ℤ)
  | tryGet (domainId : ℤ)
  | put (domainId : ℤ)
  deriving DecidableEq, Repr

/-- The fast path of `rknpu_iommu_domain_get_and_switch`, up to its increment. -/
def rknpuIommuDomainGetAndSwitch (dev : DomainDev) (domainId : ℤ) : DomainDev × List DomainOp :=
  if dev.iommuDomainNum ≤ 1 then (dev, [.fastInc domainId]) else (dev, [.tryGet domainId])

def DomainDev.inc (dev : DomainDev) : DomainDev :=
  { dev with iommuDomainRefcount := dev.iommuDomainRefcount + 1 }

/-- One turn of its loop. A thread that returns an error has nothing to put. -/
def domainTryGet (dev : DomainDev) (o : DomainOutcome) (domainId : ℤ) :
    DomainDev × List DomainOp :=
  if domainId = dev.iommuDomainId then (dev.inc, [.put domainId])
  else if dev.iommuDomainRefcount = 0 then
    let (ret, dev) := rknpuIommuSwitchDomain dev o domainId
    if ret ≠ 0 then (dev, []) else (dev.inc, [.put domainId])
  else (dev, if o.timedOut then [] else [.tryGet domainId])

/-- `rknpu_iommu_domain_put`. -/
def rknpuIommuDomainPut (dev : DomainDev) : DomainDev :=
  { dev with iommuDomainRefcount := dev.iommuDomainRefcount - 1 }

def domainExec (dev : DomainDev) (o : DomainOutcome) : DomainOp → DomainDev × List DomainOp
  | .get domainId => rknpuIommuDomainGetAndSwitch dev domainId
  | .fastInc domainId => (dev.inc, [.put domainId])
  | .tryGet domainId => domainTryGet dev o domainId
  | .put _ => (rknpuIommuDomainPut dev, [])

/-! ## Runs -/

structure DomainState where
  dev : DomainDev
  threads : List (List DomainOp)

inductive DomainLabel where
  | call (domainId : ℤ)
  | exec (tid : ℕ) (o : DomainOutcome)

def domainStep (s : DomainState) : DomainLabel → Option DomainState
  | .call domainId => some { s with threads := s.threads ++ [[.get domainId]] }
  | .exec tid o =>
    match nextBlock s.threads tid with
    | none => none
    | some (op, rest) =>
      let (dev, ops) := domainExec s.dev o op
      some ⟨dev, advance s.threads tid ops rest⟩

/-- The runs from a state with several domains and no reference. -/
def switchingSystem : System DomainState DomainLabel where
  init s := 2 ≤ s.dev.iommuDomainNum ∧ s.dev.iommuDomainRefcount = 0 ∧ s.threads = []
  step := domainStep

/-- The runs from the state that `rknpu_iommu_init_domain` leaves on a device that `rknpu_probe`
has zeroed and that is attached to domain `d`. -/
def initializedSystem : System DomainState DomainLabel where
  init s := s.threads = [] ∧ ∃ dev d, dev.iommuDomains = (fun _ => none) ∧
    dev.attached = some d ∧ dev.iommuDomainRefcount = 0 ∧ s.dev = rknpuIommuInitDomain dev
  step := domainStep

/-- The references held for a domain. -/
def DomainOp.held : DomainOp → ℕ
  | .put _ => 1
  | _ => 0

def DomainState.references (s : DomainState) : ℕ := weigh DomainOp.held s.threads

/-! ## Steps -/

theorem domainStep_cases {s t : DomainState} {label : DomainLabel}
    (h : domainStep s label = some t) :
    (∃ id, t.dev = s.dev ∧ pending t.threads = .get id ::ₘ pending s.threads) ∨
    ∃ o op others, pending s.threads = op ::ₘ others ∧ t.dev = (domainExec s.dev o op).1 ∧
      pending t.threads = ((domainExec s.dev o op).2 : Multiset DomainOp) + others := by
  cases label with
  | call id =>
    cases h
    refine Or.inl ⟨id, rfl, ?_⟩
    rw [pending_spawn, Multiset.coe_singleton, Multiset.add_comm, Multiset.singleton_add]
  | exec tid o =>
    simp only [domainStep] at h
    split at h
    · cases h
    · rename_i op rest hnext
      obtain ⟨others, hop, hadv⟩ := pending_advance hnext
      cases h
      exact Or.inr ⟨o, op, others, hop, rfl, hadv _⟩

/-- What holds of the result of a switch: it keeps the count, the number of domains never falls,
and the current domain is the one asked for when it succeeds. -/
structure Switched (dev : DomainDev) (id : ℤ) (r : ℤ × DomainDev) : Prop where
  count : r.2.iommuDomainRefcount = dev.iommuDomainRefcount
  num : dev.iommuDomainNum ≤ r.2.iommuDomainNum
  current : r.1 = 0 → r.2.iommuDomainId = id

theorem Switched.refused {dev : DomainDev} {id e : ℤ} (he : 0 < e) : Switched dev id (-e, dev) :=
  ⟨rfl, le_refl _, fun h => by
    have h0 : -e = 0 := h
    omega⟩

theorem switchToKnown_switched (dev : DomainDev) (o : DomainOutcome) (id : ℤ) (dst : ℕ) :
    Switched dev id (switchToKnown dev o id dst) := by
  unfold switchToKnown
  split_ifs with hret
  · exact ⟨rfl, le_refl _, fun h => absurd h hret⟩
  · exact ⟨rfl, le_refl _, fun h => absurd h hret⟩
  · exact ⟨rfl, le_refl _, fun _ => rfl⟩

theorem switchToNew_switched (dev : DomainDev) (o : DomainOutcome) (id : ℤ) :
    Switched dev id (switchToNew dev o id) := by
  unfold switchToNew
  split_ifs with halloc hret
  · exact Switched.refused (by decide)
  · exact ⟨rfl, le_refl _, fun h => absurd h hret⟩
  · exact ⟨rfl, by show _ ≤ dev.iommuDomainNum + 1; omega, fun _ => rfl⟩

theorem rknpuIommuSwitchDomain_switched (dev : DomainDev) (o : DomainOutcome) (id : ℤ) :
    Switched dev id (rknpuIommuSwitchDomain dev o id) := by
  unfold rknpuIommuSwitchDomain
  split_ifs with hen hid hbus hcur hsrc
  · exact Switched.refused (by decide)
  · exact Switched.refused (by decide)
  · exact Switched.refused (by decide)
  · exact ⟨rfl, le_refl _, fun _ => hcur.symm⟩
  · exact Switched.refused (by decide)
  · cases dev.iommuDomains id.toNat with
    | some dst => exact switchToKnown_switched dev o id dst
    | none => exact switchToNew_switched dev o id

/-! ## Several domains -/

/-- The count is the references held, which are all for the current domain. -/
structure Shared (s : DomainState) : Prop where
  several : 2 ≤ s.dev.iommuDomainNum
  count : s.dev.iommuDomainRefcount = s.references
  same : ∀ id, .put id ∈ pending s.threads → id = s.dev.iommuDomainId
  slow : ∀ id, .fastInc id ∉ pending s.threads

theorem references_pos {s : DomainState} {id : ℤ} (h : .put id ∈ pending s.threads) :
    0 < s.references := le_weigh h DomainOp.held

/-- What a turn of the loop does: get a reference to the current domain, switch when nobody
holds one, or leave the device as it is. -/
theorem tryGet_cases (dev : DomainDev) (o : DomainOutcome) (id : ℤ) :
    (∃ dev', domainTryGet dev o id = (dev'.inc, [.put id]) ∧ dev'.iommuDomainId = id ∧
        dev'.iommuDomainRefcount = dev.iommuDomainRefcount ∧
        dev.iommuDomainNum ≤ dev'.iommuDomainNum ∧
        (dev' = dev ∨ dev.iommuDomainRefcount = 0)) ∨
      (∃ dev', domainTryGet dev o id = (dev', []) ∧
        dev'.iommuDomainRefcount = dev.iommuDomainRefcount ∧
        dev.iommuDomainNum ≤ dev'.iommuDomainNum ∧
        (dev' = dev ∨ dev.iommuDomainRefcount = 0)) ∨
      domainTryGet dev o id = (dev, [.tryGet id]) := by
  unfold domainTryGet
  split_ifs with hcur hzero htime
  · exact Or.inl ⟨dev, rfl, hcur.symm, rfl, le_refl _, Or.inl rfl⟩
  · obtain ⟨hcount, hnum, hid⟩ := rknpuIommuSwitchDomain_switched dev o id
    generalize rknpuIommuSwitchDomain dev o id = switched at hcount hnum hid
    obtain ⟨ret, dev'⟩ := switched
    simp only
    split_ifs with hret
    · exact Or.inr (Or.inl ⟨dev', rfl, hcount, hnum, Or.inr hzero⟩)
    · exact Or.inl ⟨dev', rfl, hid (not_not.mp hret), hcount, hnum, Or.inr hzero⟩
  · exact Or.inr (Or.inl ⟨dev, rfl, rfl, le_refl _, Or.inl rfl⟩)
  · exact Or.inr (Or.inr rfl)

theorem references_step {s t : DomainState} {op : DomainOp} {others : Multiset DomainOp}
    {ops : List DomainOp} (hop : pending s.threads = op ::ₘ others)
    (hops : pending t.threads = (ops : Multiset DomainOp) + others) :
    t.references + op.held = s.references + (ops.map DomainOp.held).sum := by
  rw [DomainState.references, DomainState.references, weigh, weigh, hop, hops, Multiset.map_add,
    Multiset.sum_add, Multiset.map_cons, Multiset.sum_cons, Multiset.map_coe, Multiset.sum_coe]
  omega

/-- A step keeps the invariant when it keeps the current domain while a reference is held, and
adds no references but to the current domain. -/
theorem Shared.moved {s t : DomainState} (hs : Shared s)
    (hnum : s.dev.iommuDomainNum ≤ t.dev.iommuDomainNum)
    (hcount : t.dev.iommuDomainRefcount = t.references)
    (hkeep : 0 < s.references → t.dev.iommuDomainId = s.dev.iommuDomainId)
    (hput : ∀ i, .put i ∈ pending t.threads →
      .put i ∈ pending s.threads ∨ i = t.dev.iommuDomainId)
    (hslow : ∀ i, .fastInc i ∈ pending t.threads → .fastInc i ∈ pending s.threads) :
    Shared t ∧ (0 < s.references → t.dev.iommuDomainId = s.dev.iommuDomainId) := by
  refine ⟨⟨hs.several.trans hnum, hcount, fun i hi => ?_, fun i hi => hs.slow i (hslow i hi)⟩,
    hkeep⟩
  obtain hold | hnew := hput i hi
  · rw [hkeep (references_pos hold)]
    exact hs.same i hold
  · exact hnew

section Blocks
variable {s t : DomainState} {op : DomainOp} {others : Multiset DomainOp}

theorem Shared.idle (hs : Shared s) (hop : pending s.threads = op ::ₘ others) {ops : List DomainOp}
    (hdev : t.dev = s.dev) (hops : pending t.threads = (ops : Multiset DomainOp) + others)
    (hheld : (ops.map DomainOp.held).sum = op.held)
    (hnew : ∀ x ∈ ops, (∀ i, x ≠ .put i) ∧ ∀ i, x ≠ .fastInc i) :
    Shared t ∧ (0 < s.references → t.dev.iommuDomainId = s.dev.iommuDomainId) := by
  have hrefs := references_step hop hops
  have hcount := hs.count
  have hold : ∀ x, x ∈ pending t.threads → x ∉ ops → x ∈ pending s.threads := by
    intro x hx hnot
    rw [hops] at hx
    rw [hop]
    exact Multiset.mem_cons_of_mem ((Multiset.mem_add.mp hx).resolve_left hnot)
  refine hs.moved (by rw [hdev]) ?_ (fun _ => by rw [hdev]) (fun i hi => Or.inl ?_) fun i hi => ?_
  · rw [hdev]
    omega
  · exact hold _ hi fun hmem => (hnew _ hmem).1 i rfl
  · exact hold _ hi fun hmem => (hnew _ hmem).2 i rfl

theorem Shared.tryGet (hs : Shared s) {o : DomainOutcome} {id : ℤ}
    (hop : pending s.threads = .tryGet id ::ₘ others)
    (hdev : t.dev = (domainTryGet s.dev o id).1)
    (hops : pending t.threads = ((domainTryGet s.dev o id).2 : Multiset DomainOp) + others) :
    Shared t ∧ (0 < s.references → t.dev.iommuDomainId = s.dev.iommuDomainId) := by
  have hrefs := references_step hop hops
  have hcount := hs.count
  have hothers : ∀ x ∈ others, x ∈ pending s.threads := fun x hx => by simp [hop, hx]
  obtain ⟨dev', hd, hid, hc, hn, hsame⟩ | ⟨dev', hd, hc, hn, hsame⟩ | hd :=
    tryGet_cases s.dev o id
  · rw [hd] at hdev hops hrefs
    simp only [DomainOp.held, List.map_cons, List.map_nil, List.sum_singleton] at hrefs
    refine hs.moved (by rw [hdev]; exact hn) ?_ (fun hpos => ?_) (fun i hi => ?_) fun i hi => ?_
    · rw [hdev]
      show dev'.iommuDomainRefcount + 1 = _
      omega
    · rw [hdev]
      obtain rfl | hzero := hsame
      · rfl
      · omega
    · rw [hops] at hi
      simp only [Multiset.coe_singleton, Multiset.mem_add, Multiset.mem_singleton,
        DomainOp.put.injEq] at hi
      obtain rfl | hi := hi
      · rw [hdev]
        exact Or.inr hid.symm
      · exact Or.inl (hothers _ hi)
    · rw [hops] at hi
      exact hothers _ (by simpa using hi)
  · rw [hd] at hdev hops hrefs
    simp only [DomainOp.held, List.map_nil, List.sum_nil] at hrefs
    refine hs.moved (by rw [hdev]; exact hn) ?_ (fun hpos => ?_) (fun i hi => ?_) fun i hi => ?_
    · rw [hdev]
      show dev'.iommuDomainRefcount = _
      omega
    · rw [hdev]
      obtain rfl | hzero := hsame
      · rfl
      · omega
    · rw [hops] at hi
      exact Or.inl (hothers _ (by simpa using hi))
    · rw [hops] at hi
      exact hothers _ (by simpa using hi)
  · rw [hd] at hdev hops
    exact hs.idle hop hdev hops rfl (by simp)

theorem Shared.put (hs : Shared s) {id : ℤ} (hop : pending s.threads = .put id ::ₘ others)
    (hdev : t.dev = rknpuIommuDomainPut s.dev)
    (hops : pending t.threads = (([] : List DomainOp) : Multiset DomainOp) + others) :
    Shared t ∧ (0 < s.references → t.dev.iommuDomainId = s.dev.iommuDomainId) := by
  have hrefs := references_step hop hops
  have hcount := hs.count
  simp only [DomainOp.held, List.map_nil, List.sum_nil] at hrefs
  have hothers : ∀ x ∈ pending t.threads, x ∈ pending s.threads := by
    intro x hx
    rw [hops] at hx
    rw [hop]
    exact Multiset.mem_cons_of_mem (by simpa using hx)
  refine hs.moved (by rw [hdev]; rfl) ?_ (fun _ => by rw [hdev]; rfl)
    (fun i hi => Or.inl (hothers _ hi)) fun i hi => hothers _ hi
  rw [hdev]
  show s.dev.iommuDomainRefcount - 1 = _
  omega

end Blocks

theorem Shared.step {s t : DomainState} {label : DomainLabel} (hs : Shared s)
    (h : domainStep s label = some t) :
    Shared t ∧ (0 < s.references → t.dev.iommuDomainId = s.dev.iommuDomainId) := by
  obtain ⟨id, hdev, htodo⟩ | ⟨o, op, others, hop, hdev, htodo⟩ := domainStep_cases h
  · have hrefs : t.references = s.references := by
      rw [DomainState.references, weigh, htodo, Multiset.map_cons, Multiset.sum_cons]
      exact Nat.zero_add _
    refine hs.moved (by rw [hdev]) ?_ (fun _ => by rw [hdev]) (fun i hi => Or.inl ?_) fun i hi => ?_
    · rw [hdev, hrefs]
      exact hs.count
    · rw [htodo] at hi
      simpa using hi
    · rw [htodo] at hi
      simpa using hi
  · cases op with
    | get id =>
      have hslow : ¬ s.dev.iommuDomainNum ≤ 1 := by
        have := hs.several
        omega
      have hexec : domainExec s.dev o (.get id) = (s.dev, [.tryGet id]) := by
        simp only [domainExec, rknpuIommuDomainGetAndSwitch, if_neg hslow]
      rw [hexec] at hdev htodo
      exact hs.idle hop hdev htodo rfl (by simp)
    | fastInc id =>
      refine absurd ?_ (hs.slow id)
      rw [hop]
      exact Multiset.mem_cons_self _ _
    | tryGet id => exact hs.tryGet hop hdev htodo
    | put id => exact hs.put hop hdev htodo

/-- **The domain protocol** from any state with several domains and no reference: the count is
the number of references held, all are for the current domain, and the current domain does not
change while one is held. -/
theorem domain_exclusive {s : DomainState} (hs : switchingSystem.Reachable s) :
    s.dev.iommuDomainRefcount = s.references ∧
      (∀ id id', .put id ∈ pending s.threads → .put id' ∈ pending s.threads → id = id') ∧
      ∀ label t, switchingSystem.step s label = some t → 0 < s.references →
        t.dev.iommuDomainId = s.dev.iommuDomainId := by
  have hshared : Shared s := by
    refine hs.invariant Shared ?_ fun s label t hs h => (hs.step h).1
    rintro ⟨dev, threads⟩ ⟨hnum, hcount, hthreads⟩
    obtain rfl : threads = [] := hthreads
    exact ⟨hnum, hcount, fun id hid => absurd hid (Multiset.notMem_zero _),
      fun id hid => absurd hid (Multiset.notMem_zero _)⟩
  refine ⟨hshared.count, fun id id' h h' => ?_, fun label t h hpos => (hshared.step h).2 hpos⟩
  rw [hshared.same id h, hshared.same id' h']

/-- Two domains, of which the first is the current one. -/
def twoDomains : DomainState where
  dev :=
    { iommuEn := true, bus := true, iommuDomainId := 0
      iommuDomains := fun i => if i < 2 then some i else none
      iommuDomainNum := 2, iommuDomainRefcount := 0, attached := some 0, numDomains := 2 }
  threads := []

def noFailure : DomainOutcome := ⟨true, 0, 0, none, false⟩

theorem domain_exclusive_held : ∃ s, switchingSystem.Reachable s ∧
    .put 1 ∈ pending s.threads ∧ s.dev.iommuDomainRefcount = s.references ∧
    ∀ label t, switchingSystem.step s label = some t → t.dev.iommuDomainId = 1 := by
  obtain ⟨s, hs, hp⟩ := System.Reachable.of_run_any (S := switchingSystem) (s := twoDomains)
    (l := [.call 1, .exec 0 noFailure, .exec 0 noFailure])
    (p := fun s => decide (.put 1 ∈ pending s.threads ∧ s.dev.iommuDomainId = 1))
    ⟨by decide, rfl, rfl⟩ (by decide +kernel)
  obtain ⟨hput, hid⟩ := of_decide_eq_true hp
  obtain ⟨hcount, -, hstay⟩ := domain_exclusive hs
  exact ⟨s, hs, hput, hcount, fun label t h => (hstay label t h (references_pos hput)).trans hid⟩

/-! ## The initial domain -/

/-- The fast path is always taken, and nothing but the count ever changes. -/
structure FastPath (s : DomainState) : Prop where
  num : s.dev.iommuDomainNum = 1
  current : s.dev.iommuDomainId = 0
  fast : ∀ id, .tryGet id ∉ pending s.threads

structure SingleDomain (s : DomainState) : Prop extends FastPath s where
  attached : ∃ d, s.dev.attached = some d ∧ s.dev.iommuDomains 0 = some d

theorem SingleDomain.init {s : DomainState} (h : initializedSystem.init s) : SingleDomain s := by
  obtain ⟨hthreads, dev, d, hempty, hattached, -, hdev⟩ := h
  have hzero : dev.iommuDomains 0 = none := by rw [hempty]
  rw [rknpuIommuInitDomain, if_pos hzero] at hdev
  refine ⟨⟨by rw [hdev], by rw [hdev], fun id hid => ?_⟩, d, ?_, ?_⟩
  · rw [hthreads] at hid
    exact absurd hid (Multiset.notMem_zero _)
  · rw [hdev]
    exact hattached
  · rw [hdev]
    exact hattached

theorem domainExec_fast {dev : DomainDev} (hnum : dev.iommuDomainNum = 1) (o : DomainOutcome)
    {op : DomainOp} (hop : ∀ id, op ≠ .tryGet id) :
    (∃ n, (domainExec dev o op).1 = { dev with iommuDomainRefcount := n }) ∧
      ∀ id, .tryGet id ∉ (domainExec dev o op).2 := by
  cases op with
  | get id =>
    have hfast : dev.iommuDomainNum ≤ 1 := by omega
    simp only [domainExec, rknpuIommuDomainGetAndSwitch, if_pos hfast]
    exact ⟨⟨_, rfl⟩, by simp⟩
  | fastInc id => exact ⟨⟨_, rfl⟩, by simp [domainExec]⟩
  | tryGet id => exact absurd rfl (hop id)
  | put id => exact ⟨⟨_, rfl⟩, by simp [domainExec]⟩

theorem FastPath.step {s t : DomainState} {label : DomainLabel} (hs : FastPath s)
    (h : domainStep s label = some t) :
    FastPath t ∧ ∃ n, t.dev = { s.dev with iommuDomainRefcount := n } := by
  obtain ⟨id, hdev, htodo⟩ | ⟨o, op, others, hop, hdev, htodo⟩ := domainStep_cases h
  · refine ⟨⟨hdev ▸ hs.num, hdev ▸ hs.current, fun i hi => ?_⟩, _, hdev⟩
    rw [htodo] at hi
    exact hs.fast i (by simpa using hi)
  · have hnot : ∀ i, op ≠ .tryGet i := fun i hi => hs.fast i (by simp [hop, hi])
    obtain ⟨⟨n, hn⟩, hcalls⟩ := domainExec_fast hs.num o hnot
    rw [hn] at hdev
    refine ⟨⟨by rw [hdev]; exact hs.num, by rw [hdev]; exact hs.current, fun i hi => ?_⟩, n,
      hdev⟩
    rw [htodo, Multiset.mem_add, Multiset.mem_coe] at hi
    obtain hi | hi := hi
    · exact hcalls i hi
    · exact hs.fast i (by simp [hop, hi])

theorem SingleDomain.step {s t : DomainState} {label : DomainLabel} (hs : SingleDomain s)
    (h : domainStep s label = some t) : SingleDomain t := by
  obtain ⟨hfast, n, hdev⟩ := hs.toFastPath.step h
  refine ⟨hfast, ?_⟩
  rw [hdev]
  exact hs.attached

theorem singleDomain_reachable {s : DomainState} (hs : initializedSystem.Reachable s) :
    SingleDomain s :=
  hs.invariant SingleDomain (fun _ h => SingleDomain.init h) fun _ _ _ hs h => hs.step h

/-- What a caller that has got domain `id` relies on until its put. -/
def Granted (dev : DomainDev) (id : ℤ) : Prop :=
  0 ≤ id ∧ id < rknpuMaxIommuDomainNum ∧ dev.iommuDomainId = id ∧
    dev.attached ≠ none ∧ dev.attached = dev.iommuDomains id.toNat

instance (dev : DomainDev) (id : ℤ) : Decidable (Granted dev id) :=
  inferInstanceAs (Decidable (_ ∧ _))

/-- **The fast path** is the only one from the initial state: a reference that was returned is
for the domain that was asked for exactly when that is domain 0. -/
theorem granted_iff {s : DomainState} (hs : initializedSystem.Reachable s) :
    ∀ id, .put id ∈ pending s.threads → (Granted s.dev id ↔ id = 0) := by
  intro id _
  have hsingle := singleDomain_reachable hs
  constructor
  · rintro ⟨-, -, hid, -⟩
    rw [← hid]
    exact hsingle.current
  · rintro rfl
    obtain ⟨d, hattached, hdomain⟩ := hsingle.attached
    refine ⟨by decide, by decide, hsingle.current, ?_, ?_⟩
    · rw [hattached]
      exact Option.some_ne_none d
    · rw [hattached]
      exact hdomain.symm

/-- The device as `rknpu_probe` leaves it, attached to domain 0. -/
def probedDev : DomainDev where
  iommuEn := true
  bus := true
  iommuDomainId := 0
  iommuDomains := fun _ => none
  iommuDomainNum := 0
  iommuDomainRefcount := 0
  attached := some 0
  numDomains := 1

def probedState : DomainState := ⟨rknpuIommuInitDomain probedDev, []⟩

theorem probedState_init : initializedSystem.init probedState :=
  ⟨rfl, probedDev, 0, rfl, rfl, rfl, rfl⟩

theorem granted_iff_zero : ∃ s, initializedSystem.Reachable s ∧ Granted s.dev 0 := by
  obtain ⟨s, hs, hput⟩ := System.Reachable.of_run_any (S := initializedSystem)
    (s := probedState) (l := [.call 0, .exec 0 noFailure, .exec 0 noFailure])
    (p := fun s => decide (.put 0 ∈ pending s.threads)) probedState_init (by decide +kernel)
  exact ⟨s, hs, (granted_iff hs 0 (of_decide_eq_true hput)).mpr rfl⟩

/-- A get of domain 5 right after the initialisation succeeds, and leaves domain 0. -/
theorem granted_other : ∃ s, initializedSystem.Reachable s ∧ .put 5 ∈ pending s.threads ∧
    s.dev.iommuDomainId = 0 ∧ ¬ Granted s.dev 5 := by
  obtain ⟨s, hs, h⟩ := System.Reachable.of_run_any (S := initializedSystem) (s := probedState)
    (l := [.call 5, .exec 0 noFailure, .exec 0 noFailure])
    (p := fun s => decide (.put 5 ∈ pending s.threads ∧ s.dev.iommuDomainId = 0 ∧
      ¬ Granted s.dev 5)) probedState_init (by decide +kernel)
  exact ⟨s, hs, of_decide_eq_true h⟩

end RknpuDriver.Iommu
