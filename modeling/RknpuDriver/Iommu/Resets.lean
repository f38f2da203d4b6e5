import RknpuDriver.Iommu.Switching

/-! # Soft resets and the switches

`rknpu_soft_reset` reads the domain that the device is attached to, detaches the device from it and
attaches it again, without `domain_lock`. A switch has the lock, but its calls of the IOMMU core and
its assignments may come between those of any number of resets.

* `switchEnter`, `switchCall`: `rknpu_iommu_switch_domain`, one call at a time, and `switch_calls`:
  without a reset in between it is `rknpuIommuSwitchDomain`.
* `resetCall`: the calls of a soft reset.
* `Connected`: the device is attached to the current domain, or a call to come will attach it.
* `connected_iff`: this stays so exactly when no attach leaves the device elsewhere, unless another
  one follows it.
-/

namespace RknpuDriver.Iommu
open RknpuDriver.Lib
set_option autoImplicit false

/-- What a call of the IOMMU core returns, and what the device is attached to after a detach and
after an attach that fails. -/
structure CallOutcome where
  ret : ℤ
  left : Option ℕ
  deriving DecidableEq, Repr

/-- What the device is attached to after `iommu_attach_device`. -/
def CallOutcome.attached (o : CallOutcome) (domain : Option ℕ) : Option ℕ :=
  if o.ret = 0 then domain else o.left

/-- The locals of `rknpu_iommu_switch_domain`; `known` is whether the table had the domain. -/
structure Switch where
  id : ℤ
  src : Option ℕ
  dst : ℕ
  known : Bool
  deriving DecidableEq, Repr

/-- What a switch does next. -/
inductive SwitchStage where
  | detach (w : Switch)
  | attach (w : Switch)
  | reattach (w : Switch) (ret : ℤ)
  | assign (w : Switch)
  | returned (ret : ℤ)
  deriving DecidableEq, Repr

/-- The device will be attached to a domain by the switch. -/
def SwitchStage.attaches : SwitchStage → Bool
  | .detach _ | .attach _ | .reattach _ _ => true
  | .assign _ | .returned _ => false

/-- The domain that a switch attaches the device to: the one of the table, or a new one. -/
def switchTo (dev : DomainDev) (allocOk : Bool) (domainId : ℤ) : DomainDev × SwitchStage :=
  match dev.iommuDomains domainId.toNat with
  | some dst => (dev, .detach ⟨domainId, dev.attached, dst, true⟩)
  | none =>
    if allocOk = false then (dev, .returned (-eio))
    else
      ({ dev with numDomains := dev.numDomains + 1 },
        .detach ⟨domainId, dev.attached, dev.numDomains, false⟩)

/-- `rknpu_iommu_switch_domain` up to its first call of `iommu_detach_device`. -/
def switchEnter (dev : DomainDev) (allocOk : Bool) (domainId : ℤ) : DomainDev × SwitchStage :=
  if dev.iommuEn = false then (dev, .returned (-einval))
  else if domainId < 0 ∨ rknpuMaxIommuDomainNum - 1 < domainId then (dev, .returned (-einval))
  else if dev.bus = false then (dev, .returned (-efault))
  else if domainId = dev.iommuDomainId then (dev, .returned 0)
  else if dev.attached ≠ dev.iommuDomains dev.iommuDomainId.toNat then
    (dev, .returned (-einval))
  else switchTo dev allocOk domainId

/-- Its calls, and the assignments after the last of them. -/
def switchCall (dev : DomainDev) (o : CallOutcome) : SwitchStage → DomainDev × SwitchStage
  | .detach w => ({ dev with attached := o.left }, .attach w)
  | .attach w =>
    ({ dev with attached := o.attached (some w.dst) },
      if o.ret = 0 then .assign w
      else if w.known then .reattach w o.ret
      else .returned o.ret)
  | .reattach w ret => ({ dev with attached := o.attached w.src }, .returned ret)
  | .assign w =>
    if w.known then ({ dev with iommuDomainId := w.id }, .returned 0)
    else
      ({ dev with
        iommuDomainId := w.id
        iommuDomains := fun i => if i = w.id.toNat then some w.dst else dev.iommuDomains i
        iommuDomainNum := dev.iommuDomainNum + 1 }, .returned 0)
  | .returned ret => (dev, .returned ret)

/-- The next call of a soft reset for the domain it has read. -/
inductive ResetStage where
  | read
  | detach (domain : ℕ)
  | attach (domain : ℕ)
  | finished
  deriving DecidableEq, Repr

/-- The calls of `rknpu_soft_reset` between its deassert and the end of `soft_reseting`. -/
def resetCall (dev : DomainDev) (o : CallOutcome) : ResetStage → DomainDev × ResetStage
  | .read =>
    match if dev.iommuEn then dev.attached else none with
    | some domain => (dev, .detach domain)
    | none => (dev, .finished)
  | .detach domain => ({ dev with attached := o.left }, .attach domain)
  | .attach domain => ({ dev with attached := o.attached (some domain) }, .finished)
  | .finished => (dev, .finished)

/-! ## A switch without a reset -/

/-- The calls of a whole switch. -/
def DomainOutcome.calls (o : DomainOutcome) (detached : Option ℕ) : List CallOutcome :=
  [⟨0, detached⟩, ⟨o.attachRet, o.left⟩, ⟨o.reattachRet, o.left⟩]

theorem returned_calls (dev : DomainDev) (ret : ℤ) (outcomes : List CallOutcome) :
    outcomes.foldl (fun p o => switchCall p.1 o p.2) (dev, .returned ret) =
      (dev, .returned ret) := by
  induction outcomes with
  | nil => rfl
  | cons o outcomes ih => exact ih

theorem known_calls (dev : DomainDev) (o : DomainOutcome) (detached : Option ℕ) (id : ℤ)
    (dst : ℕ) :
    (o.calls detached).foldl (fun p o => switchCall p.1 o p.2)
        (dev, .detach ⟨id, dev.attached, dst, true⟩) =
      ((switchToKnown dev o id dst).2, .returned (switchToKnown dev o id dst).1) := by
  unfold switchToKnown
  simp only [DomainOutcome.calls, List.foldl_cons, List.foldl_nil, switchCall,
    CallOutcome.attached]
  by_cases hret : o.attachRet = 0
  · simp only [hret, ne_eq, not_true_eq_false, if_true, if_false]
  · by_cases hre : o.reattachRet = 0
    · simp only [hret, hre, ne_eq, not_true_eq_false, not_false_eq_true, if_true, if_false]
    · simp only [hret, hre, ne_eq, not_false_eq_true, if_true, if_false]

theorem new_calls (dev : DomainDev) (o : DomainOutcome) (detached : Option ℕ) (id : ℤ)
    (halloc : o.allocOk = true) :
    (o.calls detached).foldl (fun p o => switchCall p.1 o p.2)
        ({ dev with numDomains := dev.numDomains + 1 },
          .detach ⟨id, dev.attached, dev.numDomains, false⟩) =
      ((switchToNew dev o id).2, .returned (switchToNew dev o id).1) := by
  unfold switchToNew
  simp only [DomainOutcome.calls, List.foldl_cons, List.foldl_nil, switchCall,
    CallOutcome.attached, halloc]
  by_cases hret : o.attachRet = 0
  · simp [hret]
  · simp [hret]

/-- Without a reset between its calls, a switch is the one of the other modules. -/
theorem switch_calls (dev : DomainDev) (o : DomainOutcome) (detached : Option ℕ) (id : ℤ) :
    (o.calls detached).foldl (fun p o => switchCall p.1 o p.2) (switchEnter dev o.allocOk id) =
      ((rknpuIommuSwitchDomain dev o id).2, .returned (rknpuIommuSwitchDomain dev o id).1) := by
  unfold switchEnter rknpuIommuSwitchDomain
  split_ifs with hen hid hbus hcur hsrc
  · exact returned_calls _ _ _
  · exact returned_calls _ _ _
  · exact returned_calls _ _ _
  · exact returned_calls _ _ _
  · exact returned_calls _ _ _
  · unfold switchTo
    cases dev.iommuDomains id.toNat with
    | some dst => exact known_calls dev o detached id dst
    | none =>
      cases halloc : o.allocOk with
      | true => exact new_calls dev o detached id halloc
      | false =>
        have hfails : switchToNew dev o id = (-eio, dev) := by
          rw [switchToNew, if_pos halloc]
        simp only [hfails]
        exact returned_calls _ _ _

/-! ## Switches and resets -/

/-- The switch that has `domain_lock`, or had it last, and any number of resets. -/
structure ResetState where
  dev : DomainDev
  switch : SwitchStage
  reset : ℕ → ResetStage

/-- A switch is called, it makes its next call, or reset `i` makes its own. -/
inductive ResetLabel where
  | enter (allocOk : Bool) (domainId : ℤ)
  | switch (o : CallOutcome)
  | reset (i : ℕ) (o : CallOutcome)

def resetStep (s : ResetState) : ResetLabel → Option ResetState
  | .enter allocOk domainId =>
    match s.switch with
    | .returned _ =>
      let (dev, stage) := switchEnter s.dev allocOk domainId
      some ⟨dev, stage, s.reset⟩
    | _ => none
  | .switch o =>
    match s.switch with
    | .returned _ => none
    | stage =>
      let (dev, stage) := switchCall s.dev o stage
      some ⟨dev, stage, s.reset⟩
  | .reset i o =>
    let (dev, stage) := resetCall s.dev o (s.reset i)
    some ⟨dev, s.switch, Function.update s.reset i stage⟩

def resetSystem : System ResetState ResetLabel where
  init s := s.dev.attached = s.dev.current ∧ s.switch = .returned 0 ∧ s.reset = fun _ => .read
  step := resetStep

/-- `iommu_detach_device` does nothing for a domain that the device is not attached to. -/
def detachesOwn (s : ResetState) : ResetLabel → Bool
  | .reset i o =>
    match s.reset i with
    | .detach domain => s.dev.attached = some domain ∨ o.left = s.dev.attached
    | _ => true
  | _ => true

def detachingSystem : System ResetState ResetLabel :=
  resetSystem.guarded fun s label => detachesOwn s label = true

/-- The domain that the device is to be attached to: the one that a switch is about to make the
current one. -/
def ResetState.target (s : ResetState) : Option ℕ :=
  match s.switch with
  | .assign w => some w.dst
  | _ => s.dev.current

/-- A reset is about to attach the device to `domain`. -/
def Attaching (reset : ℕ → ResetStage) (domain : Option ℕ) : Prop :=
  ∃ d, domain = some d ∧ ∃ i, reset i = .attach d

def Connected (s : ResetState) : Prop :=
  s.dev.attached = s.target ∨ s.switch.attaches = true ∨ Attaching s.reset s.target

/-- An attach leaves the device where it is to be, or is not the last one. -/
def Reattached (s : ResetState) : ResetLabel → Prop
  | .enter _ _ => True
  | .switch o =>
    match s.switch with
    | .attach w =>
      o.ret = 0 ∨ w.known = true ∨ o.left = s.dev.current ∨ Attaching s.reset s.dev.current
    | .reattach _ _ => o.ret = 0 ∨ o.left = s.dev.current ∨ Attaching s.reset s.dev.current
    | _ => True
  | .reset i o =>
    match s.reset i with
    | .attach domain =>
      o.attached (some domain) = s.target ∨ s.switch.attaches = true ∨
        Attaching (Function.update s.reset i .finished) s.target
    | _ => True

/-- What the locals of a switch under way are. -/
def Underway (dev : DomainDev) : SwitchStage → Prop
  | .detach w | .attach w | .reattach w _ =>
    w.src = dev.current ∧ (w.known = true → dev.iommuDomains w.id.toNat = some w.dst)
  | .assign w => w.known = true → dev.iommuDomains w.id.toNat = some w.dst
  | .returned _ => True

section
variable {s t : ResetState} {o : CallOutcome} {i : ℕ}

/-- A reset that was not about to attach the device goes on. -/
theorem Attaching.update {reset : ℕ → ResetStage} {domain : Option ℕ} {old : ResetStage}
    (h : Attaching reset domain) (hi : reset i = old) (hold : ∀ d, old ≠ .attach d)
    (stage : ResetStage) : Attaching (Function.update reset i stage) domain := by
  obtain ⟨d, hd, k, hk⟩ := h
  refine ⟨d, hd, k, ?_⟩
  rw [Function.update_of_ne]
  · exact hk
  · intro hki
    rw [hki, hi] at hk
    exact hold d hk

theorem Connected.update {old : ResetStage} (hs : Connected s) (hi : s.reset i = old)
    (hold : ∀ d, old ≠ .attach d) (stage : ResetStage) :
    Connected { s with reset := Function.update s.reset i stage } :=
  hs.imp_right fun h => h.imp_right fun h => h.update hi hold stage

/-! ## Steps -/

theorem switchEnter_underway (dev : DomainDev) (allocOk : Bool) (id : ℤ) :
    Underway (switchEnter dev allocOk id).1 (switchEnter dev allocOk id).2 := by
  unfold switchEnter
  split_ifs with hen hid hbus hcur hsrc
  · exact trivial
  · exact trivial
  · exact trivial
  · exact trivial
  · exact trivial
  · unfold switchTo
    cases hdst : dev.iommuDomains id.toNat with
    | some dst => exact ⟨not_not.mp hsrc, fun _ => hdst⟩
    | none =>
      cases allocOk with
      | false => exact trivial
      | true => exact ⟨not_not.mp hsrc, fun h => absurd h Bool.false_ne_true⟩

theorem switchEnter_attaches (dev : DomainDev) (allocOk : Bool) (id : ℤ) :
    (∃ ret, switchEnter dev allocOk id = (dev, .returned ret)) ∨
      (switchEnter dev allocOk id).2.attaches = true := by
  unfold switchEnter
  split_ifs with hen hid hbus hcur hsrc
  · exact Or.inl ⟨_, rfl⟩
  · exact Or.inl ⟨_, rfl⟩
  · exact Or.inl ⟨_, rfl⟩
  · exact Or.inl ⟨_, rfl⟩
  · exact Or.inl ⟨_, rfl⟩
  · unfold switchTo
    cases dev.iommuDomains id.toNat with
    | some dst => exact Or.inr rfl
    | none =>
      cases allocOk with
      | false => exact Or.inl ⟨_, rfl⟩
      | true => exact Or.inr rfl

theorem Connected.enter (hs : Connected s) {ret : ℤ} (hswitch : s.switch = .returned ret)
    (allocOk : Bool) (id : ℤ) :
    Connected ⟨(switchEnter s.dev allocOk id).1, (switchEnter s.dev allocOk id).2, s.reset⟩ := by
  obtain ⟨ret', hnow⟩ | hlater := switchEnter_attaches s.dev allocOk id
  · rw [hnow]
    unfold Connected ResetState.target at hs ⊢
    rw [hswitch] at hs
    exact hs
  · exact Or.inr (Or.inl hlater)

theorem switchCall_underway (dev : DomainDev) (o : CallOutcome) {stage : SwitchStage}
    (h : Underway dev stage) :
    Underway (switchCall dev o stage).1 (switchCall dev o stage).2 := by
  cases stage with
  | detach w => exact h
  | attach w =>
    simp only [switchCall]
    split_ifs with hret hknown
    · exact h.2
    · exact h
    · exact trivial
  | reattach w ret => exact trivial
  | assign w =>
    simp only [switchCall]
    split_ifs
    · exact trivial
    · exact trivial
  | returned ret => exact trivial

theorem assign_current {dev : DomainDev} {w : Switch} (h : Underway dev (.assign w)) :
    (switchCall dev o (.assign w)).1.current = some w.dst ∧
      (switchCall dev o (.assign w)).1.attached = dev.attached ∧
      (switchCall dev o (.assign w)).2 = .returned 0 := by
  simp only [switchCall]
  split_ifs with hknown
  · exact ⟨h hknown, rfl, rfl⟩
  · exact ⟨if_pos rfl, rfl, rfl⟩

/-- The next call of a switch keeps the device connected exactly when it leaves it where it is to
be. -/
theorem Connected.switchCall (hs : Connected s) (hunder : Underway s.dev s.switch) :
    Connected ⟨(switchCall s.dev o s.switch).1, (switchCall s.dev o s.switch).2, s.reset⟩ ↔
      Reattached s (.switch o) := by
  cases hswitch : s.switch with
  | detach w =>
    simp only [Reattached, hswitch, iff_true]
    exact Or.inr (Or.inl rfl)
  | attach w =>
    simp only [Reattached, hswitch]
    by_cases hret : o.ret = 0
    · simp only [hret, true_or, iff_true]
      refine Or.inl ?_
      simp only [Iommu.switchCall, CallOutcome.attached, ResetState.target, if_pos hret]
    · cases hknown : w.known with
      | true =>
        simp only [true_or, or_true, iff_true]
        refine Or.inr (Or.inl ?_)
        simp only [Iommu.switchCall, if_neg hret, hknown, if_true, SwitchStage.attaches]
      | false =>
        simp only [hret, false_or, Bool.false_eq_true]
        simp only [Connected, Iommu.switchCall, CallOutcome.attached, ResetState.target,
          if_neg hret, hknown, Bool.false_eq_true, if_false, SwitchStage.attaches, false_or]
        exact Iff.rfl
  | reattach w ret =>
    rw [hswitch] at hunder
    simp only [Reattached, hswitch]
    simp only [Connected, Iommu.switchCall, CallOutcome.attached, ResetState.target,
      SwitchStage.attaches, Bool.false_eq_true, false_or]
    by_cases hret : o.ret = 0
    · simp only [hret, if_true, true_or, iff_true]
      exact Or.inl hunder.1
    · simp only [hret, if_false, false_or]
      exact Iff.rfl
  | assign w =>
    rw [hswitch] at hunder
    simp only [Reattached, hswitch, iff_true]
    obtain ⟨hcurrent, hattached, hstage⟩ := assign_current (o := o) hunder
    unfold Connected ResetState.target at hs ⊢
    rw [hswitch] at hs
    simp only [hstage, hcurrent, hattached]
    exact hs
  | returned ret =>
    simp only [Reattached, hswitch, iff_true]
    unfold Connected ResetState.target at hs ⊢
    rw [hswitch] at hs
    exact hs

/-- The same for a reset. -/
theorem Connected.resetCall (hs : Connected s) (hown : detachesOwn s (.reset i o) = true) :
    Connected ⟨(resetCall s.dev o (s.reset i)).1, s.switch,
        Function.update s.reset i (resetCall s.dev o (s.reset i)).2⟩ ↔
      Reattached s (.reset i o) := by
  cases hi : s.reset i with
  | read =>
    simp only [Reattached, hi, iff_true, Iommu.resetCall]
    split
    · exact hs.update hi (by simp) _
    · exact hs.update hi (by simp) _
  | detach domain =>
    simp only [Reattached, hi, iff_true, Iommu.resetCall]
    simp only [detachesOwn, hi, decide_eq_true_eq] at hown
    obtain hattached | hleft := hown
    · obtain htarget | hlater := hs
      · refine Or.inr (Or.inr ⟨domain, ?_, i, Function.update_self _ _ _⟩)
        exact htarget.symm.trans hattached
      · exact Or.inr (hlater.imp_right fun h => h.update hi (by simp) _)
    · rw [hleft]
      exact hs.update hi (by simp) _
  | attach domain =>
    simp only [Reattached, hi, Iommu.resetCall]
    exact Iff.rfl
  | finished =>
    simp only [Reattached, hi, iff_true, Iommu.resetCall]
    exact hs.update hi (by simp) _

theorem resetCall_underway {dev : DomainDev} (o : CallOutcome) (stage : ResetStage)
    {switch : SwitchStage} (h : Underway dev switch) : Underway (resetCall dev o stage).1 switch := by
  have hother : ∀ domain, Underway { dev with attached := domain } switch := by
    intro domain
    cases switch <;> exact h
  cases stage with
  | read =>
    simp only [resetCall]
    split
    · exact h
    · exact h
  | detach domain | attach domain => exact hother _
  | finished => exact h

theorem Connected.step {label : ResetLabel} (hunder : Underway s.dev s.switch)
    (hs : Connected s) (h : detachingSystem.step s label = some t) :
    Underway t.dev t.switch ∧ (Connected t ↔ Reattached s label) := by
  obtain ⟨hown, h⟩ := System.guarded_step.mp h
  cases label with
  | enter allocOk id =>
    simp only [resetSystem, resetStep] at h
    split at h
    · rename_i ret hswitch
      cases h
      exact ⟨switchEnter_underway _ _ _, iff_of_true (hs.enter hswitch _ _) trivial⟩
    · cases h
  | switch o =>
    simp only [resetSystem, resetStep] at h
    split at h
    · cases h
    · cases h
      exact ⟨switchCall_underway _ _ hunder, hs.switchCall hunder⟩
  | reset i o =>
    cases h
    exact ⟨resetCall_underway _ _ hunder, hs.resetCall hown⟩

/-! ## Runs -/

/-- **Soft resets and switches**, one call at a time: the device stays attached to the current
domain, or a call to come will attach it, exactly when no attach leaves the device elsewhere without
another one to follow. -/
theorem connected_iff {labels : List ResetLabel} (hinit : detachingSystem.init s)
    (hrun : detachingSystem.run s labels = some t) :
    detachingSystem.Throughout Connected s labels ↔
      detachingSystem.EachStep Reattached s labels := by
  obtain ⟨hattached, hswitch, -⟩ := hinit
  have hstart : Underway s.dev s.switch ∧ Connected s := by
    unfold Connected ResetState.target
    rw [hswitch]
    exact ⟨trivial, Or.inl hattached⟩
  refine System.throughout_iff_of_kept (I := fun s => Underway s.dev s.switch ∧ Connected s)
    (fun s hs => hs.2) ?_ ?_ hrun hstart
  · intro s label t hs hok h
    obtain ⟨ht, hiff⟩ := hs.2.step hs.1 h
    exact ⟨ht, hiff.mpr hok⟩
  · intro s label t hs h ht
    exact (hs.2.step hs.1 h).2.mp ht

end

/-- Domain `0` is the current one of two, and no call is under way. -/
def idleState : ResetState := ⟨twoDomains.dev, .returned 0, fun _ => .read⟩

/-- A call that succeeds. -/
def CallOutcome.fine (left : Option ℕ) : CallOutcome := ⟨0, left⟩

/-- A switch to domain `1`, and a reset between its two calls that attaches the old domain. -/
def resetInSwitch : List ResetLabel :=
  [.enter true 1, .reset 0 (.fine none), .switch (.fine none), .reset 0 (.fine none),
    .reset 0 (.fine none), .switch (.fine none), .switch (.fine none)]

theorem connected_iff_reset : detachingSystem.Throughout Connected idleState resetInSwitch := by
  obtain ⟨t, ht⟩ : ∃ t, detachingSystem.run idleState resetInSwitch = some t := ⟨_, rfl⟩
  refine (connected_iff ⟨rfl, rfl, rfl⟩ ht).mpr ⟨trivial, fun s hs => ?_⟩
  cases hs
  refine ⟨trivial, fun s hs => ?_⟩
  cases hs
  refine ⟨trivial, fun s hs => ?_⟩
  cases hs
  refine ⟨trivial, fun s hs => ?_⟩
  cases hs
  refine ⟨Or.inr (Or.inl rfl), fun s hs => ?_⟩
  cases hs
  refine ⟨Or.inl rfl, fun s hs => ?_⟩
  cases hs
  exact ⟨trivial, fun s hs => trivial⟩

/-- The same reset one call later: the device is left with domain `0` when domain `1` becomes the
current one. -/
example : (detachingSystem.run idleState
    [.reset 0 (.fine none), .enter true 1, .switch (.fine none), .switch (.fine none),
      .reset 0 (.fine (some 1)), .reset 0 (.fine none), .switch (.fine none)]).map
    (fun s => (s.dev.attached, s.dev.current)) = some (some 0, some 1) := rfl

end RknpuDriver.Iommu
