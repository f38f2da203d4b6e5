import RknpuDriver.Iommu.Domains
import Mathlib.Data.Fintype.Card
import Mathlib.Algebra.Order.Group.Int

/-! # What `rknpu_iommu_switch_domain` keeps

A switch detaches the device before the call that can fail. The branch for a domain of the table
attaches the device to its old domain again when that call fails; the branch for a new domain
frees the new domain and returns.

* `switch_domain_iff`: the switch keeps the two facts about the table, and undoes itself when it
  fails, exactly when it is not a new domain that cannot be attached to, with the device left
  without its old one.
* `left_stays`: as long as the device is not attached to the current domain, no switch has an
  effect.
* `Paths`: the callers of `rknpu_iommu_domain_get_and_switch` follow one of its two paths, whatever
  the device is attached to.
-/

namespace RknpuDriver.Iommu
open RknpuDriver.Lib
set_option autoImplicit false

/-- The entries of the table that are not NULL. -/
def DomainDev.entries (dev : DomainDev) : Finset ℕ :=
  (Finset.range rknpuMaxIommuDomainNum.toNat).filter fun i => dev.iommuDomains i ≠ none

/-- The device is attached to the current domain of the table, and the entries are counted. -/
structure Consistent (dev : DomainDev) : Prop where
  index : 0 ≤ dev.iommuDomainId ∧ dev.iommuDomainId < rknpuMaxIommuDomainNum
  attached : dev.attached ≠ none ∧ dev.attached = dev.iommuDomains dev.iommuDomainId.toNat
  num : dev.iommuDomainNum = dev.entries.card

/-- The table, its count, the current domain and the attached one are as before. -/
structure SameDomains (dev dev' : DomainDev) : Prop where
  table : dev'.iommuDomains = dev.iommuDomains
  current : dev'.iommuDomainId = dev.iommuDomainId
  num : dev'.iommuDomainNum = dev.iommuDomainNum
  attached : dev'.attached = dev.attached

/-- What a caller expects of a switch to `domainId`. -/
structure SwitchedWhole (dev : DomainDev) (domainId : ℤ) (r : ℤ × DomainDev) : Prop where
  consistent : Consistent r.2
  switched : r.1 = 0 → r.2.iommuDomainId = domainId
  undone : r.1 ≠ 0 → SameDomains dev r.2

/-- The calls of a switch that get as far as attaching the device to a domain that is new. -/
structure AttachesNew (dev : DomainDev) (o : DomainOutcome) (domainId : ℤ) : Prop where
  enabled : dev.iommuEn = true
  bus : dev.bus = true
  range : 0 ≤ domainId ∧ domainId < rknpuMaxIommuDomainNum
  other : domainId ≠ dev.iommuDomainId
  absent : dev.iommuDomains domainId.toNat = none
  allocated : o.allocOk = true

theorem SameDomains.refl (dev : DomainDev) : SameDomains dev dev := ⟨rfl, rfl, rfl, rfl⟩

theorem SameDomains.consistent {dev dev' : DomainDev} (h : SameDomains dev dev')
    (hdev : Consistent dev) : Consistent dev' := by
  obtain ⟨htable, hcurrent, hnum, hattached⟩ := h
  refine ⟨?_, ?_, ?_⟩
  · rw [hcurrent]
    exact hdev.index
  · rw [hattached, htable, hcurrent]
    exact hdev.attached
  · rw [hnum, hdev.num, DomainDev.entries, DomainDev.entries, htable]

theorem SwitchedWhole.failed {dev dev' : DomainDev} {id ret : ℤ} (hdev : Consistent dev)
    (hret : ret ≠ 0) (hsame : SameDomains dev dev') : SwitchedWhole dev id (ret, dev') :=
  ⟨hsame.consistent hdev, fun h => absurd h hret, fun _ => hsame⟩

theorem entries_insert {dev : DomainDev} (dev' : DomainDev) {i d : ℕ}
    (hi : i < rknpuMaxIommuDomainNum.toNat) (hnone : dev.iommuDomains i = none)
    (htable : dev'.iommuDomains = fun j => if j = i then some d else dev.iommuDomains j) :
    dev'.entries.card = dev.entries.card + 1 := by
  have hmem : i ∉ dev.entries := fun h => (Finset.mem_filter.mp h).2 hnone
  rw [← Finset.card_insert_of_notMem hmem]
  congr 1
  ext j
  simp only [DomainDev.entries, Finset.mem_filter, Finset.mem_insert, htable]
  by_cases hj : j = i
  · subst hj
    rw [if_pos rfl]
    exact ⟨fun _ => Or.inl rfl, fun _ => ⟨Finset.mem_range.mpr hi, Option.some_ne_none d⟩⟩
  · rw [if_neg hj]
    exact ⟨Or.inr, fun h => h.resolve_left hj⟩

/-! ## The two branches -/

theorem switchToKnown_whole {dev : DomainDev} {o : DomainOutcome} {id : ℤ} {dst : ℕ}
    (hdev : Consistent dev) (hre : o.reattachRet = 0)
    (hid : 0 ≤ id ∧ id < rknpuMaxIommuDomainNum)
    (hdst : dev.iommuDomains id.toNat = some dst) :
    SwitchedWhole dev id (switchToKnown dev o id dst) := by
  unfold switchToKnown
  by_cases hret : o.attachRet = 0
  · rw [if_neg (not_not.mpr hret)]
    refine ⟨⟨hid, ?_, hdev.num⟩, fun _ => rfl, fun h => absurd rfl h⟩
    exact ⟨Option.some_ne_none dst, hdst.symm⟩
  · rw [if_pos hret, if_neg (not_not.mpr hre)]
    exact SwitchedWhole.failed hdev hret ⟨rfl, rfl, rfl, rfl⟩

theorem switchToNew_whole {dev : DomainDev} {o : DomainOutcome} {id : ℤ} (hdev : Consistent dev)
    (hid : 0 ≤ id ∧ id < rknpuMaxIommuDomainNum) (hnone : dev.iommuDomains id.toNat = none)
    (hret : o.allocOk = true → o.attachRet = 0 ∨ o.left = dev.attached) :
    SwitchedWhole dev id (switchToNew dev o id) := by
  unfold switchToNew
  by_cases halloc : o.allocOk = false
  · rw [if_pos halloc]
    exact SwitchedWhole.failed hdev (by decide) (SameDomains.refl dev)
  rw [if_neg halloc]
  by_cases hattach : o.attachRet = 0
  · rw [if_neg (not_not.mpr hattach)]
    refine ⟨⟨hid, ⟨Option.some_ne_none _, ?_⟩, ?_⟩, fun _ => rfl, fun h => absurd rfl h⟩
    · exact (if_pos rfl).symm
    · have hlt : id.toNat < rknpuMaxIommuDomainNum.toNat :=
        (Int.toNat_lt_toNat (by decide)).mpr hid.2
      let table : ℕ → Option ℕ := fun j =>
        if j = id.toNat then some dev.numDomains else dev.iommuDomains j
      have hcard := entries_insert { dev with iommuDomains := table } hlt hnone rfl
      have hnum := hdev.num
      show dev.iommuDomainNum + 1 = _
      rw [hnum]
      exact_mod_cast hcard.symm
  · rw [if_pos hattach]
    have hleft := (hret ((Bool.not_eq_false _).mp halloc)).resolve_left hattach
    exact SwitchedWhole.failed hdev hattach ⟨rfl, rfl, rfl, hleft⟩

/-- A new domain that cannot be attached to: the core decides what the device is left with. -/
theorem AttachesNew.left {dev : DomainDev} {o : DomainOutcome} {id : ℤ}
    (hdev : Consistent dev) (h : AttachesNew dev o id) (hret : o.attachRet ≠ 0) :
    rknpuIommuSwitchDomain dev o id =
      (o.attachRet, { dev with attached := o.left, numDomains := dev.numDomains + 1 }) := by
  have hrange : ¬ (id < 0 ∨ rknpuMaxIommuDomainNum - 1 < id) := by
    have := h.range
    omega
  rw [rknpuIommuSwitchDomain, if_neg (by simp [h.enabled]), if_neg hrange,
    if_neg (by simp [h.bus]), if_neg h.other, if_neg (not_not.mpr hdev.attached.2), h.absent]
  show switchToNew dev o id = _
  rw [switchToNew, if_neg (by simp [h.allocated]), if_pos hret]

/-! ## The switch -/

theorem switch_whole {dev : DomainDev} {o : DomainOutcome} {id : ℤ} (hdev : Consistent dev)
    (hre : o.reattachRet = 0)
    (hnew : AttachesNew dev o id → o.attachRet = 0 ∨ o.left = dev.attached) :
    SwitchedWhole dev id (rknpuIommuSwitchDomain dev o id) := by
  unfold rknpuIommuSwitchDomain
  split_ifs with hen hid hbus hcur hsrc
  · exact SwitchedWhole.failed hdev (by decide) (SameDomains.refl dev)
  · exact SwitchedWhole.failed hdev (by decide) (SameDomains.refl dev)
  · exact SwitchedWhole.failed hdev (by decide) (SameDomains.refl dev)
  · exact ⟨hdev, fun _ => hcur.symm, fun h => absurd rfl h⟩
  · exact SwitchedWhole.failed hdev (by decide) (SameDomains.refl dev)
  · have hrange : 0 ≤ id ∧ id < rknpuMaxIommuDomainNum := by omega
    cases hdst : dev.iommuDomains id.toNat with
    | some dst => exact switchToKnown_whole hdev hre hrange hdst
    | none =>
      refine switchToNew_whole hdev hrange hdst fun halloc => hnew ?_
      exact ⟨(Bool.not_eq_false _).mp hen, (Bool.not_eq_false _).mp hbus, hrange, hcur, hdst,
        halloc⟩

/-- **The switch** from a table in which the device is attached to the current domain and the
entries are counted keeps both facts, makes the domain current that was asked for when it returns
0 and leaves everything as it was when it does not, exactly when it is not to a new domain that
has been allocated and cannot be attached to, with the device left without its old domain. -/
theorem switch_domain_iff {dev : DomainDev} {o : DomainOutcome} (hdev : Consistent dev)
    (hre : o.reattachRet = 0) (domainId : ℤ) :
    SwitchedWhole dev domainId (rknpuIommuSwitchDomain dev o domainId) ↔
      ¬ (AttachesNew dev o domainId ∧ o.attachRet ≠ 0 ∧ o.left ≠ dev.attached) := by
  constructor
  · rintro hwhole ⟨hnew, hret, hleft⟩
    rw [hnew.left hdev hret] at hwhole
    exact hleft (hwhole.undone hret).attached
  · intro hnot
    refine switch_whole hdev hre fun hnew => ?_
    by_contra hcon
    push Not at hcon
    exact hnot ⟨hnew, hcon⟩

/-- One domain, which is current. -/
def oneDomain : DomainDev where
  iommuEn := true
  bus := true
  iommuDomainId := 0
  iommuDomains := fun i => if i = 0 then some 0 else none
  iommuDomainNum := 1
  iommuDomainRefcount := 0
  attached := some 0
  numDomains := 1

theorem oneDomain_consistent : Consistent oneDomain :=
  ⟨by decide, by decide, by decide⟩

/-- A switch to a new domain, and back to the first one when the first cannot be attached to. -/
theorem switch_domain_iff_new :
    SwitchedWhole oneDomain 1 (rknpuIommuSwitchDomain oneDomain noFailure 1) ∧
      (rknpuIommuSwitchDomain oneDomain noFailure 1).2.iommuDomainNum = 2 :=
  ⟨(switch_domain_iff oneDomain_consistent rfl 1).mpr fun h => h.2.1 rfl, by decide⟩

/-- The new domain is there, but the device cannot be attached to it, and is left with none. -/
def attachFails : DomainOutcome := ⟨true, -19, 0, none, false⟩

theorem switch_domain_detaches : Consistent oneDomain ∧ attachFails.reattachRet = 0 ∧
    (rknpuIommuSwitchDomain oneDomain attachFails 1).1 = -19 ∧
    (rknpuIommuSwitchDomain oneDomain attachFails 1).2.attached = none ∧
    ¬ SwitchedWhole oneDomain 1 (rknpuIommuSwitchDomain oneDomain attachFails 1) := by
  refine ⟨oneDomain_consistent, rfl, by decide, by decide, fun h => ?_⟩
  have hsame := h.undone (by decide)
  exact absurd hsame.attached (by decide)

/-! ## After the failure -/

/-- The `iommu_domain` of the current entry of the table. -/
def DomainDev.current (dev : DomainDev) : Option ℕ := dev.iommuDomains dev.iommuDomainId.toNat

theorem switch_mismatch {dev : DomainDev} (h : dev.attached ≠ dev.current) (o : DomainOutcome)
    (id : ℤ) : (rknpuIommuSwitchDomain dev o id).2 = dev ∧
      (id ≠ dev.iommuDomainId → (rknpuIommuSwitchDomain dev o id).1 ≠ 0) := by
  have herror : -einval ≠ 0 ∧ -efault ≠ 0 := by decide
  have hsrc : dev.attached ≠ dev.iommuDomains dev.iommuDomainId.toNat := h
  unfold rknpuIommuSwitchDomain
  rw [if_pos hsrc]
  split_ifs with hen hid hbus hcur
  · exact ⟨rfl, fun _ => herror.1⟩
  · exact ⟨rfl, fun _ => herror.1⟩
  · exact ⟨rfl, fun _ => herror.2⟩
  · exact ⟨rfl, fun hne => absurd hcur hne⟩
  · exact ⟨rfl, fun _ => herror.1⟩

/-- While the device is attached elsewhere, no sequence of switches has any effect, and none
succeeds but to the domain that is said to be current. -/
theorem mismatch_stays {dev : DomainDev} (h : dev.attached ≠ dev.current)
    (calls : List (DomainOutcome × ℤ)) :
    calls.foldl (fun dev call => (rknpuIommuSwitchDomain dev call.1 call.2).2) dev = dev ∧
      ∀ o id, id ≠ dev.iommuDomainId → (rknpuIommuSwitchDomain dev o id).1 ≠ 0 := by
  refine ⟨?_, fun o id => (switch_mismatch h o id).2⟩
  induction calls with
  | nil => rfl
  | cons call calls ih =>
    rw [List.foldl_cons, (switch_mismatch h call.1 call.2).1]
    exact ih

/-- A new domain that cannot be attached to, and the device left without its old one: whatever
switches are tried after that, the device stays where it was left. -/
theorem left_stays {dev : DomainDev} {o : DomainOutcome} {id : ℤ} (hdev : Consistent dev)
    (h : AttachesNew dev o id) (hret : o.attachRet ≠ 0) (hleft : o.left ≠ dev.attached)
    (calls : List (DomainOutcome × ℤ)) :
    (calls.foldl (fun dev call => (rknpuIommuSwitchDomain dev call.1 call.2).2)
      (rknpuIommuSwitchDomain dev o id).2).attached = o.left := by
  have hmismatch : (rknpuIommuSwitchDomain dev o id).2.attached ≠
      (rknpuIommuSwitchDomain dev o id).2.current := by
    rw [h.left hdev hret]
    intro hcon
    exact hleft (hcon.trans hdev.attached.2.symm)
  rw [(mismatch_stays hmismatch calls).1, h.left hdev hret]

/-! ## Callers -/

/-- The domains as `rknpu_iommu_init_domain` leaves them, or two and more of them with the device
attached to the current one. Nobody has a reference. -/
def Unused (s : DomainState) : Prop :=
  initializedSystem.init s ∨ switchingSystem.init s ∧ Consistent s.dev

/-- The callers follow one of the two paths of `rknpu_iommu_domain_get_and_switch`, and the current
domain is one that can be asked for. -/
def Paths (s : DomainState) : Prop :=
  Shared s ∧ 0 ≤ s.dev.iommuDomainId ∧ s.dev.iommuDomainId < rknpuMaxIommuDomainNum ∨ FastPath s

/-- The IOMMU core has attached the device to `domain`, or to none. -/
def DomainState.reattach (s : DomainState) (domain : Option ℕ) : DomainState :=
  { s with dev := { s.dev with attached := domain } }

section
variable {s t : DomainState} {label : DomainLabel} {o : DomainOutcome} {d : ℕ} {id : ℤ}

theorem shared_of_switching (h : switchingSystem.init s) : Shared s := by
  obtain ⟨dev, threads⟩ := s
  obtain ⟨hnum, hcount, hthreads⟩ := h
  obtain rfl : threads = [] := hthreads
  refine ⟨hnum, hcount, fun id hid => ?_, fun id hid => ?_⟩
  · exact absurd hid (Multiset.notMem_zero _)
  · exact absurd hid (Multiset.notMem_zero _)

theorem Unused.paths (h : Unused s) : Paths s := by
  obtain hfirst | ⟨hseveral, hdev⟩ := h
  · exact Or.inr (SingleDomain.init hfirst).toFastPath
  · exact Or.inl ⟨shared_of_switching hseveral, hdev.index⟩

theorem Paths.reattach (hs : Paths s) (domain : Option ℕ) : Paths (s.reattach domain) := by
  obtain ⟨hshared, hindex⟩ | hfast := hs
  · exact Or.inl ⟨⟨hshared.several, hshared.count, hshared.same, hshared.slow⟩, hindex⟩
  · exact Or.inr ⟨hfast.num, hfast.current, hfast.fast⟩

theorem domainStep_exec (h : domainStep s (.exec d o) = some t) :
    ∃ op rest, nextBlock s.threads d = some (op, rest) ∧ t.dev = (domainExec s.dev o op).1 ∧
      t.threads = advance s.threads d (domainExec s.dev o op).2 rest := by
  simp only [domainStep] at h
  split at h
  · cases h
  · rename_i op rest hnext
    cases h
    exact ⟨op, rest, hnext, rfl, rfl⟩

theorem switch_index (dev : DomainDev) (o : DomainOutcome) (id : ℤ) :
    (rknpuIommuSwitchDomain dev o id).2.iommuDomainId = dev.iommuDomainId ∨
      0 ≤ id ∧ id < rknpuMaxIommuDomainNum ∧
        (rknpuIommuSwitchDomain dev o id).2.iommuDomainId = id := by
  unfold rknpuIommuSwitchDomain
  split_ifs with hen hid hbus hcur hsrc
  · exact Or.inl rfl
  · exact Or.inl rfl
  · exact Or.inl rfl
  · exact Or.inl rfl
  · exact Or.inl rfl
  · have hrange : 0 ≤ id ∧ id < rknpuMaxIommuDomainNum := by omega
    cases dev.iommuDomains id.toNat with
    | some dst =>
      simp only [switchToKnown]
      split_ifs
      · exact Or.inl rfl
      · exact Or.inl rfl
      · exact Or.inr ⟨hrange.1, hrange.2, rfl⟩
    | none =>
      simp only [switchToNew]
      split_ifs
      · exact Or.inl rfl
      · exact Or.inl rfl
      · exact Or.inr ⟨hrange.1, hrange.2, rfl⟩

theorem domainExec_index (dev : DomainDev) (o : DomainOutcome) (op : DomainOp) :
    (domainExec dev o op).1.iommuDomainId = dev.iommuDomainId ∨
      0 ≤ (domainExec dev o op).1.iommuDomainId ∧
        (domainExec dev o op).1.iommuDomainId < rknpuMaxIommuDomainNum := by
  cases op with
  | get id =>
    simp only [domainExec, rknpuIommuDomainGetAndSwitch]
    split_ifs
    · exact Or.inl rfl
    · exact Or.inl rfl
  | fastInc id | put id => exact Or.inl rfl
  | tryGet id =>
    have hindex : (rknpuIommuSwitchDomain dev o id).2.iommuDomainId = dev.iommuDomainId ∨
        0 ≤ (rknpuIommuSwitchDomain dev o id).2.iommuDomainId ∧
          (rknpuIommuSwitchDomain dev o id).2.iommuDomainId < rknpuMaxIommuDomainNum := by
      obtain hsame | ⟨hpos, hlt, heq⟩ := switch_index dev o id
      · exact Or.inl hsame
      · rw [heq]
        exact Or.inr ⟨hpos, hlt⟩
    simp only [domainExec, domainTryGet]
    split_ifs with hcur hzero hret htime
    · exact Or.inl rfl
    · exact hindex
    · exact hindex
    · exact Or.inl rfl
    · exact Or.inl rfl

theorem Paths.step (hs : Paths s) (h : domainStep s label = some t) : Paths t := by
  obtain ⟨hshared, hindex⟩ | hfast := hs
  · refine Or.inl ⟨(hshared.step h).1, ?_⟩
    cases label with
    | call id =>
      cases h
      exact hindex
    | exec d o =>
      obtain ⟨op, rest, -, ht, -⟩ := domainStep_exec h
      rw [ht]
      obtain hsame | hnew := domainExec_index s.dev o op
      · rw [hsame]
        exact hindex
      · exact hnew
  · exact Or.inr (hfast.step h).1

end

end RknpuDriver.Iommu
