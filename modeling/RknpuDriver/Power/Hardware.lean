import RknpuDriver.Power.Refcount
import Mathlib.Data.Fintype.Basic

/-! # What `rknpu_power_on` and `rknpu_power_off` acquire and release

The clocks, the runtime-PM usage counts of `genpd_dev_npu0..2` and that of the device itself,
beside the power reference count of `Power.Refcount`. A label gives what the kernel's functions
return inside `rknpu_power_on` and `rknpu_power_off`; what these return then goes to the blocks
of `rknpu_power_get` and `rknpu_power_put`. Threads call the functions at any time, also a put
that no get precedes.

`rknpu_power_get` does not take its unit of the count back when `rknpu_power_on` fails, and
`rknpu_power_on` does not release what it acquired before the failure. While nothing fails in
`rknpu_power_on`, each count is one exactly when the reference count is positive.
-/

namespace RknpuDriver.Power
open RknpuDriver.Lib
set_option autoImplicit false

/-- Which power domains `rknpu_probe` has attached. -/
structure PowerDomains where
  multipleDomains : Bool
  genpdDev : Fin 3 → Bool

/-- The enable count of the clocks and the runtime-PM usage counts. -/
structure PowerHw where
  clks : ℕ
  genpd : Fin 3 → ℕ
  dev : ℕ
  deriving DecidableEq

/-- What the calls inside `rknpu_power_on` and `rknpu_power_off` return: `clks` is
`clk_bulk_prepare_enable`, `poll` is `readx_poll_timeout`; neither returns a positive value. -/
structure PowerOutcome where
  clks : ℤ
  genpd : Fin 3 → ℤ
  dev : ℤ
  poll : ℤ
  clks_nonpos : clks ≤ 0
  poll_nonpos : poll ≤ 0

/-- The counts at one value, as far as the domains exist. -/
def PowerDomains.counts (cfg : PowerDomains) (n : ℕ) : PowerHw where
  clks := n
  genpd i := if cfg.multipleDomains && cfg.genpdDev i then n else 0
  dev := n

/-- `pm_runtime_resume_and_get` on the domains in turn; the value that made it stop, if any. A
failed resume keeps no usage count. -/
def resumeAndGet (cfg : PowerDomains) (o : PowerOutcome) :
    List (Fin 3) → PowerHw → PowerHw × Option ℤ
  | [], hw => (hw, none)
  | i :: is, hw =>
    if cfg.genpdDev i then
      if o.genpd i < 0 then (hw, some (o.genpd i))
      else resumeAndGet cfg o is
        { hw with genpd := Function.update hw.genpd i (hw.genpd i + 1) }
    else resumeAndGet cfg o is hw

/-- `pm_runtime_put_sync` on the domains in turn; a usage count does not go below zero. -/
def putSync (cfg : PowerDomains) : List (Fin 3) → PowerHw → PowerHw
  | [], hw => hw
  | i :: is, hw =>
    if cfg.genpdDev i then
      putSync cfg is { hw with genpd := Function.update hw.genpd i (hw.genpd i - 1) }
    else putSync cfg is hw

/-- The part of `rknpu_power_on` before `pm_runtime_get_sync(dev)`, with the clocks enabled. -/
def resumeDomains (cfg : PowerDomains) (o : PowerOutcome) (hw : PowerHw) : PowerHw × Option ℤ :=
  if cfg.multipleDomains then resumeAndGet cfg o [0, 1, 2] hw else (hw, none)

/-- `rknpu_power_on`: the counts after it and what it returns. `pm_runtime_get_sync` counts its
use also when it fails. -/
def rknpuPowerOn (cfg : PowerDomains) (o : PowerOutcome) (hw : PowerHw) : PowerHw × ℤ :=
  if o.clks ≠ 0 then (hw, o.clks)
  else
    match resumeDomains cfg o { hw with clks := hw.clks + 1 } with
    | (hw, some ret) => (hw, ret)
    | (hw, none) => ({ hw with dev := hw.dev + 1 }, o.dev)

/-- `rknpu_power_off`. -/
def rknpuPowerOff (cfg : PowerDomains) (o : PowerOutcome) (hw : PowerHw) : PowerHw × ℤ :=
  let hw := { hw with dev := hw.dev - 1 }
  if cfg.multipleDomains then
    if o.poll ≠ 0 then ({ hw with dev := hw.dev + 1 }, o.poll)
    else
      let hw := putSync cfg [2, 1, 0] hw
      ({ hw with clks := hw.clks - 1 }, 0)
  else ({ hw with clks := hw.clks - 1 }, 0)

/-- What a block calls, and what that returns: `ret` of the source, `0` when it calls neither. -/
def powerCall (cfg : PowerDomains) (dev : PowerDev) (hw : PowerHw) (o : PowerOutcome) :
    PowerOp → PowerHw × ℤ
  | .get => if dev.powerRefcount + 1 = 1 then rknpuPowerOn cfg o hw else (hw, 0)
  | .put | .offDelayWork =>
    if (atomicDecIfPositive dev.powerRefcount).2 = 0 then rknpuPowerOff cfg o hw else (hw, 0)
  | .putDelay | .putDelayLocked => (hw, 0)

/-! ## Runs -/

structure HwState where
  dev : PowerDev
  hw : PowerHw
  threads : List (List PowerOp)

/-- A thread calls a function, somebody writes `power_put_delay`, the work's timer expires, or
thread `tid` runs its next block. -/
inductive HwLabel where
  | get
  | put
  | putDelay
  | setDelay (ms : ℕ)
  | fire
  | exec (tid : ℕ) (o : PowerOutcome)

def HwState.call (s : HwState) (op : PowerOp) : HwState :=
  { s with threads := s.threads ++ [[op]] }

def hwStep (cfg : PowerDomains) (s : HwState) : HwLabel → Option HwState
  | .get => some (s.call .get)
  | .put => some (s.call .put)
  | .putDelay => some (s.call .putDelay)
  | .setDelay ms => some { s with dev := { s.dev with powerPutDelay := ms } }
  | .fire =>
    if s.dev.workPending then
      some ({ s with dev := { s.dev with workPending := false } }.call .offDelayWork)
    else none
  | .exec tid o =>
    match nextBlock s.threads tid with
    | none => none
    | some (op, rest) =>
      let (hw, ret) := powerCall cfg s.dev s.hw o op
      let (dev, ops) := powerExec s.dev ret op
      some ⟨dev, hw, advance s.threads tid ops rest⟩

theorem hwStep_exec {cfg : PowerDomains} {s t : HwState} {tid : ℕ} {o : PowerOutcome}
    (h : hwStep cfg s (.exec tid o) = some t) :
    ∃ op rest, nextBlock s.threads tid = some (op, rest) ∧
      t = ⟨(powerExec s.dev (powerCall cfg s.dev s.hw o op).2 op).1,
        (powerCall cfg s.dev s.hw o op).1,
        advance s.threads tid (powerExec s.dev (powerCall cfg s.dev s.hw o op).2 op).2 rest⟩ := by
  simp only [hwStep] at h
  cases hnext : nextBlock s.threads tid with
  | none =>
    rw [hnext] at h
    cases h
  | some next =>
    obtain ⟨op, rest⟩ := next
    rw [hnext] at h
    cases h
    exact ⟨op, rest, rfl, rfl⟩

/-- All histories of a device that `rknpu_probe` has left powered off. -/
def hwSystem (cfg : PowerDomains) : System HwState HwLabel where
  init s := ∃ delay, s = ⟨⟨0, delay, false, false, 0⟩, cfg.counts 0, []⟩
  step := hwStep cfg

/-- What the `rknpu_power_get` that a step finishes returns. -/
def powerGetReturns (cfg : PowerDomains) (s : HwState) : HwLabel → Option ℤ
  | .exec tid o =>
    match nextBlock s.threads tid with
    | some (.get, _) => some (powerCall cfg s.dev s.hw o .get).2
    | _ => none
  | _ => none

/-- A get that fails changes no count, and after a get that returns `0` the NPU is powered. -/
def Undone (cfg : PowerDomains) (s : HwState) (label : HwLabel) (t : HwState) : Prop :=
  ∀ ret, powerGetReturns cfg s label = some ret →
    (ret < 0 → t.dev.powerRefcount = s.dev.powerRefcount ∧ t.hw = s.hw) ∧
    (ret = 0 → t.hw = cfg.counts 1)

/-- Nothing fails in `rknpu_power_on`. -/
def PowerOutcome.PowersOn (cfg : PowerDomains) (o : PowerOutcome) : Prop :=
  o.clks = 0 ∧ (cfg.multipleDomains = true → ∀ i, cfg.genpdDev i = true → 0 ≤ o.genpd i) ∧
    0 ≤ o.dev

instance (cfg : PowerDomains) (o : PowerOutcome) : Decidable (o.PowersOn cfg) :=
  inferInstanceAs (Decidable (_ ∧ (_ → ∀ _, _ → _) ∧ _))

/-- When a step runs `rknpu_power_on`, nothing fails in it. -/
def GetSucceeds (cfg : PowerDomains) (s : HwState) : HwLabel → Prop
  | .exec tid o =>
    match nextBlock s.threads tid with
    | some (.get, _) => s.dev.powerRefcount = 0 → o.PowersOn cfg
    | _ => True
  | _ => True

instance (cfg : PowerDomains) (s : HwState) (label : HwLabel) :
    Decidable (GetSucceeds cfg s label) := by
  unfold GetSucceeds
  split
  · split <;> infer_instance
  · infer_instance

/-! ## One call -/

section
variable {cfg : PowerDomains} {o : PowerOutcome} {hw : PowerHw} {is : List (Fin 3)}

theorem resumeAndGet_none (h : (resumeAndGet cfg o is hw).2 = none) :
    (resumeAndGet cfg o is hw).1 =
        { hw with genpd := fun i => hw.genpd i + if cfg.genpdDev i then is.count i else 0 } ∧
      ∀ i ∈ is, cfg.genpdDev i = true → 0 ≤ o.genpd i := by
  induction is generalizing hw with
  | nil => simp [resumeAndGet]
  | cons j is ih =>
    unfold resumeAndGet at h ⊢
    by_cases hdev : cfg.genpdDev j = true
    · rw [if_pos hdev] at h ⊢
      by_cases hneg : o.genpd j < 0
      · rw [if_pos hneg] at h
        cases h
      · rw [if_neg hneg] at h ⊢
        obtain ⟨heq, hall⟩ := ih h
        refine ⟨?_, ?_⟩
        · rw [heq, PowerHw.mk.injEq]
          refine ⟨rfl, funext fun i => ?_, rfl⟩
          obtain rfl | hne := eq_or_ne i j
          · simp only [Function.update_self, hdev, if_true, List.count_cons_self]
            omega
          · simp [hne, hne.symm]
        · intro i hi hdev'
          obtain rfl | hi := List.mem_cons.mp hi
          · omega
          · exact hall i hi hdev'
    · rw [if_neg hdev] at h ⊢
      obtain ⟨heq, hall⟩ := ih h
      refine ⟨?_, ?_⟩
      · rw [heq, PowerHw.mk.injEq]
        refine ⟨rfl, funext fun i => ?_, rfl⟩
        obtain rfl | hne := eq_or_ne i j
        · simp [hdev]
        · simp [hne.symm]
      · intro i hi hdev'
        obtain rfl | hi := List.mem_cons.mp hi
        · exact absurd hdev' hdev
        · exact hall i hi hdev'

theorem resumeAndGet_some {ret : ℤ} (h : (resumeAndGet cfg o is hw).2 = some ret) :
    ∃ i ∈ is, cfg.genpdDev i = true ∧ o.genpd i < 0 ∧ ret = o.genpd i := by
  induction is generalizing hw with
  | nil => cases h
  | cons j is ih =>
    unfold resumeAndGet at h
    split_ifs at h with hdev hneg
    · exact ⟨j, List.mem_cons_self, hdev, hneg, (Option.some.inj h).symm⟩
    · obtain ⟨i, hi, hrest⟩ := ih h
      exact ⟨i, List.mem_cons_of_mem _ hi, hrest⟩
    · obtain ⟨i, hi, hrest⟩ := ih h
      exact ⟨i, List.mem_cons_of_mem _ hi, hrest⟩

theorem putSync_eq : putSync cfg is hw =
    { hw with genpd := fun i => hw.genpd i - if cfg.genpdDev i then is.count i else 0 } := by
  induction is generalizing hw with
  | nil => simp [putSync]
  | cons j is ih =>
    unfold putSync
    by_cases hdev : cfg.genpdDev j = true
    · rw [if_pos hdev, ih, PowerHw.mk.injEq]
      refine ⟨rfl, funext fun i => ?_, rfl⟩
      obtain rfl | hne := eq_or_ne i j
      · simp only [Function.update_self, hdev, if_true, List.count_cons_self]
        omega
      · simp [hne, hne.symm]
    · rw [if_neg hdev, ih, PowerHw.mk.injEq]
      refine ⟨rfl, funext fun i => ?_, rfl⟩
      obtain rfl | hne := eq_or_ne i j
      · simp [hdev]
      · simp [hne.symm]

theorem count_domains (i : Fin 3) : [0, 1, 2].count i = 1 := by
  revert i
  decide

theorem count_domains_off (i : Fin 3) : [2, 1, 0].count i = 1 := by
  revert i
  decide

/-- Every domain that exists resumes. -/
def PowerOutcome.Resumes (cfg : PowerDomains) (o : PowerOutcome) : Prop :=
  cfg.multipleDomains = true → ∀ i, cfg.genpdDev i = true → 0 ≤ o.genpd i

theorem resumeDomains_cases (cfg : PowerDomains) (o : PowerOutcome) :
    (o.Resumes cfg ∧
      resumeDomains cfg o { cfg.counts 0 with clks := 1 } =
        ({ cfg.counts 1 with dev := 0 }, none)) ∨
    ¬ o.Resumes cfg ∧
      ∃ ret, (resumeDomains cfg o { cfg.counts 0 with clks := 1 }).2 = some ret ∧ ret < 0 := by
  by_cases hmulti : cfg.multipleDomains = true
  · simp only [resumeDomains, hmulti, if_true, PowerOutcome.Resumes, true_implies]
    cases hres : (resumeAndGet cfg o [0, 1, 2] { cfg.counts 0 with clks := 1 }).2 with
    | none =>
      obtain ⟨heq, hall⟩ := resumeAndGet_none hres
      refine Or.inl ⟨fun i => hall i (by revert i; decide), Prod.ext ?_ hres⟩
      rw [heq, PowerHw.mk.injEq]
      refine ⟨rfl, funext fun i => ?_, rfl⟩
      simp [PowerDomains.counts, hmulti, count_domains]
    | some ret =>
      obtain ⟨i, -, hdev, hneg, rfl⟩ := resumeAndGet_some hres
      refine Or.inr ⟨fun hall => ?_, _, rfl, hneg⟩
      have hpos := hall i hdev
      omega
  · refine Or.inl ⟨fun h => absurd h hmulti, ?_⟩
    simp [resumeDomains, PowerDomains.counts, hmulti]

theorem rknpuPowerOn_cases (cfg : PowerDomains) (o : PowerOutcome) :
    (o.PowersOn cfg ∧ rknpuPowerOn cfg o (cfg.counts 0) = (cfg.counts 1, o.dev)) ∨
      ¬ o.PowersOn cfg ∧ (rknpuPowerOn cfg o (cfg.counts 0)).2 < 0 := by
  unfold rknpuPowerOn
  by_cases hclks : o.clks = 0
  · rw [if_neg (not_not_intro hclks)]
    obtain ⟨hall, hres⟩ | ⟨hnot, ret, hres, hneg⟩ := resumeDomains_cases cfg o
    · have heq : resumeDomains cfg o { cfg.counts 0 with clks := (cfg.counts 0).clks + 1 } =
          ({ cfg.counts 1 with dev := 0 }, none) := hres
      rw [heq]
      by_cases hdev : 0 ≤ o.dev
      · exact Or.inl ⟨⟨hclks, hall, hdev⟩, rfl⟩
      · refine Or.inr ⟨fun h => hdev h.2.2, ?_⟩
        show o.dev < 0
        omega
    · refine Or.inr ⟨fun h => hnot h.2.1, ?_⟩
      have heq : resumeDomains cfg o { cfg.counts 0 with clks := (cfg.counts 0).clks + 1 } =
          ((resumeDomains cfg o { cfg.counts 0 with clks := 1 }).1, some ret) := Prod.ext rfl hres
      rw [heq]
      exact hneg
  · rw [if_pos hclks]
    have hle := o.clks_nonpos
    refine Or.inr ⟨fun h => hclks h.1, ?_⟩
    show o.clks < 0
    omega

theorem rknpuPowerOff_cases (cfg : PowerDomains) (o : PowerOutcome) :
    rknpuPowerOff cfg o (cfg.counts 1) = (cfg.counts 0, 0) ∨
      ∃ ret, ret ≠ 0 ∧ rknpuPowerOff cfg o (cfg.counts 1) = (cfg.counts 1, ret) := by
  unfold rknpuPowerOff
  by_cases hmulti : cfg.multipleDomains = true
  · by_cases hpoll : o.poll = 0
    · refine Or.inl ?_
      simp only [hmulti, if_true, hpoll, ne_eq, not_true, if_false, putSync_eq]
      refine Prod.ext ?_ rfl
      rw [PowerHw.mk.injEq]
      refine ⟨rfl, funext fun i => ?_, rfl⟩
      simp only [PowerDomains.counts, hmulti, Bool.true_and, count_domains_off]
      split_ifs <;> rfl
    · refine Or.inr ⟨o.poll, hpoll, ?_⟩
      simp [hmulti, hpoll, PowerDomains.counts]
  · refine Or.inl ?_
    simp [hmulti, PowerDomains.counts]

end

/-! ## The counts -/

/-- Each count is one while the reference count is positive, and zero otherwise. -/
structure Balanced (cfg : PowerDomains) (dev : PowerDev) (hw : PowerHw) : Prop where
  nonneg : 0 ≤ dev.powerRefcount
  counts : hw = cfg.counts (if 0 < dev.powerRefcount then 1 else 0)

section
variable {cfg : PowerDomains} {dev : PowerDev} {hw : PowerHw} {op : PowerOp} {o : PowerOutcome}

theorem releaseLast_zero (ret : ℤ) (h : dev.powerRefcount = 0) :
    releaseLast dev ret = (dev, []) := by
  simp [releaseLast, atomicDecIfPositive, h]
  rw [← h]

theorem Balanced.of_pos (heq : hw = cfg.counts 1) (hpos : 0 < dev.powerRefcount) :
    Balanced cfg dev hw :=
  ⟨by omega, by rw [if_pos hpos, heq]⟩

theorem Balanced.of_zero (heq : hw = cfg.counts 0) (hzero : dev.powerRefcount = 0) :
    Balanced cfg dev hw :=
  ⟨by omega, by rw [if_neg (by omega), heq]⟩

theorem Balanced.hw_eq_one (hb : Balanced cfg dev hw) (hpos : 0 < dev.powerRefcount) :
    hw = cfg.counts 1 := by
  rw [hb.counts, if_pos hpos]

theorem Balanced.hw_eq_zero (hb : Balanced cfg dev hw) (hzero : dev.powerRefcount = 0) :
    hw = cfg.counts 0 := by
  rw [hb.counts, if_neg (by omega)]

theorem balanced_get (hb : Balanced cfg dev hw)
    (hok : dev.powerRefcount = 0 → o.PowersOn cfg) :
    Balanced cfg (rknpuPowerGet dev (powerCall cfg dev hw o .get).2)
        (powerCall cfg dev hw o .get).1 ∧
      (powerCall cfg dev hw o .get).1 = cfg.counts 1 := by
  have hpos := hb.nonneg
  have hone : (powerCall cfg dev hw o .get).1 = cfg.counts 1 := by
    by_cases hzero : dev.powerRefcount = 0
    · obtain ⟨-, hon⟩ | ⟨hnot, -⟩ := rknpuPowerOn_cases cfg o
      · simp only [powerCall]
        rw [if_pos (by omega), hb.hw_eq_zero hzero, hon]
      · exact absurd (hok hzero) hnot
    · simp only [powerCall]
      rw [if_neg (by omega)]
      exact hb.hw_eq_one (by omega)
  refine ⟨Balanced.of_pos hone ?_, hone⟩
  rw [rknpuPowerGet_powerRefcount]
  omega

theorem powerCall_get_neg (hb : Balanced cfg dev hw) :
    (powerCall cfg dev hw o .get).2 < 0 ↔ ¬ (dev.powerRefcount = 0 → o.PowersOn cfg) := by
  simp only [powerCall]
  by_cases hzero : dev.powerRefcount = 0
  · rw [if_pos (by omega), hb.hw_eq_zero hzero]
    obtain ⟨hon, heq⟩ | ⟨hnot, hneg⟩ := rknpuPowerOn_cases cfg o
    · rw [heq]
      refine iff_of_false ?_ (not_not_intro fun _ => hon)
      have hdev := hon.2.2
      show ¬ o.dev < 0
      omega
    · exact iff_of_true hneg fun h => hnot (h hzero)
  · rw [if_neg (by omega)]
    exact iff_of_false (by simp) (not_not_intro fun h => absurd h hzero)

theorem balanced_release (hb : Balanced cfg dev hw) :
    Balanced cfg (releaseLast dev (powerCall cfg dev hw o .put).2).1
      (powerCall cfg dev hw o .put).1 := by
  have hpos := hb.nonneg
  simp only [powerCall]
  by_cases h1 : dev.powerRefcount = 1
  · have hw1 := hb.hw_eq_one (by omega)
    rw [if_pos (atomicDecIfPositive_eq_zero.mpr h1), hw1]
    obtain heq | ⟨ret, hret, heq⟩ := rknpuPowerOff_cases cfg o
    · rw [heq]
      apply Balanced.of_zero rfl
      simp [releaseLast, atomicDecIfPositive, h1]
    · rw [heq]
      apply Balanced.of_pos rfl
      simp [releaseLast, atomicDecIfPositive, h1, hret]
  · rw [if_neg (fun h => h1 (atomicDecIfPositive_eq_zero.mp h))]
    by_cases hzero : dev.powerRefcount = 0
    · rw [releaseLast_zero _ hzero]
      exact hb
    · have hcount : 0 < dev.powerRefcount := by omega
      obtain ⟨hlt, heq⟩ | ⟨heq, -⟩ | ⟨heq, -⟩ := releaseLast_cases hcount 0
      · rw [heq]
        apply Balanced.of_pos (hb.hw_eq_one (by omega))
        show 0 < dev.powerRefcount - 1
        omega
      · exact absurd heq h1
      · exact absurd heq h1

theorem balanced_putDelayLocked (hb : Balanced cfg dev hw) :
    Balanced cfg (rknpuPowerPutDelayLocked dev) hw := by
  have hpos := hb.nonneg
  unfold rknpuPowerPutDelayLocked
  split_ifs with h1
  · exact ⟨hpos, hb.counts⟩
  · by_cases hzero : dev.powerRefcount = 0
    · apply Balanced.of_zero (hb.hw_eq_zero hzero)
      simp [atomicDecIfPositive, hzero]
    · rw [atomicDecIfPositive_pos (by omega)]
      apply Balanced.of_pos (hb.hw_eq_one (by omega))
      show 0 < dev.powerRefcount - 1
      omega

/-- **One block**: the counts follow the reference count as long as nothing fails in
`rknpu_power_on`. -/
theorem Balanced.exec (hb : Balanced cfg dev hw)
    (hok : op = .get → dev.powerRefcount = 0 → o.PowersOn cfg) :
    Balanced cfg (powerExec dev (powerCall cfg dev hw o op).2 op).1
      (powerCall cfg dev hw o op).1 := by
  cases op with
  | get => exact (balanced_get hb (hok rfl)).1
  | put | offDelayWork => exact balanced_release hb
  | putDelay => exact hb
  | putDelayLocked => exact balanced_putDelayLocked hb

end

section
variable {cfg : PowerDomains} {s t : HwState} {label : HwLabel}

theorem balanced_step (hb : Balanced cfg s.dev s.hw) (hok : GetSucceeds cfg s label)
    (h : hwStep cfg s label = some t) : Balanced cfg t.dev t.hw := by
  cases label with
  | get | put | putDelay =>
    cases h
    exact hb
  | setDelay ms =>
    cases h
    exact ⟨hb.nonneg, hb.counts⟩
  | fire =>
    simp only [hwStep] at h
    split_ifs at h
    cases h
    exact ⟨hb.nonneg, hb.counts⟩
  | exec tid o =>
    obtain ⟨op, rest, hnext, rfl⟩ := hwStep_exec h
    refine hb.exec fun hop hzero => ?_
    subst hop
    simp only [GetSucceeds, hnext] at hok
    exact hok hzero

/-- A step from balanced counts undoes what fails exactly when nothing fails in
`rknpu_power_on`. -/
theorem undone_iff (hb : Balanced cfg s.dev s.hw) (h : hwStep cfg s label = some t) :
    Undone cfg s label t ↔ GetSucceeds cfg s label := by
  have htrivial : powerGetReturns cfg s label = none → Undone cfg s label t := by
    intro hnone ret hret
    rw [hnone] at hret
    cases hret
  cases label with
  | get | put | putDelay | setDelay | fire => exact iff_of_true (htrivial rfl) trivial
  | exec tid o =>
    obtain ⟨op, rest, hnext, rfl⟩ := hwStep_exec h
    cases op with
    | put | putDelay | putDelayLocked | offDelayWork =>
      refine iff_of_true (htrivial ?_) ?_
      · simp [powerGetReturns, hnext]
      · simp [GetSucceeds, hnext]
    | get =>
      simp only [Undone, powerGetReturns, GetSucceeds, hnext, Option.some.injEq, forall_eq']
      by_cases hok : s.dev.powerRefcount = 0 → o.PowersOn cfg
      · refine iff_of_true ⟨fun hneg => ?_, fun _ => (balanced_get hb hok).2⟩ hok
        exact absurd hok ((powerCall_get_neg hb).mp hneg)
      · refine iff_of_false (fun ⟨hundone, _⟩ => ?_) hok
        have hcount := (hundone ((powerCall_get_neg hb).mpr hok)).1
        have hinc := rknpuPowerGet_powerRefcount s.dev (powerCall cfg s.dev s.hw o .get).2
        simp only [powerExec] at hcount
        omega

end

/-- **The counts on every run in which nothing fails in `rknpu_power_on`**: each is one while the
reference count is positive, and zero otherwise. A get that fails in one of their states is not
undone. -/
theorem power_up_undone {cfg : PowerDomains} {s : HwState}
    (hs : ((hwSystem cfg).guarded (GetSucceeds cfg)).Reachable s) :
    Balanced cfg s.dev s.hw ∧
      ∀ label t, (hwSystem cfg).step s label = some t →
        (Undone cfg s label t ↔ GetSucceeds cfg s label) := by
  have hb : Balanced cfg s.dev s.hw := by
    refine hs.invariant (fun s => Balanced cfg s.dev s.hw) ?_ ?_
    · rintro s ⟨delay, rfl⟩
      exact Balanced.of_zero rfl rfl
    · intro s label t hb h
      obtain ⟨hok, hstep⟩ := System.guarded_step.mp h
      exact balanced_step hb hok hstep
  exact ⟨hb, fun label t h => undone_iff hb h⟩

/-- The domains of a device with three cores. -/
def threeDomains : PowerDomains := ⟨true, fun _ => true⟩

/-- Everything succeeds. -/
def allResume : PowerOutcome := ⟨0, fun _ => 0, 0, 0, by decide, by decide⟩

/-- A get, a put whose `rknpu_power_off` times out, the put again, and a second get. -/
theorem power_up_undone_poll : ∃ s,
    ((hwSystem threeDomains).guarded (GetSucceeds threeDomains)).Reachable s ∧
      s.dev.powerRefcount = 1 ∧ Balanced threeDomains s.dev s.hw := by
  obtain ⟨s, hs, h⟩ := System.Reachable.of_run_any
    (S := (hwSystem threeDomains).guarded (GetSucceeds threeDomains))
    (p := fun s => decide (s.dev.powerRefcount = 1))
    (l := [.get, .exec 0 allResume, .put,
      .exec 1 ⟨0, fun _ => 0, 0, -etimedout, by decide, by decide⟩, .exec 1 allResume,
      .exec 1 allResume, .get, .exec 2 allResume]) ⟨0, rfl⟩ (by decide +kernel)
  exact ⟨s, hs, of_decide_eq_true h, (power_up_undone hs).1⟩

/-- The domain of the second core does not resume. -/
def secondFails : PowerOutcome :=
  ⟨0, fun i => if i = 1 then -etimedout else 0, 0, 0, by decide, by decide⟩

/-- A get whose second domain fails keeps its unit of the count, the clocks and the first domain;
the next get returns `0` with two of the three domains and the device off. -/
theorem power_up_kept : ∃ s t u, (hwSystem threeDomains).Reachable s ∧
    (hwSystem threeDomains).step s (.exec 0 secondFails) = some t ∧
    powerGetReturns threeDomains s (.exec 0 secondFails) = some (-etimedout) ∧
    ¬ Undone threeDomains s (.exec 0 secondFails) t ∧
    (hwSystem threeDomains).run t [.get, .exec 1 allResume] = some u ∧
    powerGetReturns threeDomains (t.call .get) (.exec 1 allResume) = some 0 ∧
    u.hw.genpd 1 = 0 ∧ u.hw.dev = 0 := by
  refine ⟨_, _, _, ⟨_, [.get], ⟨0, rfl⟩, rfl⟩, rfl, rfl, fun h => ?_, rfl, rfl, rfl, rfl⟩
  have hcount := ((h _ rfl).1 (by decide)).1
  revert hcount
  decide

end RknpuDriver.Power
