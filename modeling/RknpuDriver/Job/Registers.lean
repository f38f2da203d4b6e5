import RknpuDriver.Job.CommitPc
import RknpuDriver.Job.Runs
import Mathlib.Logic.Function.Basic

/-! # The registers of a core while the amounts are cleared

`rknpu_job_subcore_commit` writes the registers of a batch one after another; only the writes of
`PC_DATA_ADDR` are made under `irq_lock`, and these only where `pc_dma_ctrl` is set.
`rknpu_clear_rw_amount` can run at any time. Where `pc_dma_ctrl` is set it takes `irq_lock`, puts
core `0` into slave mode for the time that it clears the amounts, and writes `PC_DATA_ADDR` back.

A step is one access to a register. `programmed` are the registers that the commits alone would
leave. A clear that waits for its lock does nothing, so the state has the one that has it.

* `Tracked`: the registers are the programmed ones but for `PC_DATA_ADDR` in slave mode.
* `start_registers_iff`: when a core starts it has the registers of its batch exactly when no clear
  holds core `0` in slave mode.
* `start_in_slave_mode`: the write that starts a core does not take the lock, so a clear can.
-/

namespace RknpuDriver.Job
set_option autoImplicit false
open RknpuDriver.Lib

/-! ## Data -/

/-- `struct rknpu_amount_data`, as far as a clear reads it. -/
structure RknpuAmountData where
  offsetClrAll : Offset
  deriving DecidableEq, Repr

def rknpuOldTopAmount : RknpuAmountData := ⟨0x8010⟩
def rknpuTopAmount : RknpuAmountData := ⟨0x2210⟩
def rknpuCoreAmount : RknpuAmountData := ⟨0x2410⟩

structure AmountConfig extends PcConfig where
  pcDmaCtrl : Bool
  amountTop : Option RknpuAmountData
  amountCore : Option RknpuAmountData
  deriving DecidableEq, Repr

def rk356xAmountConfig : AmountConfig := ⟨rk356xPcConfig, false, some rknpuOldTopAmount, none⟩
def rk3588AmountConfig : AmountConfig := ⟨rk3588PcConfig, false, none, none⟩
def rk3583AmountConfig : AmountConfig := ⟨rk3583PcConfig, false, none, none⟩
def rv1106AmountConfig : AmountConfig := ⟨rv1106PcConfig, false, some rknpuOldTopAmount, none⟩
def rk3562AmountConfig : AmountConfig := ⟨rk3562PcConfig, true, some rknpuOldTopAmount, none⟩
def rk3576AmountConfig : AmountConfig :=
  ⟨rk3576PcConfig, true, some rknpuTopAmount, some rknpuCoreAmount⟩
def rv1126bAmountConfig : AmountConfig := ⟨rv1126bPcConfig, true, some rknpuTopAmount, none⟩

def amountConfigs : List AmountConfig :=
  [rk356xAmountConfig, rk3588AmountConfig, rk3583AmountConfig, rv1106AmountConfig,
    rk3562AmountConfig, rk3576AmountConfig, rv1126bAmountConfig]

/-- A batch that is committed; `ready` tells whether the function finds its core and the tasks. -/
structure Batch where
  taskBase : ℤ → RknpuTask
  taskBaseAddr : UInt64
  job : RknpuJob
  ready : Bool

abbrev Write := Offset × UInt32

/-- What `rknpu_job_subcore_commit` writes, in order: slave mode first. -/
def commitWrites (cfg : AmountConfig) (c : ℕ) (b : Batch) : List Write :=
  (rknpuOffsetPcDataAddr, 0x1) ::
    if b.job.args.flags &&& rknpuJobPc ≠ 0 ∧ b.ready = true then
      pcWrites cfg.toPcConfig b.taskBase b.taskBaseAddr b.job c
    else []

def clearAmount : Option RknpuAmountData → List Write
  | some amount => [(amount.offsetClrAll, 0x80000101), (amount.offsetClrAll, 0x00000101)]
  | none => []

def clearAmounts (cfg : AmountConfig) : List Write :=
  clearAmount cfg.amountTop ++ clearAmount cfg.amountCore

/-- What `rknpu_clear_rw_amount` writes to core `0` under its lock, when it has read `pcDataAddr`
from `PC_DATA_ADDR`. -/
def clearWrites (cfg : AmountConfig) (pcDataAddr : UInt32) : List Write :=
  if cfg.amountTop = none then []
  else if cfg.pcDmaCtrl then
    (rknpuOffsetPcDataAddr, 0x1) :: (clearAmounts cfg ++ [(rknpuOffsetPcDataAddr, pcDataAddr)])
  else clearAmounts cfg

/-! ## Runs -/

/-- `writing c` is what the commit on core `c` has still to write, `clearing` the same of the clear
that has its lock. -/
structure RegState where
  regs : ℕ → Offset → UInt32
  programmed : ℕ → Offset → UInt32
  batch : ℕ → Option Batch
  writing : ℕ → List Write
  clearing : List Write

/-- A commit begins, the commit on a core makes its next write, a clear takes its lock or makes its
next write, or the interrupt handler of a core writes `RKNPU_INT_CLEAR`. -/
inductive RegLabel where
  | commit (c : ℕ) (b : Batch)
  | write (c : ℕ)
  | clear
  | clearWrite
  | intClear (c : ℕ)

def rknpuIntClear : UInt32 := 0x1ffff

def regWrite (regs : ℕ → Offset → UInt32) (c : ℕ) (w : Write) : ℕ → Offset → UInt32 :=
  Function.update regs c (Function.update (regs c) w.1 w.2)

/-- A core has one commit at a time. -/
def regStep (cfg : AmountConfig) (s : RegState) : RegLabel → Option RegState
  | .commit c b =>
    if s.writing c = [] then
      some { s with
        batch := Function.update s.batch c (some b)
        writing := Function.update s.writing c (commitWrites cfg c b) }
    else none
  | .write c =>
    match s.writing c with
    | [] => none
    | w :: rest =>
      if cfg.pcDmaCtrl = true ∧ w.1 = rknpuOffsetPcDataAddr ∧ s.clearing ≠ [] then none
      else some { s with
        regs := regWrite s.regs c w
        programmed := regWrite s.programmed c w
        writing := Function.update s.writing c rest }
  | .clear =>
    if s.clearing = [] then
      some { s with clearing := clearWrites cfg (s.regs 0 rknpuOffsetPcDataAddr) }
    else none
  | .clearWrite =>
    match s.clearing with
    | [] => none
    | w :: rest => some { s with regs := regWrite s.regs 0 w, clearing := rest }
  | .intClear c => some { s with regs := regWrite s.regs c (rknpuOffsetIntClear, rknpuIntClear) }

/-- All histories from any contents of the registers. -/
def regSystem (cfg : AmountConfig) : System RegState RegLabel where
  init s := ∃ regs, s = ⟨regs, regs, fun _ => none, fun _ => [], []⟩
  step := regStep cfg

/-- A clear has put core `0` into slave mode and has not written `PC_DATA_ADDR` back. -/
def slaveMode (cfg : AmountConfig) (s : RegState) : Bool :=
  cfg.pcDmaCtrl && 0 < s.clearing.length && s.clearing.length < (clearWrites cfg 0).length

/-- The registers that a core reads when it starts a batch, with what they are for. -/
def batchRegisters (cfg : AmountConfig) (c : ℕ) (b : Batch) : List Write :=
  (pcWrites cfg.toPcConfig b.taskBase b.taskBaseAddr b.job c).filter fun w =>
    w.1 ≠ rknpuOffsetPcOpEn && w.1 ≠ rknpuOffsetIntClear

/-- `first_task->regcmd_addr`. -/
def Batch.regcmdAddr (cfg : AmountConfig) (c : ℕ) (b : Batch) : UInt32 :=
  let window := commitWindow cfg.toConfig b.job c (b.job.submitCount c)
  (b.taskBase window.taskStart).regcmdAddr.toUInt32

/-! ## The invariant -/

/-- The registers that a commit programs and that stay as they are until the next one. -/
def programOffsets : List Offset :=
  [0x1004, 0x3004, rknpuOffsetPcDataAddr, rknpuOffsetPcDataAmount, rknpuOffsetIntMask,
    rknpuOffsetPcTaskControl, rknpuOffsetPcDmaBaseAddr]

/-- What a clear has still to write, when `PC_DATA_ADDR` of core `0` is programmed to `v`. -/
def Clears (cfg : AmountConfig) (v : UInt32) (clearing : List Write) : Prop :=
  clearing = [] ∨
  (cfg.pcDmaCtrl = false ∧ ∀ w ∈ clearing, w ∈ clearAmounts cfg) ∨
  cfg.pcDmaCtrl = true ∧ cfg.amountTop ≠ none ∧ (clearing = clearWrites cfg v ∨
    ∃ mid, (∀ w ∈ mid, w ∈ clearAmounts cfg) ∧ mid.length ≤ (clearAmounts cfg).length ∧
      clearing = mid ++ [(rknpuOffsetPcDataAddr, v)])

/-- The registers after some writes. -/
def written (base : Offset → UInt32) (ws : List Write) : Offset → UInt32 :=
  ws.foldl (fun regs w => Function.update regs w.1 w.2) base

structure Tracked (cfg : AmountConfig) (s : RegState) : Prop where
  same : ∀ c, ∀ off ∈ programOffsets,
    ¬ (cfg.pcDmaCtrl = true ∧ c = 0 ∧ off = rknpuOffsetPcDataAddr) →
      s.regs c off = s.programmed c off
  dataAddr : cfg.pcDmaCtrl = true → s.regs 0 rknpuOffsetPcDataAddr =
    if slaveMode cfg s then 1 else s.programmed 0 rknpuOffsetPcDataAddr
  clears : Clears cfg (s.programmed 0 rknpuOffsetPcDataAddr) s.clearing
  commits : ∀ c, s.writing c ≠ [] → ∃ b done base, s.batch c = some b ∧
    commitWrites cfg c b = done ++ s.writing c ∧ s.programmed c = written base done

/-- A clear writes no register that a commit programs but `PC_DATA_ADDR`. -/
theorem amounts_apart {cfg : AmountConfig} (hcfg : cfg ∈ amountConfigs) :
    ∀ w ∈ clearAmounts cfg, w.1 ∉ programOffsets := by
  have hall : ∀ cfg ∈ amountConfigs, ∀ w ∈ clearAmounts cfg, w.1 ∉ programOffsets := by decide
  exact hall cfg hcfg

section
variable {cfg : AmountConfig} {s t : RegState} {regs : ℕ → Offset → UInt32} {c d : ℕ} {w : Write}
  {off : Offset}

theorem regWrite_same (regs : ℕ → Offset → UInt32) (c : ℕ) (w : Write) :
    regWrite regs c w c w.1 = w.2 := by
  unfold regWrite
  rw [Function.update_self, Function.update_self]

theorem regWrite_other (h : ¬ (d = c ∧ off = w.1)) : regWrite regs c w d off = regs d off := by
  unfold regWrite
  obtain rfl | hne := eq_or_ne d c
  · rw [Function.update_self, Function.update_of_ne fun hoff => h ⟨rfl, hoff⟩]
  · rw [Function.update_of_ne hne]

theorem regWrite_core (regs : ℕ → Offset → UInt32) (c : ℕ) (w : Write) :
    regWrite regs c w c = Function.update (regs c) w.1 w.2 := Function.update_self ..

theorem length_clearWrites (v : UInt32) (htop : cfg.amountTop ≠ none)
    (hdma : cfg.pcDmaCtrl = true) :
    (clearWrites cfg v).length = (clearAmounts cfg).length + 2 := by
  unfold clearWrites
  rw [if_neg htop, if_pos hdma, List.length_cons, List.length_append, List.length_singleton]

theorem slaveMode_nil (h : s.clearing = []) : slaveMode cfg s = false := by
  unfold slaveMode
  rw [h]
  simp

theorem slaveMode_full {v : UInt32} (htop : cfg.amountTop ≠ none) (hdma : cfg.pcDmaCtrl = true)
    (h : s.clearing = clearWrites cfg v) : slaveMode cfg s = false := by
  unfold slaveMode
  rw [h, length_clearWrites v htop hdma, length_clearWrites 0 htop hdma]
  simp

theorem slaveMode_mid {mid : List Write} (htop : cfg.amountTop ≠ none)
    (hdma : cfg.pcDmaCtrl = true) (hmid : mid.length ≤ (clearAmounts cfg).length)
    (h : s.clearing = mid ++ [w]) : slaveMode cfg s = true := by
  unfold slaveMode
  rw [h, length_clearWrites 0 htop hdma, hdma, List.length_append, List.length_singleton]
  simp only [Bool.true_and, Bool.and_eq_true, decide_eq_true_eq]
  omega

/-! ## Each step -/

theorem tracked_init : Tracked cfg ⟨regs, regs, fun _ => none, fun _ => [], []⟩ where
  same _ _ _ _ := rfl
  dataAddr _ := by rw [slaveMode_nil rfl, if_neg Bool.false_ne_true]
  clears := Or.inl rfl
  commits _ h := absurd rfl h

theorem Tracked.commit (hs : Tracked cfg s) (b : Batch) : Tracked cfg { s with
    batch := Function.update s.batch c (some b)
    writing := Function.update s.writing c (commitWrites cfg c b) } where
  same := hs.same
  dataAddr := hs.dataAddr
  clears := hs.clears
  commits d hd := by
    show ∃ b' done base, Function.update s.batch c (some b) d = some b' ∧ commitWrites cfg d b' =
      done ++ Function.update s.writing c (commitWrites cfg c b) d ∧ s.programmed d = _
    replace hd : Function.update s.writing c (commitWrites cfg c b) d ≠ [] := hd
    obtain rfl | hne := eq_or_ne d c
    · rw [Function.update_self, Function.update_self]
      exact ⟨b, [], s.programmed d, rfl, rfl, rfl⟩
    · rw [Function.update_of_ne hne] at hd
      rw [Function.update_of_ne hne, Function.update_of_ne hne]
      exact hs.commits d hd

theorem Tracked.write (hs : Tracked cfg s) {rest : List Write} (hw : s.writing c = w :: rest)
    (hfree : ¬ (cfg.pcDmaCtrl = true ∧ w.1 = rknpuOffsetPcDataAddr ∧ s.clearing ≠ [])) :
    Tracked cfg { s with
      regs := regWrite s.regs c w
      programmed := regWrite s.programmed c w
      writing := Function.update s.writing c rest } where
  same d off hoff hnot := by
    show regWrite s.regs c w d off = regWrite s.programmed c w d off
    by_cases hsame : d = c ∧ off = w.1
    · obtain ⟨rfl, rfl⟩ := hsame
      rw [regWrite_same, regWrite_same]
    · rw [regWrite_other hsame, regWrite_other hsame]
      exact hs.same d off hoff hnot
  dataAddr hdma := by
    show regWrite s.regs c w 0 _ = if slaveMode cfg s then 1 else regWrite s.programmed c w 0 _
    by_cases hsame : 0 = c ∧ rknpuOffsetPcDataAddr = w.1
    · obtain ⟨rfl, hoff⟩ := hsame
      have hnil : s.clearing = [] := by
        by_contra hne
        exact hfree ⟨hdma, hoff.symm, hne⟩
      rw [slaveMode_nil hnil, if_neg Bool.false_ne_true, hoff, regWrite_same, regWrite_same]
    · rw [regWrite_other hsame, regWrite_other hsame]
      exact hs.dataAddr hdma
  clears := by
    show Clears cfg (regWrite s.programmed c w 0 _) s.clearing
    by_cases hsame : 0 = c ∧ rknpuOffsetPcDataAddr = w.1
    · cases hdma : cfg.pcDmaCtrl with
      | false =>
        obtain hnil | ⟨-, hmem⟩ | ⟨htrue, -⟩ := hs.clears
        · exact Or.inl hnil
        · exact Or.inr (Or.inl ⟨hdma, hmem⟩)
        · exact absurd (hdma.symm.trans htrue) Bool.false_ne_true
      | true =>
        refine Or.inl ?_
        by_contra hne
        exact hfree ⟨hdma, hsame.2.symm, hne⟩
    · rw [regWrite_other hsame]
      exact hs.clears
  commits d hd := by
    show ∃ b done base, s.batch d = some b ∧ commitWrites cfg d b =
      done ++ Function.update s.writing c rest d ∧ regWrite s.programmed c w d = _
    obtain rfl | hne := eq_or_ne d c
    · obtain ⟨b, done, base, hb, hwrites, hprog⟩ := hs.commits d (by rw [hw]; exact nofun)
      refine ⟨b, done ++ [w], base, hb, ?_, ?_⟩
      · rw [Function.update_self, hwrites, hw, List.append_assoc, List.singleton_append]
      · rw [regWrite_core, hprog]
        unfold written
        rw [List.foldl_append]
        rfl
    · replace hd : Function.update s.writing c rest d ≠ [] := hd
      rw [Function.update_of_ne hne] at hd
      have hprog : regWrite s.programmed c w d = s.programmed d := Function.update_of_ne hne ..
      rw [Function.update_of_ne hne, hprog]
      exact hs.commits d hd

theorem Tracked.clear (hs : Tracked cfg s) (hnil : s.clearing = []) : Tracked cfg { s with
    clearing := clearWrites cfg (s.regs 0 rknpuOffsetPcDataAddr) } := by
  by_cases htop : cfg.amountTop = none
  · have hno : clearWrites cfg (s.regs 0 rknpuOffsetPcDataAddr) = [] := if_pos htop
    rw [hno, ← hnil]
    exact hs
  · refine ⟨hs.same, fun hdma => ?_, ?_, hs.commits⟩
    · have haddr := hs.dataAddr hdma
      rw [slaveMode_nil hnil] at haddr
      rw [slaveMode_full htop hdma rfl]
      exact haddr
    · cases hdma : cfg.pcDmaCtrl with
      | false =>
        refine Or.inr (Or.inl ⟨hdma, fun w hw => ?_⟩)
        unfold clearWrites at hw
        rw [if_neg htop, hdma, if_neg Bool.false_ne_true] at hw
        exact hw
      | true =>
        have haddr := hs.dataAddr hdma
        rw [slaveMode_nil hnil, if_neg Bool.false_ne_true] at haddr
        refine Or.inr (Or.inr ⟨hdma, htop, Or.inl ?_⟩)
        rw [← haddr]

theorem Tracked.clearWrite (hcfg : cfg ∈ amountConfigs) (hs : Tracked cfg s) {rest : List Write}
    (hw : s.clearing = w :: rest) :
    Tracked cfg { s with regs := regWrite s.regs 0 w, clearing := rest } := by
  have hkept : w ∈ clearAmounts cfg → ∀ d, ∀ off ∈ programOffsets,
      regWrite s.regs 0 w d off = s.regs d off := by
    intro hmem d off hoff
    apply regWrite_other
    rintro ⟨-, rfl⟩
    exact amounts_apart hcfg w hmem hoff
  have hmember : rknpuOffsetPcDataAddr ∈ programOffsets := by decide
  obtain hnil | ⟨hdma, hmem⟩ | ⟨hdma, htop, hfull | ⟨mid, hmid, hlen, heq⟩⟩ := hs.clears
  · rw [hnil] at hw
    cases hw
  · rw [hw] at hmem
    refine ⟨fun d off hoff hnot => ?_, fun htrue => ?_, Or.inr (Or.inl ⟨hdma, ?_⟩), hs.commits⟩
    · exact (hkept (hmem w List.mem_cons_self) d off hoff).trans (hs.same d off hoff hnot)
    · rw [hdma] at htrue
      cases htrue
    · exact fun x hx => hmem x (List.mem_cons_of_mem w hx)
  · have hlist := hw.symm.trans hfull
    unfold clearWrites at hlist
    rw [if_neg htop, if_pos hdma, List.cons.injEq] at hlist
    obtain ⟨rfl, rfl⟩ := hlist
    refine ⟨fun d off hoff hnot => ?_, fun _ => ?_, ?_, hs.commits⟩
    · refine (regWrite_other ?_).trans (hs.same d off hoff hnot)
      exact fun hsame => hnot ⟨hdma, hsame⟩
    · rw [slaveMode_mid htop hdma (le_refl _) rfl, if_pos rfl]
      exact regWrite_same s.regs 0 (rknpuOffsetPcDataAddr, 0x1)
    · exact Or.inr (Or.inr ⟨hdma, htop, Or.inr ⟨_, fun _ hx => hx, le_refl _, rfl⟩⟩)
  · rw [hw] at heq
    cases mid with
    | nil =>
      rw [List.nil_append, List.cons.injEq] at heq
      obtain ⟨rfl, rfl⟩ := heq
      refine ⟨fun d off hoff hnot => ?_, fun _ => ?_, Or.inl rfl, hs.commits⟩
      · refine (regWrite_other ?_).trans (hs.same d off hoff hnot)
        exact fun hsame => hnot ⟨hdma, hsame⟩
      · rw [slaveMode_nil rfl, if_neg Bool.false_ne_true]
        exact regWrite_same s.regs 0 (rknpuOffsetPcDataAddr, s.programmed 0 rknpuOffsetPcDataAddr)
    | cons x mid =>
      rw [List.cons_append, List.cons.injEq] at heq
      obtain ⟨rfl, rfl⟩ := heq
      have hx := hmid w List.mem_cons_self
      have hslave : slaveMode cfg s = true := slaveMode_mid htop hdma hlen hw
      have hless : mid.length ≤ (clearAmounts cfg).length :=
        Nat.le_trans (Nat.le_succ _) hlen
      refine ⟨fun d off hoff hnot => ?_, fun _ => ?_, ?_, hs.commits⟩
      · exact (hkept hx d off hoff).trans (hs.same d off hoff hnot)
      · have haddr := hs.dataAddr hdma
        rw [hslave, if_pos rfl] at haddr
        rw [slaveMode_mid htop hdma hless rfl, if_pos rfl]
        exact (hkept hx 0 _ hmember).trans haddr
      · exact Or.inr (Or.inr ⟨hdma, htop, Or.inr ⟨mid, fun y hy =>
          hmid y (List.mem_cons_of_mem w hy), hless, rfl⟩⟩)

theorem Tracked.intClear (hs : Tracked cfg s) (c : ℕ) : Tracked cfg { s with
    regs := regWrite s.regs c (rknpuOffsetIntClear, rknpuIntClear) } := by
  have hkept : ∀ d, ∀ off ∈ programOffsets,
      regWrite s.regs c (rknpuOffsetIntClear, rknpuIntClear) d off = s.regs d off := by
    intro d off hoff
    apply regWrite_other
    rintro ⟨-, rfl⟩
    revert hoff
    decide
  refine ⟨fun d off hoff hnot => ?_, fun hdma => ?_, hs.clears, hs.commits⟩
  · exact (hkept d off hoff).trans (hs.same d off hoff hnot)
  · exact (hkept 0 _ (by decide)).trans (hs.dataAddr hdma)

theorem tracked_step (hcfg : cfg ∈ amountConfigs) (hs : Tracked cfg s) {label : RegLabel}
    (h : regStep cfg s label = some t) : Tracked cfg t := by
  cases label with
  | commit c b =>
    simp only [regStep] at h
    split_ifs at h
    cases h
    exact hs.commit b
  | write c =>
    simp only [regStep] at h
    split at h
    · cases h
    · rename_i w rest hw
      split_ifs at h with hlocked
      cases h
      exact hs.write hw hlocked
  | clear =>
    simp only [regStep] at h
    split_ifs at h with hnil
    cases h
    exact hs.clear hnil
  | clearWrite =>
    simp only [regStep] at h
    split at h
    · cases h
    · rename_i w rest hw
      cases h
      exact hs.clearWrite hcfg hw
  | intClear c =>
    cases h
    exact hs.intClear c

theorem tracked (hcfg : cfg ∈ amountConfigs) (hs : (regSystem cfg).Reachable s) :
    Tracked cfg s := by
  refine hs.invariant (Tracked cfg) ?_ fun s label t hs h => tracked_step hcfg hs h
  rintro s ⟨regs, rfl⟩
  exact tracked_init

/-! ## The start of a batch -/

/-- What comes before the first of two last elements that is not found earlier. -/
theorem append_pair {α : Type} {pre done rest : List α} {x y : α} (hx : x ∉ pre) (hne : x ≠ y)
    (h : pre ++ [x, y] = done ++ x :: rest) : done = pre := by
  obtain ⟨more, hdone, hrest⟩ | ⟨more, hpre, hrest⟩ := List.append_eq_append_iff.mp h
  · cases more with
    | nil => rw [hdone, List.append_nil]
    | cons z more =>
      rw [List.cons_append, List.cons.injEq] at hrest
      obtain ⟨-, htail⟩ := hrest
      cases more with
      | nil =>
        rw [List.nil_append, List.cons.injEq] at htail
        exact absurd htail.1.symm hne
      | cons z' more => simp at htail
  · cases more with
    | nil => rw [hpre, List.append_nil]
    | cons z more =>
      rw [List.cons_append, List.cons.injEq] at hrest
      obtain ⟨rfl, -⟩ := hrest
      exact absurd (by rw [hpre]; simp) hx

/-- When a commit comes to start its core, it has programmed the registers of its batch. -/
theorem written_start {b : Batch} {done rest : List Write} {base : Offset → UInt32}
    (h : commitWrites cfg c b = done ++ (rknpuOffsetPcOpEn, 0x1) :: rest) :
    ∀ w ∈ batchRegisters cfg c b, written base done w.1 = w.2 := by
  unfold commitWrites at h
  split_ifs at h with hready
  · unfold batchRegisters
    unfold pcWrites at h ⊢
    by_cases hirqs : 1 < cfg.numIrqs
    · simp only [hirqs, if_true] at h ⊢
      have hdone := @append_pair _ [_, _, _, _, _, _, _, _, _] _ _ _ _ (by simp) (by simp) h
      rw [hdone]
      simp [written, Function.update]
    · simp only [hirqs, if_false] at h ⊢
      have hdone := @append_pair _ [_, _, _, _, _, _, _] _ _ _ _ (by simp) (by simp) h
      rw [hdone]
      simp [written, Function.update]
  · cases done with
    | nil => simp at h
    | cons x done => simp at h

theorem batchRegisters_offsets {b : Batch} :
    ∀ w ∈ batchRegisters cfg c b, w.1 ∈ programOffsets := by
  unfold batchRegisters pcWrites
  split_ifs
  · simp [programOffsets]
  · simp [programOffsets]

theorem dataAddr_mem (b : Batch) :
    (rknpuOffsetPcDataAddr, b.regcmdAddr cfg c) ∈ batchRegisters cfg c b := by
  unfold batchRegisters pcWrites Batch.regcmdAddr
  exact List.mem_filter.mpr ⟨List.mem_append_right _ List.mem_cons_self, rfl⟩

/-- **The registers at the start of a batch**: in every run, when the next write of a commit is the
one that starts its core, the core has the registers of the batch exactly when no clear holds
core `0` in slave mode, unless the batch is at address `1` itself. -/
theorem start_registers_iff (hcfg : cfg ∈ amountConfigs) (hs : (regSystem cfg).Reachable s)
    {rest : List Write} (hstart : s.writing c = (rknpuOffsetPcOpEn, 0x1) :: rest) :
    ∃ b, s.batch c = some b ∧ ((∀ w ∈ batchRegisters cfg c b, s.regs c w.1 = w.2) ↔
      ¬ (c = 0 ∧ slaveMode cfg s = true ∧ b.regcmdAddr cfg c ≠ 1)) := by
  have htracked := tracked hcfg hs
  obtain ⟨b, done, base, hb, hwrites, hprog⟩ := htracked.commits c (by rw [hstart]; exact nofun)
  rw [hstart] at hwrites
  have hwritten : ∀ w ∈ batchRegisters cfg c b, s.programmed c w.1 = w.2 := by
    rw [hprog]
    exact written_start hwrites
  refine ⟨b, hb, fun hregs => ?_, fun hnot w hw => ?_⟩
  · rintro ⟨rfl, hslave, hne⟩
    have hdma : cfg.pcDmaCtrl = true := by
      unfold slaveMode at hslave
      simp only [Bool.and_eq_true] at hslave
      exact hslave.1.1
    have haddr := htracked.dataAddr hdma
    rw [hslave, if_pos rfl, hregs _ (dataAddr_mem b)] at haddr
    exact hne haddr
  · by_cases hdata : cfg.pcDmaCtrl = true ∧ c = 0 ∧ w.1 = rknpuOffsetPcDataAddr
    · obtain ⟨hdma, rfl, hoff⟩ := hdata
      have haddr := htracked.dataAddr hdma
      rw [hoff, haddr]
      have hvalue : s.programmed 0 rknpuOffsetPcDataAddr = w.2 := by
        rw [← hoff]
        exact hwritten w hw
      split_ifs with hslave
      · by_contra hne
        refine hnot ⟨rfl, hslave, fun hone => hne ?_⟩
        rw [← hvalue, hwritten _ (dataAddr_mem b)]
        exact hone.symm
      · exact hvalue
    · rw [htracked.same c w.1 (batchRegisters_offsets w hw) hdata]
      exact hwritten w hw

end

/-! ## A clear at the start -/

def oneTaskBatch : Batch where
  taskBase _ := ⟨0, 0, 0, 0x300, 0x1ffff, 0, 64, 0, 0xffff0000⟩
  taskBaseAddr := 0
  job := { RknpuJob.zero with args := oneTask rknpuJobPc rknpuCore0Mask, useCoreNum := 1 }
  ready := true

/-- A commit on core `0` of the RK3576 up to the write that starts the core. -/
def upToStart : List RegLabel := .commit 0 oneTaskBatch :: List.replicate 9 (.write 0)

theorem start_registers_iff_alone : ∃ s, (regSystem rk3576AmountConfig).Reachable s ∧
    ∃ b, s.batch 0 = some b ∧
      ∀ w ∈ batchRegisters rk3576AmountConfig 0 b, s.regs 0 w.1 = w.2 := by
  obtain ⟨s, hs, h⟩ := System.Reachable.of_run_any (S := regSystem rk3576AmountConfig)
    (p := fun s => decide (s.writing 0 = [(rknpuOffsetPcOpEn, 0x1), (rknpuOffsetPcOpEn, 0x0)] ∧
      s.clearing = []))
    (l := upToStart) ⟨fun _ _ => 0, rfl⟩ (by decide +kernel)
  obtain ⟨hwriting, hclearing⟩ := of_decide_eq_true h
  obtain ⟨b, hb, hiff⟩ := start_registers_iff (by decide) hs hwriting
  refine ⟨s, hs, b, hb, hiff.mpr ?_⟩
  rintro ⟨-, hslave, -⟩
  rw [slaveMode_nil hclearing] at hslave
  cases hslave

/-- A clear that takes its lock between the write of `PC_DATA_ADDR` and the start makes core `0`
start from address `1`. -/
theorem start_in_slave_mode : ∃ s, (regSystem rk3576AmountConfig).Reachable s ∧
    s.writing 0 = [(rknpuOffsetPcOpEn, 0x1), (rknpuOffsetPcOpEn, 0x0)] ∧
    s.programmed 0 rknpuOffsetPcDataAddr = 0xffff0000 ∧ s.regs 0 rknpuOffsetPcDataAddr = 1 := by
  obtain ⟨s, hs, h⟩ := System.Reachable.of_run_any (S := regSystem rk3576AmountConfig)
    (p := fun s => decide (s.writing 0 = [(rknpuOffsetPcOpEn, 0x1), (rknpuOffsetPcOpEn, 0x0)] ∧
      s.programmed 0 rknpuOffsetPcDataAddr = 0xffff0000 ∧ s.regs 0 rknpuOffsetPcDataAddr = 1))
    (l := upToStart ++ [.clear, .clearWrite]) ⟨fun _ _ => 0, rfl⟩ (by decide +kernel)
  exact ⟨s, hs, of_decide_eq_true h⟩

end RknpuDriver.Job
