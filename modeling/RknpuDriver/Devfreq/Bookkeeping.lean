import RknpuDriver.Devfreq.Cap

/-! # Whether `current_freq` is the rate of the SCMI clock

`rknpu_devfreq_init` stores the rate of the clock in `current_freq`, and after it only
`rknpu_devfreq_target` writes the field, when the rates it reads before and after its
`clk_set_rate` differ. The debugfs files `freq_hz` and `freq_mhz` set the clock and leave the
field alone. Here whole calls follow one another; a call is the run of its steps of
`Devfreq.Target` (`targetRun_steps`).

* `Completes`: the calls that return `0`, by their inputs.
* `Recovers`: a call that changes the rate of the clock, or finds the field right.
* `current_freq_truthful_iff`: in the runs whose calls all recover, and in no others, every call
  that returns `0` leaves the field right.
* `throughout_truthful`: where the debugfs files leave the rate of the clock as it is, no call at
  all leaves the field wrong.
-/

namespace RknpuDriver.Devfreq
set_option autoImplicit false
open RknpuDriver.Lib

/-- What the calls inside one `rknpu_devfreq_target` find and do: the OPPs that are available,
the two `regulator_set_voltage` and the `clk_set_rate`. -/
structure TargetOutcome where
  table : OppTable
  raised : Outcome
  rate : Outcome
  lowered : Outcome

def TargetOutcome.during (o : TargetOutcome) : TargetOp → Outcome
  | .scaleUp _ _ => o.raised
  | .setRate _ _ => o.rate
  | .scaleDown _ _ => o.lowered
  | .store _ _ _ => none

/-- The steps of a call after `op`. -/
def TargetOp.stepsLeft : TargetOp → ℕ
  | .scaleUp _ _ => 3
  | .setRate _ _ => 2
  | .scaleDown _ _ => 1
  | .store _ _ _ => 0

/-- A call returns `0` after its stores; anywhere else it ends with an error. -/
def TargetOp.stores : TargetOp → Bool
  | .store _ _ _ => true
  | _ => false

/-- The rest of a call from `op` on: the device after it, and whether it returns `0`. -/
def targetRun (o : TargetOutcome) : ℕ → DvfsDev → TargetOp → DvfsDev × Bool
  | 0, dev, _ => (dev, false)
  | n + 1, dev, op =>
    match targetExec dev (o.during op) op with
    | (dev, some next) => targetRun o n dev next
    | (dev, none) => (dev, op.stores)

/-- A whole call. -/
def targetCall (dev : DvfsDev) (freq : ℕ) (flags : UInt32) (o : TargetOutcome) : DvfsDev × Bool :=
  match rknpuDevfreqTarget o.table dev freq flags with
  | .error _ => (dev, false)
  | .ok op => targetRun o 4 dev op

/-- `rknpu_devfreq_init`, with the clock that `devm_clk_get` finds. -/
def rknpuDevfreqInit (dev : DvfsDev) (scmiClk : Option ℕ) (o : Outcome) : DvfsDev :=
  match scmiClk with
  | none => { dev with scmiClk := none }
  | some rate =>
    let dev := clkSetRate { dev with scmiClk := some rate } o
    { dev with currentFreq := dev.scmiClk.getD 0 }

/-- `rknpu_devfreq_get_cur_freq`. -/
def rknpuDevfreqGetCurFreq (dev : DvfsDev) : ℕ := dev.currentFreq

/-! ## Runs -/

/-- `clks` are the rates of the clocks of the device tree; `returnedZero` is set while the last
step was a call of `rknpu_devfreq_target` that returned `0`. -/
structure FreqState where
  dev : DvfsDev
  clks : List (Option ℕ)
  returnedZero : Bool
  deriving DecidableEq, Repr

/-- A call of `rknpu_devfreq_target`, or a successful write that brings the clock to `rate`. -/
inductive FreqLabel where
  | target (freq : ℕ) (flags : UInt32) (o : TargetOutcome)
  | freqHz (val : UInt64) (rate : ℕ)
  | freqMhz (val : UInt64) (rate : ℕ)

/-- The clock that a write sets runs at `rate`. -/
def FreqState.setRate (s : FreqState) (rate : ℕ) : Except ℤ SetRate → Option FreqState
  | .ok (.scmi _) => some ⟨clkSetRate s.dev (some rate), s.clks, false⟩
  | .ok (.clks0 _) => some ⟨s.dev, s.clks.set 0 (some rate), false⟩
  | .error _ => none

def freqStep (s : FreqState) : FreqLabel → Option FreqState
  | .target freq flags o =>
    let (dev, zero) := targetCall s.dev freq flags o
    some ⟨dev, s.clks, zero⟩
  | .freqHz val rate => s.setRate rate (freqHzSet s.dev s.clks val)
  | .freqMhz val rate => s.setRate rate (freqMhzSet s.dev s.clks val)

/-- The calls and writes from the state that `rknpu_devfreq_init` leaves. -/
def freqSystem : System FreqState FreqLabel where
  init s := ∃ dev scmiClk o, s.dev = rknpuDevfreqInit dev scmiClk o ∧ s.returnedZero = false
  step := freqStep

/-- What `rknpu_devfreq_get_cur_freq` reports is the rate of the SCMI clock. -/
def Truthful (dev : DvfsDev) : Prop := dev.scmiClk = some (rknpuDevfreqGetCurFreq dev)

/-- After a call of `rknpu_devfreq_target` that returned `0` the report is right. -/
def FreqState.Honest (s : FreqState) : Prop := s.returnedZero = true → Truthful s.dev

/-- The calls that get to the end: the clock exists and turns from `old` to `new`, and an OPP is
found whose voltage is set where it has to be raised. -/
def Completes (dev : DvfsDev) (freq : ℕ) (flags : UInt32) (o : TargetOutcome) (old new : ℕ) :
    Prop :=
  dev.scmiClk = some old ∧ o.rate = some new ∧
    ∃ opp, devfreqRecommendedOpp o.table (min freq rknpuMaxFreq) flags = .ok opp ∧
      (old < opp.freq → dev.vdd ≠ none → o.raised ≠ none)

/-- A call that gets to the end either finds the report right or changes the rate. -/
def Recovers (s : FreqState) : FreqLabel → Prop
  | .target freq flags o =>
    ∀ old new, Completes s.dev freq flags o old new → Truthful s.dev ∨ new ≠ old
  | .freqHz _ _ | .freqMhz _ _ => True

/-! ## A call as a run of its steps -/

theorem stepsLeft_exec {dev : DvfsDev} {o : Outcome} {op next : TargetOp}
    (h : (targetExec dev o op).2 = some next) : next.stepsLeft < op.stepsLeft := by
  cases op with
  | store opp oldFreq newFreq => cases h
  | scaleUp opp oldFreq | setRate opp oldFreq | scaleDown opp oldFreq =>
    simp only [targetExec] at h
    split_ifs at h <;>
    · cases h
      exact Nat.lt_succ_self _

/-- A call is a run of the steps of `rknpu_devfreq_target`, and ends. -/
theorem targetRun_steps (table : OppTable) {o : TargetOutcome}
    (ho : ∀ op, allowed (o.during op) op = true) {n : ℕ} {dev : DvfsDev} {op : TargetOp}
    (hn : op.stepsLeft < n) :
    ∃ os : List Outcome, (dvfsSystem table).run ⟨dev, some op⟩ (os.map .exec) =
      some ⟨(targetRun o n dev op).1, none⟩ := by
  induction n generalizing dev op with
  | zero => exact absurd hn (Nat.not_lt_zero _)
  | succ n ih =>
    have hstep : (dvfsSystem table).step ⟨dev, some op⟩ (.exec (o.during op)) =
        some ⟨(targetExec dev (o.during op) op).1, (targetExec dev (o.during op) op).2⟩ := by
      simp only [dvfsSystem, dvfsStep, ho op, if_true]
    cases hexec : targetExec dev (o.during op) op with
    | mk dev' call =>
      rw [hexec] at hstep
      simp only [targetRun, hexec]
      cases call with
      | none =>
        refine ⟨[o.during op], ?_⟩
        rw [List.map_singleton, System.run_cons, hstep]
        rfl
      | some next =>
        have hleft := stepsLeft_exec (congrArg Prod.snd hexec)
        obtain ⟨os, hos⟩ := @ih dev' next (by omega)
        refine ⟨o.during op :: os, ?_⟩
        rw [List.map_cons, System.run_cons, hstep]
        exact hos

/-! ## What a call leaves -/

/-- What the stores leave of a rate that went from `old` to `new`. -/
structure Stored (dev dev' : DvfsDev) (old new : ℕ) : Prop where
  clk : dev'.scmiClk = some new
  freq : dev'.currentFreq = if new ≠ old then new else dev.currentFreq

section
variable {dev : DvfsDev} {o : TargetOutcome} {opp : Opp} {old new : ℕ} (n : ℕ)

theorem targetRun_store (hclk : dev.scmiClk = some new) :
    (targetRun o (n + 1) dev (.store opp old new)).2 = true ∧
      Stored dev (targetRun o (n + 1) dev (.store opp old new)).1 old new := by
  refine ⟨rfl, ?_⟩
  simp only [targetRun, targetExec]
  constructor
  · split_ifs <;> exact hclk
  · split_ifs <;> rfl

theorem targetRun_scaleDown (hclk : dev.scmiClk = some new) :
    (targetRun o (n + 2) dev (.scaleDown opp old)).2 = true ∧
      Stored dev (targetRun o (n + 2) dev (.scaleDown opp old)).1 old new := by
  rw [targetRun]
  simp only [targetExec, hclk, Option.getD_some]
  split_ifs with hdown
  · have hset : (regulatorSetVoltage dev (o.during (.scaleDown opp old))).scmiClk = some new := by
      cases o.during (.scaleDown opp old) <;> exact hclk
    obtain ⟨hzero, hstored⟩ := @targetRun_store _ o opp old new n hset
    refine ⟨hzero, hstored.clk, hstored.freq.trans ?_⟩
    cases o.during (.scaleDown opp old) <;> rfl
  · exact targetRun_store n hclk

theorem targetRun_setRate :
    ((targetRun o (n + 3) dev (.setRate opp old)).2 = true ↔ o.rate ≠ none) ∧
      (∀ new, o.rate = some new →
        Stored dev (targetRun o (n + 3) dev (.setRate opp old)).1 old new) ∧
      (o.rate = none → (targetRun o (n + 3) dev (.setRate opp old)).1 = dev) := by
  rw [targetRun]
  cases hrate : o.rate with
  | none => simp [targetExec, TargetOutcome.during, hrate, TargetOp.stores, clkSetRate]
  | some rate =>
    simp only [targetExec, TargetOutcome.during, hrate, reduceCtorEq, if_false]
    obtain ⟨hzero, hstored⟩ := @targetRun_scaleDown (clkSetRate dev (some rate)) o opp
      old rate n rfl
    refine ⟨by simp [hzero], ?_, fun h => absurd h (by simp)⟩
    rintro _ ⟨⟩
    exact ⟨hstored.clk, hstored.freq⟩

/-- The part of the device that the report is about. -/
def SameRate (dev dev' : DvfsDev) : Prop :=
  dev'.scmiClk = dev.scmiClk ∧ dev'.currentFreq = dev.currentFreq

theorem targetRun_scaleUp :
    ((targetRun o (n + 4) dev (.scaleUp opp old)).2 = true ↔
        o.rate ≠ none ∧ (old < opp.freq → dev.vdd ≠ none → o.raised ≠ none)) ∧
      (∀ new, (targetRun o (n + 4) dev (.scaleUp opp old)).2 = true → o.rate = some new →
        Stored dev (targetRun o (n + 4) dev (.scaleUp opp old)).1 old new) ∧
      ((targetRun o (n + 4) dev (.scaleUp opp old)).2 = false →
        SameRate dev (targetRun o (n + 4) dev (.scaleUp opp old)).1) := by
  rw [targetRun]
  simp only [targetExec, TargetOutcome.during]
  by_cases hup : old < opp.freq ∧ dev.vdd ≠ none
  · rw [if_pos hup]
    obtain hraised | ⟨volt, hraised⟩ := Option.eq_none_or_eq_some o.raised
    · simp [TargetOp.stores, hraised, hup.1, hup.2, regulatorSetVoltage, SameRate]
    · simp only [hraised, reduceCtorEq, if_false]
      obtain ⟨hzero, hstored, hkept⟩ :=
        @targetRun_setRate (regulatorSetVoltage dev (some volt)) o opp old n
      refine ⟨by simp [hzero], fun new _ hnew => ?_, fun hfailed => ?_⟩
      · exact ⟨(hstored new hnew).clk, (hstored new hnew).freq⟩
      · rw [hkept (not_not.mp fun hne => by simp [hzero.mpr hne] at hfailed)]
        exact ⟨rfl, rfl⟩
  · rw [if_neg hup]
    obtain ⟨hzero, hstored, hkept⟩ := @targetRun_setRate dev o opp old n
    refine ⟨?_, fun new _ hnew => hstored new hnew, fun hfailed => ?_⟩
    · rw [hzero]
      exact ⟨fun h => ⟨h, fun hlt hvdd => absurd ⟨hlt, hvdd⟩ hup⟩, fun h => h.1⟩
    · rw [hkept (not_not.mp fun hne => by simp [hzero.mpr hne] at hfailed)]
      exact ⟨rfl, rfl⟩

end

/-- **One call**: it returns `0` exactly when it completes, and then the field moves with the
rate, if that moved; a call that fails moves neither. -/
theorem targetCall_cases (dev : DvfsDev) (freq : ℕ) (flags : UInt32) (o : TargetOutcome) :
    ((targetCall dev freq flags o).2 = true ↔ ∃ old new, Completes dev freq flags o old new) ∧
      (∀ old new, Completes dev freq flags o old new →
        Stored dev (targetCall dev freq flags o).1 old new) ∧
      ((targetCall dev freq flags o).2 = false →
        SameRate dev (targetCall dev freq flags o).1) := by
  have hmin : (if rknpuMaxFreq < freq then rknpuMaxFreq else freq) = min freq rknpuMaxFreq := by
    split_ifs <;> omega
  obtain hclk | ⟨clk, hclk⟩ := Option.eq_none_or_eq_some dev.scmiClk
  · have hnone : targetCall dev freq flags o = (dev, false) := by
      simp only [targetCall, rknpuDevfreqTarget, hclk]
    simp [hnone, Completes, hclk, SameRate]
  cases hopp : devfreqRecommendedOpp o.table (min freq rknpuMaxFreq) flags with
  | error e =>
    have herror : targetCall dev freq flags o = (dev, false) := by
      simp only [targetCall, rknpuDevfreqTarget, hclk, hmin, hopp]
    simp [herror, Completes, hopp, SameRate]
  | ok opp =>
    obtain ⟨hzero, hstored, hkept⟩ := @targetRun_scaleUp dev o opp clk 0
    have hcall : targetCall dev freq flags o = targetRun o 4 dev (.scaleUp opp clk) := by
      simp only [targetCall, rknpuDevfreqTarget, hclk, hmin, hopp]
    rw [hcall]
    refine ⟨hzero.trans ⟨?_, ?_⟩, ?_, hkept⟩
    · rintro ⟨hrate, hraised⟩
      obtain ⟨new, hnew⟩ := Option.ne_none_iff_exists'.mp hrate
      exact ⟨clk, new, hclk, hnew, opp, hopp, hraised⟩
    · rintro ⟨old, new, hold, hnew, opp', hopp', hraised⟩
      cases hclk.symm.trans hold
      cases hopp.symm.trans hopp'
      exact ⟨by simp [hnew], hraised⟩
    · rintro old new ⟨hold, hnew, opp', hopp', hraised⟩
      cases hclk.symm.trans hold
      cases hopp.symm.trans hopp'
      exact hstored new (hzero.mpr ⟨by simp [hnew], hraised⟩) hnew

/-! ## The report -/

theorem truthful_call_iff {dev : DvfsDev} {freq : ℕ} {flags : UInt32} {o : TargetOutcome}
    {old new : ℕ} (h : Completes dev freq flags o old new) :
    Truthful (targetCall dev freq flags o).1 ↔ Truthful dev ∨ new ≠ old := by
  have hstored := (targetCall_cases dev freq flags o).2.1 old new h
  unfold Truthful rknpuDevfreqGetCurFreq
  rw [hstored.clk, hstored.freq, h.1]
  by_cases hne : new = old
  · subst hne
    simp
  · simp [hne]

/-- **One write**: it sets the SCMI clock, and where there is none, another clock. -/
theorem write_cases {s t : FreqState} {val : UInt64} {rate : ℕ}
    (h : s.setRate rate (freqHzSet s.dev s.clks val) = some t) :
    t.returnedZero = false ∧
      ((s.dev.scmiClk ≠ none ∧ t.dev = clkSetRate s.dev (some rate)) ∨
        (s.dev.scmiClk = none ∧ t.dev = s.dev)) := by
  unfold freqHzSet at h
  split at h
  · rename_i old _ hclk
    cases h
    exact ⟨rfl, Or.inl ⟨by simp [hclk], rfl⟩⟩
  · rename_i hclk _
    cases h
    exact ⟨rfl, Or.inr ⟨hclk, rfl⟩⟩
  · cases h

theorem honest_step_iff {s t : FreqState} {label : FreqLabel}
    (h : freqStep s label = some t) : t.Honest ↔ Recovers s label := by
  cases label with
  | target freq flags o =>
    cases h
    obtain ⟨hzero, -⟩ := targetCall_cases s.dev freq flags o
    unfold FreqState.Honest Recovers
    constructor
    · intro hhonest old new hcompletes
      exact (truthful_call_iff hcompletes).mp (hhonest (hzero.mpr ⟨old, new, hcompletes⟩))
    · intro hrecovers hret
      obtain ⟨old, new, hcompletes⟩ := hzero.mp hret
      exact (truthful_call_iff hcompletes).mpr (hrecovers old new hcompletes)
  | freqHz val rate | freqMhz val rate =>
    refine iff_of_true (fun hret => ?_) trivial
    rw [(write_cases h).1] at hret
    cases hret

/-- **When the bookkeeping is truthful**: in a run every call that returns `0` leaves
`current_freq` at the rate of the clock exactly when each of them finds it there or changes the
rate. -/
theorem current_freq_truthful_iff {s t : FreqState} {labels : List FreqLabel}
    (h0 : freqSystem.init s) (hrun : freqSystem.run s labels = some t) :
    freqSystem.Throughout FreqState.Honest s labels ↔ freqSystem.EachStep Recovers s labels := by
  obtain ⟨dev, scmiClk, o, -, hret⟩ := h0
  refine System.throughout_iff (fun s label t _ => honest_step_iff) hrun ?_
  unfold FreqState.Honest
  simp [hret]

/-! ## Runs whose writes keep the rate -/

/-- A write that leaves the SCMI clock at its rate. -/
def Steady (s : FreqState) : FreqLabel → Prop
  | .target _ _ _ => True
  | .freqHz _ rate | .freqMhz _ rate => ∀ old, s.dev.scmiClk = some old → rate = old

/-- The report is right, if there is an SCMI clock. -/
def FreqState.Truthful (s : FreqState) : Prop := s.dev.scmiClk ≠ none → Devfreq.Truthful s.dev

theorem truthful_init {s : FreqState} (h : freqSystem.init s) : s.Truthful := by
  obtain ⟨dev, scmiClk, o, hdev, -⟩ := h
  intro hclk
  rw [hdev] at hclk ⊢
  cases scmiClk with
  | none => exact absurd rfl hclk
  | some rate => cases o <;> rfl

theorem truthful_target {s t : FreqState} {freq : ℕ} {flags : UInt32} {o : TargetOutcome}
    (hs : s.Truthful) (h : freqStep s (.target freq flags o) = some t) : t.Truthful := by
  cases h
  obtain ⟨hzero, -, hkept⟩ := targetCall_cases s.dev freq flags o
  intro hclk
  cases hret : (targetCall s.dev freq flags o).2 with
  | true =>
    obtain ⟨old, new, hcompletes⟩ := hzero.mp hret
    exact (truthful_call_iff hcompletes).mpr (Or.inl (hs (by simp [hcompletes.1])))
  | false =>
    obtain ⟨hsame, hfreq⟩ := hkept hret
    have hright := hs fun hnone => hclk (hsame.trans hnone)
    exact hsame.trans (hright.trans (congrArg some hfreq.symm))

theorem truthful_step {s t : FreqState} {label : FreqLabel} (hs : s.Truthful)
    (hsteady : Steady s label) (h : freqStep s label = some t) : t.Truthful := by
  cases label with
  | target freq flags o => exact truthful_target hs h
  | freqHz val rate | freqMhz val rate =>
    intro hclk
    obtain ⟨-, ⟨hsome, hdev⟩ | ⟨hnone, hdev⟩⟩ := write_cases h
    · obtain ⟨old, hold⟩ := Option.ne_none_iff_exists'.mp hsome
      rw [hdev, hsteady old hold]
      exact hold.symm.trans (hs hsome)
    · rw [hdev] at hclk
      exact absurd hnone hclk

theorem throughout_truthful {s : FreqState} {labels : List FreqLabel} (h0 : freqSystem.init s)
    (hsteady : freqSystem.EachStep Steady s labels) :
    freqSystem.Throughout FreqState.Truthful s labels :=
  System.throughout_of_eachStep (fun _ _ _ hs hp h => truthful_step hs hp h) (truthful_init h0)
    hsteady

/-- The board's call for `freq`: the clock turns to `rate`, and the regulator obeys. -/
def boardOutcome (rate : ℕ) : TargetOutcome := ⟨boardTable, some 1050000, some rate, some 825000⟩

/-- The state after `rknpu_devfreq_init` at the boot rate of the board. -/
def bootState : FreqState :=
  ⟨rknpuDevfreqInit ⟨none, some 825000, 0, 0⟩ (some 24000000) (some 198000000), [], false⟩

theorem bootState_init : freqSystem.init bootState :=
  ⟨⟨none, some 825000, 0, 0⟩, some 24000000, some 198000000, rfl, rfl⟩

/-- A write moves the clock, and the call after it moves it again. -/
theorem current_freq_truthful_moved : freqSystem.Throughout FreqState.Honest bootState
    [.freqMhz 600 594000000, .target 1000000000 0 (boardOutcome 990000000)] := by
  have hrun : (freqSystem.run bootState [.freqMhz 600 594000000,
      .target 1000000000 0 (boardOutcome 990000000)]).isSome := by decide +kernel
  obtain ⟨t, ht⟩ := Option.isSome_iff_exists.mp hrun
  refine (current_freq_truthful_iff bootState_init ht).mpr ⟨trivial, fun u hu => ⟨?_, ?_⟩⟩
  · rintro old new ⟨hold, hnew, -⟩
    cases hu
    cases hold
    cases hnew
    right
    decide
  · intro _ _
    trivial

/-- **A stale report**: 600 MHz are written to `freq_mhz`, and the call for 600 MHz that follows
returns `0` without touching the field, which still says 198 MHz. -/
theorem current_freq_stale : ∃ t, freqSystem.init bootState ∧
    freqSystem.run bootState [.freqMhz 600 600000000,
      .target 600000000 0 (boardOutcome 600000000)] = some t ∧
    t.returnedZero = true ∧ t.dev.scmiClk = some 600000000 ∧
    rknpuDevfreqGetCurFreq t.dev = 198000000 ∧ ¬t.Honest := by
  refine ⟨⟨⟨some 600000000, some 825000, 198000000, 0⟩, [], true⟩, bootState_init, ?_, rfl, rfl,
    rfl, ?_⟩
  · decide +kernel
  · intro h
    have hrate := h rfl
    cases hrate

end RknpuDriver.Devfreq
