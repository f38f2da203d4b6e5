import RknpuDriver.Basic
import RknpuDriver.Lib.System
import Mathlib.Tactic.SplitIfs

/-! # Frequency and voltage of `rknpu_devfreq_dkms.c`

`rknpu_devfreq_target` sets the SCMI clock and the regulator of the NPU. Its steps are the
reading of the clock with the choice of the OPP, each call that changes the hardware, and the
stores at its end; calls follow one another. What `regulator_set_voltage` and `clk_set_rate`
do is chosen by the label.

* `findFreqCeil`, `findFreqFloor`, `devfreqRecommendedOpp`: the kernel's search of the OPP table.
* `Fed`: the regulator gives at least the voltage of the lowest OPP at or above the clock rate.
* `never_undervolted`: in every state of every run.
-/

namespace RknpuDriver.Devfreq
set_option autoImplicit false
open RknpuDriver.Lib

abbrev enodev : ℤ := 19
abbrev erange : ℤ := 34

abbrev rknpuMaxFreq : ℕ := 1000000000

/-- `DEVFREQ_FLAG_LEAST_UPPER_BOUND`: the frequency that is asked for is an upper bound. -/
abbrev devfreqFlagLeastUpperBound : UInt32 := 1

/-- `struct dev_pm_opp`: a frequency and the voltage it needs. -/
structure Opp where
  freq : ℕ
  volt : ℕ
  deriving DecidableEq, Repr

/-- The available OPPs of the device, which the kernel keeps in the order of their frequencies. -/
structure OppTable where
  opps : List Opp
  sorted : opps.Pairwise fun a b => a.freq < b.freq

/-- The voltages do not decrease with the frequency. -/
def OppTable.Monotone (table : OppTable) : Prop :=
  table.opps.Pairwise fun a b => a.volt ≤ b.volt

instance (table : OppTable) : Decidable table.Monotone :=
  inferInstanceAs (Decidable (table.opps.Pairwise _))

/-- `dev_pm_opp_find_freq_ceil`. -/
def findFreqCeil (table : OppTable) (freq : ℕ) : Option Opp :=
  table.opps.find? fun opp => freq ≤ opp.freq

/-- `dev_pm_opp_find_freq_floor`. -/
def findFreqFloor (table : OppTable) (freq : ℕ) : Option Opp :=
  (table.opps.takeWhile fun opp => opp.freq ≤ freq).getLast?

/-- `devfreq_recommended_opp`: the frequency it stores is that of the OPP it returns. -/
def devfreqRecommendedOpp (table : OppTable) (freq : ℕ) (flags : UInt32) : Except ℤ Opp :=
  let found :=
    if flags &&& devfreqFlagLeastUpperBound ≠ 0 then
      (findFreqFloor table freq).or (findFreqCeil table freq)
    else (findFreqCeil table freq).or (findFreqFloor table freq)
  match found with
  | some opp => .ok opp
  | none => .error (-erange)

/-! ## Calls -/

/-- The fields of `struct rknpu_device` and the hardware behind them: `scmiClk` and `vdd` are the
rate of the clock and the voltage of the regulator, `none` for a null pointer. -/
structure DvfsDev where
  scmiClk : Option ℕ
  vdd : Option ℕ
  currentFreq : ℕ
  currentVolt : ℕ
  deriving DecidableEq, Repr

/-- The steps of `rknpu_devfreq_target` after the choice of `opp`, whose frequency is
`target_freq` and whose voltage is `new_volt`. -/
inductive TargetOp where
  | scaleUp (opp : Opp) (oldFreq : ℕ)
  | setRate (opp : Opp) (oldFreq : ℕ)
  | scaleDown (opp : Opp) (oldFreq : ℕ)
  | store (opp : Opp) (oldFreq newFreq : ℕ)
  deriving DecidableEq, Repr

/-- The cap, the old rate and the OPP; or the error. -/
def rknpuDevfreqTarget (table : OppTable) (dev : DvfsDev) (freq : ℕ) (flags : UInt32) :
    Except ℤ TargetOp :=
  match dev.scmiClk with
  | none => .error (-enodev)
  | some oldFreq =>
    let freq := if rknpuMaxFreq < freq then rknpuMaxFreq else freq
    match devfreqRecommendedOpp table freq flags with
    | .error e => .error e
    | .ok opp => .ok (.scaleUp opp oldFreq)

/-- What the call of a step did: the new voltage or rate, or none when it failed. -/
abbrev Outcome := Option ℕ

/-- `regulator_set_voltage` of at least `volt`, when there is a regulator. -/
def regulatorSetVoltage (dev : DvfsDev) : Outcome → DvfsDev
  | some v => { dev with vdd := some v }
  | none => dev

def clkSetRate (dev : DvfsDev) : Outcome → DvfsDev
  | some rate => { dev with scmiClk := some rate }
  | none => dev

/-- One step, and what is left of the call. -/
def targetExec (dev : DvfsDev) (o : Outcome) : TargetOp → DvfsDev × Option TargetOp
  | .scaleUp opp oldFreq =>
    if oldFreq < opp.freq ∧ dev.vdd ≠ none then
      (regulatorSetVoltage dev o, if o = none then none else some (.setRate opp oldFreq))
    else (dev, some (.setRate opp oldFreq))
  | .setRate opp oldFreq =>
    (clkSetRate dev o, if o = none then none else some (.scaleDown opp oldFreq))
  | .scaleDown opp oldFreq =>
    let newFreq := dev.scmiClk.getD 0
    if opp.freq < oldFreq ∧ dev.vdd ≠ none then
      (regulatorSetVoltage dev o, some (.store opp oldFreq newFreq))
    else (dev, some (.store opp oldFreq newFreq))
  | .store opp oldFreq newFreq =>
    (if newFreq ≠ oldFreq then { dev with currentFreq := newFreq, currentVolt := opp.volt }
      else dev, none)

/-- A call that succeeds reaches the voltage asked for, or a rate not above the one asked for. -/
def allowed (o : Outcome) : TargetOp → Bool
  | .scaleUp opp _ | .scaleDown opp _ => o.all fun v => opp.volt ≤ v
  | .setRate opp _ => o.all fun rate => rate ≤ opp.freq
  | .store _ _ _ => true

/-! ## Runs -/

/-- `call` is what is left of the call in progress. -/
structure DvfsState where
  dev : DvfsDev
  call : Option TargetOp
  deriving DecidableEq, Repr

inductive DvfsLabel where
  | target (freq : ℕ) (flags : UInt32)
  | exec (o : Outcome)

def dvfsStep (table : OppTable) (s : DvfsState) : DvfsLabel → Option DvfsState
  | .target freq flags =>
    match s.call with
    | some _ => none
    | none =>
      match rknpuDevfreqTarget table s.dev freq flags with
      | .error _ => some s
      | .ok op => some { s with call := some op }
  | .exec o =>
    match s.call with
    | none => none
    | some op =>
      if allowed o op then
        let (dev, call) := targetExec s.dev o op
        some ⟨dev, call⟩
      else none

/-- The voltage `v` is at least that of the lowest OPP at or above the rate. -/
def Feeds (table : OppTable) (rate v : ℕ) : Prop :=
  ∃ opp, findFreqCeil table rate = some opp ∧ opp.volt ≤ v

/-- The regulator feeds the clock. -/
def Fed (table : OppTable) (dev : DvfsDev) : Prop :=
  ∃ rate v, dev.scmiClk = some rate ∧ dev.vdd = some v ∧ Feeds table rate v

/-- The calls from any state in which the regulator feeds the clock. -/
def dvfsSystem (table : OppTable) : System DvfsState DvfsLabel where
  init s := s.call = none ∧ Fed table s.dev
  step := dvfsStep table

/-! ## The table -/

section
variable {table : OppTable} {freq rate v : ℕ} {flags : UInt32} {opp : Opp}

theorem mem_of_findFreqFloor (h : findFreqFloor table freq = some opp) : opp ∈ table.opps := by
  apply (List.takeWhile_sublist fun opp : Opp => decide (opp.freq ≤ freq)).subset
  exact List.mem_of_getLast? h

theorem mem_of_recommended (h : devfreqRecommendedOpp table freq flags = .ok opp) :
    opp ∈ table.opps := by
  have hceil : ∀ {x}, findFreqCeil table freq = some x → x ∈ table.opps :=
    List.mem_of_find?_eq_some
  simp only [devfreqRecommendedOpp] at h
  split at h
  · rename_i found hfound
    cases h
    split_ifs at hfound
    · obtain hf | ⟨-, hc⟩ := Option.or_eq_some_iff.mp hfound
      · exact mem_of_findFreqFloor hf
      · exact hceil hc
    · obtain hc | ⟨-, hf⟩ := Option.or_eq_some_iff.mp hfound
      · exact hceil hc
      · exact mem_of_findFreqFloor hf
  · cases h

theorem feeds_of_mem (hmono : table.Monotone) (hmem : opp ∈ table.opps) (hrate : rate ≤ opp.freq)
    (hv : opp.volt ≤ v) : Feeds table rate v := by
  have hex : ∃ x, findFreqCeil table rate = some x := by
    apply Option.isSome_iff_exists.mp
    apply List.find?_isSome.mpr
    exact ⟨opp, hmem, decide_eq_true hrate⟩
  obtain ⟨low, hlow⟩ := hex
  refine ⟨low, hlow, Nat.le_trans ?_ hv⟩
  obtain ⟨-, before, after, heq, hbefore⟩ := List.find?_eq_some_iff_append.mp hlow
  have hpair := hmono
  unfold OppTable.Monotone at hpair
  rw [heq] at hmem hpair
  obtain hin | hin := List.mem_append.mp hmem
  · have hno := hbefore opp hin
    simp [hrate] at hno
  · obtain rfl | hin := List.mem_cons.mp hin
    · exact Nat.le_refl _
    · obtain ⟨-, htail, -⟩ := List.pairwise_append.mp hpair
      exact (List.pairwise_cons.mp htail).1 opp hin

theorem Feeds.mono (hmono : table.Monotone) {rate' : ℕ} (h : Feeds table rate v)
    (hle : rate' ≤ rate) : Feeds table rate' v := by
  obtain ⟨opp, hopp, hv⟩ := h
  unfold findFreqCeil at hopp
  have hfreq : rate ≤ opp.freq := by simpa using List.find?_some hopp
  exact feeds_of_mem hmono (List.mem_of_find?_eq_some hopp) (Nat.le_trans hle hfreq) hv

end

/-! ## Steps -/

/-- What a step of a call still relies on. -/
def TargetOp.Ready (table : OppTable) (rate v : ℕ) : TargetOp → Prop
  | .scaleUp opp oldFreq => opp ∈ table.opps ∧ oldFreq = rate
  | .setRate opp oldFreq => opp ∈ table.opps ∧ oldFreq = rate ∧ (rate < opp.freq → opp.volt ≤ v)
  | .scaleDown opp _ => opp ∈ table.opps ∧ rate ≤ opp.freq
  | .store _ _ _ => True

structure Supplied (table : OppTable) (s : DvfsState) (rate v : ℕ) : Prop where
  clk : s.dev.scmiClk = some rate
  vdd : s.dev.vdd = some v
  feeds : Feeds table rate v
  ready : ∀ op, s.call = some op → op.Ready table rate v

section
variable {table : OppTable} {s : DvfsState} {rate v : ℕ} {o : Outcome} {op : TargetOp}

/-- **One step of a call**: the voltage is raised before the clock, and lowered after it. -/
theorem Supplied.exec (hmono : table.Monotone) (hs : Supplied table s rate v)
    (hop : op.Ready table rate v) (ho : allowed o op = true) :
    ∃ rate' v', Supplied table ⟨(targetExec s.dev o op).1, (targetExec s.dev o op).2⟩ rate' v' := by
  have hvdd : s.dev.vdd ≠ none := by simp [hs.vdd]
  cases op with
  | scaleUp opp oldFreq =>
    obtain ⟨hmem, rfl⟩ := hop
    simp only [targetExec]
    by_cases hup : oldFreq < opp.freq
    · rw [if_pos ⟨hup, hvdd⟩]
      cases o with
      | none => exact ⟨oldFreq, v, hs.clk, hs.vdd, hs.feeds, by simp⟩
      | some v' =>
        have hv' : opp.volt ≤ v' := of_decide_eq_true ho
        refine ⟨oldFreq, v', hs.clk, rfl, feeds_of_mem hmono hmem (Nat.le_of_lt hup) hv', ?_⟩
        intro op hop
        cases hop
        exact ⟨hmem, rfl, fun _ => hv'⟩
    · rw [if_neg fun h => hup h.1]
      refine ⟨oldFreq, v, hs.clk, hs.vdd, hs.feeds, ?_⟩
      intro op hop
      cases hop
      exact ⟨hmem, rfl, fun h => (hup h).elim⟩
  | setRate opp oldFreq =>
    obtain ⟨hmem, rfl, hraised⟩ := hop
    simp only [targetExec]
    cases o with
    | none => exact ⟨oldFreq, v, hs.clk, hs.vdd, hs.feeds, by simp⟩
    | some rate' =>
      have hrate' : rate' ≤ opp.freq := of_decide_eq_true ho
      have hfeeds : Feeds table rate' v := by
        by_cases hup : oldFreq < opp.freq
        · exact feeds_of_mem hmono hmem hrate' (hraised hup)
        · exact hs.feeds.mono hmono (Nat.le_trans hrate' (Nat.le_of_not_lt hup))
      refine ⟨rate', v, rfl, hs.vdd, hfeeds, ?_⟩
      intro op hop
      cases hop
      exact ⟨hmem, hrate'⟩
  | scaleDown opp oldFreq =>
    obtain ⟨hmem, hle⟩ := hop
    have hstored : ∀ op, some (TargetOp.store opp oldFreq (s.dev.scmiClk.getD 0)) = some op →
        ∀ w, op.Ready table rate w := by
      intro op hop w
      cases hop
      trivial
    simp only [targetExec]
    by_cases hdown : opp.freq < oldFreq
    · rw [if_pos ⟨hdown, hvdd⟩]
      cases o with
      | none => exact ⟨rate, v, hs.clk, hs.vdd, hs.feeds, fun op hop => hstored op hop v⟩
      | some v' =>
        have hv' : opp.volt ≤ v' := of_decide_eq_true ho
        exact ⟨rate, v', hs.clk, rfl, feeds_of_mem hmono hmem hle hv',
          fun op hop => hstored op hop v'⟩
    · rw [if_neg fun h => hdown h.1]
      exact ⟨rate, v, hs.clk, hs.vdd, hs.feeds, fun op hop => hstored op hop v⟩
  | store opp oldFreq newFreq =>
    simp only [targetExec]
    refine ⟨rate, v, ?_, ?_, hs.feeds, by simp⟩
    · split_ifs <;> exact hs.clk
    · split_ifs <;> exact hs.vdd

theorem Supplied.step (hmono : table.Monotone) (hs : Supplied table s rate v) {a : DvfsLabel}
    {t : DvfsState} (h : dvfsStep table s a = some t) : ∃ rate' v', Supplied table t rate' v' := by
  cases a with
  | target freq flags =>
    simp only [dvfsStep] at h
    split at h
    · cases h
    · split at h
      · cases h
        exact ⟨rate, v, hs⟩
      · rename_i op hop
        cases h
        refine ⟨rate, v, hs.clk, hs.vdd, hs.feeds, ?_⟩
        intro x hx
        cases hx
        simp only [rknpuDevfreqTarget, hs.clk] at hop
        split at hop
        · cases hop
        · rename_i opp hopp
          cases hop
          exact ⟨mem_of_recommended hopp, rfl⟩
  | exec o =>
    simp only [dvfsStep] at h
    split at h
    · cases h
    · rename_i op hop
      split_ifs at h with ho
      cases h
      exact hs.exec hmono (hs.ready op hop) ho

/-- **The NPU is never undervolted**: after every step of every call, the regulator gives at least
the voltage of the lowest OPP at or above the rate of the clock. -/
theorem never_undervolted (hmono : table.Monotone) (hs : (dvfsSystem table).Reachable s) :
    Fed table s.dev := by
  have hsupplied : ∃ rate v, Supplied table s rate v := by
    refine hs.invariant (fun s => ∃ rate v, Supplied table s rate v) ?_ ?_
    · rintro s ⟨hcall, rate, v, hclk, hvdd, hfeeds⟩
      refine ⟨rate, v, hclk, hvdd, hfeeds, fun op hop => ?_⟩
      rw [hcall] at hop
      cases hop
    · rintro s a t ⟨rate, v, hs⟩ h
      exact hs.step hmono h
  obtain ⟨rate, v, hs⟩ := hsupplied
  exact ⟨rate, v, hs.clk, hs.vdd, hs.feeds⟩

end

/-- Some OPPs of the board. -/
def boardTable : OppTable where
  opps := [⟨200000000, 825000⟩, ⟨600000000, 825000⟩, ⟨700000000, 900000⟩,
    ⟨1000000000, 1050000⟩]
  sorted := by decide

/-- From the boot rate up to the highest OPP, to a rate a little below it, and half way down. -/
theorem never_undervolted_scaling : ∃ s, (dvfsSystem boardTable).Reachable s ∧
    s.dev.scmiClk = some 594000000 ∧ Fed boardTable s.dev := by
  have hinit : (dvfsSystem boardTable).init
      ⟨⟨some 198000000, some 825000, 198000000, 825000⟩, none⟩ :=
    ⟨rfl, 198000000, 825000, rfl, rfl, ⟨200000000, 825000⟩, by decide, by decide⟩
  obtain ⟨s, hs, h⟩ := System.Reachable.of_run_any (S := dvfsSystem boardTable)
    (p := fun s => decide (s.dev.scmiClk = some 594000000))
    (l := [.target 1100000000 0, .exec (some 1060000), .exec (some 990000000), .exec none,
      .exec none, .target 600000000 0, .exec none, .exec (some 594000000)]) hinit
    (by decide +kernel)
  exact ⟨s, hs, of_decide_eq_true h, never_undervolted (by decide) hs⟩

end RknpuDriver.Devfreq
