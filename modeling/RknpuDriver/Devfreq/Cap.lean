import RknpuDriver.Devfreq.Target

/-! # The rates asked of the SCMI clock

What calls `clk_set_rate` on the SCMI clock: `rknpu_devfreq_init`, the governor through
`rknpu_devfreq_target`, writes to the sysfs file `rknpu_freq`, and writes to the debugfs files
`freq_hz` and `freq_mhz` of `rknpu_debugfs_ctrl.c`.

* `Request.rates`: the rates that a request passes to `clk_set_rate`.
* `RoundsWithin`: a table that rounds a capped frequency to one within the cap.
* `capped_iff`: the requests that keep to `RKNPU_MAX_FREQ`.
-/

namespace RknpuDriver.Devfreq
set_option autoImplicit false

/-! ## The entry points -/

/-- `kstrtoul` in base 10 of the text before its NUL: a sign, the digits, at most one newline. -/
def kstrtoul (buf : List Char) : Except ℤ ℕ :=
  let s := if buf.head? = some '+' then buf.tail else buf
  let digits := s.takeWhile Char.isDigit
  let freq := digits.foldl (fun n c => n * 10 + (c.toNat - '0'.toNat)) 0
  if 2 ^ 64 ≤ freq then .error (-erange)
  else if digits = [] then .error (-einval)
  else
    let rest := s.dropWhile Char.isDigit
    if rest = [] ∨ rest = ['\n'] then .ok freq else .error (-einval)

/-- `rknpu_freq_store`, up to the choice of the OPP. -/
def rknpuFreqStore (table : OppTable) (dev : DvfsDev) (buf : List Char) : Except ℤ TargetOp :=
  match kstrtoul buf with
  | .error e => .error e
  | .ok freq =>
    let freq := if rknpuMaxFreq < freq then rknpuMaxFreq else freq
    rknpuDevfreqTarget table dev freq 0

/-- The clock that a debugfs file sets: the SCMI clock, or the first one of the device tree. -/
inductive SetRate where
  | scmi (rate : ℕ)
  | clks0 (rate : ℕ)
  deriving DecidableEq, Repr

/-- `freq_hz_set`; a clock of `clks` is `none` for a null pointer. -/
def freqHzSet (dev : DvfsDev) (clks : List (Option ℕ)) (val : UInt64) : Except ℤ SetRate :=
  match dev.scmiClk, clks with
  | some _, _ => .ok (.scmi val.toNat)
  | none, some _ :: _ => .ok (.clks0 val.toNat)
  | none, _ => .error (-enodev)

def freqMhzSet (dev : DvfsDev) (clks : List (Option ℕ)) (val : UInt64) : Except ℤ SetRate :=
  freqHzSet dev clks (val * 1000000)

/-- The rate at which `rknpu_devfreq_init` starts the SCMI clock. -/
def initialRate (dev : DvfsDev) : List ℕ :=
  match dev.scmiClk with
  | none => []
  | some _ => [200000000]

inductive Request where
  | init
  | governor (freq : UInt64) (flags : UInt32)
  | freqStore (buf : List Char)
  | freqHz (val : UInt64)
  | freqMhz (val : UInt64)
  deriving DecidableEq, Repr

/-- What is left of a call of `rknpu_devfreq_target` passes these rates to `clk_set_rate`, when
its steps end with the given outcomes. -/
def targetRates : DvfsDev → Option TargetOp → List Outcome → List ℕ
  | dev, some op, o :: os =>
    let (dev', call) := targetExec dev o op
    match op with
    | .setRate opp _ => opp.freq :: targetRates dev' call os
    | _ => targetRates dev' call os
  | _, _, _ => []

def callRates (dev : DvfsDev) (os : List Outcome) : Except ℤ TargetOp → List ℕ
  | .error _ => []
  | .ok op => targetRates dev (some op) os

def scmiRates : Except ℤ SetRate → List ℕ
  | .ok (.scmi rate) => [rate]
  | _ => []

/-- The rates that a request passes to `clk_set_rate` on the SCMI clock. -/
def Request.rates (table : OppTable) (dev : DvfsDev) (clks : List (Option ℕ))
    (os : List Outcome) : Request → List ℕ
  | .init => initialRate dev
  | .governor freq flags => callRates dev os (rknpuDevfreqTarget table dev freq.toNat flags)
  | .freqStore buf => callRates dev os (rknpuFreqStore table dev buf)
  | .freqHz val => scmiRates (freqHzSet dev clks val)
  | .freqMhz val => scmiRates (freqMhzSet dev clks val)

/-! ## Rounding -/

/-- With the cap applied to `freq`, the table has an OPP to round it to within the cap: one from
there up to the cap, or none from there on; when `freq` is an upper bound, any one up to the
cap. -/
def RoundsWithin (table : OppTable) (freq : ℕ) (flags : UInt32) : Prop :=
  if flags &&& devfreqFlagLeastUpperBound ≠ 0 then
    table.opps = [] ∨ ∃ opp ∈ table.opps, opp.freq ≤ rknpuMaxFreq
  else
    (∀ opp ∈ table.opps, opp.freq < min freq rknpuMaxFreq) ∨
      ∃ opp ∈ table.opps, min freq rknpuMaxFreq ≤ opp.freq ∧ opp.freq ≤ rknpuMaxFreq

section
variable {table : OppTable} {freq : ℕ} {flags : UInt32} {opp low : Opp}

theorem le_of_findFreqCeil (h : findFreqCeil table freq = some low) : freq ≤ low.freq := by
  unfold findFreqCeil at h
  simpa using List.find?_some h

theorem findFreqCeil_le (h : findFreqCeil table freq = some low) (hmem : opp ∈ table.opps)
    (hfreq : freq ≤ opp.freq) : low.freq ≤ opp.freq := by
  obtain ⟨-, before, after, heq, hbefore⟩ := List.find?_eq_some_iff_append.mp h
  have hsorted := table.sorted
  rw [heq] at hmem hsorted
  obtain hin | hin := List.mem_append.mp hmem
  · have hno := hbefore opp hin
    simp [hfreq] at hno
  · obtain rfl | hin := List.mem_cons.mp hin
    · exact Nat.le_refl _
    · obtain ⟨-, htail, -⟩ := List.pairwise_append.mp hsorted
      exact Nat.le_of_lt ((List.pairwise_cons.mp htail).1 opp hin)

theorem findFreqCeil_eq_none :
    findFreqCeil table freq = none ↔ ∀ opp ∈ table.opps, opp.freq < freq := by
  simp [findFreqCeil]

theorem findFreqFloor_le (h : findFreqFloor table freq = some opp) : opp.freq ≤ freq := by
  have hall := List.all_takeWhile (p := fun opp : Opp => decide (opp.freq ≤ freq)) (l := table.opps)
  exact of_decide_eq_true (List.all_eq_true.mp hall opp (List.mem_of_getLast? h))

theorem lt_of_findFreqFloor (h : findFreqFloor table freq = none) (hmem : opp ∈ table.opps) :
    freq < opp.freq := by
  rw [findFreqFloor, List.getLast?_eq_none_iff] at h
  have hsorted := table.sorted
  cases htable : table.opps with
  | nil =>
    rw [htable] at hmem
    cases hmem
  | cons first rest =>
    rw [htable] at h hmem hsorted
    have hfirst : freq < first.freq := by
      apply Nat.lt_of_not_le
      intro hle
      simp [hle] at h
    obtain rfl | hin := List.mem_cons.mp hmem
    · exact hfirst
    · exact Nat.lt_trans hfirst ((List.pairwise_cons.mp hsorted).1 opp hin)

/-- **The rounding**: what is recommended for a capped frequency is within the cap. -/
theorem recommended_le_iff :
    (∀ opp, devfreqRecommendedOpp table (min freq rknpuMaxFreq) flags = .ok opp →
      opp.freq ≤ rknpuMaxFreq) ↔ RoundsWithin table freq flags := by
  have hcap : min freq rknpuMaxFreq ≤ rknpuMaxFreq := Nat.min_le_right _ _
  unfold RoundsWithin devfreqRecommendedOpp
  generalize min freq rknpuMaxFreq = f at hcap ⊢
  by_cases hflag : flags &&& devfreqFlagLeastUpperBound ≠ 0
  · simp only [if_pos hflag]
    cases hfloor : findFreqFloor table f with
    | some found =>
      have hle : found.freq ≤ rknpuMaxFreq := Nat.le_trans (findFreqFloor_le hfloor) hcap
      constructor
      · intro _
        exact .inr ⟨found, mem_of_findFreqFloor hfloor, hle⟩
      · intro _ opp hopp
        cases hopp
        exact hle
    | none =>
      cases hceil : findFreqCeil table f with
      | none =>
        constructor
        · intro _
          left
          apply List.eq_nil_iff_forall_not_mem.mpr
          intro opp hmem
          have habove := lt_of_findFreqFloor hfloor hmem
          have hbelow := findFreqCeil_eq_none.mp hceil opp hmem
          omega
        · intro _ opp hopp
          cases hopp
      | some low =>
        have hlow : low ∈ table.opps := List.mem_of_find?_eq_some hceil
        constructor
        · intro h
          exact .inr ⟨low, hlow, h low rfl⟩
        · intro h opp hopp
          cases hopp
          obtain hnil | ⟨opp, hmem, hle⟩ := h
          · rw [hnil] at hlow
            cases hlow
          · have habove := Nat.le_of_lt (lt_of_findFreqFloor hfloor hmem)
            exact Nat.le_trans (findFreqCeil_le hceil hmem habove) hle
  · simp only [if_neg hflag]
    cases hceil : findFreqCeil table f with
    | some low =>
      have hlow : low ∈ table.opps := List.mem_of_find?_eq_some hceil
      constructor
      · intro h
        exact .inr ⟨low, hlow, le_of_findFreqCeil hceil, h low rfl⟩
      · intro h opp hopp
        cases hopp
        obtain hbelow | ⟨opp, hmem, hf, hle⟩ := h
        · have := hbelow low hlow
          have := le_of_findFreqCeil hceil
          omega
        · exact Nat.le_trans (findFreqCeil_le hceil hmem hf) hle
    | none =>
      constructor
      · intro _
        exact .inl (findFreqCeil_eq_none.mp hceil)
      · intro _ opp hopp
        cases hfloor : findFreqFloor table f with
        | none =>
          rw [hfloor] at hopp
          cases hopp
        | some found =>
          rw [hfloor] at hopp
          cases hopp
          exact Nat.le_trans (findFreqFloor_le hfloor) hcap

end

/-! ## Requests -/

section
variable {table : OppTable} {dev : DvfsDev} {op : TargetOp} {opp : Opp} {oldFreq rate : ℕ}

theorem targetRates_scaleDown (os : List Outcome) :
    targetRates dev (some (.scaleDown opp oldFreq)) os = [] := by
  cases os with
  | nil => rfl
  | cons o os =>
    have hstore : ∀ dev' newFreq, targetRates dev' (some (.store opp oldFreq newFreq)) os = [] := by
      intro dev' newFreq
      cases os with
      | nil => rfl
      | cons o os => cases os <;> rfl
    simp only [targetRates, targetExec]
    split_ifs <;> exact hstore _ _

theorem targetRates_setRate {os : List Outcome}
    (h : rate ∈ targetRates dev (some (.setRate opp oldFreq)) os) : rate = opp.freq := by
  cases os with
  | nil => cases h
  | cons o os =>
    simp only [targetRates, targetExec] at h
    obtain rfl | h := List.mem_cons.mp h
    · rfl
    · split_ifs at h
      · cases os <;> cases h
      · rw [targetRates_scaleDown] at h
        cases h

theorem eq_of_mem_targetRates {os : List Outcome}
    (h : rate ∈ targetRates dev (some (.scaleUp opp oldFreq)) os) : rate = opp.freq := by
  cases os with
  | nil => cases h
  | cons o os =>
    simp only [targetRates, targetExec] at h
    split_ifs at h
    · cases os <;> cases h
    · exact targetRates_setRate h
    · exact targetRates_setRate h

theorem mem_targetRates (v : ℕ) :
    opp.freq ∈ targetRates dev (some (.scaleUp opp oldFreq)) [some v, some opp.freq] := by
  simp only [targetRates, targetExec]
  split_ifs with hup hnone
  · cases hnone
  · exact List.mem_cons_self
  · exact List.mem_cons_self

/-- **A call of `rknpu_devfreq_target`** keeps to the cap when the rounding does. -/
theorem target_capped_iff {freq : ℕ} {flags : UInt32} :
    (∀ os, ∀ rate ∈ callRates dev os (rknpuDevfreqTarget table dev freq flags),
      rate ≤ rknpuMaxFreq) ↔
      (dev.scmiClk = none ∨ RoundsWithin table freq flags) := by
  have hmin : (if rknpuMaxFreq < freq then rknpuMaxFreq else freq) = min freq rknpuMaxFreq := by
    split_ifs <;> omega
  cases hclk : dev.scmiClk with
  | none => simp [rknpuDevfreqTarget, callRates, hclk]
  | some old =>
    simp only [rknpuDevfreqTarget, hclk, hmin, reduceCtorEq, false_or]
    rw [← recommended_le_iff]
    cases hopp : devfreqRecommendedOpp table (min freq rknpuMaxFreq) flags with
    | error e => simp [callRates]
    | ok opp =>
      constructor
      · intro h x hx
        cases hx
        exact h [some 0, some opp.freq] _ (mem_targetRates 0)
      · intro h os rate hrate
        rw [eq_of_mem_targetRates hrate]
        exact h opp rfl

/-- The requests within the cap: those to a device without the SCMI clock, those whose frequency
the table rounds within the cap, and the values of the debugfs files up to it. -/
def Request.WithinCap (table : OppTable) (dev : DvfsDev) : Request → Prop
  | .init => True
  | .governor freq flags => dev.scmiClk = none ∨ RoundsWithin table freq.toNat flags
  | .freqStore buf =>
    ∀ freq, kstrtoul buf = .ok freq → dev.scmiClk = none ∨ RoundsWithin table freq 0
  | .freqHz val => dev.scmiClk = none ∨ val.toNat ≤ rknpuMaxFreq
  | .freqMhz val => dev.scmiClk = none ∨ val.toNat * 1000000 % 2 ^ 64 ≤ rknpuMaxFreq

theorem roundsWithin_capped {freq : ℕ} {flags : UInt32} :
    RoundsWithin table (min freq rknpuMaxFreq) flags ↔ RoundsWithin table freq flags := by
  unfold RoundsWithin
  rw [Nat.min_assoc, Nat.min_self]

theorem freqHz_capped_iff {clks : List (Option ℕ)} {val : UInt64} :
    (∀ rate ∈ scmiRates (freqHzSet dev clks val), rate ≤ rknpuMaxFreq) ↔
      (dev.scmiClk = none ∨ val.toNat ≤ rknpuMaxFreq) := by
  cases hclk : dev.scmiClk with
  | some old => simp [freqHzSet, scmiRates, hclk]
  | none =>
    obtain _ | ⟨_ | clk, clks⟩ := clks <;> simp [freqHzSet, scmiRates, hclk]

/-- **The cap on every path**: a request passes no rate above `RKNPU_MAX_FREQ` to the SCMI clock,
whatever its calls return, exactly when it is within the cap. -/
theorem capped_iff (table : OppTable) (dev : DvfsDev) (clks : List (Option ℕ))
    (request : Request) :
    (∀ os, ∀ rate ∈ request.rates table dev clks os, rate ≤ rknpuMaxFreq) ↔
      request.WithinCap table dev := by
  cases request with
  | init =>
    simp only [Request.rates, Request.WithinCap, initialRate, iff_true]
    intro _ rate hrate
    split at hrate
    · cases hrate
    · rw [List.mem_singleton.mp hrate]
      decide
  | governor freq flags => exact target_capped_iff
  | freqStore buf =>
    simp only [Request.rates, Request.WithinCap, rknpuFreqStore]
    cases hbuf : kstrtoul buf with
    | error e => simp [callRates]
    | ok freq =>
      have hmin : (if rknpuMaxFreq < freq then rknpuMaxFreq else freq) =
          min freq rknpuMaxFreq := by
        split_ifs <;> omega
      simp only [hmin, Except.ok.injEq, forall_eq']
      rw [target_capped_iff, roundsWithin_capped]
  | freqHz val =>
    simp only [Request.rates, Request.WithinCap, forall_const]
    exact freqHz_capped_iff
  | freqMhz val =>
    simp only [Request.rates, Request.WithinCap, forall_const, freqMhzSet]
    rw [freqHz_capped_iff, UInt64.toNat_mul]
    rfl

end

/-- A table with no OPP between 600 and 1100 MHz. -/
def gapTable : OppTable where
  opps := [⟨600000000, 825000⟩, ⟨1100000000, 1100000⟩]
  sorted := by decide

/-- The device at its boot rate. -/
def bootDev : DvfsDev := ⟨some 198000000, some 825000, 198000000, 825000⟩

/-- A governor's request for 1000 MHz is rounded up past the cap, and a write of 1188 MHz goes to
the clock as it is. -/
theorem uncapped_rates :
    ¬ (∀ rate ∈ (Request.governor 1000000000 0).rates gapTable bootDev []
      [some 1100000, some 1100000000], rate ≤ rknpuMaxFreq) ∧
    ¬ (∀ rate ∈ (Request.freqMhz 1188).rates boardTable bootDev [] [], rate ≤ rknpuMaxFreq) := by
  decide

end RknpuDriver.Devfreq
