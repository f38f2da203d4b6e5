import RknpuDriver.Basic
import RknpuDriver.Lib.System
import RknpuDriver.Lib.Threads
import Mathlib.Tactic.SplitIfs

/-! # The power reference count of `rknpu_drv.c`

Everything between `mutex_lock(&power_lock)` and its unlock is one block; the read of
`power_put_delay` before it is a block of its own. What `rknpu_power_on` and `rknpu_power_off`
return is chosen by the label of the step that calls them. The count is an integer: an
`atomic_t` holds one unit for each thread inside the driver, far below its bound.

A release is *deferred* while it waits in `power_off_work`, queued or started. The count is
the outstanding gets plus the deferred releases, in every run (`Exact`); the power state
follows the count as long as the hardware calls succeed (`powered_step`).
-/

namespace RknpuDriver.Power
open RknpuDriver.Lib
set_option autoImplicit false

/-- The power fields of `struct rknpu_device`. `powered` and `powerOffs` are the hardware's:
whether the NPU is on, and how often `rknpu_power_off` was called. -/
structure PowerDev where
  powerRefcount : ℤ
  powerPutDelay : ℕ
  workPending : Bool
  powered : Bool
  powerOffs : ℕ
  deriving DecidableEq, Repr

/-- The blocks of the four functions. -/
inductive PowerOp where
  | get
  | put
  | putDelay
  | putDelayLocked
  | offDelayWork
  deriving DecidableEq, Repr

/-- `atomic_dec_if_positive`: the new count and the value returned. -/
def atomicDecIfPositive (count : ℤ) : ℤ × ℤ :=
  if 0 ≤ count - 1 then (count - 1, count - 1) else (count, count - 1)

/-- The locked block of `rknpu_power_get`. -/
def rknpuPowerGet (dev : PowerDev) (ret : ℤ) : PowerDev :=
  let dev := { dev with powerRefcount := dev.powerRefcount + 1 }
  if dev.powerRefcount = 1 then { dev with powered := dev.powered || ret = 0 } else dev

theorem rknpuPowerGet_powerRefcount (dev : PowerDev) (ret : ℤ) :
    (rknpuPowerGet dev ret).powerRefcount = dev.powerRefcount + 1 := by
  simp only [rknpuPowerGet]
  split_ifs <;> rfl

/-- The locked block `rknpu_power_put` and `rknpu_power_off_delay_work` share: on an error of
`rknpu_power_off` the count is restored, and `rknpu_power_put_delay` is called afterwards. -/
def releaseLast (dev : PowerDev) (ret : ℤ) : PowerDev × List PowerOp :=
  let (count, dec) := atomicDecIfPositive dev.powerRefcount
  if dec = 0 then
    let dev := { dev with powerRefcount := count, powerOffs := dev.powerOffs + 1 }
    if ret ≠ 0 then ({ dev with powerRefcount := count + 1 }, [.putDelay])
    else ({ dev with powered := false }, [])
  else ({ dev with powerRefcount := count }, [])

/-- `rknpu_power_put`. -/
def rknpuPowerPut (dev : PowerDev) (ret : ℤ) : PowerDev × List PowerOp := releaseLast dev ret

/-- `rknpu_power_off_delay_work`. -/
def rknpuPowerOffDelayWork (dev : PowerDev) (ret : ℤ) : PowerDev × List PowerOp :=
  releaseLast dev ret

/-- `rknpu_power_put_delay`, up to its lock. -/
def rknpuPowerPutDelay (dev : PowerDev) : List PowerOp :=
  if dev.powerPutDelay = 0 then [.put] else [.putDelayLocked]

/-- The locked block of `rknpu_power_put_delay`; queueing a pending work changes nothing. -/
def rknpuPowerPutDelayLocked (dev : PowerDev) : PowerDev :=
  if dev.powerRefcount = 1 then { dev with workPending := true }
  else { dev with powerRefcount := (atomicDecIfPositive dev.powerRefcount).1 }

def powerExec (dev : PowerDev) (ret : ℤ) : PowerOp → PowerDev × List PowerOp
  | .get => (rknpuPowerGet dev ret, [])
  | .put => rknpuPowerPut dev ret
  | .putDelay => (dev, rknpuPowerPutDelay dev)
  | .putDelayLocked => (rknpuPowerPutDelayLocked dev, [])
  | .offDelayWork => rknpuPowerOffDelayWork dev ret

/-! ## Runs -/

/-- `held` counts the gets that returned and were not given to a put yet. -/
structure PowerState where
  dev : PowerDev
  held : ℕ
  threads : List (List PowerOp)
  deriving DecidableEq, Repr

/-- A thread calls one of the functions, somebody writes `power_put_delay`, the work's timer
expires, or thread `tid` runs its next block. -/
inductive PowerLabel where
  | get
  | put
  | putDelay
  | setDelay (ms : ℕ)
  | fire
  | exec (tid : ℕ) (ret : ℤ)
  deriving DecidableEq, Repr

def powerStep (s : PowerState) : PowerLabel → Option PowerState
  | .get => some { s with threads := s.threads ++ [[.get]] }
  | .put =>
    if 0 < s.held then some { s with held := s.held - 1, threads := s.threads ++ [[.put]] }
    else none
  | .putDelay =>
    if 0 < s.held then some { s with held := s.held - 1, threads := s.threads ++ [[.putDelay]] }
    else none
  | .setDelay ms => some { s with dev := { s.dev with powerPutDelay := ms } }
  | .fire =>
    if s.dev.workPending then
      some { s with
        dev := { s.dev with workPending := false }
        threads := s.threads ++ [[.offDelayWork]] }
    else none
  | .exec tid ret =>
    match nextBlock s.threads tid with
    | none => none
    | some (op, rest) =>
      let (dev, ops) := powerExec s.dev ret op
      some {
        dev := dev
        held := if op = .get then s.held + 1 else s.held
        threads := advance s.threads tid ops rest }

theorem powerStep_exec {s t : PowerState} {tid : ℕ} {ret : ℤ}
    (h : powerStep s (.exec tid ret) = some t) :
    ∃ op rest, nextBlock s.threads tid = some (op, rest) ∧
      t = ⟨(powerExec s.dev ret op).1, if op = .get then s.held + 1 else s.held,
        advance s.threads tid (powerExec s.dev ret op).2 rest⟩ := by
  simp only [powerStep] at h
  split at h
  · cases h
  · rename_i op rest hnext
    cases h
    exact ⟨op, rest, hnext, rfl⟩

/-- All histories of a device that `rknpu_probe` has left powered off. -/
def powerSystem : System PowerState PowerLabel where
  init s := ∃ delay, s = ⟨⟨0, delay, false, false, 0⟩, 0, []⟩
  step := powerStep

/-- `rknpu_power_on` and `rknpu_power_off` return `0`. -/
def Succeeds (_ : PowerState) : PowerLabel → Prop
  | .exec _ ret => ret = 0
  | _ => True

instance (s : PowerState) (label : PowerLabel) : Decidable (Succeeds s label) := by
  cases label <;> unfold Succeeds <;> infer_instance

/-! ## The count -/

/-- What a block that waits to run still holds of the count, when it is a put. -/
def PowerOp.releases : PowerOp → ℕ
  | .put | .putDelay | .putDelayLocked => 1
  | .get | .offDelayWork => 0

theorem atomicDecIfPositive_pos {count : ℤ} (h : 0 < count) :
    atomicDecIfPositive count = (count - 1, count - 1) := by
  unfold atomicDecIfPositive
  rw [if_pos (by omega)]

theorem atomicDecIfPositive_eq_zero {count : ℤ} :
    (atomicDecIfPositive count).2 = 0 ↔ count = 1 := by
  unfold atomicDecIfPositive
  split_ifs <;>
  · simp only
    omega

theorem releaseLast_cases {dev : PowerDev} (h : 0 < dev.powerRefcount) (ret : ℤ) :
    (1 < dev.powerRefcount ∧
      releaseLast dev ret = ({ dev with powerRefcount := dev.powerRefcount - 1 }, [])) ∨
    (dev.powerRefcount = 1 ∧ ret = 0 ∧ releaseLast dev ret =
      ({ dev with powerRefcount := 0, powerOffs := dev.powerOffs + 1, powered := false }, [])) ∨
    (dev.powerRefcount = 1 ∧ ret ≠ 0 ∧ releaseLast dev ret =
      ({ dev with powerRefcount := 1, powerOffs := dev.powerOffs + 1 }, [.putDelay])) := by
  unfold releaseLast
  rw [atomicDecIfPositive_pos h]
  by_cases h1 : dev.powerRefcount = 1
  · by_cases hret : ret = 0 <;> simp [h1, hret]
  · have hne : dev.powerRefcount - 1 ≠ 0 := by omega
    simp only [hne, if_false]
    exact Or.inl ⟨by omega, trivial⟩

/-- A started work that did not take the lock yet. -/
def PowerOp.defers : PowerOp → ℕ
  | .offDelayWork => 1
  | _ => 0

/-- What a block adds to the gets that are held. -/
def PowerOp.gained : PowerOp → ℕ
  | .get => 1
  | _ => 0

def PowerDev.queued (dev : PowerDev) : ℕ := if dev.workPending then 1 else 0

/-- Gets that no put has released. -/
def PowerState.outstanding (s : PowerState) : ℕ := s.held + weigh PowerOp.releases s.threads

/-- Releases left to `power_off_work`: queued, or started and not run. -/
def PowerState.deferred (s : PowerState) : ℕ :=
  s.dev.queued + weigh PowerOp.defers s.threads

/-- The count is exact, and at most one release is deferred. -/
structure Exact (s : PowerState) : Prop where
  count : s.dev.powerRefcount = s.outstanding + s.deferred
  once : s.deferred ≤ 1

/-- **One block**: the count moves by the get it finishes, the releases it makes or gives up,
and the work it queues. A work is queued only for the last unit of the count, by a put. -/
theorem powerExec_balance (dev : PowerDev) (op : PowerOp) (ret : ℤ)
    (hpos : 0 < op.releases + op.defers → 0 < dev.powerRefcount)
    (hlast : 0 < op.releases → dev.powerRefcount = 1 → dev.queued = 0) :
    (powerExec dev ret op).1.powerRefcount + op.releases + op.defers + dev.queued =
        dev.powerRefcount + op.gained + ((powerExec dev ret op).2.map PowerOp.releases).sum +
          (powerExec dev ret op).1.queued ∧
      ((powerExec dev ret op).2.map PowerOp.defers).sum = 0 ∧
      ((powerExec dev ret op).1.queued = dev.queued ∨
        dev.powerRefcount = 1 ∧ 0 < op.releases ∧ (powerExec dev ret op).1.queued = 1) := by
  cases op with
  | get =>
    simp only [powerExec, rknpuPowerGet]
    split_ifs <;> simp [PowerOp.gained, PowerOp.releases, PowerOp.defers, PowerDev.queued]
  | put | offDelayWork =>
    have hcount : 0 < dev.powerRefcount := hpos (by decide)
    simp only [powerExec, rknpuPowerPut, rknpuPowerOffDelayWork]
    obtain ⟨-, hr⟩ | ⟨h1, -, hr⟩ | ⟨h1, -, hr⟩ := releaseLast_cases hcount ret <;>
    · rw [hr]
      simp [PowerOp.gained, PowerOp.releases, PowerOp.defers, PowerDev.queued, *]
  | putDelay =>
    simp only [powerExec, rknpuPowerPutDelay]
    split_ifs <;> simp [PowerOp.gained, PowerOp.releases, PowerOp.defers]
  | putDelayLocked =>
    have hcount : 0 < dev.powerRefcount := hpos (by decide)
    simp only [powerExec, rknpuPowerPutDelayLocked]
    by_cases h1 : dev.powerRefcount = 1
    · rw [hlast (by decide) h1]
      simp [PowerOp.gained, PowerOp.releases, PowerOp.defers, PowerDev.queued, h1]
    · rw [if_neg h1, atomicDecIfPositive_pos hcount]
      simp [PowerOp.gained, PowerOp.releases, PowerOp.defers, PowerDev.queued]

theorem Exact.count_pos {s : PowerState} (hs : Exact s) {op : PowerOp}
    (h : op ∈ pending s.threads) (hop : 0 < op.releases + op.defers) :
    0 < s.dev.powerRefcount := by
  have hcount := hs.count
  have hr := le_weigh h PowerOp.releases
  have hd := le_weigh h PowerOp.defers
  unfold PowerState.outstanding PowerState.deferred at hcount
  omega

theorem exact_step {s t : PowerState} {label : PowerLabel} (hs : Exact s)
    (h : powerStep s label = some t) : Exact t := by
  have hcount := hs.count
  have honce := hs.once
  cases label with
  | get =>
    cases h
    constructor <;> simpa [PowerState.outstanding, PowerState.deferred, weigh_spawn,
      PowerOp.releases, PowerOp.defers] using ‹_›
  | put | putDelay =>
    simp only [powerStep] at h
    split_ifs at h with hheld
    cases h
    constructor
    · simp only [PowerState.outstanding, PowerState.deferred, weigh_spawn, PowerOp.releases,
        PowerOp.defers, List.map_cons, List.map_nil, List.sum_singleton] at hcount ⊢
      omega
    · simpa [PowerState.deferred, weigh_spawn, PowerOp.defers] using honce
  | setDelay ms =>
    cases h
    exact ⟨hcount, honce⟩
  | fire =>
    simp only [powerStep] at h
    split_ifs at h with hpend
    cases h
    constructor <;>
    · simp only [PowerState.outstanding, PowerState.deferred, PowerDev.queued, weigh_spawn,
        PowerOp.releases, PowerOp.defers, List.map_cons, List.map_nil, List.sum_singleton, hpend,
        if_true] at *
      simp
      omega
  | exec tid ret =>
    obtain ⟨op, rest, hnext, rfl⟩ := powerStep_exec h
    have hpos := hs.count_pos (mem_pending_of_nextBlock hnext)
    have hrle := le_weigh (mem_pending_of_nextBlock hnext) PowerOp.releases
    have hrel := weigh_advance hnext PowerOp.releases (powerExec s.dev ret op).2
    have hdef := weigh_advance hnext PowerOp.defers (powerExec s.dev ret op).2
    unfold PowerState.outstanding at hcount
    unfold PowerState.deferred at hcount honce
    have hlast : 0 < op.releases → s.dev.powerRefcount = 1 → s.dev.queued = 0 := by
      omega
    obtain ⟨hbal, hzero, hq⟩ := powerExec_balance s.dev op ret hpos hlast
    have hheld : (if op = .get then s.held + 1 else s.held) = s.held + op.gained := by
      cases op <;> rfl
    constructor <;>
    · simp only [PowerState.outstanding, PowerState.deferred, hheld]
      omega

/-! ## The power state -/

theorem powered_exec {dev : PowerDev} {op : PowerOp}
    (hdev : dev.powered = true ↔ 0 < dev.powerRefcount)
    (hpos : 0 ≤ dev.powerRefcount)
    (hrel : 0 < op.releases + op.defers → 0 < dev.powerRefcount) :
    ((powerExec dev 0 op).1.powered = true ↔ 0 < (powerExec dev 0 op).1.powerRefcount) := by
  cases op with
  | get =>
    simp only [powerExec, rknpuPowerGet]
    split_ifs with h1
    · simp [h1]
    · simp only [hdev]
      omega
  | put | offDelayWork =>
    have hcount : 0 < dev.powerRefcount := hrel (by decide)
    simp only [powerExec, rknpuPowerPut, rknpuPowerOffDelayWork]
    obtain ⟨h1, hr⟩ | ⟨-, -, hr⟩ | ⟨-, hne, -⟩ := releaseLast_cases hcount 0
    · rw [hr]
      simp only [hdev]
      omega
    · simp [hr]
    · exact absurd rfl hne
  | putDelay => exact hdev
  | putDelayLocked =>
    have hcount : 0 < dev.powerRefcount := hrel (by decide)
    simp only [powerExec, rknpuPowerPutDelayLocked]
    split_ifs with h1
    · exact hdev
    · rw [atomicDecIfPositive_pos hcount]
      simp only [hdev]
      omega

theorem powerOffs_exec {dev : PowerDev} {op : PowerOp}
    (hrel : 0 < op.releases + op.defers → 0 < dev.powerRefcount)
    (h : (powerExec dev 0 op).1.powerOffs ≠ dev.powerOffs) :
    (powerExec dev 0 op).1.powerRefcount = 0 := by
  cases op with
  | get =>
    simp only [powerExec, rknpuPowerGet] at h
    split_ifs at h <;> exact absurd rfl h
  | put | offDelayWork =>
    have hcount : 0 < dev.powerRefcount := hrel (by decide)
    simp only [powerExec, rknpuPowerPut, rknpuPowerOffDelayWork] at h ⊢
    obtain ⟨-, hr⟩ | ⟨-, -, hr⟩ | ⟨-, hne, -⟩ := releaseLast_cases hcount 0
    · rw [hr] at h
      exact absurd rfl h
    · rw [hr]
    · exact absurd rfl hne
  | putDelay => exact absurd rfl h
  | putDelayLocked =>
    simp only [powerExec, rknpuPowerPutDelayLocked] at h
    split_ifs at h <;> exact absurd rfl h

theorem powered_step {s t : PowerState} {label : PowerLabel} (hs : Exact s)
    (hp : s.dev.powered = true ↔ 0 < s.dev.powerRefcount) (hok : Succeeds s label)
    (h : powerStep s label = some t) :
    (t.dev.powered = true ↔ 0 < t.dev.powerRefcount) ∧
      (t.dev.powerOffs ≠ s.dev.powerOffs → t.dev.powerRefcount = 0) := by
  cases label with
  | get | setDelay ms =>
    cases h
    exact ⟨hp, fun hne => absurd rfl hne⟩
  | put | putDelay | fire =>
    simp only [powerStep] at h
    split_ifs at h
    cases h
    exact ⟨hp, fun hne => absurd rfl hne⟩
  | exec tid ret =>
    obtain rfl : ret = 0 := hok
    obtain ⟨op, rest, hnext, rfl⟩ := powerStep_exec h
    have hpos := hs.count_pos (mem_pending_of_nextBlock hnext)
    have hcount := hs.count
    exact ⟨powered_exec hp (by omega) hpos, powerOffs_exec hpos⟩

/-- **The count on every run of succeeding hardware calls**: the outstanding gets plus the
deferred releases, of which there is at most one; the NPU is on exactly while it is positive,
and no step that calls `rknpu_power_off` leaves a get outstanding. -/
theorem power_refcount_exact {s : PowerState}
    (hs : (powerSystem.guarded Succeeds).Reachable s) :
    s.dev.powerRefcount = s.outstanding + s.deferred ∧ s.deferred ≤ 1 ∧
      (s.dev.powered = true ↔ 0 < s.dev.powerRefcount) ∧
      ∀ label t, (powerSystem.guarded Succeeds).step s label = some t →
        t.dev.powerOffs ≠ s.dev.powerOffs → t.outstanding = 0 := by
  have hexact : Exact s ∧ (s.dev.powered = true ↔ 0 < s.dev.powerRefcount) := by
    refine hs.invariant (fun s => Exact s ∧ (s.dev.powered = true ↔ 0 < s.dev.powerRefcount))
      ?_ ?_
    · rintro s ⟨delay, rfl⟩
      exact ⟨⟨rfl, Nat.zero_le 1⟩, by simp⟩
    · rintro s label t ⟨hs, hp⟩ hstep
      obtain ⟨hok, hstep⟩ := System.guarded_step.mp hstep
      exact ⟨exact_step hs hstep, (powered_step hs hp hok hstep).1⟩
  obtain ⟨hs, hp⟩ := hexact
  refine ⟨hs.count, hs.once, hp, fun label t hstep hoff => ?_⟩
  obtain ⟨hok, hstep⟩ := System.guarded_step.mp hstep
  have hzero := (powered_step hs hp hok hstep).2 hoff
  have hcount := (exact_step hs hstep).count
  omega

/-- A get whose release is deferred, and a second get before the work runs. -/
theorem power_refcount_exact_deferred :
    ∃ s, (powerSystem.guarded Succeeds).run ⟨⟨0, 500, false, false, 0⟩, 0, []⟩
        [.get, .exec 0 0, .putDelay, .exec 1 0, .exec 1 0, .fire, .get, .exec 3 0] = some s ∧
      s.outstanding = 1 ∧ s.dev.powerRefcount = s.outstanding + s.deferred ∧
      s.deferred ≤ 1 ∧ (s.dev.powered = true ↔ 0 < s.dev.powerRefcount) := by
  refine ⟨⟨⟨2, 500, false, true, 0⟩, 1, [[], [], [.offDelayWork], []]⟩, by decide, by decide, ?_⟩
  obtain ⟨hcount, honce, hp, -⟩ := power_refcount_exact (s := ⟨⟨2, 500, false, true, 0⟩, 1,
    [[], [], [.offDelayWork], []]⟩) ⟨⟨⟨0, 500, false, false, 0⟩, 0, []⟩, [.get, .exec 0 0,
      .putDelay, .exec 1 0, .exec 1 0, .fire, .get, .exec 3 0], ⟨500, rfl⟩, by decide⟩
  exact ⟨hcount, honce, hp⟩

end RknpuDriver.Power
