import RknpuDriver.Power.Hardware

/-! # How often a failed `rknpu_power_off` is tried again

`rknpu_power_put` and `rknpu_power_off_delay_work` restore the count after a failed
`rknpu_power_off` and call `rknpu_power_put_delay`, which without a delay calls
`rknpu_power_put`. A call is run here as a machine with the stack of the functions that have not
returned yet; `rets` are the results of `rknpu_power_off`, in the order of the attempts, and
`others` is what the other threads do to the device before each block.

With a delay the last release is left to `power_off_work`: a call makes one attempt at most and
is at most two functions deep. Without a delay, on a count of one, each failed attempt puts two
more functions on the stack, until an attempt succeeds (`power_off_retry_iff`).

* `callStep_exec`: the machine runs the blocks of the power system.
-/

namespace RknpuDriver.Power
open RknpuDriver.Lib
set_option autoImplicit false

/-- A function that has not returned: at its next block, or waiting for the one it called. -/
inductive Frame where
  | block (op : PowerOp)
  | waits
  deriving DecidableEq, Repr

structure CallState where
  dev : PowerDev
  stack : List Frame
  attempts : ℕ
  deriving DecidableEq, Repr

/-- The stack after a block of the top function; `rest` is what is below it. The locked block of
`rknpu_power_put_delay` is run by the same function, any other block by a new one. -/
def continueWith (rest : List Frame) : List PowerOp → List Frame
  | [] => rest
  | .putDelayLocked :: _ => .block .putDelayLocked :: rest
  | op :: _ => .block op :: .waits :: rest

def callStep (rets : ℕ → ℤ) (s : CallState) : CallState :=
  match s.stack with
  | [] => s
  | .waits :: rest => { s with stack := rest }
  | .block op :: rest =>
    let (dev, ops) := powerExec s.dev (rets s.attempts) op
    { dev := dev
      stack := continueWith rest ops
      attempts := s.attempts + (dev.powerOffs - s.dev.powerOffs) }

/-- The call after `n` steps. -/
def callRun (rets : ℕ → ℤ) (others : ℕ → PowerDev → PowerDev) (s : CallState) : ℕ → CallState
  | 0 => s
  | n + 1 =>
    let t := callRun rets others s n
    callStep rets { t with dev := others n t.dev }

/-- The functions that release a unit of the count. -/
inductive ReleaseCall where
  | put
  | putDelay
  | offDelayWork
  deriving DecidableEq, Repr

def ReleaseCall.entry : ReleaseCall → PowerOp
  | .put => .put
  | .putDelay => .putDelay
  | .offDelayWork => .offDelayWork

/-- A call of `f` that has just been entered. -/
def enter (dev : PowerDev) (f : ReleaseCall) : CallState := ⟨dev, [.block f.entry], 0⟩

/-- No other thread touches the device. -/
def alone (_ : ℕ) (dev : PowerDev) : PowerDev := dev

/-- Other threads that leave `power_put_delay` as it is. -/
def KeepDelay (others : ℕ → PowerDev → PowerDev) : Prop :=
  ∀ n dev, (others n dev).powerPutDelay = dev.powerPutDelay

def Returns (rets : ℕ → ℤ) (others : ℕ → PowerDev → PowerDev) (s : CallState) : Prop :=
  ∃ n, (callRun rets others s n).stack = []

/-- The call returns, and is never more than `depth` functions deep. -/
def BoundedBy (depth : ℕ) (rets : ℕ → ℤ) (others : ℕ → PowerDev → PowerDev)
    (s : CallState) : Prop :=
  Returns rets others s ∧ ∀ n, (callRun rets others s n).stack.length ≤ depth

/-! ## The call as a thread -/

/-- The blocks that the functions on the stack have called for. -/
def CallState.blocks (s : CallState) : List PowerOp :=
  s.stack.filterMap fun frame =>
    match frame with
    | .block op => some op
    | .waits => none

/-- A release calls for `rknpu_power_put_delay` or for nothing, and makes one attempt at most. -/
theorem releaseLast_retry (dev : PowerDev) (ret : ℤ) :
    ((releaseLast dev ret).2 = [] ∨ (releaseLast dev ret).2 = [.putDelay]) ∧
      (releaseLast dev ret).1.powerOffs ≤ dev.powerOffs + 1 ∧
      (releaseLast dev ret).1.powerPutDelay = dev.powerPutDelay := by
  unfold releaseLast
  dsimp only
  split_ifs <;> simp

theorem powerExec_powerPutDelay (dev : PowerDev) (ret : ℤ) (op : PowerOp) :
    (powerExec dev ret op).1.powerPutDelay = dev.powerPutDelay := by
  cases op with
  | get =>
    simp only [powerExec, rknpuPowerGet]
    split_ifs <;> rfl
  | put | offDelayWork => exact (releaseLast_retry dev ret).2.2
  | putDelay => rfl
  | putDelayLocked =>
    simp only [powerExec, rknpuPowerPutDelayLocked]
    split_ifs <;> rfl

theorem powerExec_calls (dev : PowerDev) (ret : ℤ) (op : PowerOp) :
    (powerExec dev ret op).2 = [] ∨ ∃ next, (powerExec dev ret op).2 = [next] := by
  cases op with
  | get | putDelayLocked => exact Or.inl rfl
  | put | offDelayWork =>
    obtain h | h := (releaseLast_retry dev ret).1
    · exact Or.inl h
    · exact Or.inr ⟨.putDelay, h⟩
  | putDelay =>
    simp only [powerExec, rknpuPowerPutDelay]
    split_ifs
    · exact Or.inr ⟨.put, rfl⟩
    · exact Or.inr ⟨.putDelayLocked, rfl⟩

theorem blocks_continueWith (dev : PowerDev) (rest : List Frame) (attempts : ℕ)
    (ops : List PowerOp) (hops : ops = [] ∨ ∃ next, ops = [next]) :
    (CallState.mk dev (continueWith rest ops) attempts).blocks =
      ops ++ (CallState.mk dev rest attempts).blocks := by
  obtain rfl | ⟨next, rfl⟩ := hops
  · rfl
  · cases next <;> rfl

/-- **The machine runs a thread of the power system**: a block of the top function is a step of
the thread whose blocks are those on the stack, with the same outcome. -/
theorem callStep_exec (rets : ℕ → ℤ) {s : PowerState} {tid : ℕ} {c : CallState} {op : PowerOp}
    {rest : List Frame} (hdev : c.dev = s.dev) (hstack : c.stack = .block op :: rest)
    (hthread : s.threads[tid]? = some c.blocks) :
    ∃ t, powerStep s (.exec tid (rets c.attempts)) = some t ∧ t.dev = (callStep rets c).dev ∧
      t.threads[tid]? = some (callStep rets c).blocks := by
  obtain ⟨dev, stack, attempts⟩ := c
  dsimp only at hdev hstack
  subst hdev hstack
  have hlt : tid < s.threads.length := (List.getElem?_eq_some_iff.mp hthread).1
  have hnext : nextBlock s.threads tid = some (op, (CallState.mk s.dev rest attempts).blocks) := by
    unfold nextBlock
    rw [hthread]
    rfl
  have hstep : powerStep s (.exec tid (rets attempts)) = some
      ⟨(powerExec s.dev (rets attempts) op).1, if op = .get then s.held + 1 else s.held,
        advance s.threads tid (powerExec s.dev (rets attempts) op).2
          (CallState.mk s.dev rest attempts).blocks⟩ := by
    simp only [powerStep, hnext]
  refine ⟨_, hstep, rfl, ?_⟩
  unfold advance
  rw [List.getElem?_set_self hlt]
  exact congrArg some (blocks_continueWith _ rest _ _
    (powerExec_calls s.dev (rets attempts) op)).symm

/-! ## With a delay -/

/-- The most steps a function on the stack can still take, while there is a delay. -/
def Frame.steps : Frame → ℕ
  | .block .put | .block .offDelayWork => 4
  | .block .putDelay => 2
  | .block .putDelayLocked | .block .get | .waits => 1

/-- An attempt that a function on the stack can still make. -/
def Frame.attempt : Frame → ℕ
  | .block .put | .block .offDelayWork => 1
  | _ => 0

def CallState.steps (s : CallState) : ℕ := (s.stack.map Frame.steps).sum

def CallState.attempt (s : CallState) : ℕ := (s.stack.map Frame.attempt).sum

/-- **One step of a call with a delay**: the steps left become fewer, and neither the attempts
nor the functions on the stack become more than those that could still come. -/
theorem callStep_settles {s : CallState} (hdelay : s.dev.powerPutDelay ≠ 0) (rets : ℕ → ℤ) :
    (callStep rets s).dev.powerPutDelay ≠ 0 ∧
      (callStep rets s).steps ≤ s.steps - 1 ∧
      (callStep rets s).attempts + (callStep rets s).attempt ≤ s.attempts + s.attempt ∧
      (callStep rets s).stack.length + (callStep rets s).attempt ≤
        s.stack.length + s.attempt := by
  obtain ⟨dev, stack, attempts⟩ := s
  cases stack with
  | nil => simpa [callStep, CallState.steps, CallState.attempt] using hdelay
  | cons frame rest =>
    cases frame with
    | waits =>
      refine ⟨hdelay, ?_, ?_, ?_⟩ <;>
        simp [callStep, CallState.steps, CallState.attempt, Frame.steps, Frame.attempt]
    | block op =>
      refine ⟨?_, ?_⟩
      · rw [show (callStep rets ⟨dev, .block op :: rest, attempts⟩).dev =
          (powerExec dev (rets attempts) op).1 from rfl, powerExec_powerPutDelay]
        exact hdelay
      · cases op with
        | get =>
          have hoff : (rknpuPowerGet dev (rets attempts)).powerOffs = dev.powerOffs := by
            unfold rknpuPowerGet
            dsimp only
            split_ifs <;> rfl
          simp [callStep, powerExec, continueWith, CallState.steps, CallState.attempt,
            Frame.steps, Frame.attempt, hoff]
        | put | offDelayWork =>
          obtain ⟨hcalls, hoff, -⟩ := releaseLast_retry dev (rets attempts)
          obtain hcalls | hcalls := hcalls <;>
          · simp only [callStep, powerExec, rknpuPowerPut, rknpuPowerOffDelayWork, hcalls,
              continueWith, CallState.steps, CallState.attempt, Frame.steps, Frame.attempt,
              List.map_cons, List.sum_cons, List.length_cons]
            omega
        | putDelay =>
          have hcalls : rknpuPowerPutDelay dev = [.putDelayLocked] := if_neg hdelay
          simp [callStep, powerExec, hcalls, continueWith, CallState.steps, CallState.attempt,
            Frame.steps, Frame.attempt]
        | putDelayLocked =>
          have hoff : (rknpuPowerPutDelayLocked dev).powerOffs = dev.powerOffs := by
            unfold rknpuPowerPutDelayLocked
            split_ifs <;> rfl
          simp [callStep, powerExec, continueWith, CallState.steps, CallState.attempt,
            Frame.steps, Frame.attempt, hoff]

theorem callRun_settles {s : CallState} (hdelay : s.dev.powerPutDelay ≠ 0) (rets : ℕ → ℤ)
    {others : ℕ → PowerDev → PowerDev} (hothers : KeepDelay others) (n : ℕ) :
    (callRun rets others s n).dev.powerPutDelay ≠ 0 ∧
      (callRun rets others s n).steps ≤ s.steps - n ∧
      (callRun rets others s n).attempts + (callRun rets others s n).attempt ≤
        s.attempts + s.attempt ∧
      (callRun rets others s n).stack.length + (callRun rets others s n).attempt ≤
        s.stack.length + s.attempt := by
  induction n with
  | zero => exact ⟨hdelay, le_rfl, le_rfl, le_rfl⟩
  | succ n ih =>
    obtain ⟨hdelay, hsteps, hattempts, hdepth⟩ := ih
    rw [← hothers n] at hdelay
    obtain ⟨hdelay', hsteps', hattempts', hdepth'⟩ :=
      callStep_settles (s := { callRun rets others s n with
        dev := others n (callRun rets others s n).dev }) hdelay rets
    refine ⟨hdelay', ?_, hattempts'.trans hattempts, hdepth'.trans hdepth⟩
    calc (callRun rets others s (n + 1)).steps
        ≤ (callRun rets others s n).steps - 1 := hsteps'
      _ ≤ s.steps - (n + 1) := by omega

theorem stack_of_steps {s : CallState} (h : s.steps = 0) : s.stack = [] := by
  obtain ⟨dev, stack, attempts⟩ := s
  cases stack with
  | nil => rfl
  | cons frame rest =>
    have hpos : 0 < frame.steps := by
      cases frame with
      | waits => exact Nat.one_pos
      | block op => cases op <;> simp [Frame.steps]
    simp only [CallState.steps, List.map_cons, List.sum_cons] at h
    omega

/-- With a delay every call returns, after one attempt at most and two functions deep at most,
whatever the other threads do. -/
theorem returns_of_delay {dev : PowerDev} (hdelay : dev.powerPutDelay ≠ 0) (f : ReleaseCall)
    (rets : ℕ → ℤ) {others : ℕ → PowerDev → PowerDev} (hothers : KeepDelay others) :
    BoundedBy 2 rets others (enter dev f) ∧
      ∀ n, (callRun rets others (enter dev f) n).attempts ≤ 1 := by
  have hsteps : (enter dev f).steps ≤ 4 := by cases f <;> simp [enter, CallState.steps,
    ReleaseCall.entry, Frame.steps]
  have hattempt : (enter dev f).attempt ≤ 1 := by cases f <;> simp [enter, CallState.attempt,
    ReleaseCall.entry, Frame.attempt]
  have hrun := fun n => callRun_settles (s := enter dev f) hdelay rets hothers n
  have hzero : (enter dev f).attempts = 0 := rfl
  have hone : (enter dev f).stack.length = 1 := rfl
  refine ⟨⟨⟨4, stack_of_steps ?_⟩, fun n => ?_⟩, fun n => ?_⟩
  · have h4 := (hrun 4).2.1
    omega
  · have hdepth := (hrun n).2.2.2
    omega
  · have hattempts := (hrun n).2.2.1
    omega

/-! ## Without a delay -/

theorem callRun_succ (rets : ℕ → ℤ) (others : ℕ → PowerDev → PowerDev) (s : CallState) (n : ℕ) :
    callRun rets others s (n + 1) =
      callRun rets (fun i => others (i + 1))
        (callStep rets { s with dev := others 0 s.dev }) n := by
  induction n with
  | zero => rfl
  | succ n ih =>
    rw [callRun, ih]
    rfl

theorem Returns.of_step {rets : ℕ → ℤ} {s : CallState} (h : Returns rets alone (callStep rets s)) :
    Returns rets alone s := by
  obtain ⟨n, hn⟩ := h
  exact ⟨n + 1, by rwa [callRun_succ]⟩

theorem BoundedBy.of_step {depth : ℕ} {rets : ℕ → ℤ} {s : CallState}
    (h : BoundedBy depth rets alone (callStep rets s)) (hdepth : s.stack.length ≤ depth) :
    BoundedBy depth rets alone s := by
  refine ⟨Returns.of_step h.1, fun n => ?_⟩
  cases n with
  | zero => exact hdepth
  | succ n =>
    rw [callRun_succ]
    exact h.2 n

theorem callRun_returned {rets : ℕ → ℤ} {s : CallState} (h : s.stack = []) (n : ℕ) :
    callRun rets alone s n = s := by
  induction n with
  | zero => rfl
  | succ n ih =>
    rw [callRun_succ]
    have hstep : callStep rets s = s := by simp only [callStep, h]
    exact (congrArg (fun t => callRun rets alone t n) hstep).trans ih

theorem BoundedBy.of_returned {depth : ℕ} {rets : ℕ → ℤ} {s : CallState} (h : s.stack = []) :
    BoundedBy depth rets alone s := by
  refine ⟨⟨0, h⟩, fun n => ?_⟩
  rw [callRun_returned h, h]
  exact Nat.zero_le depth

theorem stack_of_waits {s : CallState} {rest : List Frame} (h : s.stack = .waits :: rest)
    (rets : ℕ → ℤ) : (callStep rets s).stack = rest := by
  obtain ⟨dev, stack, attempts⟩ := s
  dsimp only at h
  subst h
  rfl

theorem returns_waits (rets : ℕ → ℤ) (dev : PowerDev) (depth attempts : ℕ) :
    Returns rets alone ⟨dev, List.replicate depth .waits, attempts⟩ := by
  induction depth with
  | zero => exact ⟨0, rfl⟩
  | succ depth ih => exact Returns.of_step ih

theorem releaseLast_calm {dev : PowerDev} (h : dev.powerRefcount ≠ 1) (ret : ℤ) :
    (releaseLast dev ret).2 = [] := by
  have hdec : (atomicDecIfPositive dev.powerRefcount).2 ≠ 0 :=
    fun hzero => h (atomicDecIfPositive_eq_zero.mp hzero)
  unfold releaseLast
  dsimp only
  rw [if_neg hdec]

theorem callStep_putDelay {dev : PowerDev} (hdelay : dev.powerPutDelay = 0) (rets : ℕ → ℤ)
    (rest : List Frame) (attempts : ℕ) :
    callStep rets ⟨dev, .block .putDelay :: rest, attempts⟩ =
      ⟨dev, .block .put :: .waits :: rest, attempts⟩ := by
  simp [callStep, powerExec, rknpuPowerPutDelay, hdelay, continueWith]

theorem bounded_of_calm {dev : PowerDev} (hdelay : dev.powerPutDelay = 0)
    (hcount : dev.powerRefcount ≠ 1) (f : ReleaseCall) (rets : ℕ → ℤ) :
    BoundedBy 2 rets alone (enter dev f) := by
  have hrelease := releaseLast_calm hcount (rets 0)
  cases f with
  | put | offDelayWork =>
    refine BoundedBy.of_step (BoundedBy.of_returned ?_) (Nat.le_succ 1)
    exact congrArg (continueWith []) hrelease
  | putDelay =>
    refine BoundedBy.of_step ?_ (Nat.le_succ 1)
    rw [enter, ReleaseCall.entry, callStep_putDelay hdelay]
    refine BoundedBy.of_step ?_ le_rfl
    have hwaits : (callStep rets ⟨dev, [.block .put, .waits], 0⟩).stack = [.waits] :=
      congrArg (continueWith [.waits]) hrelease
    refine BoundedBy.of_step (BoundedBy.of_returned (stack_of_waits hwaits rets)) ?_
    rw [hwaits]
    exact Nat.le_succ 1

/-- `rknpu_power_off` is tried again on a count of one, with no delay. -/
structure Retrying (s : CallState) : Prop where
  delay : s.dev.powerPutDelay = 0
  count : s.dev.powerRefcount = 1
  top : ∃ (f : ReleaseCall) (rest : List Frame), s.stack = .block f.entry :: rest

theorem retrying_step {rets : ℕ → ℤ} {s : CallState} (hs : Retrying s)
    (hret : rets s.attempts ≠ 0) :
    Retrying (callStep rets s) ∧ (callStep rets s).stack.length = s.stack.length + 1 := by
  obtain ⟨dev, stack, attempts⟩ := s
  obtain ⟨hdelay, hcount, f, rest, rfl⟩ := hs
  dsimp only at hdelay hcount hret
  have hpos : 0 < dev.powerRefcount := by omega
  have hrelease : releaseLast dev (rets attempts) =
      ({ dev with powerRefcount := 1, powerOffs := dev.powerOffs + 1 }, [.putDelay]) := by
    obtain ⟨hlt, -⟩ | ⟨-, hzero, -⟩ | ⟨-, -, h⟩ := releaseLast_cases hpos (rets attempts)
    · omega
    · exact absurd hzero hret
    · exact h
  cases f with
  | put | offDelayWork =>
    simp only [callStep, ReleaseCall.entry, powerExec, rknpuPowerPut, rknpuPowerOffDelayWork,
      hrelease]
    exact ⟨⟨hdelay, rfl, .putDelay, .waits :: rest, rfl⟩, rfl⟩
  | putDelay =>
    simp only [callStep, ReleaseCall.entry, powerExec, rknpuPowerPutDelay, hdelay, if_true]
    exact ⟨⟨hdelay, hcount, .put, .waits :: rest, rfl⟩, rfl⟩

theorem callRun_retrying {rets : ℕ → ℤ} (hrets : ∀ n, rets n ≠ 0) {s : CallState}
    (hs : Retrying s) (n : ℕ) :
    Retrying (callRun rets alone s n) ∧
      (callRun rets alone s n).stack.length = s.stack.length + n := by
  induction n with
  | zero => exact ⟨hs, rfl⟩
  | succ n ih =>
    obtain ⟨hstep, hlength⟩ := retrying_step ih.1 (hrets (callRun rets alone s n).attempts)
    refine ⟨hstep, ?_⟩
    calc (callRun rets alone s (n + 1)).stack.length
        = (callRun rets alone s n).stack.length + 1 := hlength
      _ = s.stack.length + (n + 1) := by rw [ih.2, add_assoc]

theorem callStep_release {f : ReleaseCall} (hf : f ≠ .putDelay) (rets : ℕ → ℤ) (dev : PowerDev)
    (rest : List Frame) (attempts : ℕ) :
    callStep rets ⟨dev, .block f.entry :: rest, attempts⟩ =
      ⟨(releaseLast dev (rets attempts)).1,
        continueWith rest (releaseLast dev (rets attempts)).2,
        attempts + ((releaseLast dev (rets attempts)).1.powerOffs - dev.powerOffs)⟩ := by
  cases f with
  | put | offDelayWork => rfl
  | putDelay => exact absurd rfl hf

theorem returns_of_success {rets : ℕ → ℤ} (more : ℕ) {f : ReleaseCall} (hf : f ≠ .putDelay)
    {dev : PowerDev} (hdelay : dev.powerPutDelay = 0) (hcount : dev.powerRefcount = 1)
    (depth attempts : ℕ) (hsuccess : rets (attempts + more) = 0) :
    Returns rets alone ⟨dev, .block f.entry :: List.replicate depth .waits, attempts⟩ := by
  induction more generalizing f dev depth attempts with
  | zero =>
    have hpos : 0 < dev.powerRefcount := by omega
    refine Returns.of_step ?_
    rw [callStep_release hf]
    obtain ⟨hlt, -⟩ | ⟨-, -, h⟩ | ⟨-, hne, -⟩ := releaseLast_cases hpos (rets attempts)
    · omega
    · rw [h]
      exact returns_waits rets _ depth _
    · exact absurd hsuccess hne
  | succ more ih =>
    have hpos : 0 < dev.powerRefcount := by omega
    refine Returns.of_step ?_
    rw [callStep_release hf]
    obtain ⟨hlt, -⟩ | ⟨-, -, h⟩ | ⟨-, -, h⟩ := releaseLast_cases hpos (rets attempts)
    · omega
    · rw [h]
      exact returns_waits rets _ depth _
    · rw [h]
      let dev' := { dev with powerRefcount := 1, powerOffs := dev.powerOffs + 1 }
      have hrest := @ih .put (by decide) dev' hdelay rfl (depth + 2) (attempts + 1)
        (by rwa [add_assoc, add_comm 1 more])
      rw [Nat.add_sub_cancel_left]
      refine Returns.of_step ?_
      exact (@callStep_putDelay dev' hdelay rets _ _).symm ▸ hrest

/-- Another thread brings the count to one before the first block. -/
def countOnce : ℕ → PowerDev → PowerDev
  | 0, dev => { dev with powerRefcount := 1 }
  | _ + 1, dev => dev

theorem keepDelay_countOnce : KeepDelay countOnce := by
  intro n dev
  cases n <;> rfl

theorem keepDelay_alone : KeepDelay alone := fun _ _ => rfl

theorem callRun_countOnce (rets : ℕ → ℤ) (s : CallState) (n : ℕ) :
    callRun rets countOnce s (n + 1) =
      callRun rets alone { s with dev := countOnce 0 s.dev } (n + 1) := by
  rw [callRun_succ, callRun_succ]
  rfl

theorem length_of_failing {rets : ℕ → ℤ} (hrets : ∀ n, rets n ≠ 0) {dev : PowerDev}
    (hdelay : dev.powerPutDelay = 0) (hcount : dev.powerRefcount = 1) (f : ReleaseCall) (n : ℕ) :
    (callRun rets alone (enter dev f) n).stack.length = n + 1 := by
  rw [(callRun_retrying hrets ⟨hdelay, hcount, f, [], rfl⟩ n).2, add_comm]
  rfl

theorem returns_of_attempt {rets : ℕ → ℤ} {dev : PowerDev} (hdelay : dev.powerPutDelay = 0)
    (hcount : dev.powerRefcount = 1) (f : ReleaseCall) {n : ℕ} (hn : rets n = 0) :
    Returns rets alone (enter dev f) := by
  have hsuccess : rets (0 + n) = 0 := by rwa [zero_add]
  cases f with
  | put => exact returns_of_success n (f := .put) (by decide) hdelay hcount 0 0 hsuccess
  | offDelayWork =>
    exact returns_of_success n (f := .offDelayWork) (by decide) hdelay hcount 0 0 hsuccess
  | putDelay =>
    refine Returns.of_step ?_
    rw [enter, ReleaseCall.entry, callStep_putDelay hdelay]
    exact returns_of_success n (f := .put) (by decide) hdelay hcount 1 0 hsuccess

theorem returns_of_cases {rets : ℕ → ℤ} {dev : PowerDev} (f : ReleaseCall)
    (h : dev.powerPutDelay ≠ 0 ∨ dev.powerRefcount ≠ 1 ∨ ∃ n, rets n = 0) :
    Returns rets alone (enter dev f) := by
  by_cases hdelay : dev.powerPutDelay = 0
  · by_cases hcount : dev.powerRefcount = 1
    · obtain hne | hne | ⟨n, hn⟩ := h
      · exact absurd hdelay hne
      · exact absurd hcount hne
      · exact returns_of_attempt hdelay hcount f hn
    · exact (bounded_of_calm hdelay hcount f rets).1
  · exact (returns_of_delay hdelay f rets keepDelay_alone).1.1

/-- **When the retry of a failed power-off is bounded.** With a delay, and only then, every call
returns with a bounded stack for every sequence of results and whatever the other threads do to
the count. A call that is alone is bounded also on a count other than one; on a count of one
without a delay it returns only if some attempt succeeds. -/
theorem power_off_retry_iff (dev : PowerDev) (f : ReleaseCall) :
    ((∃ depth, ∀ rets others, KeepDelay others → BoundedBy depth rets others (enter dev f)) ↔
        dev.powerPutDelay ≠ 0) ∧
      ((∃ depth, ∀ rets, BoundedBy depth rets alone (enter dev f)) ↔
        dev.powerPutDelay ≠ 0 ∨ dev.powerRefcount ≠ 1) ∧
      (∀ rets, Returns rets alone (enter dev f) ↔
        dev.powerPutDelay ≠ 0 ∨ dev.powerRefcount ≠ 1 ∨ ∃ n, rets n = 0) ∧
      (dev.powerPutDelay ≠ 0 → ∀ rets others, KeepDelay others →
        BoundedBy 2 rets others (enter dev f) ∧
          ∀ n, (callRun rets others (enter dev f) n).attempts ≤ 1) := by
  refine ⟨⟨?_, fun h => ?_⟩, ⟨?_, fun h => ?_⟩, fun rets => ⟨fun h => ?_, fun h => ?_⟩,
    fun h rets others hothers => returns_of_delay h f rets hothers⟩
  · rintro ⟨depth, hbound⟩ hdelay
    have hdepth := (hbound (fun _ => -1) countOnce keepDelay_countOnce).2 (depth + 1)
    rw [callRun_countOnce] at hdepth
    have hlength := @length_of_failing (fun _ => -1) (fun _ => by decide)
      (countOnce 0 dev) hdelay rfl f (depth + 1)
    simp only [enter] at hdepth hlength
    omega
  · exact ⟨2, fun rets others hothers => (returns_of_delay h f rets hothers).1⟩
  · rintro ⟨depth, hbound⟩
    by_contra hcond
    obtain ⟨hdelay, hcount⟩ := not_or.mp hcond
    have hdepth := (hbound fun _ => -1).2 depth
    rw [length_of_failing (fun _ => by decide) (not_not.mp hdelay) (not_not.mp hcount)] at hdepth
    omega
  · refine ⟨2, fun rets => ?_⟩
    by_cases hdelay : dev.powerPutDelay = 0
    · exact bounded_of_calm hdelay (h.resolve_left fun hne => hne hdelay) f rets
    · exact (returns_of_delay hdelay f rets keepDelay_alone).1
  · by_contra hcond
    simp only [not_or, not_not, not_exists] at hcond
    obtain ⟨hdelay, hcount, hrets⟩ := hcond
    obtain ⟨n, hn⟩ := h
    have hlength := length_of_failing hrets hdelay hcount f n
    rw [hn] at hlength
    exact absurd hlength (Nat.succ_ne_zero n).symm
  · exact returns_of_cases f h

/-- `readx_poll_timeout` gives up in each attempt, on a device with several power domains. -/
def iommuStaysEnabled (_ : ℕ) : ℤ :=
  (rknpuPowerOff ⟨true, fun _ => true⟩ ⟨0, fun _ => 0, 0, -110, le_rfl, by decide⟩
    ⟨1, fun _ => 1, 1⟩).2

/-- Without a delay the put of the last get then never returns, and its depth has no bound. -/
theorem power_off_retry_endless :
    (∀ n, (callRun iommuStaysEnabled alone (enter ⟨1, 0, false, true, 0⟩ .put) n).stack ≠ []) ∧
      ¬∃ depth, BoundedBy depth iommuStaysEnabled alone (enter ⟨1, 0, false, true, 0⟩ .put) := by
  have hlength := @length_of_failing iommuStaysEnabled
    (fun _ => show (-110 : ℤ) ≠ 0 by decide)
    ⟨1, 0, false, true, 0⟩ rfl rfl .put
  refine ⟨fun n hn => ?_, ?_⟩
  · have h := hlength n
    rw [hn] at h
    exact absurd h (Nat.succ_ne_zero n).symm
  · rintro ⟨depth, -, hdepth⟩
    have h := hdepth depth
    rw [hlength] at h
    omega

end RknpuDriver.Power
