import RknpuDriver.Power.Refcount

/-! # The power node of `rknpu_debugger.c`

A write of `on` or `off` to the power node, atomic operation by atomic operation, among threads
that call the functions of `Power.Refcount`. An `on` counts itself in `cmdline_power_refcount`
and then calls `rknpu_power_get`. An `off` takes one unit of that count, reads what is left,
subtracts it from `power_refcount`, sets the count to zero and calls `rknpu_power_put`. It takes
no lock, so other writes run in between.

While no write comes between the read of an `off` and its store (`Undisturbed`), the units of
`power_refcount` are those of the other users and those counted for the power node (`Counted`).
-/

namespace RknpuDriver.Power
open RknpuDriver.Lib
set_option autoImplicit false

/-- A block of another user, or one of `rknpu_power_set`. -/
inductive ManualOp where
  | user (op : PowerOp)
  | incCmdline
  | manualGet
  | readRefcount
  | decCmdline
  | readCmdline
  | subRefcount (n : ℤ)
  | clearCmdline
  deriving DecidableEq, Repr

structure ManualDev where
  dev : PowerDev
  cmdlinePowerRefcount : ℤ
  deriving DecidableEq, Repr

/-- What `rknpu_power_set` does with `on` and with `off`. -/
def rknpuPowerSet (on : Bool) : List ManualOp := if on then [.incCmdline] else [.readRefcount]

/-- One block, and the blocks it calls for. -/
def manualExec (m : ManualDev) (ret : ℤ) : ManualOp → ManualDev × List ManualOp
  | .user op =>
    let (dev, ops) := powerExec m.dev ret op
    ({ m with dev := dev }, ops.map .user)
  | .incCmdline =>
    ({ m with cmdlinePowerRefcount := m.cmdlinePowerRefcount + 1 }, [.manualGet])
  | .manualGet => ({ m with dev := rknpuPowerGet m.dev ret }, [])
  | .readRefcount => (m, if 0 < m.dev.powerRefcount then [.decCmdline] else [])
  | .decCmdline =>
    let (count, dec) := atomicDecIfPositive m.cmdlinePowerRefcount
    ({ m with cmdlinePowerRefcount := count }, if 0 ≤ dec then [.readCmdline] else [])
  | .readCmdline => (m, [.subRefcount m.cmdlinePowerRefcount])
  | .subRefcount n =>
    ({ m with dev := { m.dev with powerRefcount := m.dev.powerRefcount - n } }, [.clearCmdline])
  | .clearCmdline => ({ m with cmdlinePowerRefcount := 0 }, [.user .put])

/-! ## Runs -/

/-- `held` counts the gets of the other users that were not given to a put yet. `offLast`: among
the blocks by which an `on` counts itself and an `off` decides, the last one was of an `off`. -/
structure ManualState where
  node : ManualDev
  held : ℕ
  threads : List (List ManualOp)
  offLast : Bool
  deriving DecidableEq, Repr

/-- An `off` has decided when it finds nothing to release, and when it stores the zero. -/
def decides (m : ManualDev) (offLast : Bool) : ManualOp → Bool
  | .user _ | .readCmdline | .subRefcount _ => offLast
  | .incCmdline | .manualGet => false
  | .readRefcount => if 0 < m.dev.powerRefcount then offLast else true
  | .decCmdline => if 0 ≤ (atomicDecIfPositive m.cmdlinePowerRefcount).2 then offLast else true
  | .clearCmdline => true

/-- As in `PowerLabel`; a `write` is one to the power node. -/
inductive ManualLabel where
  | get
  | put
  | putDelay
  | setDelay (ms : ℕ)
  | fire
  | write (on : Bool)
  | exec (tid : ℕ) (ret : ℤ)
  deriving DecidableEq, Repr

def ManualState.call (s : ManualState) (ops : List ManualOp) : ManualState :=
  { s with threads := s.threads ++ [ops] }

def manualStep (s : ManualState) : ManualLabel → Option ManualState
  | .get => some (s.call [.user .get])
  | .put =>
    if 0 < s.held then some ({ s with held := s.held - 1 }.call [.user .put]) else none
  | .putDelay =>
    if 0 < s.held then some ({ s with held := s.held - 1 }.call [.user .putDelay]) else none
  | .setDelay ms =>
    some { s with node := { s.node with dev := { s.node.dev with powerPutDelay := ms } } }
  | .fire =>
    if s.node.dev.workPending then
      some ({ s with
        node := { s.node with dev := { s.node.dev with workPending := false } } }.call
          [.user .offDelayWork])
    else none
  | .write on => some (s.call (rknpuPowerSet on))
  | .exec tid ret =>
    match nextBlock s.threads tid with
    | none => none
    | some (op, rest) =>
      let (node, ops) := manualExec s.node ret op
      some {
        node := node
        held := if op = .user .get then s.held + 1 else s.held
        threads := advance s.threads tid ops rest
        offLast := decides s.node s.offLast op }

theorem manualStep_exec {s t : ManualState} {tid : ℕ} {ret : ℤ}
    (h : manualStep s (.exec tid ret) = some t) :
    ∃ op rest, nextBlock s.threads tid = some (op, rest) ∧
      t = ⟨(manualExec s.node ret op).1, if op = .user .get then s.held + 1 else s.held,
        advance s.threads tid (manualExec s.node ret op).2 rest,
        decides s.node s.offLast op⟩ := by
  simp only [manualStep] at h
  split at h
  · cases h
  · rename_i op rest hnext
    cases h
    exact ⟨op, rest, hnext, rfl⟩

/-- All histories of a device that `rknpu_probe` has left powered off. -/
def manualSystem : System ManualState ManualLabel where
  init s := ∃ delay, s = ⟨⟨⟨0, delay, false, false, 0⟩, 0⟩, 0, [], false⟩
  step := manualStep

/-! ## What the waiting blocks hold -/

namespace ManualOp

def releases : ManualOp → ℕ
  | user op => op.releases
  | _ => 0

def defers : ManualOp → ℕ
  | user op => op.defers
  | _ => 0

/-- An `on` that has counted itself and has not called `rknpu_power_get` yet. -/
def gets : ManualOp → ℕ
  | manualGet => 1
  | _ => 0

/-- An `off` that has taken its unit and has not read what is left. -/
def reads : ManualOp → ℕ
  | readCmdline => 1
  | _ => 0

def subs : ManualOp → ℕ
  | subRefcount _ => 1
  | _ => 0

def clears : ManualOp → ℕ
  | clearCmdline => 1
  | _ => 0

end ManualOp

/-- Gets of other users, and units the writes have handed to a put, that no put has released. -/
def ManualState.outstanding (s : ManualState) : ℕ := s.held + weigh ManualOp.releases s.threads

def ManualState.deferred (s : ManualState) : ℕ :=
  s.node.dev.queued + weigh ManualOp.defers s.threads

/-- The `off`s between their read of `cmdline_power_refcount` and their store. -/
def ManualState.window (s : ManualState) : ℕ :=
  weigh ManualOp.subs s.threads + weigh ManualOp.clears s.threads

/-- **No write comes in between**: while an `off` is between its read of the count and its
store, no other write changes or reads the count; and when it reads, each `on` that has counted
itself has called `rknpu_power_get`. -/
def Undisturbed (s : ManualState) : ManualLabel → Prop
  | .exec tid _ =>
    match nextBlock s.threads tid with
    | some (.incCmdline, _) => s.window = 0
    | some (.decCmdline, _) =>
      0 < s.node.cmdlinePowerRefcount → s.window = 0
    | some (.readCmdline, _) =>
      s.window = 0 ∧ weigh ManualOp.gets s.threads = 0
    | _ => True
  | _ => True

instance (s : ManualState) (label : ManualLabel) : Decidable (Undisturbed s label) := by
  unfold Undisturbed
  split
  · split <;> infer_instance
  · infer_instance

/-- No write to the power node is in progress, up to its call of `rknpu_power_put`. -/
def ManualState.WritersDone (s : ManualState) : Prop :=
  ∀ op ∈ pending s.threads, ∃ userOp, op = .user userOp

/-! ## The two counts -/

/-- The units of `power_refcount` (`P`), when `others` of them are not the power node's, `C` is
`cmdline_power_refcount`, and the writes in progress are counted by what they have still to do:
an `off` that subtracts has taken all units that are counted, and one more. -/
structure Tallied (P C : ℤ) (others gets reads subs clears : ℕ) : Prop where
  once : subs + clears ≤ 1
  alone : 0 < subs + clears → gets = 0
  nonneg : 0 ≤ C
  covered : gets ≤ C + reads
  count : P + gets = others + reads + subs + clears + if clears = 0 then C else 0

section
variable {P C : ℤ} {others gets reads subs clears : ℕ}

/-- The count is never below what the other users hold and have to release. -/
theorem Tallied.le (h : Tallied P C others gets reads subs clears) : others ≤ P := by
  obtain ⟨-, halone, hnonneg, hcovered, hcount⟩ := h
  split_ifs at hcount <;> omega

/-- With nothing left to take, the other users hold the whole count. -/
theorem Tallied.eq (h : Tallied P C others gets reads subs clears)
    (hnone : gets = 0 ∧ reads = 0 ∧ subs = 0 ∧ clears = 0) (hC : C ≤ 0) : P = others := by
  obtain ⟨-, -, hnonneg, -, hcount⟩ := h
  split_ifs at hcount <;> omega

theorem Tallied.cmdline_le (h : Tallied P C others gets reads subs clears) (hP : P ≤ 0) :
    C ≤ gets := by
  obtain ⟨-, halone, hnonneg, hcovered, hcount⟩ := h
  split_ifs at hcount <;> omega

theorem Tallied.move {P' : ℤ} {others' : ℕ} (h : Tallied P C others gets reads subs clears)
    (hmove : P' + others = P + others') : Tallied P' C others' gets reads subs clears := by
  obtain ⟨honce, halone, hnonneg, hcovered, hcount⟩ := h
  exact ⟨honce, halone, hnonneg, hcovered, by omega⟩

theorem Tallied.inc (h : Tallied P C others gets reads subs clears) (hw : subs + clears = 0) :
    Tallied P (C + 1) others (gets + 1) reads subs clears := by
  obtain ⟨honce, -, hnonneg, hcovered, hcount⟩ := h
  have hclears : clears = 0 := by omega
  rw [if_pos hclears] at hcount
  refine ⟨honce, by omega, by omega, by push_cast; omega, ?_⟩
  rw [if_pos hclears]
  push_cast
  omega

theorem Tallied.get (h : Tallied P C others (gets + 1) reads subs clears) :
    Tallied (P + 1) C others gets reads subs clears := by
  obtain ⟨honce, halone, hnonneg, hcovered, hcount⟩ := h
  push_cast at hcovered hcount
  refine ⟨honce, by omega, hnonneg, by omega, ?_⟩
  omega

theorem Tallied.dec (h : Tallied P C others gets reads subs clears) (hC : 0 < C)
    (hw : subs + clears = 0) : Tallied P (C - 1) others gets (reads + 1) subs clears := by
  obtain ⟨honce, halone, hnonneg, hcovered, hcount⟩ := h
  have hclears : clears = 0 := by omega
  rw [if_pos hclears] at hcount
  refine ⟨honce, halone, by omega, by push_cast; omega, ?_⟩
  rw [if_pos hclears]
  push_cast
  omega

theorem Tallied.read (h : Tallied P C others gets (reads + 1) subs clears)
    (hw : subs + clears = 0) (hg : gets = 0) :
    Tallied P C others gets reads (subs + 1) clears := by
  obtain ⟨-, -, hnonneg, -, hcount⟩ := h
  have hclears : clears = 0 := by omega
  rw [if_pos hclears] at hcount
  push_cast at hcount
  refine ⟨by omega, fun _ => hg, hnonneg, by omega, ?_⟩
  rw [if_pos hclears]
  push_cast
  omega

theorem Tallied.sub (h : Tallied P C others gets reads (subs + 1) clears) :
    Tallied (P - C) C others gets reads subs (clears + 1) := by
  obtain ⟨honce, halone, hnonneg, hcovered, hcount⟩ := h
  have hclears : clears = 0 := by omega
  rw [if_pos hclears] at hcount
  push_cast at hcount
  refine ⟨by omega, fun _ => halone (by omega), hnonneg, hcovered, ?_⟩
  rw [if_neg (Nat.succ_ne_zero _)]
  push_cast
  omega

theorem Tallied.clear (h : Tallied P C others gets reads subs (clears + 1)) :
    Tallied P 0 (others + 1) gets reads subs clears := by
  obtain ⟨honce, halone, -, -, hcount⟩ := h
  have hg := halone (by omega)
  rw [if_neg (Nat.succ_ne_zero _)] at hcount
  push_cast at hcount
  refine ⟨by omega, fun _ => hg, le_refl _, by omega, ?_⟩
  rw [ite_self]
  push_cast
  omega

end

/-! ## Runs without a write in between -/

/-- What every state of an undisturbed run satisfies. -/
structure Counted (s : ManualState) : Prop where
  tallied : Tallied s.node.dev.powerRefcount s.node.cmdlinePowerRefcount
    (s.outstanding + s.deferred) (weigh ManualOp.gets s.threads) (weigh ManualOp.reads s.threads)
    (weigh ManualOp.subs s.threads) (weigh ManualOp.clears s.threads)
  amount : ∀ n, .subRefcount n ∈ pending s.threads → n = s.node.cmdlinePowerRefcount
  once : s.deferred ≤ 1
  last : s.offLast = true → s.node.cmdlinePowerRefcount ≤ weigh ManualOp.gets s.threads

section
variable {s t : ManualState} {op : ManualOp} {rest : List ManualOp} {tid : ℕ} {ret : ℤ}

theorem sum_map_user (ops : List PowerOp) (w : ManualOp → ℕ) :
    ((ops.map ManualOp.user).map w).sum = (ops.map fun op => w (.user op)).sum := by
  rw [List.map_map]
  rfl

/-- The blocks of a step do not subtract, except the one that read the count. -/
theorem subRefcount_of_advance (h : nextBlock s.threads tid = some (op, rest)) {n : ℤ}
    {ops : List ManualOp} (hn : .subRefcount n ∈ pending (advance s.threads tid ops rest)) :
    .subRefcount n ∈ ops ∨ .subRefcount n ∈ pending s.threads := by
  obtain ⟨others, hop, hadv⟩ := pending_advance h
  rw [hadv, Multiset.mem_add, Multiset.mem_coe] at hn
  rw [hop]
  exact hn.imp id (Multiset.mem_cons_of_mem)

theorem not_mem_subRefcount (h : s.window = 0) (n : ℤ) : .subRefcount n ∉ pending s.threads := by
  intro hn
  have hle := le_weigh hn ManualOp.subs
  unfold ManualState.window at h
  simp only [ManualOp.subs] at hle
  omega

/-- The state after thread `tid` has run `op`. -/
def ManualState.after (s : ManualState) (tid : ℕ) (ret : ℤ) (op : ManualOp)
    (rest : List ManualOp) : ManualState where
  node := (manualExec s.node ret op).1
  held := if op = .user .get then s.held + 1 else s.held
  threads := advance s.threads tid (manualExec s.node ret op).2 rest
  offLast := decides s.node s.offLast op

theorem weigh_after (ret : ℤ) (hnext : nextBlock s.threads tid = some (op, rest))
    (w : ManualOp → ℕ) :
    weigh w (s.after tid ret op rest).threads + w op =
      weigh w s.threads + ((manualExec s.node ret op).2.map w).sum :=
  weigh_advance hnext w _

section
variable (hnext : nextBlock s.threads tid = some (op, rest)) (hop : ∀ userOp, op ≠ .user userOp)
include hnext hop

theorem outstanding_after : (s.after tid ret op rest).outstanding =
    s.outstanding + ((manualExec s.node ret op).2.map ManualOp.releases).sum := by
  have hw := weigh_after ret hnext ManualOp.releases
  have hzero : op.releases = 0 := by
    cases op <;> first | rfl | exact absurd rfl (hop _)
  have hheld : (s.after tid ret op rest).held = s.held := if_neg (hop _)
  unfold ManualState.outstanding
  rw [hheld]
  omega

theorem deferred_after : (s.after tid ret op rest).deferred = s.deferred := by
  have hw := weigh_after ret hnext ManualOp.defers
  have hzero : op.defers = 0 ∧ ((manualExec s.node ret op).2.map ManualOp.defers).sum = 0 ∧
      (manualExec s.node ret op).1.dev.queued = s.node.dev.queued := by
    cases op with
    | user userOp => exact absurd rfl (hop _)
    | manualGet =>
      refine ⟨rfl, rfl, ?_⟩
      simp only [manualExec, rknpuPowerGet]
      split_ifs <;> rfl
    | readRefcount | decCmdline =>
      refine ⟨rfl, ?_, rfl⟩
      simp only [manualExec]
      split_ifs <;> rfl
    | incCmdline | readCmdline | subRefcount n | clearCmdline => exact ⟨rfl, rfl, rfl⟩
  have hqueued : (s.after tid ret op rest).node.dev.queued = s.node.dev.queued := hzero.2.2
  unfold ManualState.deferred
  rw [hqueued]
  omega

theorem Counted.of_tallied (hs : Counted s)
    (htallied : Tallied (s.after tid ret op rest).node.dev.powerRefcount
      (s.after tid ret op rest).node.cmdlinePowerRefcount
      (s.outstanding + ((manualExec s.node ret op).2.map ManualOp.releases).sum + s.deferred)
      (weigh ManualOp.gets (s.after tid ret op rest).threads)
      (weigh ManualOp.reads (s.after tid ret op rest).threads)
      (weigh ManualOp.subs (s.after tid ret op rest).threads)
      (weigh ManualOp.clears (s.after tid ret op rest).threads))
    (hkeep : (manualExec s.node ret op).1.cmdlinePowerRefcount = s.node.cmdlinePowerRefcount ∨
      ∀ n, .subRefcount n ∉ pending (s.after tid ret op rest).threads)
    (hread : ∀ n, .subRefcount n ∈ (manualExec s.node ret op).2 →
      n = s.node.cmdlinePowerRefcount)
    (hlast : (s.after tid ret op rest).offLast = true →
      (s.after tid ret op rest).node.cmdlinePowerRefcount ≤
        weigh ManualOp.gets (s.after tid ret op rest).threads) :
    Counted (s.after tid ret op rest) := by
  refine ⟨?_, fun n hn => ?_, ?_, hlast⟩
  · rw [outstanding_after hnext hop, deferred_after hnext hop]
    exact htallied
  · obtain heq | hnone := hkeep
    · show n = (manualExec s.node ret op).1.cmdlinePowerRefcount
      rw [heq]
      obtain hn | hn := subRefcount_of_advance hnext hn
      · exact hread n hn
      · exact hs.amount n hn
    · exact absurd hn (hnone n)
  · rw [deferred_after hnext hop]
    exact hs.once

end

theorem Counted.incCmdline (hs : Counted s)
    (hnext : nextBlock s.threads tid = some (.incCmdline, rest)) (hok : s.window = 0) :
    Counted (s.after tid ret .incCmdline rest) := by
  have hw := weigh_after ret hnext
  have hgets : weigh ManualOp.gets _ = weigh ManualOp.gets s.threads + 1 := hw ManualOp.gets
  have hreads : weigh ManualOp.reads _ = weigh ManualOp.reads s.threads := hw ManualOp.reads
  have hsubs : weigh ManualOp.subs _ = weigh ManualOp.subs s.threads := hw ManualOp.subs
  have hclears : weigh ManualOp.clears _ = weigh ManualOp.clears s.threads := hw ManualOp.clears
  apply Counted.of_tallied hnext (by simp) hs
  · rw [hgets, hreads, hsubs, hclears]
    exact hs.tallied.inc hok
  · refine Or.inr fun n hn => not_mem_subRefcount ?_ n hn
    unfold ManualState.window at hok ⊢
    omega
  · simp [manualExec]
  · intro hlast
    cases hlast

theorem Counted.manualGet (hs : Counted s)
    (hnext : nextBlock s.threads tid = some (.manualGet, rest)) :
    Counted (s.after tid ret .manualGet rest) := by
  have hw := weigh_after ret hnext
  have hgets : weigh ManualOp.gets _ + 1 = weigh ManualOp.gets s.threads := hw ManualOp.gets
  have hreads : weigh ManualOp.reads _ = weigh ManualOp.reads s.threads := hw ManualOp.reads
  have hsubs : weigh ManualOp.subs _ = weigh ManualOp.subs s.threads := hw ManualOp.subs
  have hclears : weigh ManualOp.clears _ = weigh ManualOp.clears s.threads := hw ManualOp.clears
  apply Counted.of_tallied hnext (by simp) hs
  · have htallied := hs.tallied
    rw [← hgets] at htallied
    rw [hreads, hsubs, hclears]
    show Tallied (rknpuPowerGet s.node.dev ret).powerRefcount _ _ _ _ _ _
    rw [rknpuPowerGet_powerRefcount]
    exact htallied.get
  · exact Or.inl rfl
  · simp [manualExec]
  · intro hlast
    cases hlast

theorem Counted.readRefcount (hs : Counted s)
    (hnext : nextBlock s.threads tid = some (.readRefcount, rest)) :
    Counted (s.after tid ret .readRefcount rest) := by
  have hw := weigh_after ret hnext
  have hzero : ∀ w : ManualOp → ℕ, w .decCmdline = 0 →
      ((manualExec s.node ret .readRefcount).2.map w).sum = 0 := by
    intro w hdec
    simp only [manualExec]
    split_ifs <;> simp [hdec]
  have hgets : weigh ManualOp.gets _ = weigh ManualOp.gets s.threads :=
    (hw ManualOp.gets).trans (by rw [hzero _ rfl]; rfl)
  have hreads : weigh ManualOp.reads _ = weigh ManualOp.reads s.threads :=
    (hw ManualOp.reads).trans (by rw [hzero _ rfl]; rfl)
  have hsubs : weigh ManualOp.subs _ = weigh ManualOp.subs s.threads :=
    (hw ManualOp.subs).trans (by rw [hzero _ rfl]; rfl)
  have hclears : weigh ManualOp.clears _ = weigh ManualOp.clears s.threads :=
    (hw ManualOp.clears).trans (by rw [hzero _ rfl]; rfl)
  apply Counted.of_tallied hnext (by simp) hs
  · rw [hgets, hreads, hsubs, hclears, hzero _ rfl]
    exact hs.tallied
  · exact Or.inl rfl
  · intro n hn
    simp only [manualExec] at hn
    split_ifs at hn <;> simp at hn
  · intro hlast
    rw [hgets]
    by_cases hpos : 0 < s.node.dev.powerRefcount
    · apply hs.last
      simpa [ManualState.after, decides, hpos] using hlast
    · exact hs.tallied.cmdline_le (by omega)

theorem Counted.decCmdline (hs : Counted s)
    (hnext : nextBlock s.threads tid = some (.decCmdline, rest))
    (hok : 0 < s.node.cmdlinePowerRefcount → s.window = 0) :
    Counted (s.after tid ret .decCmdline rest) := by
  have hw := weigh_after ret hnext
  have hnonneg := hs.tallied.nonneg
  by_cases hpos : 0 < s.node.cmdlinePowerRefcount
  · have hexec : manualExec s.node ret .decCmdline =
        ({ s.node with cmdlinePowerRefcount := s.node.cmdlinePowerRefcount - 1 },
          [.readCmdline]) := by
      simp only [manualExec, atomicDecIfPositive_pos hpos]
      rw [if_pos (by omega)]
    simp only [hexec] at hw
    have hgets : weigh ManualOp.gets _ = weigh ManualOp.gets s.threads := hw ManualOp.gets
    have hreads : weigh ManualOp.reads _ = weigh ManualOp.reads s.threads + 1 :=
      hw ManualOp.reads
    have hsubs : weigh ManualOp.subs _ = weigh ManualOp.subs s.threads := hw ManualOp.subs
    have hclears : weigh ManualOp.clears _ = weigh ManualOp.clears s.threads :=
      hw ManualOp.clears
    have hnode : (s.after tid ret .decCmdline rest).node =
        { s.node with cmdlinePowerRefcount := s.node.cmdlinePowerRefcount - 1 } :=
      congrArg Prod.fst hexec
    apply Counted.of_tallied hnext (by simp) hs
    · rw [hgets, hreads, hsubs, hclears, hnode, hexec]
      exact hs.tallied.dec hpos (hok hpos)
    · refine Or.inr fun n hn => not_mem_subRefcount ?_ n hn
      have hwindow := hok hpos
      unfold ManualState.window at hwindow ⊢
      omega
    · simp [hexec]
    · intro hlast
      have hdec : 0 ≤ (atomicDecIfPositive s.node.cmdlinePowerRefcount).2 := by
        rw [atomicDecIfPositive_pos hpos]
        show 0 ≤ s.node.cmdlinePowerRefcount - 1
        omega
      have hle := hs.last (by simpa [ManualState.after, decides, hdec] using hlast)
      rw [hgets, hnode]
      show s.node.cmdlinePowerRefcount - 1 ≤ _
      omega
  · have hzero : s.node.cmdlinePowerRefcount = 0 := by omega
    have hexec : manualExec s.node ret .decCmdline = (s.node, []) := by
      simp [manualExec, atomicDecIfPositive, hzero]
      rw [← hzero]
    simp only [hexec] at hw
    have hgets : weigh ManualOp.gets _ = weigh ManualOp.gets s.threads := hw ManualOp.gets
    have hreads : weigh ManualOp.reads _ = weigh ManualOp.reads s.threads := hw ManualOp.reads
    have hsubs : weigh ManualOp.subs _ = weigh ManualOp.subs s.threads := hw ManualOp.subs
    have hclears : weigh ManualOp.clears _ = weigh ManualOp.clears s.threads :=
      hw ManualOp.clears
    have hnode : (s.after tid ret .decCmdline rest).node = s.node := congrArg Prod.fst hexec
    apply Counted.of_tallied hnext (by simp) hs
    · rw [hgets, hreads, hsubs, hclears, hnode, hexec]
      exact hs.tallied
    · exact Or.inl (by rw [hexec])
    · simp [hexec]
    · intro _
      rw [hnode, hzero]
      exact Int.natCast_nonneg _

theorem Counted.readCmdline (hs : Counted s)
    (hnext : nextBlock s.threads tid = some (.readCmdline, rest))
    (hok : s.window = 0 ∧ weigh ManualOp.gets s.threads = 0) :
    Counted (s.after tid ret .readCmdline rest) := by
  have hw := weigh_after ret hnext
  have hgets : weigh ManualOp.gets _ = weigh ManualOp.gets s.threads := hw ManualOp.gets
  have hreads : weigh ManualOp.reads _ + 1 = weigh ManualOp.reads s.threads := hw ManualOp.reads
  have hsubs : weigh ManualOp.subs _ = weigh ManualOp.subs s.threads + 1 := hw ManualOp.subs
  have hclears : weigh ManualOp.clears _ = weigh ManualOp.clears s.threads := hw ManualOp.clears
  apply Counted.of_tallied hnext (by simp) hs
  · have htallied := hs.tallied
    rw [← hreads] at htallied
    rw [hgets, hsubs, hclears]
    exact htallied.read hok.1 hok.2
  · exact Or.inl rfl
  · simp [manualExec]
  · intro hlast
    rw [hgets]
    exact hs.last hlast

theorem Counted.subRefcount {n : ℤ} (hs : Counted s)
    (hnext : nextBlock s.threads tid = some (.subRefcount n, rest)) :
    Counted (s.after tid ret (.subRefcount n) rest) := by
  have hw := weigh_after ret hnext
  have hgets : weigh ManualOp.gets _ = weigh ManualOp.gets s.threads := hw ManualOp.gets
  have hreads : weigh ManualOp.reads _ = weigh ManualOp.reads s.threads := hw ManualOp.reads
  have hsubs : weigh ManualOp.subs _ + 1 = weigh ManualOp.subs s.threads := hw ManualOp.subs
  have hclears : weigh ManualOp.clears _ = weigh ManualOp.clears s.threads + 1 :=
    hw ManualOp.clears
  have hn := hs.amount n (mem_pending_of_nextBlock hnext)
  apply Counted.of_tallied hnext (by simp) hs
  · have htallied := hs.tallied
    rw [← hsubs] at htallied
    rw [hgets, hreads, hclears]
    show Tallied (s.node.dev.powerRefcount - n) _ _ _ _ _ _
    rw [hn]
    exact htallied.sub
  · exact Or.inl rfl
  · simp [manualExec]
  · intro hlast
    rw [hgets]
    exact hs.last hlast

theorem Counted.clearCmdline (hs : Counted s)
    (hnext : nextBlock s.threads tid = some (.clearCmdline, rest)) :
    Counted (s.after tid ret .clearCmdline rest) := by
  have hw := weigh_after ret hnext
  have hgets : weigh ManualOp.gets _ = weigh ManualOp.gets s.threads := hw ManualOp.gets
  have hreads : weigh ManualOp.reads _ = weigh ManualOp.reads s.threads := hw ManualOp.reads
  have hsubs : weigh ManualOp.subs _ = weigh ManualOp.subs s.threads := hw ManualOp.subs
  have hclears : weigh ManualOp.clears _ + 1 = weigh ManualOp.clears s.threads :=
    hw ManualOp.clears
  apply Counted.of_tallied hnext (by simp) hs
  · have htallied := hs.tallied
    rw [← hclears] at htallied
    rw [hgets, hreads, hsubs, Nat.add_right_comm]
    exact htallied.clear
  · refine Or.inr fun n hn => ?_
    have hle := le_weigh hn ManualOp.subs
    have honce := hs.tallied.once
    simp only [ManualOp.subs] at hle
    rw [hsubs] at hle
    omega
  · simp [manualExec]
  · intro _
    exact Int.natCast_nonneg _

theorem Counted.user {userOp : PowerOp} (hs : Counted s)
    (hnext : nextBlock s.threads tid = some (.user userOp, rest)) :
    Counted (s.after tid ret (.user userOp) rest) := by
  have hw : ∀ w, weigh w (s.after tid ret (.user userOp) rest).threads + w (.user userOp) =
      weigh w s.threads +
        ((powerExec s.node.dev ret userOp).2.map fun op => w (.user op)).sum := by
    intro w
    rw [← sum_map_user]
    exact weigh_after ret hnext w
  have hzero : ∀ w : ManualOp → ℕ, (∀ op, w (.user op) = 0) →
      weigh w (s.after tid ret (.user userOp) rest).threads = weigh w s.threads := by
    intro w huser
    have h := hw w
    simpa [huser] using h
  have hreleases : weigh ManualOp.releases _ + userOp.releases = weigh ManualOp.releases s.threads +
      ((powerExec s.node.dev ret userOp).2.map PowerOp.releases).sum := hw ManualOp.releases
  have hdefers : weigh ManualOp.defers _ + userOp.defers = weigh ManualOp.defers s.threads +
      ((powerExec s.node.dev ret userOp).2.map PowerOp.defers).sum := hw ManualOp.defers
  have hle := hs.tallied.le
  have hrle := le_weigh (mem_pending_of_nextBlock hnext) ManualOp.releases
  have hdle := le_weigh (mem_pending_of_nextBlock hnext) ManualOp.defers
  have honce := hs.once
  simp only [ManualOp.releases] at hrle
  simp only [ManualOp.defers] at hdle
  unfold ManualState.outstanding ManualState.deferred at hle
  unfold ManualState.deferred at honce
  obtain ⟨hbal, hnone, hq⟩ := powerExec_balance s.node.dev userOp ret (by omega) (by omega)
  have hheld : (s.after tid ret (.user userOp) rest).held = s.held + userOp.gained := by
    cases userOp <;> rfl
  have hqueued : (s.after tid ret (.user userOp) rest).node.dev.queued =
      (powerExec s.node.dev ret userOp).1.queued := rfl
  refine ⟨?_, fun n hn => ?_, ?_, ?_⟩
  · rw [hzero ManualOp.gets fun _ => rfl, hzero ManualOp.reads fun _ => rfl,
      hzero ManualOp.subs fun _ => rfl, hzero ManualOp.clears fun _ => rfl]
    refine hs.tallied.move ?_
    show (powerExec s.node.dev ret userOp).1.powerRefcount + _ = _
    unfold ManualState.outstanding ManualState.deferred
    rw [hheld, hqueued]
    push_cast
    omega
  · obtain hn | hn := subRefcount_of_advance hnext hn
    · simp [manualExec] at hn
    · exact hs.amount n hn
  · unfold ManualState.deferred
    rw [hqueued]
    omega
  · rw [hzero ManualOp.gets fun _ => rfl]
    exact hs.last

theorem Counted.exec (hs : Counted s) (hnext : nextBlock s.threads tid = some (op, rest))
    (hok : Undisturbed s (.exec tid ret)) : Counted (s.after tid ret op rest) := by
  simp only [Undisturbed, hnext] at hok
  cases op with
  | user userOp => exact hs.user hnext
  | incCmdline => exact hs.incCmdline hnext hok
  | manualGet => exact hs.manualGet hnext
  | readRefcount => exact hs.readRefcount hnext
  | decCmdline => exact hs.decCmdline hnext hok
  | readCmdline => exact hs.readCmdline hnext hok
  | subRefcount n => exact hs.subRefcount hnext
  | clearCmdline => exact hs.clearCmdline hnext

/-- A thread that starts with a block that holds nothing, or one that a held get is given to. -/
theorem Counted.call (hs : Counted s) (op : ManualOp) (t : ManualState)
    (hthreads : t.threads = s.threads ++ [[op]])
    (hop : op.gets = 0 ∧ op.reads = 0 ∧ op.subs = 0 ∧ op.clears = 0)
    (hnode : t.node.dev.powerRefcount = s.node.dev.powerRefcount ∧
      t.node.cmdlinePowerRefcount = s.node.cmdlinePowerRefcount)
    (hheld : t.held + op.releases = s.held)
    (hqueued : t.node.dev.queued + op.defers = s.node.dev.queued)
    (hlast : t.offLast = s.offLast) : Counted t := by
  have hw : ∀ w, weigh w t.threads = weigh w s.threads + w op := by
    intro w
    rw [hthreads, weigh_spawn]
    simp
  have hout : t.outstanding = s.outstanding := by
    unfold ManualState.outstanding
    rw [hw]
    omega
  have hdef : t.deferred = s.deferred := by
    unfold ManualState.deferred
    rw [hw]
    omega
  refine ⟨?_, fun n hn => ?_, ?_, ?_⟩
  · rw [hout, hdef, hw, hw, hw, hw, hop.1, hop.2.1, hop.2.2.1, hop.2.2.2, hnode.1, hnode.2]
    exact hs.tallied
  · rw [hthreads, pending_spawn, Multiset.mem_add, Multiset.mem_coe, List.mem_singleton] at hn
    rw [hnode.2]
    obtain hn | rfl := hn
    · exact hs.amount n hn
    · exact absurd hop.2.2.1 Nat.one_ne_zero
  · rw [hdef]
    exact hs.once
  · rw [hlast, hnode.2, hw, hop.1]
    exact hs.last

theorem counted_step {label : ManualLabel} (hs : Counted s) (hok : Undisturbed s label)
    (h : manualStep s label = some t) : Counted t := by
  cases label with
  | get =>
    cases h
    exact hs.call (.user .get) _ rfl ⟨rfl, rfl, rfl, rfl⟩ ⟨rfl, rfl⟩ rfl rfl rfl
  | put =>
    simp only [manualStep] at h
    split_ifs at h with hheld
    cases h
    refine hs.call (.user .put) _ rfl ⟨rfl, rfl, rfl, rfl⟩ ⟨rfl, rfl⟩ ?_ rfl rfl
    exact Nat.sub_add_cancel hheld
  | putDelay =>
    simp only [manualStep] at h
    split_ifs at h with hheld
    cases h
    refine hs.call (.user .putDelay) _ rfl ⟨rfl, rfl, rfl, rfl⟩ ⟨rfl, rfl⟩ ?_ rfl rfl
    exact Nat.sub_add_cancel hheld
  | setDelay ms =>
    cases h
    exact ⟨hs.tallied, hs.amount, hs.once, hs.last⟩
  | fire =>
    simp only [manualStep] at h
    split_ifs at h with hpend
    cases h
    refine hs.call (.user .offDelayWork) _ rfl ⟨rfl, rfl, rfl, rfl⟩ ⟨rfl, rfl⟩ rfl ?_ rfl
    simp [PowerDev.queued, hpend, ManualOp.defers, PowerOp.defers, ManualState.call]
  | write on =>
    cases h
    cases on with
    | true => exact hs.call .incCmdline _ rfl ⟨rfl, rfl, rfl, rfl⟩ ⟨rfl, rfl⟩ rfl rfl rfl
    | false => exact hs.call .readRefcount _ rfl ⟨rfl, rfl, rfl, rfl⟩ ⟨rfl, rfl⟩ rfl rfl rfl
  | exec tid ret =>
    obtain ⟨op, rest, hnext, rfl⟩ := manualStep_exec h
    exact hs.exec hnext hok

theorem releaseLast_powerOffs {dev : PowerDev}
    (h : (releaseLast dev ret).1.powerOffs ≠ dev.powerOffs) : dev.powerRefcount = 1 := by
  by_contra hne
  apply h
  simp only [releaseLast]
  rw [if_neg (fun hdec => hne (atomicDecIfPositive_eq_zero.mp hdec))]

theorem manualExec_powerOffs {m : ManualDev}
    (h : (manualExec m ret op).1.dev.powerOffs ≠ m.dev.powerOffs) :
    m.dev.powerRefcount = 1 ∧ 0 < op.releases + op.defers ∧ op ≠ .user .get := by
  cases op with
  | user userOp =>
    cases userOp with
    | get =>
      simp only [manualExec, powerExec, rknpuPowerGet] at h
      split_ifs at h <;> exact absurd rfl h
    | put => exact ⟨releaseLast_powerOffs h, by decide, by decide⟩
    | offDelayWork => exact ⟨releaseLast_powerOffs h, by decide, by decide⟩
    | putDelay => exact absurd rfl h
    | putDelayLocked =>
      simp only [manualExec, powerExec, rknpuPowerPutDelayLocked] at h
      split_ifs at h <;> exact absurd rfl h
  | manualGet =>
    simp only [manualExec, rknpuPowerGet] at h
    split_ifs at h <;> exact absurd rfl h
  | incCmdline | readRefcount | decCmdline | readCmdline | subRefcount n | clearCmdline =>
    exact absurd rfl h

/-- No step that turns the power off leaves a get of another user outstanding. -/
theorem Counted.powerOff {label : ManualLabel} (hs : Counted s)
    (h : manualStep s label = some t) (hoff : t.node.dev.powerOffs ≠ s.node.dev.powerOffs) :
    t.held = 0 := by
  cases label with
  | get | setDelay ms | write on =>
    cases h
    exact absurd rfl hoff
  | put | putDelay | fire =>
    simp only [manualStep] at h
    split_ifs at h
    cases h
    exact absurd rfl hoff
  | exec tid ret =>
    obtain ⟨op, rest, hnext, rfl⟩ := manualStep_exec h
    obtain ⟨hone, hpos, hget⟩ := manualExec_powerOffs hoff
    have hle := hs.tallied.le
    have hrle := le_weigh (mem_pending_of_nextBlock hnext) ManualOp.releases
    have hdle := le_weigh (mem_pending_of_nextBlock hnext) ManualOp.defers
    unfold ManualState.outstanding ManualState.deferred at hle
    simp only [hget, if_false]
    omega

theorem weigh_of_writersDone (hdone : s.WritersDone) {w : ManualOp → ℕ}
    (hw : ∀ op, w (.user op) = 0) : weigh w s.threads = 0 := by
  apply Multiset.sum_eq_zero
  intro n hn
  obtain ⟨op, hop, rfl⟩ := Multiset.mem_map.mp hn
  obtain ⟨userOp, rfl⟩ := hdone op hop
  exact hw userOp

theorem Counted.eq_of_offLast (hs : Counted s) (hdone : s.WritersDone) (hlast : s.offLast = true) :
    s.node.dev.powerRefcount = s.outstanding + s.deferred := by
  have hgets := weigh_of_writersDone hdone (w := ManualOp.gets) fun _ => rfl
  have hreads := weigh_of_writersDone hdone (w := ManualOp.reads) fun _ => rfl
  have hsubs := weigh_of_writersDone hdone (w := ManualOp.subs) fun _ => rfl
  have hclears := weigh_of_writersDone hdone (w := ManualOp.clears) fun _ => rfl
  have hcmdline := hs.last hlast
  rw [hgets] at hcmdline
  exact_mod_cast hs.tallied.eq ⟨hgets, hreads, hsubs, hclears⟩ hcmdline

end

/-- **The power node on every run in which no write comes in between**: the count is never below
what the other users hold, no step that turns the power off leaves one of their gets, and once
the writes are done with an `off` last, nothing taken by an `on` is left in the count. -/
theorem manual_never_steals {s : ManualState}
    (hs : (manualSystem.guarded Undisturbed).Reachable s) :
    s.held ≤ s.node.dev.powerRefcount ∧
      (∀ label t, manualSystem.step s label = some t →
        t.node.dev.powerOffs ≠ s.node.dev.powerOffs → t.held = 0) ∧
      (s.WritersDone → s.offLast = true →
        s.node.dev.powerRefcount = s.outstanding + s.deferred) := by
  have hcounted : Counted s := by
    refine hs.invariant Counted ?_ fun s label t hs h => ?_
    · rintro s ⟨delay, rfl⟩
      have hzero : Tallied 0 0 0 0 0 0 0 := ⟨by decide, by decide, by decide, by decide, by decide⟩
      exact ⟨hzero, by simp, Nat.zero_le 1, by simp⟩
    · obtain ⟨hok, hstep⟩ := System.guarded_step.mp h
      exact counted_step hs hok hstep
  refine ⟨?_, fun label t => hcounted.powerOff, hcounted.eq_of_offLast⟩
  have hle := hcounted.tallied.le
  unfold ManualState.outstanding at hle
  omega

/-- Two `on`s and an `off` beside a get of another user. -/
theorem manual_never_steals_off : ∃ s, (manualSystem.guarded Undisturbed).Reachable s ∧
    s.WritersDone ∧ s.offLast = true ∧ s.held = 1 ∧
    s.node.dev.powerRefcount = s.outstanding + s.deferred := by
  obtain ⟨s, hs, h⟩ := System.Reachable.of_run_any (S := manualSystem.guarded Undisturbed)
    (p := fun s => decide (s.held = 1 ∧ s.offLast = true ∧ s.threads = [[], [], [], []]))
    (l := [.write true, .exec 0 0, .get, .exec 1 0, .exec 0 0, .write true, .exec 2 0,
      .exec 2 0, .write false, .exec 3 0, .exec 3 0, .exec 3 0, .exec 3 0, .exec 3 0,
      .exec 3 0]) ⟨0, rfl⟩ (by decide +kernel)
  obtain ⟨hheld, hlast, hthreads⟩ := of_decide_eq_true h
  have hdone : s.WritersDone := by
    unfold ManualState.WritersDone
    rw [hthreads]
    simp [pending]
  exact ⟨s, hs, hdone, hlast, hheld, (manual_never_steals hs).2.2 hdone hlast⟩

/-- An `off` takes the unit of an `on` that has not called `rknpu_power_get` yet: it turns the
power off while another user holds a get. And an `on` between the read and the store of an `off`
is forgotten: a later `off` finds nothing to release. -/
theorem manual_steals :
    (∃ s, manualSystem.Reachable s ∧ s.held = 1 ∧ s.node.dev.powerRefcount = 0 ∧
      s.node.dev.powered = false ∧ s.node.dev.powerOffs = 1) ∧
    ∃ s, manualSystem.Reachable s ∧ s.WritersDone ∧ s.offLast = true ∧
      s.node.dev.powerRefcount = 1 ∧ s.outstanding + s.deferred = 0 := by
  constructor
  · obtain ⟨s, hs, h⟩ := System.Reachable.of_run_any (S := manualSystem)
      (p := fun s => decide (s.held = 1 ∧ s.node.dev.powerRefcount = 0 ∧
        s.node.dev.powered = false ∧ s.node.dev.powerOffs = 1))
      (l := [.get, .exec 0 0, .write true, .exec 1 0, .write false, .exec 2 0, .exec 2 0,
        .exec 2 0, .exec 2 0, .exec 2 0, .exec 2 0]) ⟨0, rfl⟩ (by decide +kernel)
    exact ⟨s, hs, of_decide_eq_true h⟩
  · obtain ⟨s, hs, h⟩ := System.Reachable.of_run_any (S := manualSystem)
      (p := fun s => decide (s.held = 0 ∧ s.node.dev.workPending = false ∧ s.offLast = true ∧
        s.node.dev.powerRefcount = 1 ∧ s.threads = [[], [], [], []]))
      (l := [.write true, .exec 0 0, .exec 0 0, .write false, .exec 1 0, .exec 1 0, .exec 1 0,
        .write true, .exec 2 0, .exec 2 0, .exec 1 0, .exec 1 0, .exec 1 0, .write false,
        .exec 3 0, .exec 3 0]) ⟨0, rfl⟩ (by decide +kernel)
    obtain ⟨hheld, hwork, hlast, hcount, hthreads⟩ := of_decide_eq_true h
    refine ⟨s, hs, ?_, hlast, hcount, ?_⟩
    · unfold ManualState.WritersDone
      rw [hthreads]
      simp [pending]
    · unfold ManualState.outstanding ManualState.deferred PowerDev.queued
      rw [hheld, hwork, hthreads]
      rfl

end RknpuDriver.Power
