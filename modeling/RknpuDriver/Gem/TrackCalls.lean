import RknpuDriver.Gem.Objects
import RknpuDriver.Lib.Threads

/-! # Interleaved tracking

`rknpu_dkms_track_gem_obj` takes its reference before it has the lock, and gives it back when the
scan under the lock finds an entry of the object. Any number of threads call it and
`rknpu_dkms_untrack_gem_obj`, for any objects and as often as they like.

* `tracking_integrity`: the entries and the references in every state of every run.
* `find_gem_obj`: what `rknpu_dkms_find_gem_obj_by_addr` returns there.
-/

namespace RknpuDriver.Gem
open RknpuDriver.Lib
set_option autoImplicit false

/-! ## The lookup by address -/

/-- `addr >= r->base && addr < (r->base + r->size)`: the sum is one of `dma_addr_t`. -/
def RknpuDkmsGemRange.has (r : RknpuDkmsGemRange) (addr : ℕ) : Bool :=
  r.base ≤ addr ∧ addr < (r.base + r.size) % 2 ^ 64

/-- `rknpu_dkms_find_gem_obj_by_addr`: the object, `*base_out`, and the state. -/
def GemState.rknpuDkmsFindGemObjByAddr (s : GemState) (addr : ℕ) : Option ℕ × ℕ × GemState :=
  match s.ranges.find? fun r => r.has addr with
  | none => (none, 0, s)
  | some r => (some r.obj, r.base, s.get r.obj)

/-! ## Calls -/

/-- The reference of `rknpu_dkms_track_gem_obj`, what it does under the lock (with the put of a
duplicate), and `rknpu_dkms_untrack_gem_obj`. -/
inductive TrackOp where
  | trackGet (r : RknpuDkmsGemRange)
  | trackLocked (r : RknpuDkmsGemRange)
  | untrack (o : ℕ)
  deriving DecidableEq, Repr

def trackExec (s : GemState) : TrackOp → GemState × List TrackOp
  | .trackGet r => (s.get r.obj, [.trackLocked r])
  | .trackLocked r =>
    if ∃ pos ∈ s.ranges, pos.obj = r.obj then (s.put r.obj, [])
    else ({ s with ranges := s.ranges ++ [r] }, [])
  | .untrack o => (s.rknpuDkmsUntrackGemObj o, [])

structure TrackState where
  gem : GemState
  threads : List (List TrackOp)

inductive TrackLabel where
  | track (o : ℕ) (kzallocOk : Bool)
  | untrack (o : ℕ)
  | exec (tid : ℕ)

def GemState.entryOf (s : GemState) (o : ℕ) : RknpuDkmsGemRange :=
  ⟨o, (s.objs o).dmaAddr, (s.objs o).size⟩

def TrackState.spawn (s : TrackState) (op : TrackOp) : TrackState :=
  { s with threads := s.threads ++ [[op]] }

def trackStep (s : TrackState) : TrackLabel → Option TrackState
  | .track o kzallocOk =>
    if (s.gem.objs o).dmaAddr = 0 ∨ (s.gem.objs o).size = 0 ∨ kzallocOk = false then some s
    else some (s.spawn (.trackGet (s.gem.entryOf o)))
  | .untrack o => some (s.spawn (.untrack o))
  | .exec tid =>
    match nextBlock s.threads tid with
    | none => none
    | some (op, rest) =>
      let (gem, ops) := trackExec s.gem op
      some ⟨gem, advance s.threads tid ops rest⟩

/-- All interleavings, from any objects with any references of others. The DMA API gives an object
a range of the 64-bit addresses that ends among them. -/
def trackSystem : System TrackState TrackLabel where
  init s := s.gem.ranges = [] ∧ s.threads = [] ∧
    ∀ o, (s.gem.objs o).dmaAddr + (s.gem.objs o).size < 2 ^ 64
  step := trackStep

/-! ## Integrity -/

/-- A track call that is between its get and its locked block. -/
def TrackOp.between (o : ℕ) : TrackOp → ℕ
  | .trackLocked r => if r.obj = o then 1 else 0
  | _ => 0

def TrackState.inFlight (s : TrackState) (o : ℕ) : ℕ := weigh (TrackOp.between o) s.threads

def TrackState.entries (s : TrackState) (o : ℕ) : ℕ :=
  s.gem.ranges.countP fun r => r.obj = o

/-- The entry that the call is to make. -/
def TrackOp.entry : TrackOp → Option RknpuDkmsGemRange
  | .trackGet r | .trackLocked r => some r
  | .untrack _ => none

/-- What holds in every state of a run from `s₀` on. -/
structure Integral (s₀ s : TrackState) : Prop where
  objs : s.gem.objs = s₀.gem.objs
  single : ∀ o, s.entries o ≤ 1
  entry : ∀ r ∈ s.gem.ranges, r = s₀.gem.entryOf r.obj
  called : ∀ op ∈ pending s.threads, ∀ r, op.entry = some r → r = s₀.gem.entryOf r.obj
  counted : ∀ o, s.gem.refs.count o = s₀.gem.refs.count o + s.entries o + s.inFlight o

section
variable {s₀ s : TrackState} {tid : ℕ} {rest : List TrackOp} {op : TrackOp} {o : ℕ}

theorem entries_eq_zero (h : ¬ ∃ pos ∈ s.gem.ranges, pos.obj = o) : s.entries o = 0 := by
  unfold TrackState.entries
  rw [List.countP_eq_zero]
  intro r hr hobj
  exact h ⟨r, hr, of_decide_eq_true hobj⟩

theorem Integral.spawn (hs : Integral s₀ s) (hop : ∀ o, op.between o = 0)
    (hentry : ∀ r, op.entry = some r → r = s₀.gem.entryOf r.obj) : Integral s₀ (s.spawn op) := by
  refine ⟨hs.objs, hs.single, hs.entry, fun x hx r hr => ?_, fun o => ?_⟩
  · unfold TrackState.spawn at hx
    rw [pending_spawn, Multiset.mem_add, Multiset.mem_coe, List.mem_singleton] at hx
    obtain hx | rfl := hx
    · exact hs.called x hx r hr
    · exact hentry r hr
  · have hflight : (s.spawn op).inFlight o = s.inFlight o := by
      unfold TrackState.inFlight TrackState.spawn
      rw [weigh_spawn]
      simp [hop o]
    rw [hflight]
    exact hs.counted o

/-- One block, from what it does to the entries and the references. -/
theorem Integral.exec {gem : GemState} {ops : List TrackOp} (hs : Integral s₀ s)
    (hnext : nextBlock s.threads tid = some (op, rest)) (hobjs : gem.objs = s.gem.objs)
    (hops : ∀ x ∈ ops, ∀ r, x.entry = some r → op.entry = some r)
    (hsingle : ∀ o, gem.ranges.countP (fun r => decide (r.obj = o)) ≤ 1)
    (hentry : ∀ r ∈ gem.ranges, r ∈ s.gem.ranges ∨ op.entry = some r)
    (hcount : ∀ o, gem.refs.count o + s.entries o + op.between o =
      s.gem.refs.count o + gem.ranges.countP (fun r => decide (r.obj = o)) +
        (ops.map (TrackOp.between o)).sum) :
    Integral s₀ ⟨gem, advance s.threads tid ops rest⟩ := by
  have hmem := mem_pending_of_nextBlock hnext
  refine ⟨hobjs.trans hs.objs, hsingle, fun r hr => ?_, fun x hx r hr => ?_, fun o => ?_⟩
  · obtain hr | hr := hentry r hr
    · exact hs.entry r hr
    · exact hs.called op hmem r hr
  · obtain ⟨others, hop, hadv⟩ := pending_advance hnext
    simp only [hadv, Multiset.mem_add, Multiset.mem_coe] at hx
    obtain hx | hx := hx
    · exact hs.called op hmem r (hops x hx r hr)
    · exact hs.called x (hop ▸ Multiset.mem_cons_of_mem hx) r hr
  · have hweigh := weigh_advance hnext (TrackOp.between o) ops
    have hbefore := hs.counted o
    have hblock := hcount o
    unfold TrackState.entries TrackState.inFlight at *
    simp only
    omega

theorem Integral.trackGet {r : RknpuDkmsGemRange} (hs : Integral s₀ s)
    (hnext : nextBlock s.threads tid = some (.trackGet r, rest)) :
    Integral s₀ ⟨s.gem.get r.obj, advance s.threads tid [.trackLocked r] rest⟩ := by
  refine hs.exec hnext rfl (fun x hx r' hr' => ?_) hs.single (fun r' hr' => Or.inl hr')
    fun o => ?_
  · rw [List.mem_singleton.mp hx] at hr'
    exact hr'
  · simp only [GemState.get, Refs.get, TrackOp.between, TrackState.entries, List.map_cons,
      List.map_nil, List.sum_cons, List.sum_nil, eq_comm (a := o)]
    split_ifs <;> omega

theorem Integral.duplicate {r : RknpuDkmsGemRange} (hs : Integral s₀ s)
    (hnext : nextBlock s.threads tid = some (.trackLocked r, rest)) :
    Integral s₀ ⟨s.gem.put r.obj, advance s.threads tid [] rest⟩ := by
  have hpos : 0 < s.gem.refs.count r.obj := by
    have hheld := le_weigh (mem_pending_of_nextBlock hnext) (TrackOp.between r.obj)
    have hcount := hs.counted r.obj
    simp only [TrackOp.between, if_true] at hheld
    unfold TrackState.inFlight at hcount
    omega
  refine hs.exec hnext rfl (fun x hx => ?_) hs.single (fun r' hr' => Or.inl hr') fun o => ?_
  · cases hx
  · simp only [GemState.put, Refs.put, TrackOp.between, TrackState.entries, List.map_nil,
      List.sum_nil]
    by_cases ho : r.obj = o
    · rw [if_pos ho, if_pos ho.symm, ← ho]
      omega
    · rw [if_neg ho, if_neg (Ne.symm ho)]

theorem Integral.enter {r : RknpuDkmsGemRange} (hs : Integral s₀ s)
    (hnext : nextBlock s.threads tid = some (.trackLocked r, rest))
    (hnone : ¬ ∃ pos ∈ s.gem.ranges, pos.obj = r.obj) :
    Integral s₀ ⟨{ s.gem with ranges := s.gem.ranges ++ [r] },
      advance s.threads tid [] rest⟩ := by
  have hcount : ∀ o, (s.gem.ranges ++ [r]).countP (fun r => decide (r.obj = o)) =
      s.entries o + if r.obj = o then 1 else 0 := by
    intro o
    rw [List.countP_append, List.countP_singleton]
    simp [TrackState.entries]
  refine hs.exec hnext rfl (fun x hx => ?_) (fun o => ?_) (fun r' hr' => ?_) fun o => ?_
  · cases hx
  · rw [hcount]
    have hle := hs.single o
    by_cases ho : r.obj = o
    · rw [if_pos ho, ← ho, entries_eq_zero hnone]
    · rw [if_neg ho]
      exact hle
  · obtain hr' | hr' := List.mem_append.mp hr'
    · exact Or.inl hr'
    · rw [List.mem_singleton.mp hr']
      exact Or.inr rfl
  · rw [hcount]
    simp only [TrackOp.between, List.map_nil, List.sum_nil]
    omega

theorem Integral.untrack {o : ℕ} (hs : Integral s₀ s)
    (hnext : nextBlock s.threads tid = some (.untrack o, rest)) :
    Integral s₀ ⟨s.gem.rknpuDkmsUntrackGemObj o, advance s.threads tid [] rest⟩ := by
  unfold GemState.rknpuDkmsUntrackGemObj
  cases hfind : s.gem.ranges.find? fun r => r.obj = o with
  | none =>
    refine hs.exec hnext rfl (fun x hx => ?_) hs.single (fun r' hr' => Or.inl hr') fun o' => ?_
    · cases hx
    · simp only [TrackOp.between, TrackState.entries, List.map_nil, List.sum_nil]
  | some r =>
    have hmem : r ∈ s.gem.ranges := List.mem_of_find?_eq_some hfind
    obtain rfl : r.obj = o := by simpa using List.find?_some hfind
    show Integral s₀ ⟨{ s.gem.put r.obj with ranges := s.gem.ranges.erase r },
      advance s.threads tid [] rest⟩
    have herase : ∀ o', s.entries o' = (s.gem.ranges.erase r).countP
        (fun r => decide (r.obj = o')) + if r.obj = o' then 1 else 0 := by
      intro o'
      unfold TrackState.entries
      rw [(List.perm_cons_erase hmem).countP_eq, List.countP_cons]
      simp
    have hpos : 0 < s.gem.refs.count r.obj := by
      have hone := herase r.obj
      rw [if_pos rfl] at hone
      have hcount := hs.counted r.obj
      omega
    refine hs.exec hnext rfl (fun x hx => ?_) (fun o' => ?_)
      (fun r' hr' => Or.inl (List.mem_of_mem_erase hr')) fun o' => ?_
    · cases hx
    · have hle := hs.single o'
      have hone := herase o'
      simp only
      omega
    · have hone := herase o'
      simp only [GemState.put, Refs.put, TrackOp.between, List.map_nil, List.sum_nil]
      by_cases ho : r.obj = o'
      · subst ho
        rw [if_pos rfl] at hone ⊢
        omega
      · rw [if_neg ho] at hone
        rw [if_neg fun h => ho h.symm]
        omega

theorem integral_step {t : TrackState} {label : TrackLabel} (hs : Integral s₀ s)
    (h : trackStep s label = some t) : Integral s₀ t := by
  cases label with
  | track o kzallocOk =>
    simp only [trackStep] at h
    split_ifs at h
    · cases h
      exact hs
    · cases h
      refine hs.spawn (fun _ => rfl) fun r hr => ?_
      cases hr
      unfold GemState.entryOf
      rw [hs.objs]
  | untrack o =>
    cases h
    exact hs.spawn (fun _ => rfl) fun r hr => by cases hr
  | exec tid =>
    simp only [trackStep] at h
    split at h
    · cases h
    rename_i op rest hnext
    cases h
    cases op with
    | trackGet r => exact hs.trackGet hnext
    | trackLocked r =>
      simp only [trackExec]
      split_ifs with hdup
      · exact hs.duplicate hnext
      · exact hs.enter hnext hdup
    | untrack o => exact hs.untrack hnext

theorem integral_run {labels : List TrackLabel} (h0 : trackSystem.init s₀)
    (hrun : trackSystem.run s₀ labels = some s) : Integral s₀ s := by
  have hstep : ∀ s label t, Integral s₀ s → trackSystem.step s label = some t → Integral s₀ t :=
    fun _ _ _ hs ht => integral_step hs ht
  refine System.run_invariant hstep hrun ?_
  obtain ⟨hranges, hthreads, -⟩ := h0
  have hnone : ∀ o, s₀.entries o = 0 := by
    intro o
    unfold TrackState.entries
    rw [hranges]
    rfl
  refine ⟨rfl, fun o => ?_, fun r hr => ?_, fun op hop => ?_, fun o => ?_⟩
  · rw [hnone]
    exact Nat.zero_le 1
  · rw [hranges] at hr
    cases hr
  · rw [hthreads] at hop
    exact absurd hop (Multiset.notMem_zero op)
  · unfold TrackState.inFlight
    rw [hnone, hthreads]
    rfl

end

/-! ## The lookup -/

/-- What the lookup by address returns: an object exactly when the address lies in an entry, the
base of that entry, and one reference more. -/
structure Finds (s : GemState) (addr : ℕ) (ret : Option ℕ × ℕ × GemState) : Prop where
  found_iff : ret.1.isSome = true ↔ ∃ r ∈ s.ranges, r.base ≤ addr ∧ addr < r.base + r.size
  found : ∀ o, ret.1 = some o → ∃ r ∈ s.ranges, r.obj = o ∧
    r.base ≤ addr ∧ addr < r.base + r.size ∧ ret.2.1 = r.base ∧ ret.2.2 = s.get o
  none : ret.1 = none → ret.2.1 = 0 ∧ ret.2.2 = s

theorem has_iff {r : RknpuDkmsGemRange} (h : r.base + r.size < 2 ^ 64) (addr : ℕ) :
    r.has addr = true ↔ r.base ≤ addr ∧ addr < r.base + r.size := by
  unfold RknpuDkmsGemRange.has
  rw [Nat.mod_eq_of_lt h, decide_eq_true_eq]

theorem finds {s : GemState} (hfits : ∀ r ∈ s.ranges, r.base + r.size < 2 ^ 64) (addr : ℕ) :
    Finds s addr (s.rknpuDkmsFindGemObjByAddr addr) := by
  unfold GemState.rknpuDkmsFindGemObjByAddr
  cases hfind : s.ranges.find? fun r => r.has addr with
  | none =>
    rw [List.find?_eq_none] at hfind
    refine ⟨iff_of_false (by simp) ?_, fun o ho => ?_, fun _ => ⟨rfl, rfl⟩⟩
    · rintro ⟨r, hr, haddr⟩
      exact hfind r hr ((has_iff (hfits r hr) addr).mpr haddr)
    · cases ho
  | some r =>
    have hmem := List.mem_of_find?_eq_some hfind
    have hhas : r.has addr = true := by simpa using List.find?_some hfind
    have haddr := (has_iff (hfits r hmem) addr).mp hhas
    refine ⟨iff_of_true rfl ⟨r, hmem, haddr⟩, fun o ho => ?_, fun ho => ?_⟩
    · cases ho
      exact ⟨r, hmem, rfl, haddr.1, haddr.2, rfl, rfl⟩
    · cases ho

/-- In every interleaving of track and untrack calls an object has at most one entry, with its
own base and size, and its references are those it began with, one for its entry and one for each
track call between its get and its locked block; the lookup by address finds what lies in an
entry. -/
theorem tracking_integrity {s₀ s : TrackState} {labels : List TrackLabel}
    (h0 : trackSystem.init s₀) (hrun : trackSystem.run s₀ labels = some s) :
    (∀ o, s.entries o ≤ 1) ∧
    (∀ o, s.gem.refs.count o = s₀.gem.refs.count o + s.entries o + s.inFlight o) ∧
    (∀ r ∈ s.gem.ranges, r.base = (s.gem.objs r.obj).dmaAddr ∧
      r.size = (s.gem.objs r.obj).size) ∧
    ∀ addr, Finds s.gem addr (s.gem.rknpuDkmsFindGemObjByAddr addr) := by
  have hs := integral_run h0 hrun
  have hentry : ∀ r ∈ s.gem.ranges, r.base = (s.gem.objs r.obj).dmaAddr ∧
      r.size = (s.gem.objs r.obj).size := by
    intro r hr
    rw [hs.entry r hr, hs.objs]
    exact ⟨rfl, rfl⟩
  refine ⟨hs.single, hs.counted, hentry, fun addr => finds (fun r hr => ?_) addr⟩
  obtain ⟨hbase, hsize⟩ := hentry r hr
  rw [hbase, hsize, hs.objs]
  exact h0.2.2 r.obj

/-- Two threads track object `7` at the same time; the later one finds the entry of the other. -/
def twoTracks : List TrackLabel :=
  [.track 7 true, .track 7 true, .exec 0, .exec 1, .exec 1, .exec 0]

def oneObject : TrackState :=
  ⟨⟨fun _ => ⟨0x2000, 0, 0x10000⟩, 8, ⟨fun _ => 1, fun _ => false⟩, [], [], [], []⟩, []⟩

theorem tracking_integrity_two : ∃ s, trackSystem.run oneObject twoTracks = some s ∧
    s.gem.ranges = [⟨7, 0x10000, 0x2000⟩] ∧ s.gem.refs.count 7 = 2 ∧
    Finds s.gem 0x11fff (s.gem.rknpuDkmsFindGemObjByAddr 0x11fff) :=
  ⟨_, rfl, rfl, rfl, (@tracking_integrity oneObject _ twoTracks
    ⟨rfl, rfl, fun _ => show 0x10000 + 0x2000 < 2 ^ 64 by decide⟩ rfl).2.2.2 0x11fff⟩

end RknpuDriver.Gem
