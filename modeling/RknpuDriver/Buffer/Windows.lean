import RknpuDriver.Buffer.Sram
import RknpuDriver.Buffer.Calls

/-! # Which IOVAs show the SRAM

Chunks of the pool and translations of the IOMMU are given back by different subsystems. An
object whose cache part is mapped is a window of its IOVA range onto its chunks, and
`WindowsOk` says that the SRAM is seen through these windows only. Creation gives its chunks back
after its translations, on every error path; destruction gives them back first, and from then on
another object can get them.

* `WindowsOk.replace`, `WindowsOk.move`, `WindowsOk.quiet`: what a step has to show for one call.
* `WindowsOk.exec`: what one step keeps, except for `rknpu_mm_free` of a destruction.
-/

namespace RknpuDriver.Buffer
open RknpuDriver.Lib RknpuDriver.Mm
set_option autoImplicit false

/-- A byte of the SRAM. -/
def RknpuDevice.InSram (dev : RknpuDevice) (p : ℕ) : Prop := dev.sramStart ≤ p ∧ p < dev.sramEnd

/-- The bytes of a segment are not in the SRAM. -/
def RknpuDevice.OffSram (dev : RknpuDevice) (s : Segment) : Prop :=
  ∀ p, s.start ≤ p → p < s.start + s.length → ¬ dev.InSram p

/-- IOVAs are given out in granules, and SRAM and NBUF are different memory. -/
structure RknpuDevice.WellPlaced (dev : RknpuDevice) : Prop where
  granule : 0 < dev.iovaGranule
  nbuf : dev.OffSram ⟨dev.nbufStart, dev.nbufSize⟩
  table : ∀ i sgl, dev.cacheSgt i = some sgl → ∀ s ∈ sgl,
    dev.OffSram ⟨dev.nbufStart + s.start, s.length⟩

/-! ## The pool under the calls -/

namespace InStep
variable {dev : RknpuDevice} {mm mm' : RknpuMm} {live live' : List RknpuGemObject}
  {o o' : RknpuGemObject}

theorem perm (h : InStep dev mm live) (hp : live.Perm live') : InStep dev mm live' :=
  ⟨h.enabled, h.consistent.perm (hp.filterMap _), h.chunk, h.fits, h.small,
    fun x hx => h.sized x (hp.mem_iff.mpr hx)⟩

theorem drop_first (h : InStep dev mm (o :: live)) (ho : o.sramSize = 0) : InStep dev mm live :=
  h.drop_plain (k := 0) rfl ho

theorem replace_plain (h : InStep dev mm (o :: live)) (ho : o.sramSize = 0)
    (ho' : o'.sramSize = 0) : InStep dev mm (o' :: live) :=
  ((h.drop_first ho).push_plain ho').perm (List.perm_append_singleton _ _)

theorem replace_same (h : InStep dev mm (o :: live)) (hsize : o'.sramSize = o.sramSize)
    (hobj : o'.sramObj = o.sramObj) : InStep dev mm (o' :: live) := by
  have hrange : o'.sramRange = o.sramRange := by
    unfold RknpuGemObject.sramRange
    rw [hsize, hobj]
  refine ⟨h.enabled, ?_, h.chunk, h.fits, h.small, fun x hx hpos => ?_⟩
  · have hcons := h.consistent
    rwa [List.filterMap_cons, ← hrange, ← List.filterMap_cons] at hcons
  · obtain rfl | hx := List.mem_cons.mp hx
    · rw [hsize] at hpos ⊢
      rw [hrange]
      exact h.sized o (List.mem_cons_self ..) hpos
    · exact h.sized x (List.mem_cons_of_mem _ hx) hpos

theorem alloc_first (h : InStep dev mm (o :: live)) (ho : o.sramSize = 0) {real : ℕ}
    {objOk : Bool} {r : RknpuMmObj} (hmod : real % pageSize = 0) (hlt : real < 2 ^ 32)
    (halloc : rknpuMmAlloc mm (UInt32.ofNat real) objOk = some (.ok (mm', r)))
    (hr : o'.sramRange = some r) (hsize : o'.sramSize = real) : InStep dev mm' (o' :: live) :=
  ((h.drop_first ho).push hmod hlt halloc hr hsize).perm (List.perm_append_singleton _ _)

end InStep

/-! ## Windows -/

/-- The cache part of a call that stands here is mapped. -/
def Pc.mapped : Pc → Bool
  | .getPages => true
  | .mapDdr _ _ _ => true
  | .unmapDdr _ => true
  | .unmapCache => true
  | .live => true
  | .stuck => true
  | .destroyMmFree => true
  | _ => false

/-- A call that stands here has a cache part to look after. -/
def Pc.cached : Pc → Bool
  | .allocIova => true
  | .mapCache _ _ _ => true
  | .getPages => true
  | .mapDdr _ _ _ => true
  | .unmapDdr _ => true
  | .unmapCache => true
  | .freeIova => true
  | .mmFree => true
  | .destroyMmFree => true
  | _ => false

namespace BufCall

def window (dev : RknpuDevice) (c : BufCall) : Option Window :=
  if c.pc.mapped then
    c.obj.sramRange.map fun r =>
      ⟨c.obj.iovaStart, dev.sramStart + r.rangeStart * pageSize, c.obj.sramSize⟩
  else none

/-- An object without a cache part. -/
def Plain (c : BufCall) : Prop :=
  c.obj.sramSize = 0 ∧ c.obj.nbufSize = 0 ∧ c.obj.dmaAddr = 0 ∧ c.held = false

/-- A call that takes the branch of the SRAM. -/
def InSramBranch (dev : RknpuDevice) (c : BufCall) : Prop :=
  dev.sramEnabled = true ∧ c.cacheType = .sram ∧ c.obj.cacheWithSgt = false ∧ c.obj.nbufSize = 0

/-- What holds of a call by where it stands. -/
def PlaceOk (dev : RknpuDevice) (c : BufCall) : Prop :=
  match c.pc with
  | .readFree _ => c.Plain ∧ c.InSramBranch dev ∧ c.obj.size % pageSize = 0
  | .mmAlloc real =>
    c.Plain ∧ c.InSramBranch dev ∧ real % pageSize = 0 ∧ real < 2 ^ 32
  | .allocIova => c.held = false ∧ (c.cacheType = .nbuf → c.obj.nbufSize ≤ dev.nbufSize)
  | .mapCache sgl va length => c.held = true ∧ c.obj.iovaStart ≤ va ∧
    va + length ≤ c.obj.iovaStart + c.obj.cacheSize c.cacheType ∧
    match c.cacheType with
    | .sram => va = c.obj.iovaStart ∧ length = c.obj.sramSize ∧
      ∃ r, c.obj.sramRange = some r ∧
        sgl = [⟨dev.sramStart + r.rangeStart * pageSize, c.obj.sramSize⟩]
    | .nbuf => ∀ s ∈ sgl, dev.OffSram s
  | .mapDdr sgl va length => c.held = true ∧
    c.obj.iovaStart + c.obj.cacheSize c.cacheType ≤ va ∧
    va + length ≤ c.obj.iovaStart + c.obj.cacheSize c.cacheType + c.obj.size ∧
    ∀ s ∈ sgl, dev.OffSram s
  | .unmapDdr size => c.held = true ∧ size ≤ c.obj.size
  | .getPages => c.held = true
  | .unmapCache => c.held = true
  | .freeIova => True
  | .mmFree => c.cacheType = .sram
  | .allocBuf => c.Plain
  | .live => 0 < c.obj.nbufSize → c.held = true
  | .stuck => True
  | .destroyMmFree => c.cacheType = .sram
  | .destroyUnmapCache => c.held = true ∧ c.obj.sramSize = 0
  | .destroyUnmapDdr => c.held = true ∧ c.obj.sramSize = 0
  | .destroyFreeIova => c.obj.sramSize = 0

/-- A call that is in order by itself. -/
structure Good (dev : RknpuDevice) (c : BufCall) : Prop where
  sram : 0 < c.obj.sramSize → c.InSramBranch dev
  nbuf : 0 < c.obj.nbufSize → c.cacheType = .nbuf
  reserved : c.pc.cached = true → c.cacheType = .sram → 0 < c.obj.sramSize
  fits : c.held = true → c.obj.cacheSize c.cacheType + c.obj.size ≤ c.obj.iovaSize
  backed : ∀ w, c.window dev = some w → c.held = true ∧ c.obj.iovaStart % pageSize = 0 ∧
    c.obj.sramSize % pageSize = 0
  place : c.PlaceOk dev

/-- Two objects hold different IOVAs. -/
def Apart (c d : BufCall) : Prop :=
  c.held = true → d.held = true →
    c.obj.iovaStart + c.obj.iovaSize ≤ d.obj.iovaStart ∨
      d.obj.iovaStart + d.obj.iovaSize ≤ c.obj.iovaStart

theorem Apart.symm {c d : BufCall} (h : c.Apart d) : d.Apart c := fun hd hc => (h hc hd).symm

variable {dev : RknpuDevice} {c : BufCall}

theorem window_of_zero (h : c.obj.sramSize = 0) : c.window dev = none := by
  unfold window
  rw [sramRange_of_zero h, Option.map_none]
  split_ifs <;> rfl

theorem window_of_unmapped (h : c.pc.mapped = false) : c.window dev = none := by
  unfold window
  rw [h]
  rfl

theorem window_of_range {r : RknpuMmObj} (hpc : c.pc.mapped = true)
    (hr : c.obj.sramRange = some r) : c.window dev =
      some ⟨c.obj.iovaStart, dev.sramStart + r.rangeStart * pageSize, c.obj.sramSize⟩ := by
  unfold window
  rw [if_pos hpc, hr, Option.map_some]

theorem exists_of_window {w : Window} (h : c.window dev = some w) :
    ∃ r, c.obj.sramRange = some r ∧ 0 < c.obj.sramSize ∧
      w = ⟨c.obj.iovaStart, dev.sramStart + r.rangeStart * pageSize, c.obj.sramSize⟩ := by
  unfold window at h
  split_ifs at h
  obtain ⟨r, hr, hw⟩ := Option.map_eq_some_iff.mp h
  exact ⟨r, hr, (held_of_sramRange hr).1, hw.symm⟩

theorem Good.place_at (h : c.Good dev) {pc : Pc} (hpc : c.pc = pc) :
    BufCall.PlaceOk dev { c with pc := pc } := by
  subst hpc
  exact h.place

theorem Good.sramSize_of_nbuf (h : c.Good dev) (htype : c.cacheType = .nbuf) :
    c.obj.sramSize = 0 := by
  refine Nat.eq_zero_of_not_pos fun hpos => ?_
  cases htype.symm.trans (h.sram hpos).2.1

/-- The cache part of an object in SRAM is as large as its window. -/
theorem Good.cacheSize_sram (h : c.Good dev) (hpos : 0 < c.obj.sramSize) :
    c.obj.cacheSize c.cacheType = c.obj.sramSize := by
  rw [(h.sram hpos).2.1]
  rfl

/-- The call has moved on, with the same memory. -/
structure Moved (c c' : BufCall) : Prop where
  size : c'.obj.size = c.obj.size
  sramSize : c'.obj.sramSize = c.obj.sramSize
  nbufSize : c'.obj.nbufSize = c.obj.nbufSize
  sramObj : c'.obj.sramObj = c.obj.sramObj
  cacheWithSgt : c'.obj.cacheWithSgt = c.obj.cacheWithSgt
  iovaStart : c'.obj.iovaStart = c.obj.iovaStart
  iovaSize : c'.obj.iovaSize = c.obj.iovaSize
  cacheType : c'.cacheType = c.cacheType
  held : c'.held = c.held

namespace Moved
variable {c' : BufCall}

theorem pc (c : BufCall) (pc : Pc) : Moved c { c with pc := pc } :=
  ⟨rfl, rfl, rfl, rfl, rfl, rfl, rfl, rfl, rfl⟩

theorem cacheSize (h : Moved c c') :
    c'.obj.cacheSize c'.cacheType = c.obj.cacheSize c.cacheType := by
  rw [h.cacheType]
  cases c.cacheType with
  | sram => exact h.sramSize
  | nbuf => exact h.nbufSize

theorem window (h : Moved c c') (hpc : c'.pc.mapped = c.pc.mapped) :
    c'.window dev = c.window dev := by
  unfold BufCall.window RknpuGemObject.sramRange
  rw [hpc, h.sramSize, h.sramObj, h.iovaStart]

theorem good (h : Moved c c') (hgood : c.Good dev)
    (hcached : c'.pc.cached = true → c.cacheType = .sram → 0 < c.obj.sramSize)
    (hbacked : c'.pc.mapped = true → c.pc.mapped = false → 0 < c.obj.sramSize →
      c.held = true ∧ c.obj.iovaStart % pageSize = 0 ∧ c.obj.sramSize % pageSize = 0)
    (hplace : c'.PlaceOk dev) : c'.Good dev := by
  refine ⟨fun hpos => ?_, fun hpos => ?_, ?_, fun hheld => ?_, fun w hw => ?_, hplace⟩
  · rw [h.sramSize] at hpos
    unfold InSramBranch
    rw [h.cacheType, h.cacheWithSgt, h.nbufSize]
    exact hgood.sram hpos
  · rw [h.nbufSize] at hpos
    rw [h.cacheType]
    exact hgood.nbuf hpos
  · rw [h.cacheType, h.sramSize]
    exact hcached
  · rw [h.held] at hheld
    rw [h.cacheSize, h.size, h.iovaSize]
    exact hgood.fits hheld
  · rw [h.held, h.iovaStart, h.sramSize]
    cases hpc : c'.pc.mapped with
    | false =>
      rw [window_of_unmapped hpc] at hw
      cases hw
    | true =>
      cases hold : c.pc.mapped with
      | true =>
        rw [h.window (hpc.trans hold.symm)] at hw
        exact hgood.backed w hw
      | false =>
        obtain ⟨r, -, hpos, -⟩ := exists_of_window hw
        rw [h.sramSize] at hpos
        exact hbacked hpc hold hpos

/-- From one place of the cached part of a call to another, with the window as it is. -/
theorem good_of_pc (h : Moved c c') (hgood : c.Good dev)
    (hcached : c'.pc.cached = true → c.pc.cached = true)
    (hmapped : c'.pc.mapped = true → c.pc.mapped = true) (hplace : c'.PlaceOk dev) :
    c'.Good dev :=
  h.good hgood (fun hpc => hgood.reserved (hcached hpc))
    (fun hpc hold => absurd (hmapped hpc) (by simp [hold])) hplace

end Moved
end BufCall

/-! ## The invariant -/

/-- The SRAM is seen through the windows of the calls only, and these agree with the pool. -/
structure WindowsOk (dev : RknpuDevice) (m : Shared) (calls : List BufCall) : Prop where
  pool : ∀ mm, m.sramMm = some mm → InStep dev mm (calls.map BufCall.obj)
  shows : ∀ tr, m.domain = some tr → tr.Shows dev.InSram (calls.filterMap (BufCall.window dev))
  apart : calls.Pairwise BufCall.Apart
  attached : ∀ c ∈ calls, c.held = true → m.domain ≠ none
  good : ∀ c ∈ calls, c.Good dev

namespace WindowsOk
variable {dev : RknpuDevice} {m m' : Shared} {c c' : BufCall} {calls calls' rest : List BufCall}

theorem perm (h : WindowsOk dev m calls) (hp : calls.Perm calls') : WindowsOk dev m calls' :=
  ⟨fun mm hmm => (h.pool mm hmm).perm (hp.map _),
    fun tr htr => (h.shows tr htr).perm (hp.filterMap _),
    (hp.pairwise_iff fun ha => ha.symm).mp h.apart,
    fun c hc => h.attached c (hp.mem_iff.mpr hc),
    fun c hc => h.good c (hp.mem_iff.mpr hc)⟩

theorem first (h : WindowsOk dev m (c :: rest)) : c.Good dev := h.good c (List.mem_cons_self ..)

/-- The windows of the other calls lie outside the IOVA range of this one. -/
theorem clear (h : WindowsOk dev m (c :: rest)) (hheld : c.held = true) {va n : ℕ}
    (hlow : c.obj.iovaStart ≤ va) (hhigh : va + n ≤ c.obj.iovaStart + c.obj.iovaSize) :
    ∀ w ∈ rest.filterMap (BufCall.window dev), w.Clear va n := by
  intro w hw
  obtain ⟨d, hd, hwd⟩ := List.mem_filterMap.mp hw
  have hgood := h.good d (List.mem_cons_of_mem _ hd)
  obtain ⟨r, -, hpos, rfl⟩ := BufCall.exists_of_window hwd
  have hdheld := (hgood.backed _ hwd).1
  have hfits := hgood.fits hdheld
  rw [hgood.cacheSize_sram hpos] at hfits
  have hapart := List.rel_of_pairwise_cons h.apart hd hheld hdheld
  unfold Window.Clear
  simp only
  omega

/-- What comes after the cache part in the IOVA range of a call lies outside its window too. -/
theorem clear_ddr (h : WindowsOk dev m (c :: rest)) (hheld : c.held = true) {va n : ℕ}
    (hlow : c.obj.iovaStart + c.obj.cacheSize c.cacheType ≤ va)
    (hhigh : va + n ≤ c.obj.iovaStart + c.obj.cacheSize c.cacheType + c.obj.size) :
    ∀ w ∈ (c :: rest).filterMap (BufCall.window dev), w.Clear va n := by
  intro w hw
  have hfits := h.first.fits hheld
  have hrest := h.clear hheld (show c.obj.iovaStart ≤ va by omega)
    (show va + n ≤ c.obj.iovaStart + c.obj.iovaSize by omega)
  obtain ⟨d, hd, hwd⟩ := List.mem_filterMap.mp hw
  obtain rfl | hd := List.mem_cons.mp hd
  · obtain ⟨r, -, hpos, rfl⟩ := BufCall.exists_of_window hwd
    have hsize := h.first.cacheSize_sram hpos
    exact Or.inl (by simp only; omega)
  · exact hrest w (List.mem_filterMap.mpr ⟨d, hd, hwd⟩)

theorem replace (h : WindowsOk dev m (c :: rest))
    (hpool : ∀ mm, m'.sramMm = some mm → InStep dev mm (c'.obj :: rest.map BufCall.obj))
    (hshows : ∀ tr, m'.domain = some tr →
      tr.Shows dev.InSram ((c' :: rest).filterMap (BufCall.window dev)))
    (hapart : ∀ d ∈ rest, c'.Apart d) (hdomain : m'.domain = none → m.domain = none)
    (hheld : c'.held = true → m'.domain ≠ none) (hgood : c'.Good dev) :
    WindowsOk dev m' (c' :: rest) := by
  refine ⟨hpool, hshows, List.pairwise_cons.mpr ⟨hapart, h.apart.of_cons⟩, fun d hd => ?_,
    fun d hd => ?_⟩
  · obtain rfl | hd := List.mem_cons.mp hd
    · exact hheld
    · intro hdheld hnone
      exact h.attached d (List.mem_cons_of_mem _ hd) hdheld (hdomain hnone)
  · obtain rfl | hd := List.mem_cons.mp hd
    · exact hgood
    · exact h.good d (List.mem_cons_of_mem _ hd)

theorem remove (h : WindowsOk dev m (c :: rest))
    (hpool : ∀ mm, m'.sramMm = some mm → InStep dev mm (rest.map BufCall.obj))
    (hwindow : c.window dev = none) (hdomain : m'.domain = m.domain) :
    WindowsOk dev m' rest := by
  refine ⟨hpool, fun tr htr => ?_, h.apart.of_cons,
    fun d hd => hdomain ▸ h.attached d (List.mem_cons_of_mem _ hd),
    fun d hd => h.good d (List.mem_cons_of_mem _ hd)⟩
  have hshows := h.shows tr (hdomain ▸ htr)
  rwa [List.filterMap_cons_none hwindow] at hshows

theorem apart_of_moved (h : WindowsOk dev m (c :: rest)) (hmoved : BufCall.Moved c c') :
    ∀ d ∈ rest, c'.Apart d := by
  intro d hd
  unfold BufCall.Apart
  rw [hmoved.held, hmoved.iovaStart, hmoved.iovaSize]
  exact List.rel_of_pairwise_cons h.apart hd

theorem pool_of_moved (h : WindowsOk dev m (c :: rest)) (hmoved : BufCall.Moved c c')
    (mm : RknpuMm) (hmm : m.sramMm = some mm) : InStep dev mm (c'.obj :: rest.map BufCall.obj) :=
  (h.pool mm hmm).replace_same hmoved.sramSize hmoved.sramObj

/-- A call moves on, and the translations change so that they show the windows there are
then. -/
theorem move (h : WindowsOk dev m (c :: rest)) (hmoved : BufCall.Moved c c')
    (hmm : m'.sramMm = m.sramMm)
    (hshows : ∀ tr, m'.domain = some tr →
      tr.Shows dev.InSram ((c' :: rest).filterMap (BufCall.window dev)))
    (hdomain : m'.domain = none → m.domain = none) (hgood : c'.Good dev) :
    WindowsOk dev m' (c' :: rest) := by
  refine h.replace (fun mm hm => h.pool_of_moved hmoved mm (hmm ▸ hm)) hshows
    (h.apart_of_moved hmoved) hdomain (fun hheld hnone => ?_) hgood
  rw [hmoved.held] at hheld
  exact h.attached c (List.mem_cons_self ..) hheld (hdomain hnone)

/-- The windows are the same when the call had none and has none. -/
theorem shows_swap (h : WindowsOk dev m (c :: rest)) (hc : c.window dev = none)
    (hc' : c'.window dev = none) : ∀ tr, m.domain = some tr →
      tr.Shows dev.InSram ((c' :: rest).filterMap (BufCall.window dev)) := by
  intro tr htr
  have hshows := h.shows tr htr
  rw [List.filterMap_cons_none hc] at hshows
  rwa [List.filterMap_cons_none hc']

theorem quiet (h : WindowsOk dev m (c :: rest)) (hmoved : BufCall.Moved c c')
    (hwindow : c'.window dev = c.window dev) (hgood : c'.Good dev) :
    WindowsOk dev m (c' :: rest) := by
  refine h.move hmoved rfl (fun tr htr => ?_) id hgood
  have hshows := h.shows tr htr
  rwa [List.filterMap_cons, ← hwindow, ← List.filterMap_cons] at hshows

end WindowsOk

/-! ## What a step keeps -/

namespace WindowsOk
variable {dev : RknpuDevice} {m m' : Shared} {c : BufCall} {rest : List BufCall}
  {out : StepOutcome} {next : Option BufCall}

section Create

theorem fallback (h : WindowsOk dev m (c :: rest)) (hplain : c.Plain) :
    WindowsOk dev m (c.fallback :: rest) := by
  have hwindow : ∀ d : BufCall, d.obj.sramSize = c.obj.sramSize → d.window dev = c.window dev :=
    fun d hd => by
      rw [BufCall.window_of_zero hplain.1, BufCall.window_of_zero (hd.trans hplain.1)]
  have hnone : ¬ 0 < c.obj.sramSize := Nat.not_lt_of_le (Nat.le_of_eq hplain.1)
  unfold BufCall.fallback
  by_cases hsize : 0 < c.obj.size
  · rw [if_pos hsize]
    refine h.quiet (BufCall.Moved.pc c _) (hwindow _ rfl) ?_
    exact (BufCall.Moved.pc c _).good h.first (fun hpc => by cases hpc) (fun hpc => by cases hpc)
      hplain
  · rw [if_neg hsize]
    refine h.quiet (BufCall.Moved.pc c _) (hwindow _ rfl) ?_
    refine (BufCall.Moved.pc c _).good h.first (fun hpc => by cases hpc)
      (fun _ _ hpos => absurd hpos hnone) fun hpos => ?_
    exact absurd hpos (Nat.not_lt_of_le (Nat.le_of_eq hplain.2.1))

theorem readFree (h : WindowsOk dev m (c :: rest)) {n : ℕ} (hpc : c.pc = .readFree n)
    (hexec : BufCall.execReadFree m c n = some (m', next)) :
    WindowsOk dev m' (next.toList ++ rest) := by
  obtain ⟨hplain, hbranch, hsize⟩ : c.Plain ∧ c.InSramBranch dev ∧ c.obj.size % pageSize = 0 :=
    h.first.place_at hpc
  obtain ⟨mm, hmm, hret⟩ := Option.map_eq_some_iff.mp hexec
  by_cases hfree : 0 < u32 (mm.freeChunks * mm.chunkSize)
  · simp only [if_pos hfree] at hret
    cases hret
    refine h.quiet (BufCall.Moved.pc c _) ?_ ?_
    · rw [BufCall.window_of_unmapped rfl, BufCall.window_of_zero hplain.1]
    · obtain ⟨hmod, hlt⟩ := (h.pool mm hmm).realSramSize_spec hsize rfl
      exact (BufCall.Moved.pc c _).good h.first (fun hpc => by cases hpc)
        (fun hpc => by cases hpc) ⟨hplain, hbranch, hmod, hlt⟩
  · simp only [if_neg hfree] at hret
    cases hret
    exact h.fallback hplain

theorem execMmAlloc_cases {real : ℕ} (h : BufCall.execMmAlloc m c real out = some (m', next)) :
    (m' = m ∧ ∃ left, next = some
      ({ c with obj := { c.obj with sramObj := left } } : BufCall).fallback) ∨
    ∃ mm mm' r, m.sramMm = some mm ∧ 0 < real ∧
      rknpuMmAlloc mm (UInt32.ofNat real) out.objOk = some (.ok (mm', r)) ∧
      m' = { m with sramMm := some mm' } ∧
      next = some { c with
        obj := { c.obj with sramObj := .held r, sramSize := real }
        pc := .allocIova } := by
  simp only [BufCall.execMmAlloc, Option.bind_eq_bind, Option.bind_eq_some_iff] at h
  obtain ⟨mm, hmm, ⟨mm', obj, real'⟩, hreserve, hret⟩ := h
  unfold allocSram at hreserve
  split at hreserve
  · cases hreserve
  · cases hreserve
    rw [if_neg (Nat.lt_irrefl 0)] at hret
    cases hret
    refine Or.inl ⟨?_, _, rfl⟩
    rw [← hmm]
  · rename_i mm' r halloc
    cases hreserve
    by_cases hpos : 0 < real
    · rw [if_pos hpos] at hret
      cases hret
      exact Or.inr ⟨mm, _, r, hmm, hpos, halloc, rfl, rfl⟩
    · rw [Nat.eq_zero_of_not_pos hpos] at halloc
      cases halloc

theorem mmAlloc (h : WindowsOk dev m (c :: rest)) {real : ℕ} (hpc : c.pc = .mmAlloc real)
    (hexec : BufCall.execMmAlloc m c real out = some (m', next)) :
    WindowsOk dev m' (next.toList ++ rest) := by
  obtain ⟨hplain, hbranch, hmod, hlt⟩ : c.Plain ∧ c.InSramBranch dev ∧ real % pageSize = 0 ∧
    real < 2 ^ 32 := h.first.place_at hpc
  have hunheld : ¬ c.held = true := by rw [hplain.2.2.2]; decide
  obtain ⟨rfl, left, rfl⟩ | ⟨mm, mm', r, hmm, hpos, halloc, rfl, rfl⟩ := execMmAlloc_cases hexec
  · refine WindowsOk.fallback ?_ hplain
    refine h.replace (fun mm' hmm' => ?_) ?_ (fun d _ hheld => absurd hheld hunheld) id
      (fun hheld => absurd hheld hunheld) ?_
    · exact (h.pool mm' hmm').replace_plain hplain.1 hplain.1
    · exact h.shows_swap (BufCall.window_of_zero hplain.1) (BufCall.window_of_zero hplain.1)
    · refine ⟨h.first.sram, h.first.nbuf, h.first.reserved, h.first.fits, fun w hw => ?_, ?_⟩
      · cases hw.symm.trans (BufCall.window_of_zero hplain.1)
      · unfold BufCall.PlaceOk
        simp only [hpc]
        exact ⟨hplain, hbranch, hmod, hlt⟩
  · have hrange : ({ c.obj with sramObj := .held r, sramSize := real } :
        RknpuGemObject).sramRange = some r := sramRange_of_held hpos rfl
    refine h.replace (fun mm'' hmm'' => ?_) ?_ (fun d _ hheld => absurd hheld hunheld) id
      (fun hheld => absurd hheld hunheld) ?_
    · cases hmm''
      exact (h.pool mm hmm).alloc_first hplain.1 hmod hlt halloc hrange rfl
    · exact h.shows_swap (BufCall.window_of_zero hplain.1) (BufCall.window_of_unmapped rfl)
    · refine ⟨fun _ => hbranch, fun hn => ?_, fun _ _ => hpos,
        fun hheld => absurd hheld hunheld, fun w hw => ?_, hplain.2.2.2, fun htype => ?_⟩
      · exact absurd hn (Nat.not_lt_of_le (Nat.le_of_eq hplain.2.1))
      · rw [BufCall.window_of_unmapped rfl] at hw
        cases hw
      · cases htype.symm.trans hbranch.2.1

/-- The call is over before anything was mapped, or after it was unmapped. -/
theorem failed (h : WindowsOk dev m (c :: rest)) (hcached : c.pc.cached = true)
    (hmapped : c.pc.mapped = false) : WindowsOk dev m (c.failed.toList ++ rest) := by
  by_cases htype : c.cacheType = .sram
  · have hret : c.failed = some { c with pc := .mmFree } := by
      unfold BufCall.failed
      rw [htype]
    rw [hret]
    refine h.quiet (BufCall.Moved.pc c _) ?_ ?_
    · rw [BufCall.window_of_unmapped rfl, BufCall.window_of_unmapped hmapped]
    · exact (BufCall.Moved.pc c _).good_of_pc h.first (fun _ => hcached)
        (fun hpc => by cases hpc) htype
  · have hnbuf : c.cacheType = .nbuf := by
      cases hc : c.cacheType with
      | sram => exact absurd hc htype
      | nbuf => rfl
    have hret : c.failed = none := by
      unfold BufCall.failed
      rw [hnbuf]
    have hzero := h.first.sramSize_of_nbuf hnbuf
    rw [hret]
    exact h.remove (fun mm hmm => (h.pool mm hmm).drop_first hzero)
      (BufCall.window_of_zero hzero) rfl

theorem le_iovaAlign {granule : ℕ} (hpos : 0 < granule) (n : ℕ) : n ≤ iovaAlign granule n := by
  unfold iovaAlign
  have hdiv := Nat.div_add_mod (n + granule - 1) granule
  have hmod := Nat.mod_lt (n + granule - 1) hpos
  rw [Nat.mul_comm] at hdiv
  omega

/-- The IOVA range of an object that holds none is set to another one. -/
theorem withRange (h : WindowsOk dev m (c :: rest)) (hpc : c.pc = .allocIova) (iova n : ℕ) :
    WindowsOk dev m (c.withRange iova n :: rest) := by
  have hplace : c.held = false ∧ (c.cacheType = .nbuf → c.obj.nbufSize ≤ dev.nbufSize) :=
    h.first.place_at hpc
  have hmapped : c.pc.mapped = false := by rw [hpc]; rfl
  have hunheld : ¬ c.held = true := by rw [hplace.1]; decide
  refine h.replace (fun mm hmm => (h.pool mm hmm).replace_same rfl rfl) ?_
    (fun d _ hheld => absurd hheld hunheld) id (fun hheld => absurd hheld hunheld) ?_
  · exact h.shows_swap (BufCall.window_of_unmapped hmapped) (BufCall.window_of_unmapped hmapped)
  · refine ⟨h.first.sram, h.first.nbuf, h.first.reserved, fun hheld => absurd hheld hunheld,
      fun w hw => ?_, ?_⟩
    · cases hw.symm.trans (BufCall.window_of_unmapped hmapped)
    · unfold BufCall.PlaceOk
      rw [show (c.withRange iova n).pc = .allocIova from hpc]
      exact hplace

theorem cacheTable_place (h : WindowsOk dev m (c :: rest)) (hdev : dev.WellPlaced)
    (hpc : c.pc = .allocIova) {cacheStart cacheSize : ℕ} {sgl : List Segment}
    (hrange : cacheRange dev m.sramMm c.obj c.cacheType = some (cacheStart, cacheSize))
    (htable : BufCall.cacheTable dev c.obj cacheStart cacheSize = some sgl) :
    match c.cacheType with
    | .sram => ∃ r, c.obj.sramRange = some r ∧
        sgl = [⟨dev.sramStart + r.rangeStart * pageSize, c.obj.sramSize⟩]
    | .nbuf => ∀ s ∈ sgl, dev.OffSram s := by
  have hplace : c.held = false ∧ (c.cacheType = .nbuf → c.obj.nbufSize ≤ dev.nbufSize) :=
    h.first.place_at hpc
  cases htype : c.cacheType with
  | sram =>
    have hpos := h.first.reserved (by rw [hpc]; rfl) htype
    obtain ⟨mm, hmm⟩ : ∃ mm, m.sramMm = some mm := Option.ne_none_iff_exists'.mp fun hnone => by
      rw [htype, hnone] at hrange
      cases hrange
    have hpool := h.pool mm hmm
    obtain ⟨r, hr, -⟩ := hpool.sized c.obj (List.mem_cons_self ..) hpos
    have hwindow := hpool.cacheRange_window (List.mem_cons_self ..) hr
    rw [htype, hmm, hwindow] at hrange
    cases hrange
    unfold BufCall.cacheTable at htable
    rw [(h.first.sram hpos).2.2.1] at htable
    cases htable
    refine ⟨r, hr, ?_⟩
    unfold windowStart
    rw [hpool.chunk]
  | nbuf =>
    rw [htype] at hrange
    cases hrange
    intro s hs
    unfold BufCall.cacheTable at htable
    split_ifs at htable
    · cases htable
      rw [List.mem_singleton.mp hs]
      intro p hlow hhigh
      exact hdev.nbuf p hlow (Nat.lt_of_lt_of_le hhigh (Nat.add_le_add_left (hplace.2 htype) _))
    · obtain ⟨table, hsgt, rfl⟩ := Option.map_eq_some_iff.mp htable
      obtain ⟨t, ht, rfl⟩ := List.mem_map.mp hs
      exact hdev.table _ table hsgt t ht

theorem allocIova (h : WindowsOk dev m (c :: rest)) (hdev : dev.WellPlaced)
    (hpc : c.pc = .allocIova)
    (hexec : BufCall.execAllocIova dev m rest c out = some (m', next)) :
    WindowsOk dev m' (next.toList ++ rest) := by
  have hcached : c.pc.cached = true := by rw [hpc]; rfl
  have hmapped : c.pc.mapped = false := by rw [hpc]; rfl
  unfold BufCall.execAllocIova at hexec
  split at hexec
  · cases hexec
  · cases hexec
    exact h.failed hcached hmapped
  rename_i cacheStart cacheSize tr hrange htr
  simp only at hexec
  generalize hiova : rknpuIommuDmaAllocIova dev
    (iovaAlign dev.iovaGranule (cacheSize + c.obj.size)) out.iova = iova at hexec
  have hranged := h.withRange hpc iova (iovaAlign dev.iovaGranule (cacheSize + c.obj.size))
  by_cases hzero : iova = 0
  · rw [if_pos hzero] at hexec
    cases hexec
    exact hranged.failed hcached hmapped
  rw [if_neg hzero] at hexec
  by_cases hfree : BufCall.IovaFree rest iova
      (iovaAlign dev.iovaGranule (cacheSize + c.obj.size))
  · rw [if_pos hfree] at hexec
    obtain ⟨sgl, htable, hret⟩ := Option.map_eq_some_iff.mp hexec
    cases hret
    have hsize := cacheRange_size hrange
    have hsgl := h.cacheTable_place hdev hpc hrange htable
    refine hranged.replace (fun mm hmm => (hranged.pool mm hmm).replace_same rfl rfl) ?_ ?_ id
      (fun _ hnone => by cases htr.symm.trans hnone) ?_
    · exact hranged.shows_swap (BufCall.window_of_unmapped hmapped)
        (BufCall.window_of_unmapped rfl)
    · intro d hd _ hdheld
      exact (hfree d hd hdheld).symm
    · refine ⟨h.first.sram, h.first.nbuf, fun _ => h.first.reserved hcached, fun _ => ?_,
        fun w hw => ?_, rfl, Nat.le_refl _, Nat.le_of_eq (congrArg _ hsize), ?_⟩
      · show c.obj.cacheSize c.cacheType + c.obj.size ≤ iovaAlign dev.iovaGranule _
        rw [← hsize]
        exact le_iovaAlign hdev.granule _
      · cases hw.symm.trans (BufCall.window_of_unmapped rfl)
      · show match c.cacheType with
          | .sram => iova = iova ∧ cacheSize = c.obj.sramSize ∧ ∃ r, c.obj.sramRange = some r ∧
            sgl = [⟨dev.sramStart + r.rangeStart * pageSize, c.obj.sramSize⟩]
          | .nbuf => ∀ s ∈ sgl, dev.OffSram s
        cases htype : c.cacheType with
        | sram =>
          rw [htype] at hsize hsgl
          exact ⟨rfl, hsize, hsgl⟩
        | nbuf =>
          rw [htype] at hsgl
          exact hsgl
  · rw [if_neg hfree] at hexec
    cases hexec

theorem not_inSram {s : Segment} (hoff : dev.OffSram s) {n : ℕ} (hn : n ≤ s.length) :
    ∀ o < n, ∀ p, some (s.start + o) = some p → ¬ dev.InSram p := by
  rintro o ho p ⟨⟩
  exact hoff _ (Nat.le_add_right _ _) (Nat.add_lt_add_left (Nat.lt_of_lt_of_le ho hn) _)

/-- The cache part of a call is mapped: its window opens, if it lies in the SRAM. -/
theorem cacheMapped (h : WindowsOk dev m (c :: rest)) {sgl : List Segment} {va length : ℕ}
    (hpc : c.pc = .mapCache sgl va length) (hmm : m'.sramMm = m.sramMm)
    (hshows : ∀ tr, m'.domain = some tr →
      tr.Shows dev.InSram ((c.cacheMapped :: rest).filterMap (BufCall.window dev)))
    (hdomain : m'.domain = none → m.domain = none)
    (haligned : 0 < c.obj.sramSize →
      c.obj.iovaStart % pageSize = 0 ∧ c.obj.sramSize % pageSize = 0) :
    WindowsOk dev m' (c.cacheMapped :: rest) := by
  have hheld : c.held = true := (h.first.place_at hpc).1
  have hcached : c.pc.cached = true := by rw [hpc]; rfl
  have hmoved : BufCall.Moved c c.cacheMapped := ⟨rfl, rfl, rfl, rfl, rfl, rfl, rfl, rfl, rfl⟩
  refine h.move hmoved hmm hshows hdomain (hmoved.good h.first
    (fun _ => h.first.reserved hcached) (fun _ _ hpos => ⟨hheld, haligned hpos⟩) ?_)
  unfold BufCall.PlaceOk BufCall.cacheMapped
  by_cases hsize : c.obj.size = 0
  · simp only [if_pos hsize]
    exact fun _ => hheld
  · simp only [if_neg hsize]
    exact hheld

theorem mapCache (h : WindowsOk dev m (c :: rest)) {sgl : List Segment} {va length : ℕ}
    (hpc : c.pc = .mapCache sgl va length)
    (hexec : BufCall.execMapCache m c sgl va length out = some (m', next)) :
    WindowsOk dev m' (next.toList ++ rest) := by
  have hplace := h.first.place
  unfold BufCall.PlaceOk at hplace
  rw [hpc] at hplace
  obtain ⟨hheld, hlow, hhigh, hsgl⟩ := hplace
  have hmapped : c.pc.mapped = false := by rw [hpc]; rfl
  have hcached : c.pc.cached = true := by rw [hpc]; rfl
  have hwindow : c.window dev = none := BufCall.window_of_unmapped hmapped
  have hfits := h.first.fits hheld
  unfold BufCall.execMapCache at hexec
  split at hexec
  · cases hexec
  · -- the table has come to its end: not for the SRAM, whose table has one entry
    cases hexec
    have hzero : c.obj.sramSize = 0 := by
      cases htype : c.cacheType with
      | sram =>
        rw [htype] at hsgl
        obtain ⟨-, -, r, -, hnil⟩ := hsgl
        cases hnil
      | nbuf => exact h.first.sramSize_of_nbuf htype
    refine h.cacheMapped hpc rfl (h.shows_swap hwindow (BufCall.window_of_zero hzero)) id
      fun hpos => ?_
    exact absurd hzero (Nat.ne_of_gt hpos)
  · rename_i s sgl tr htr
    simp only at hexec
    cases hmap : iommuMap out.ret tr va s.start (min length s.length) with
    | error e =>
      rw [hmap] at hexec
      cases hexec
      refine h.quiet (BufCall.Moved.pc c _) ?_ ?_
      · rw [BufCall.window_of_unmapped rfl, hwindow]
      · exact (BufCall.Moved.pc c _).good_of_pc h.first (fun _ => hcached)
          (fun hpc => by cases hpc) trivial
    | ok tr' =>
      rw [hmap] at hexec
      cases hexec
      obtain ⟨hva, -, hn, rfl⟩ := iommuMap_ok hmap
      have hshows := h.shows tr htr
      rw [List.filterMap_cons_none hwindow] at hshows
      by_cases htype : c.cacheType = .sram
      · rw [htype] at hsgl
        obtain ⟨rfl, rfl, r, hr, hs⟩ := hsgl
        cases hs
        have hopen : c.cacheMapped.window dev = some ⟨c.obj.iovaStart,
            dev.sramStart + r.rangeStart * pageSize, c.obj.sramSize⟩ := by
          refine BufCall.window_of_range ?_ hr
          unfold BufCall.cacheMapped
          split_ifs <;> rfl
        simp only [Nat.min_self] at hn ⊢
        rw [Nat.sub_self, if_pos rfl]
        refine h.cacheMapped hpc rfl (fun tr' htr' => ?_) (fun hnone => by cases hnone)
          fun _ => ⟨hva, hn⟩
        cases htr'
        rw [List.filterMap_cons_some hopen]
        exact hshows.push (w := ⟨_, _, _⟩) (h.clear hheld (Nat.le_refl _)
          (show c.obj.iovaStart + c.obj.sramSize ≤ _ by omega))
      · have hnbuf : c.cacheType = .nbuf := by
          cases hc : c.cacheType with
          | sram => exact absurd hc htype
          | nbuf => rfl
        have hzero := h.first.sramSize_of_nbuf hnbuf
        rw [hnbuf] at hsgl
        have hshows' := hshows.overlay
          (h.clear hheld hlow (show va + min length s.length ≤ _ by omega))
          (not_inSram (hsgl s (List.mem_cons_self ..)) (Nat.min_le_right length s.length))
        by_cases hleft : length - min length s.length = 0
        · have hclosed : c.cacheMapped.window dev = none := BufCall.window_of_zero hzero
          rw [if_pos hleft]
          refine h.cacheMapped hpc rfl (fun tr' htr' => ?_) (fun hnone => by cases hnone)
            fun hpos => absurd hzero (Nat.ne_of_gt hpos)
          cases htr'
          rwa [List.filterMap_cons_none hclosed]
        · rw [if_neg hleft]
          refine h.move (BufCall.Moved.pc c _) rfl (fun tr' htr' => ?_)
            (fun hnone => by cases hnone) ?_
          · cases htr'
            rwa [List.filterMap_cons_none (BufCall.window_of_unmapped rfl)]
          · refine (BufCall.Moved.pc c _).good_of_pc h.first (fun _ => hcached)
              (fun hpc => by cases hpc) ⟨hheld, Nat.le_add_right_of_le hlow, ?_, ?_⟩
            · show va + min length s.length + (length - min length s.length) ≤
                c.obj.iovaStart + c.obj.cacheSize c.cacheType
              omega
            · show match c.cacheType with
                | .sram => _
                | .nbuf => ∀ s ∈ sgl, dev.OffSram s
              rw [hnbuf]
              exact fun t ht => hsgl t (List.mem_cons_of_mem _ ht)

/-- A call moves on, with its window as it was, and the translations change elsewhere. -/
theorem retranslate {c' : BufCall} (h : WindowsOk dev m (c :: rest))
    (hmoved : BufCall.Moved c c') (hpc : c'.pc.mapped = c.pc.mapped) {tr : Translation}
    (hshows : tr.Shows dev.InSram ((c :: rest).filterMap (BufCall.window dev)))
    (hgood : c'.Good dev) : WindowsOk dev { m with domain := some tr } (c' :: rest) := by
  refine h.move hmoved rfl (fun tr' htr' => ?_) (fun hnone => by cases hnone) hgood
  cases htr'
  rwa [List.filterMap_cons, hmoved.window hpc, ← List.filterMap_cons]

theorem pagesToSg_offSram {frame : ℕ → ℕ} {n maxPages : ℕ}
    (hpages : BufCall.SystemPages dev frame n) :
    ∀ s ∈ pagesToSg maxPages ((List.range n).map frame), dev.OffSram s := by
  intro s hs p hlow hhigh hin
  obtain ⟨o, ho⟩ := Segment.exists_byteAt_of_mem hs hlow hhigh
  rw [byteAt_pagesToSg] at ho
  obtain ⟨page, hpage, rfl⟩ := Option.map_eq_some_iff.mp ho
  obtain ⟨i, hi, rfl⟩ := List.mem_map.mp (List.mem_of_getElem? hpage)
  have hmod : o % pageSize < pageSize := Nat.mod_lt _ (by decide)
  obtain ⟨hstart, hend⟩ := hin
  obtain hbefore | hafter := hpages i (List.mem_range.mp hi)
  · rw [Nat.succ_mul] at hbefore
    omega
  · omega

theorem getPages (h : WindowsOk dev m (c :: rest)) (hpc : c.pc = .getPages)
    (hexec : BufCall.execGetPages dev m c out = some (m', next)) :
    WindowsOk dev m' (next.toList ++ rest) := by
  have hheld : c.held = true := h.first.place_at hpc
  have hmapped : c.pc.mapped = true := by rw [hpc]; rfl
  have hcached : c.pc.cached = true := by rw [hpc]; rfl
  have hback : WindowsOk dev m ({ c with pc := .unmapCache } :: rest) := by
    refine h.quiet (BufCall.Moved.pc c _) ((BufCall.Moved.pc c _).window hmapped.symm) ?_
    exact (BufCall.Moved.pc c _).good_of_pc h.first (fun _ => hcached) (fun _ => hmapped) hheld
  unfold BufCall.execGetPages at hexec
  split at hexec
  · cases hexec
    exact hback
  · rename_i frame hframes
    by_cases hpages : BufCall.SystemPages dev frame (c.obj.size / pageSize)
    · simp only [if_pos hpages] at hexec
      by_cases hsg : out.sgRet < 0
      · rw [if_pos hsg] at hexec
        cases hexec
        exact hback
      · rw [if_neg hsg] at hexec
        cases hexec
        have hmoved : ∀ pages sgt pc, BufCall.Moved c { c with
            obj := { c.obj with
              pages := pages, numPages := c.obj.size / pageSize, sgt := sgt }
            pc := pc } := fun _ _ _ => ⟨rfl, rfl, rfl, rfl, rfl, rfl, rfl, rfl, rfl⟩
        refine h.quiet (hmoved _ _ _) ((hmoved _ _ _).window hmapped.symm) ?_
        exact (hmoved _ _ _).good_of_pc h.first (fun _ => hcached) (fun _ => hmapped)
          ⟨hheld, Nat.le_refl _, Nat.le_refl _, pagesToSg_offSram hpages⟩
    · simp only [if_neg hpages] at hexec
      cases hexec

theorem mapDdr (h : WindowsOk dev m (c :: rest)) {sgl : List Segment} {va length : ℕ}
    (hpc : c.pc = .mapDdr sgl va length)
    (hexec : BufCall.execMapDdr m c sgl va length out = some (m', next)) :
    WindowsOk dev m' (next.toList ++ rest) := by
  obtain ⟨hheld, hlow, hhigh, hsgl⟩ : c.held = true ∧
    c.obj.iovaStart + c.obj.cacheSize c.cacheType ≤ va ∧
    va + length ≤ c.obj.iovaStart + c.obj.cacheSize c.cacheType + c.obj.size ∧
    ∀ s ∈ sgl, dev.OffSram s := h.first.place_at hpc
  have hmapped : c.pc.mapped = true := by rw [hpc]; rfl
  have hcached : c.pc.cached = true := by rw [hpc]; rfl
  unfold BufCall.execMapDdr at hexec
  split at hexec
  · cases hexec
  · cases hexec
    refine h.quiet (BufCall.Moved.pc c _) ((BufCall.Moved.pc c _).window hmapped.symm) ?_
    exact (BufCall.Moved.pc c _).good_of_pc h.first (fun _ => hcached) (fun _ => hmapped)
      fun _ => hheld
  · rename_i s sgl tr htr
    simp only at hexec
    cases hmap : iommuMap out.ret tr va s.start (min length s.length) with
    | error e =>
      rw [hmap] at hexec
      cases hexec
      refine h.quiet (BufCall.Moved.pc c _) ((BufCall.Moved.pc c _).window hmapped.symm) ?_
      exact (BufCall.Moved.pc c _).good_of_pc h.first (fun _ => hcached) (fun _ => hmapped)
        ⟨hheld, Nat.sub_le _ _⟩
    | ok tr' =>
      rw [hmap] at hexec
      cases hexec
      obtain ⟨-, -, -, rfl⟩ := iommuMap_ok hmap
      have hshows := (h.shows tr htr).overlay
        (h.clear_ddr hheld hlow (show va + min length s.length ≤ _ by omega))
        (not_inSram (hsgl s (List.mem_cons_self ..)) (Nat.min_le_right length s.length))
      by_cases hleft : length - min length s.length = 0
      · simp only [if_pos hleft]
        refine h.retranslate (BufCall.Moved.pc c .live) hmapped.symm hshows ?_
        exact (BufCall.Moved.pc c _).good_of_pc h.first (fun _ => hcached) (fun _ => hmapped)
          fun _ => hheld
      · simp only [if_neg hleft]
        refine h.retranslate (BufCall.Moved.pc c (.mapDdr sgl _ _)) hmapped.symm hshows ?_
        refine (BufCall.Moved.pc c _).good_of_pc h.first (fun _ => hcached) (fun _ => hmapped)
          ⟨hheld, Nat.le_add_right_of_le hlow, ?_,
            fun t ht => hsgl t (List.mem_cons_of_mem _ ht)⟩
        show va + min length s.length + (length - min length s.length) ≤
          c.obj.iovaStart + c.obj.cacheSize c.cacheType + c.obj.size
        omega

theorem shows_unmap {region : ℕ → Prop} {tr : Translation} {ws : List Window} {va n : ℕ}
    (h : tr.Shows region ws) (hclear : ∀ w ∈ ws, w.Clear va n) :
    (iommuUnmap tr va n).Shows region ws := by
  unfold iommuUnmap
  split_ifs
  · exact h
  · exact h.overlay hclear fun o _ p hp => by cases hp

theorem unmapDdr (h : WindowsOk dev m (c :: rest)) {n : ℕ} (hpc : c.pc = .unmapDdr n)
    (hexec : BufCall.execUnmap m c (c.obj.iovaStart + c.obj.cacheSize c.cacheType) n .unmapCache =
      some (m', next)) : WindowsOk dev m' (next.toList ++ rest) := by
  obtain ⟨hheld, hn⟩ : c.held = true ∧ n ≤ c.obj.size := h.first.place_at hpc
  have hmapped : c.pc.mapped = true := by rw [hpc]; rfl
  have hcached : c.pc.cached = true := by rw [hpc]; rfl
  obtain ⟨tr, htr, hret⟩ := Option.map_eq_some_iff.mp hexec
  cases hret
  have hclear := h.clear_ddr hheld (Nat.le_refl _) (Nat.add_le_add_left hn _)
  refine h.retranslate (BufCall.Moved.pc c .unmapCache) hmapped.symm
    (shows_unmap (h.shows tr htr) hclear) ?_
  exact (BufCall.Moved.pc c _).good_of_pc h.first (fun _ => hcached) (fun _ => hmapped) hheld

theorem unmapCache (h : WindowsOk dev m (c :: rest)) (hpc : c.pc = .unmapCache)
    (hexec : BufCall.execUnmap m c c.obj.iovaStart (c.obj.cacheSize c.cacheType) .freeIova =
      some (m', next)) : WindowsOk dev m' (next.toList ++ rest) := by
  have hheld : c.held = true := h.first.place_at hpc
  have hmapped : c.pc.mapped = true := by rw [hpc]; rfl
  have hcached : c.pc.cached = true := by rw [hpc]; rfl
  have hfits := h.first.fits hheld
  obtain ⟨tr, htr, hret⟩ := Option.map_eq_some_iff.mp hexec
  cases hret
  have hclear := h.clear hheld (Nat.le_refl _)
    (show c.obj.iovaStart + c.obj.cacheSize c.cacheType ≤ _ by omega)
  have hshows := h.shows tr htr
  refine h.move (BufCall.Moved.pc c _) rfl (fun tr' htr' => ?_) (fun hnone => by cases hnone) ?_
  · cases htr'
    rw [List.filterMap_cons_none (BufCall.window_of_unmapped rfl)]
    cases hwindow : c.window dev with
    | none =>
      rw [List.filterMap_cons_none hwindow] at hshows
      exact shows_unmap hshows hclear
    | some w =>
      obtain ⟨-, hva, hn⟩ := h.first.backed w hwindow
      obtain ⟨r, -, hpos, rfl⟩ := BufCall.exists_of_window hwindow
      rw [List.filterMap_cons_some hwindow] at hshows
      rw [h.first.cacheSize_sram hpos] at hclear ⊢
      unfold iommuUnmap
      rw [if_neg (by rw [hva, hn]; decide)]
      exact hshows.pop hclear
  · exact (BufCall.Moved.pc c _).good_of_pc h.first (fun _ => hcached) (fun hpc => by cases hpc)
      trivial

theorem freeIova (h : WindowsOk dev m (c :: rest)) (hpc : c.pc = .freeIova) :
    WindowsOk dev m (({ c with held := false } : BufCall).failed.toList ++ rest) := by
  have hmapped : c.pc.mapped = false := by rw [hpc]; rfl
  have hcached : c.pc.cached = true := by rw [hpc]; rfl
  refine WindowsOk.failed ?_ hcached hmapped
  refine h.replace (fun mm hmm => (h.pool mm hmm).replace_same rfl rfl) ?_
    (fun d _ hheld => by cases hheld) id (fun hheld => by cases hheld) ?_
  · exact h.shows_swap (BufCall.window_of_unmapped hmapped) (BufCall.window_of_unmapped hmapped)
  · refine ⟨h.first.sram, h.first.nbuf, h.first.reserved, (fun hheld => by cases hheld),
      fun w hw => ?_, ?_⟩
    · cases hw.symm.trans (BufCall.window_of_unmapped hmapped)
    · unfold BufCall.PlaceOk
      simp only [hpc]

/-- The chunks of an object whose creation failed go back to the pool. -/
theorem mmFree (h : WindowsOk dev m (c :: rest)) (hpc : c.pc = .mmFree)
    (hexec : BufCall.execMmFree m c (fun _ => none) = some (m', next)) :
    WindowsOk dev m' (next.toList ++ rest) := by
  have htype : c.cacheType = .sram := h.first.place_at hpc
  have hmapped : c.pc.mapped = false := by rw [hpc]; rfl
  have hpos := h.first.reserved (by rw [hpc]; rfl) htype
  simp only [BufCall.execMmFree, Option.bind_eq_bind, Option.bind_eq_some_iff] at hexec
  obtain ⟨mm, hmm, mm', hfree, hret⟩ := hexec
  cases hret
  refine h.remove (fun mm'' hmm'' => ?_) (BufCall.window_of_unmapped hmapped) rfl
  cases hmm''
  exact (h.pool mm hmm).drop (k := 0) rfl hpos hfree

theorem allocBuf (h : WindowsOk dev m (c :: rest)) (hpc : c.pc = .allocBuf)
    (hexec : BufCall.execAllocBuf dev m c out = some (m', next)) :
    WindowsOk dev m' (next.toList ++ rest) := by
  have hplain : c.Plain := h.first.place_at hpc
  have hwindow : c.window dev = none := BufCall.window_of_zero hplain.1
  unfold BufCall.execAllocBuf at hexec
  split at hexec
  · cases hexec
    exact h.remove (fun mm hmm => (h.pool mm hmm).drop_first hplain.1) hwindow rfl
  · rename_i obj hbuf
    cases hexec
    obtain ⟨hsize, hsram, hnbuf, -⟩ := rknpuGemAllocBuf_ok hplain.2.2.1 hbuf
    have hzero : obj.sramSize = 0 := hsram.trans hplain.1
    have hunheld : ¬ c.held = true := by rw [hplain.2.2.2]; decide
    refine h.replace (fun mm hmm => (h.pool mm hmm).replace_plain hplain.1 hzero)
      (h.shows_swap hwindow (BufCall.window_of_zero hzero)) (fun d _ hheld => absurd hheld hunheld)
      id (fun hheld => absurd hheld hunheld) ?_
    refine ⟨fun hpos => absurd hzero (Nat.ne_of_gt hpos), fun hpos => ?_,
      (fun hpc => by cases hpc), fun hheld => absurd hheld hunheld, fun w hw => ?_,
      fun hpos => ?_⟩
    · exact absurd (hnbuf.trans hplain.2.1) (Nat.ne_of_gt hpos)
    · cases hw.symm.trans (BufCall.window_of_zero hzero)
    · exact absurd (hnbuf.trans hplain.2.1) (Nat.ne_of_gt hpos)

end Create

section Destroy

theorem unmapPlain (h : WindowsOk dev m (c :: rest)) (hheld : c.held = true)
    (hzero : c.obj.sramSize = 0) {iova n : ℕ} (hlow : c.obj.iovaStart ≤ iova)
    (hhigh : iova + n ≤ c.obj.iovaStart + c.obj.iovaSize) {pc : Pc} (hcached : pc.cached = false)
    (hplace : ({ c with pc := pc } : BufCall).PlaceOk dev)
    (hexec : BufCall.execUnmap m c iova n pc = some (m', next)) :
    WindowsOk dev m' (next.toList ++ rest) := by
  obtain ⟨tr, htr, hret⟩ := Option.map_eq_some_iff.mp hexec
  cases hret
  refine h.move (BufCall.Moved.pc c pc) rfl (fun tr' htr' => ?_) (fun hnone => by cases hnone) ?_
  · cases htr'
    have hclosed : ({ c with pc := pc } : BufCall).window dev = none :=
      BufCall.window_of_zero hzero
    have hshows := h.shows tr htr
    rw [List.filterMap_cons_none (BufCall.window_of_zero hzero)] at hshows
    rw [List.filterMap_cons_none hclosed]
    exact shows_unmap hshows (h.clear hheld hlow hhigh)
  · refine (BufCall.Moved.pc c pc).good h.first (fun hpc => ?_)
      (fun _ _ hpos => absurd hzero (Nat.ne_of_gt hpos)) hplace
    exact absurd (hcached.symm.trans hpc) (by decide)

theorem gone (h : WindowsOk dev m (c :: rest)) (hzero : c.obj.sramSize = 0) :
    WindowsOk dev m rest :=
  h.remove (fun mm hmm => (h.pool mm hmm).drop_first hzero) (BufCall.window_of_zero hzero) rfl

theorem destroyUnmapCache (h : WindowsOk dev m (c :: rest)) (hpc : c.pc = .destroyUnmapCache)
    (hexec : BufCall.execDestroyUnmapCache m c = some (m', next)) :
    WindowsOk dev m' (next.toList ++ rest) := by
  obtain ⟨hheld, hzero⟩ : c.held = true ∧ c.obj.sramSize = 0 := h.first.place_at hpc
  have hfits := h.first.fits hheld
  unfold BufCall.execDestroyUnmapCache at hexec
  split at hexec
  · cases hexec
    exact h.gone hzero
  · refine h.unmapPlain hheld hzero (Nat.le_refl _) (by omega) ?_ ?_ hexec
    · split_ifs <;> rfl
    · unfold BufCall.PlaceOk
      by_cases hsize : 0 < c.obj.size
      · simp only [if_pos hsize]
        exact ⟨hheld, hzero⟩
      · simp only [if_neg hsize]
        exact hzero

theorem destroyUnmapDdr (h : WindowsOk dev m (c :: rest)) (hpc : c.pc = .destroyUnmapDdr)
    (hexec : BufCall.execUnmap m c (c.obj.iovaStart + c.obj.cacheSize c.cacheType) c.obj.size
      .destroyFreeIova = some (m', next)) : WindowsOk dev m' (next.toList ++ rest) := by
  obtain ⟨hheld, hzero⟩ : c.held = true ∧ c.obj.sramSize = 0 := h.first.place_at hpc
  have hfits := h.first.fits hheld
  exact h.unmapPlain hheld hzero (Nat.le_add_right _ _) (by omega) rfl
    (show BufCall.PlaceOk dev { c with pc := .destroyFreeIova } from hzero) hexec

theorem destroy (h : WindowsOk dev m (c :: rest)) (hpc : c.pc = .live) (got : Bool) :
    WindowsOk dev m ((c.destroy dev got).toList ++ rest) := by
  have hplace : 0 < c.obj.nbufSize → c.held = true := h.first.place_at hpc
  have hmapped : c.pc.mapped = true := by rw [hpc]; rfl
  unfold BufCall.destroy
  by_cases hgot : got = false
  · rw [if_pos hgot]
    refine h.quiet (BufCall.Moved.pc c .stuck) ((BufCall.Moved.pc c .stuck).window hmapped.symm) ?_
    exact (BufCall.Moved.pc c _).good_of_pc h.first (fun hpc => by cases hpc) (fun _ => hmapped)
      trivial
  rw [if_neg hgot]
  by_cases hsram : dev.sramEnabled = true ∧ 0 < c.obj.sramSize
  · rw [if_pos hsram]
    have hmoved : BufCall.Moved c { c with cacheType := .sram, pc := .destroyMmFree } :=
      ⟨rfl, rfl, rfl, rfl, rfl, rfl, rfl, (h.first.sram hsram.2).2.1.symm, rfl⟩
    refine h.quiet hmoved (hmoved.window hmapped.symm) ?_
    exact hmoved.good h.first (fun _ _ => hsram.2)
      (fun _ hold => absurd (hold.symm.trans hmapped) (by decide)) rfl
  rw [if_neg hsram]
  have hzero : c.obj.sramSize = 0 := by
    refine Nat.eq_zero_of_not_pos fun hpos => hsram ⟨(h.first.sram hpos).1, hpos⟩
  by_cases hnbuf : dev.noGki = true ∧ 0 < c.obj.nbufSize
  · rw [if_pos hnbuf]
    have hmoved : BufCall.Moved c { c with cacheType := .nbuf, pc := .destroyUnmapCache } :=
      ⟨rfl, rfl, rfl, rfl, rfl, rfl, rfl, (h.first.nbuf hnbuf.2).symm, rfl⟩
    refine h.quiet hmoved ?_ ?_
    · rw [BufCall.window_of_unmapped rfl, BufCall.window_of_zero hzero]
    · exact hmoved.good h.first (fun hpc => by cases hpc) (fun hpc => by cases hpc)
        ⟨hplace hnbuf.2, hzero⟩
  · rw [if_neg hnbuf]
    exact h.gone hzero

end Destroy

/-- One step of a call, except for `rknpu_mm_free` of a destruction. -/
theorem exec (h : WindowsOk dev m (c :: rest)) (hdev : dev.WellPlaced)
    (hpc : c.pc ≠ .destroyMmFree) (hexec : c.exec dev m rest out = some (m', next)) :
    WindowsOk dev m' (next.toList ++ rest) := by
  unfold BufCall.exec at hexec
  cases hc : c.pc with
  | readFree sramSize =>
    rw [hc] at hexec
    exact h.readFree hc hexec
  | mmAlloc real =>
    rw [hc] at hexec
    exact h.mmAlloc hc hexec
  | allocIova =>
    rw [hc] at hexec
    exact h.allocIova hdev hc hexec
  | mapCache sgl va length =>
    rw [hc] at hexec
    exact h.mapCache hc hexec
  | getPages =>
    rw [hc] at hexec
    exact h.getPages hc hexec
  | mapDdr sgl va length =>
    rw [hc] at hexec
    exact h.mapDdr hc hexec
  | unmapDdr size =>
    rw [hc] at hexec
    exact h.unmapDdr hc hexec
  | unmapCache =>
    rw [hc] at hexec
    exact h.unmapCache hc hexec
  | freeIova =>
    rw [hc] at hexec
    cases hexec
    have hfreed := h.freeIova hc
    rwa [hc] at hfreed
  | mmFree =>
    rw [hc] at hexec
    exact h.mmFree hc hexec
  | allocBuf =>
    rw [hc] at hexec
    exact h.allocBuf hc hexec
  | live =>
    rw [hc] at hexec
    cases hexec
  | stuck =>
    rw [hc] at hexec
    cases hexec
  | destroyMmFree => exact absurd hc hpc
  | destroyUnmapCache =>
    rw [hc] at hexec
    exact h.destroyUnmapCache hc hexec
  | destroyUnmapDdr =>
    rw [hc] at hexec
    exact h.destroyUnmapDdr hc hexec
  | destroyFreeIova =>
    rw [hc] at hexec
    cases hexec
    exact h.gone (show c.obj.sramSize = 0 from h.first.place_at hc)

end WindowsOk
end RknpuDriver.Buffer
