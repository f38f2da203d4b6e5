import RknpuDriver.Mm.Runs
import RknpuDriver.Buffer.Objects

/-! # Who owns the SRAM

A live object with `sram_size > 0` owns the range behind its `sram_obj`. `InStep` ties the pool
to the live objects; creation keeps it on every path (a range that is reserved is given back when
the buffer cannot be built, and an object that falls back to DDR leaves the pool alone), and so
does destruction.
-/

namespace RknpuDriver.Buffer
open RknpuDriver.Lib RknpuDriver.Mm
set_option autoImplicit false

/-- The range that an object owns; what `sram_obj` points to after a fallback is not looked at. -/
def RknpuGemObject.sramRange (o : RknpuGemObject) : Option RknpuMmObj :=
  if 0 < o.sramSize then
    match o.sramObj with
    | .held r => some r
    | _ => none
  else none

theorem sramRange_of_held {o : RknpuGemObject} {r : RknpuMmObj} (hpos : 0 < o.sramSize)
    (hheld : o.sramObj = .held r) : o.sramRange = some r := by
  unfold RknpuGemObject.sramRange
  rw [if_pos hpos, hheld]

theorem held_of_sramRange {o : RknpuGemObject} {r : RknpuMmObj} (h : o.sramRange = some r) :
    0 < o.sramSize ∧ o.sramObj = .held r := by
  unfold RknpuGemObject.sramRange at h
  split_ifs at h with hpos
  split at h
  · cases h
    exact ⟨hpos, by assumption⟩
  · cases h

theorem sramRange_of_zero {o : RknpuGemObject} (h : o.sramSize = 0) : o.sramRange = none := by
  unfold RknpuGemObject.sramRange
  rw [if_neg (by omega)]

/-- The pool and the live objects are in step. -/
structure InStep (dev : RknpuDevice) (mm : RknpuMm) (live : List RknpuGemObject) : Prop where
  enabled : dev.sramEnabled = true
  consistent : Consistent ⟨mm, live.filterMap RknpuGemObject.sramRange⟩
  chunk : mm.chunkSize = pageSize
  fits : dev.sramStart + mm.totalChunks * pageSize ≤ dev.sramEnd
  small : mm.totalChunks * pageSize < 2 ^ 32
  sized : ∀ o ∈ live, 0 < o.sramSize → ∃ r, o.sramRange = some r ∧
    r.chunks.card * pageSize = o.sramSize

def Sound (dev : RknpuDevice) (s : BufState) : Prop :=
  match s.mem.sramMm with
  | some mm => InStep dev mm s.live
  | none => ∀ o ∈ s.live, o.sramSize = 0

theorem Sound.inStep {dev : RknpuDevice} {s : BufState} {mm : RknpuMm} (hs : Sound dev s)
    (hmm : s.mem.sramMm = some mm) : InStep dev mm s.live := by
  unfold Sound at hs
  rwa [hmm] at hs

/-! ## Probe -/

theorem pageAlign_mod (n : ℕ) : pageAlign n % pageSize = 0 := Nat.mul_mod_left ..

theorem rknpuFindSramResource_found {dev dev' : RknpuDevice} {res : Option (ℕ × ℕ)}
    (h : rknpuFindSramResource dev res = (true, dev')) :
    dev'.sramEnabled = dev.sramEnabled ∧ dev'.sramStart < dev'.sramEnd ∧
      dev'.sramSize = u32 (dev'.sramEnd - dev'.sramStart) := by
  cases res with
  | none => cases h
  | some range =>
    unfold rknpuFindSramResource at h
    simp only at h
    split at h
    · cases h
    · rename_i hempty
      cases h
      exact ⟨rfl, Nat.lt_of_not_le hempty, rfl⟩

/-- The pool that `rknpu_probe` creates covers the SRAM resource and no more. -/
theorem inStep_of_probe {dev₀ dev : RknpuDevice} {res : Option (ℕ × ℕ)} {mmOk bitmapOk : Bool}
    {mm : RknpuMm} (h : rknpuProbeSram dev₀ res mmOk bitmapOk = .ok (dev, some mm)) :
    InStep dev mm [] := by
  unfold rknpuProbeSram at h
  by_cases hbuild : ((dev₀.dkmsSram || dev₀.noGki) && dev₀.sramEnabled && dev₀.iommuEn) = true
  · rw [if_pos hbuild] at h
    cases hfind : rknpuFindSramResource dev₀ res with
    | mk found dev' =>
      simp only [hfind] at h
      cases found with
      | false => cases h
      | true =>
        obtain ⟨hen, hlt, hsize⟩ := rknpuFindSramResource_found hfind
        rw [if_pos rfl] at h
        cases hcreate : rknpuMmCreate (UInt32.ofNat dev'.sramSize) 4096 mmOk bitmapOk with
        | error e =>
          rw [hcreate] at h
          cases h
        | ok mm' =>
          rw [hcreate] at h
          cases h
          obtain ⟨hchunk, htotal⟩ := rknpuMmCreate_ok hcreate
          have hsmall : dev.sramSize < 2 ^ 32 := by
            rw [hsize]
            exact Nat.mod_lt _ (by decide)
          have hsub : dev.sramSize ≤ dev.sramEnd - dev.sramStart := by
            rw [hsize]
            exact Nat.mod_le _ _
          rw [UInt32.toNat_ofNat_of_lt' hsmall] at htotal
          have hle : mm.totalChunks * pageSize ≤ dev.sramSize := by
            rw [htotal]
            exact Nat.div_mul_le_self _ _
          refine ⟨?_, consistent_of_create hcreate, hchunk, by omega, by omega, by simp⟩
          rw [hen]
          simp only [Bool.and_eq_true] at hbuild
          exact hbuild.1.2
  · rw [if_neg hbuild] at h
    cases h

/-! ## Creation -/

theorem realSramSize_mod {size sramSize free : ℕ} (hsize : size % pageSize = 0)
    (hfree : free % pageSize = 0) : realSramSize size sramSize free % pageSize = 0 := by
  have hasked : (if sramSize ≠ 0 then pageAlign sramSize else sramSize) % pageSize = 0 := by
    split_ifs with hzero
    · exact pageAlign_mod _
    · rw [Decidable.not_not.mp hzero]
      rfl
  unfold realSramSize
  simp only
  generalize (if sramSize ≠ 0 then pageAlign sramSize else sramSize) = asked at hasked ⊢
  split_ifs
  · exact hfree
  · exact hasked
  · exact hfree
  · exact hsize

namespace InStep
variable {dev : RknpuDevice} {mm mm' : RknpuMm} {live : List RknpuGemObject}
  {o : RknpuGemObject}

theorem push_plain (h : InStep dev mm live) (ho : o.sramSize = 0) :
    InStep dev mm (live ++ [o]) := by
  refine ⟨h.enabled, ?_, h.chunk, h.fits, h.small, fun x hx hpos => ?_⟩
  · have hlist : (live ++ [o]).filterMap RknpuGemObject.sramRange =
        live.filterMap RknpuGemObject.sramRange := by
      simp [List.filterMap_append, sramRange_of_zero ho]
    rw [hlist]
    exact h.consistent
  · obtain hx | hx := List.mem_append.mp hx
    · exact h.sized x hx hpos
    · rw [List.mem_singleton.mp hx, ho] at hpos
      exact absurd hpos (Nat.lt_irrefl 0)

/-- What is asked of the pool is a number of whole chunks, and no more than are free. -/
theorem realSramSize_spec (h : InStep dev mm live) {size sramSize real : ℕ}
    (hsize : size % pageSize = 0)
    (hreal : real = realSramSize size sramSize (u32 (mm.freeChunks * mm.chunkSize))) :
    real % pageSize = 0 ∧ real < 2 ^ 32 := by
  have hcount : mm.freeChunks ≤ mm.totalChunks := by
    have := h.consistent.counted
    simp only at this
    omega
  have hfree : mm.freeChunks * pageSize < 2 ^ 32 :=
    Nat.lt_of_le_of_lt (Nat.mul_le_mul_right pageSize hcount) h.small
  have hmod : mm.freeChunks * pageSize % pageSize = 0 := Nat.mul_mod_left _ _
  rw [h.chunk, u32_of_lt hfree] at hreal
  generalize mm.freeChunks * pageSize = free at hreal hfree hmod
  rw [hreal]
  exact ⟨realSramSize_mod hsize hmod, Nat.lt_of_le_of_lt (realSramSize_le_free ..) hfree⟩

theorem push (h : InStep dev mm live) {real : ℕ} {objOk : Bool} {r : RknpuMmObj}
    (hmod : real % pageSize = 0) (hlt : real < 2 ^ 32)
    (halloc : rknpuMmAlloc mm (UInt32.ofNat real) objOk = some (.ok (mm', r)))
    (ho : o.sramRange = some r) (hsize : o.sramSize = real) :
    InStep dev mm' (live ++ [o]) := by
  have hcons := h.consistent.alloc halloc
  obtain ⟨hne, -, -, hmm'⟩ := rknpuMmAlloc_ok halloc
  have hchunk : mm'.chunkSize = mm.chunkSize := by rw [hmm']
  have htotal : mm'.totalChunks = mm.totalChunks := by rw [hmm']
  refine ⟨h.enabled, ?_, hchunk.trans h.chunk, htotal ▸ h.fits, htotal ▸ h.small, ?_⟩
  · have hlist : (live ++ [o]).filterMap RknpuGemObject.sramRange =
        live.filterMap RknpuGemObject.sramRange ++ [r] := by
      simp [List.filterMap_append, ho]
    rw [hlist]
    exact hcons
  · intro x hx hpos
    obtain hx | hx := List.mem_append.mp hx
    · exact h.sized x hx hpos
    · rw [List.mem_singleton.mp hx]
      refine ⟨r, ho, ?_⟩
      obtain ⟨n, hn, hlow, hhigh⟩ := rknpuMmAlloc_length halloc
      rw [UInt32.toNat_ofNat_of_lt' hlt, h.chunk] at hlow hhigh
      rw [card_chunks, hsize, show r.rangeEnd + 1 - r.rangeStart = n + 1 by omega]
      simp only [pageSize] at hmod hlow hhigh ⊢
      omega

/-- A range that was reserved for a buffer that could not be built is given back. -/
theorem cancel (h : InStep dev mm live) {real : ℕ} {objOk : Bool} {r : RknpuMmObj}
    {mm'' : RknpuMm} (halloc : rknpuMmAlloc mm (UInt32.ofNat real) objOk = some (.ok (mm', r)))
    (hfree : rknpuMmFree mm' r = some mm'') : InStep dev mm'' live := by
  have hcons := h.consistent.alloc halloc
  obtain ⟨-, -, -, hmm'⟩ := rknpuMmAlloc_ok halloc
  have hmm'' := rknpuMmFree_some hfree
  have hlast : (live.filterMap RknpuGemObject.sramRange ++ [r])[
      (live.filterMap RknpuGemObject.sramRange).length]? = some r := by simp
  have hback := hcons.free hlast hfree
  rw [List.eraseIdx_append_of_length_le (Nat.le_refl _), Nat.sub_self] at hback
  have hchunk : mm''.chunkSize = mm.chunkSize := by rw [hmm'', hmm']
  have htotal : mm''.totalChunks = mm.totalChunks := by rw [hmm'', hmm']
  refine ⟨h.enabled, ?_, hchunk.trans h.chunk, htotal ▸ h.fits, htotal ▸ h.small, h.sized⟩
  simpa using hback

/-! ## Destruction -/

theorem drop_plain (h : InStep dev mm live) {k : ℕ} (hk : live[k]? = some o)
    (ho : o.sramSize = 0) : InStep dev mm (live.eraseIdx k) := by
  refine ⟨h.enabled, ?_, h.chunk, h.fits, h.small,
    fun x hx => h.sized x (List.mem_of_mem_eraseIdx hx)⟩
  have hperm := perm_filterMap RknpuGemObject.sramRange hk
  rw [sramRange_of_zero ho] at hperm
  exact h.consistent.perm hperm

theorem drop (h : InStep dev mm live) {k : ℕ} (hk : live[k]? = some o) (hpos : 0 < o.sramSize)
    (hfree : freeSram mm o = some mm') : InStep dev mm' (live.eraseIdx k) := by
  obtain ⟨r, hr, -⟩ := h.sized o (List.mem_of_getElem? hk) hpos
  unfold freeSram at hfree
  rw [(held_of_sramRange hr).2] at hfree
  have hmm' := rknpuMmFree_some hfree
  have hperm := perm_filterMap RknpuGemObject.sramRange hk
  rw [hr] at hperm
  have hfirst : (r :: (live.eraseIdx k).filterMap RknpuGemObject.sramRange)[0]? = some r := rfl
  have hback := (h.consistent.perm hperm).free hfirst hfree
  have hchunk : mm'.chunkSize = mm.chunkSize := by rw [hmm']
  have htotal : mm'.totalChunks = mm.totalChunks := by rw [hmm']
  exact ⟨h.enabled, hback, hchunk.trans h.chunk, htotal ▸ h.fits, htotal ▸ h.small,
    fun x hx => h.sized x (List.mem_of_mem_eraseIdx hx)⟩

end InStep

/-! ## Runs -/

/-- The object that a creation returns, if it does. -/
def created : Except ℤ RknpuGemObject → List RknpuGemObject
  | .ok o => [o]
  | .error _ => []

theorem Sound.congr {dev : RknpuDevice} {m m' : Memory} {live : List RknpuGemObject}
    (hs : Sound dev ⟨m, live⟩) (hm : m'.sramMm = m.sramMm) : Sound dev ⟨m', live⟩ := by
  unfold Sound at hs ⊢
  simp only [hm]
  exact hs

/-- A creation that leaves the pool alone and whose object, if any, owns nothing. -/
theorem Sound.plain {dev : RknpuDevice} {m m' : Memory} {live : List RknpuGemObject}
    {res : Except ℤ RknpuGemObject} (hs : Sound dev ⟨m, live⟩) (hm : m'.sramMm = m.sramMm)
    (hres : ∀ o, res = .ok o → o.sramSize = 0) : Sound dev ⟨m', live ++ created res⟩ := by
  cases res with
  | error e =>
    show Sound dev ⟨m', live ++ []⟩
    rw [List.append_nil]
    exact hs.congr hm
  | ok o =>
    have ho := hres o rfl
    unfold Sound at hs ⊢
    simp only [hm]
    cases hmm : m.sramMm with
    | none =>
      simp only [hmm] at hs ⊢
      intro x hx
      obtain hx | hx := List.mem_append.mp hx
      · exact hs x hx
      · rw [List.mem_singleton.mp hx]
        exact ho
    | some mm =>
      simp only [hmm] at hs ⊢
      exact hs.push_plain ho

theorem PlainResult.sramSize {dev : RknpuDevice} {obj o : RknpuGemObject} {out : CreateOutcome}
    {res : Except ℤ RknpuGemObject} (h : PlainResult dev obj out res) (hfresh : obj.dmaAddr = 0)
    (hres : res = .ok o) : o.sramSize = obj.sramSize := by
  obtain ⟨-, hbuf⟩ | ⟨-, hbuf⟩ := h
  · exact (rknpuGemAllocBuf_ok hfresh (hbuf.symm.trans hres)).2.1
  · cases hbuf.symm.trans hres
    rfl

theorem Sound.createInSram {dev : RknpuDevice} {m m' : Memory} {live : List RknpuGemObject}
    {args : CreateArgs} {out : CreateOutcome} {obj : RknpuGemObject}
    {res : Except ℤ RknpuGemObject} (hs : Sound dev ⟨m, live⟩)
    (hsize : obj.size % pageSize = 0) (hsram : obj.sramSize = 0) (hdma : obj.dmaAddr = 0)
    (h : createInSram dev args out obj m = some (res, m')) :
    Sound dev ⟨m', live ++ created res⟩ := by
  obtain ⟨mm, hmm, ⟨rfl, ⟨left, hplain⟩, -⟩ | ⟨mm', r, real, domains, hpos, hreal, halloc,
    hbuilt, hend⟩⟩ := createInSram_cases h
  · exact hs.plain rfl fun o ho => (hplain.sramSize hdma ho).trans hsram
  · unfold Sound at hs
    simp only [hmm] at hs
    obtain ⟨hmod, hlt⟩ := hs.realSramSize_spec hsize hreal
    obtain ⟨o, rfl, rfl⟩ | ⟨e, mm'', rfl, hfree, rfl⟩ := hend
    · obtain ⟨-, hosize, -, hoobj, -, -⟩ := rknpuGemAllocBufWithCache_frame hbuilt
      have hrange : o.sramRange = some r :=
        sramRange_of_held (by rw [hosize]; exact hpos) hoobj
      exact hs.push hmod hlt halloc hrange hosize
    · show Sound dev ⟨_, live ++ []⟩
      rw [List.append_nil]
      exact hs.cancel halloc hfree

theorem Sound.create {dev : RknpuDevice} {m m' : Memory} {live : List RknpuGemObject}
    {args : CreateArgs} {out : CreateOutcome} {res : Except ℤ RknpuGemObject}
    (hs : Sound dev ⟨m, live⟩) (h : rknpuGemObjectCreate dev args out m = some (res, m')) :
    Sound dev ⟨m', live ++ created res⟩ := by
  obtain ⟨rfl, e, rfl⟩ |
      ⟨obj, hsize, -, hsram, hnbuf, hdma, -, -, hsram' | hnbuf' | ⟨rfl, hplain⟩⟩ :=
    rknpuGemObjectCreate_cases h
  · exact hs.plain rfl fun o ho => by cases ho
  · exact hs.createInSram (by rw [hsize]; exact pageAlign_mod _) hsram hdma hsram'
  · obtain ⟨base, -, hbase, hbdma, -, -, -, hmm, ⟨-, hplain, -⟩ | ⟨-, -, -, -, hbuilt⟩⟩ :=
      createInNbuf_cases hnbuf'
    · exact hs.plain hmm fun o ho =>
        (hplain.sramSize (hbdma.trans hdma) ho).trans (hbase.trans hsram)
    · refine hs.plain hmm fun o ho => ?_
      rw [ho] at hbuilt
      exact (rknpuGemAllocBufWithCache_frame hbuilt).2.1.trans (hbase.trans hsram)
  · exact hs.plain rfl fun o ho => (hplain.sramSize hdma ho).trans hsram

theorem rknpuGemObjectDestroy_cases {dev : RknpuDevice} {o : RknpuGemObject}
    {out : DestroyOutcome} {m m' : Memory}
    (h : rknpuGemObjectDestroy dev o out m = some (true, m')) :
    (dev.sramEnabled = true ∧ 0 < o.sramSize ∧
      ∃ mm mm', m.sramMm = some mm ∧ freeSram mm o = some mm' ∧ m'.sramMm = some mm') ∨
    (¬ (dev.sramEnabled = true ∧ 0 < o.sramSize) ∧ m'.sramMm = m.sramMm) := by
  unfold rknpuGemObjectDestroy at h
  by_cases hgot : out.got = false
  · rw [if_pos hgot] at h
    cases h
  rw [if_neg hgot] at h
  by_cases hsram : dev.sramEnabled = true ∧ 0 < o.sramSize
  · rw [if_pos hsram] at h
    simp only [Option.bind_eq_bind, Option.bind_eq_some_iff] at h
    obtain ⟨mm, hmm, mm', hfree, h⟩ := h
    cases h
    exact Or.inl ⟨hsram.1, hsram.2, mm, mm', hmm, hfree, rfl⟩
  · rw [if_neg hsram] at h
    refine Or.inr ⟨hsram, ?_⟩
    split_ifs at h
    · cases h
      rfl
    · cases h
      rfl

theorem Sound.destroy {dev : RknpuDevice} {m m' : Memory} {live : List RknpuGemObject} {k : ℕ}
    {o : RknpuGemObject} {out : DestroyOutcome} (hs : Sound dev ⟨m, live⟩)
    (hk : live[k]? = some o) (h : rknpuGemObjectDestroy dev o out m = some (true, m')) :
    Sound dev ⟨m', live.eraseIdx k⟩ := by
  unfold Sound at hs ⊢
  obtain ⟨hen, hpos, mm, mm', hmm, hfree, hmm'⟩ | ⟨hnone, hmm'⟩ := rknpuGemObjectDestroy_cases h
  · simp only [hmm, hmm'] at hs ⊢
    exact hs.drop hk hpos hfree
  · simp only [hmm']
    cases hmm : m.sramMm with
    | none =>
      simp only [hmm] at hs ⊢
      exact fun x hx => hs x (List.mem_of_mem_eraseIdx hx)
    | some mm =>
      simp only [hmm] at hs ⊢
      refine hs.drop_plain hk (Nat.eq_zero_of_not_pos fun hpos => hnone ⟨hs.enabled, hpos⟩)

theorem sound_step {dev : RknpuDevice} {s t : BufState} {label : BufLabel} (hs : Sound dev s)
    (h : bufStep dev s label = some t) : Sound dev t := by
  cases label with
  | create args out =>
    simp only [bufStep] at h
    split at h
    · cases h
    · rename_i mem hret
      cases h
      have hend := Sound.create hs hret
      rwa [created, List.append_nil] at hend
    · rename_i obj mem hret
      cases h
      exact Sound.create hs hret
  | destroy index out =>
    simp only [bufStep] at h
    split at h
    · cases h
    · rename_i obj hk
      split at h
      · rename_i mem hret
        cases h
        exact Sound.destroy hs hk hret
      · cases h

theorem sound_reachable {dev : RknpuDevice} {s : BufState} (hs : (bufSystem dev).Reachable s) :
    Sound dev s := by
  refine hs.invariant (Sound dev) ?_ fun _ _ _ hs ht => sound_step hs ht
  rintro ⟨⟨mm, domains⟩, live⟩ ⟨dev₀, res, mmOk, bitmapOk, -, hprobe, -, rfl⟩
  cases mm with
  | none => exact fun x hx => absurd hx List.not_mem_nil
  | some mm => exact inStep_of_probe hprobe

/-! ## The windows -/

/-- Where the range of an object begins in memory. -/
def windowStart (dev : RknpuDevice) (mm : RknpuMm) (r : RknpuMmObj) : ℕ :=
  dev.sramStart + r.rangeStart * mm.chunkSize

namespace InStep
variable {dev : RknpuDevice} {mm : RknpuMm} {live : List RknpuGemObject} {o : RknpuGemObject}
  {r : RknpuMmObj}

theorem mem_ranges (ho : o ∈ live) (hr : o.sramRange = some r) :
    r ∈ live.filterMap RknpuGemObject.sramRange := List.mem_filterMap.mpr ⟨o, ho, hr⟩

theorem length_eq (h : InStep dev mm live) (ho : o ∈ live) (hr : o.sramRange = some r) :
    (r.rangeEnd - r.rangeStart + 1) * mm.chunkSize = o.sramSize := by
  obtain ⟨r', hr', hsize⟩ := h.sized o ho (held_of_sramRange hr).1
  cases hr.symm.trans hr'
  have hne := h.consistent.nonempty r (mem_ranges ho hr)
  rw [← hsize, card_chunks, h.chunk, show r.rangeEnd - r.rangeStart + 1 =
    r.rangeEnd + 1 - r.rangeStart by omega]

theorem window_end (h : InStep dev mm live) (ho : o ∈ live) (hr : o.sramRange = some r) :
    windowStart dev mm r + o.sramSize = dev.sramStart + (r.rangeEnd + 1) * mm.chunkSize := by
  have hne := h.consistent.nonempty r (mem_ranges ho hr)
  rw [← h.length_eq ho hr, windowStart, Nat.add_assoc, ← Nat.add_mul,
    show r.rangeStart + (r.rangeEnd - r.rangeStart + 1) = r.rangeEnd + 1 by omega]

theorem window_le (h : InStep dev mm live) (ho : o ∈ live) (hr : o.sramRange = some r) :
    windowStart dev mm r + o.sramSize ≤ dev.sramEnd := by
  have hin := h.consistent.inside r (mem_ranges ho hr)
  have hle : (r.rangeEnd + 1) * pageSize ≤ mm.totalChunks * pageSize :=
    Nat.mul_le_mul_right pageSize hin
  rw [h.window_end ho hr, h.chunk]
  exact Nat.le_trans (Nat.add_le_add_left hle _) h.fits

theorem cacheRange_window (h : InStep dev mm live) (ho : o ∈ live) (hr : o.sramRange = some r) :
    cacheRange dev (some mm) o .sram = some (windowStart dev mm r, o.sramSize) := by
  have hlt : r.rangeStart * mm.chunkSize < 2 ^ 32 := by
    have hne := h.consistent.nonempty r (mem_ranges ho hr)
    have hin := h.consistent.inside r (mem_ranges ho hr)
    rw [h.chunk]
    exact Nat.lt_of_le_of_lt (Nat.mul_le_mul_right pageSize (Nat.le_of_lt
      (Nat.lt_of_le_of_lt hne hin))) h.small
  simp only [cacheRange, (held_of_sramRange hr).2, u32_of_lt hlt, windowStart]

/-- The windows of two objects with disjoint ranges follow one another. -/
theorem windows_apart (h : InStep dev mm live) {o' : RknpuGemObject} {r' : RknpuMmObj}
    (ho : o ∈ live) (ho' : o' ∈ live) (hr : o.sramRange = some r) (hr' : o'.sramRange = some r')
    (hd : Disjoint r.chunks r'.chunks) :
    windowStart dev mm r + o.sramSize ≤ windowStart dev mm r' ∨
      windowStart dev mm r' + o'.sramSize ≤ windowStart dev mm r := by
  rw [h.window_end ho hr, h.window_end ho' hr']
  unfold windowStart
  obtain hlt | hlt := apart_of_disjoint (h.consistent.nonempty r (mem_ranges ho hr))
    (h.consistent.nonempty r' (mem_ranges ho' hr')) hd
  · exact Or.inl (Nat.add_le_add_left (Nat.mul_le_mul_right _ hlt) _)
  · exact Or.inr (Nat.add_le_add_left (Nat.mul_le_mul_right _ hlt) _)

end InStep

/-- **Who owns the SRAM**, in every reachable state: a live object with `sram_size > 0` owns the
chunks of its `sram_obj`, all in use, which make up its size and a window inside the SRAM;
windows of different live objects are disjoint; a set bit belongs to exactly one live object; and
an object that fell back to DDR owns no chunk, so that its destruction clears none. -/
theorem sram_owned {dev : RknpuDevice} {s : BufState} (hs : (bufSystem dev).Reachable s) :
    (∀ o ∈ s.live, 0 < o.sramSize → ∃ mm r, s.mem.sramMm = some mm ∧ o.sramObj = .held r ∧
      r.rangeStart ≤ r.rangeEnd ∧
      (∀ i, r.rangeStart ≤ i → i ≤ r.rangeEnd → mm.bitmap i = true) ∧
      (r.rangeEnd - r.rangeStart + 1) * mm.chunkSize = o.sramSize ∧
      dev.sramStart ≤ windowStart dev mm r ∧
      windowStart dev mm r + o.sramSize ≤ dev.sramEnd) ∧
    s.live.Pairwise (fun a b => ∀ mm ra rb, s.mem.sramMm = some mm → a.sramRange = some ra →
      b.sramRange = some rb →
      windowStart dev mm ra + a.sramSize ≤ windowStart dev mm rb ∨
        windowStart dev mm rb + b.sramSize ≤ windowStart dev mm ra) ∧
    (∀ mm i, s.mem.sramMm = some mm → mm.bitmap i = true →
      ∃! k : ℕ, ∃ o r, s.live[k]? = some o ∧ o.sramRange = some r ∧
        r.rangeStart ≤ i ∧ i ≤ r.rangeEnd) ∧
    (∀ k o, s.live[k]? = some o → o.sramSize = 0 → o.sramRange = none ∧
      ∀ out t, bufStep dev s (.destroy k out) = some t → t.mem.sramMm = s.mem.sramMm) := by
  have hsound := sound_reachable hs
  have hpool : ∀ mm, s.mem.sramMm = some mm → InStep dev mm s.live := fun _ => hsound.inStep
  refine ⟨fun o ho hpos => ?_, ?_, fun mm i hmm hi => ?_, fun k o hk hzero =>
    ⟨sramRange_of_zero hzero, fun out t ht => ?_⟩⟩
  · cases hmm : s.mem.sramMm with
    | none =>
      unfold Sound at hsound
      rw [hmm] at hsound
      rw [hsound o ho] at hpos
      exact absurd hpos (Nat.lt_irrefl 0)
    | some mm =>
      have h := hpool mm hmm
      obtain ⟨r, hr, -⟩ := h.sized o ho hpos
      refine ⟨mm, r, rfl, (held_of_sramRange hr).2,
        h.consistent.nonempty r (InStep.mem_ranges ho hr), fun i hlow hhigh => ?_,
        h.length_eq ho hr, Nat.le_add_right _ _, h.window_le ho hr⟩
      exact (h.consistent.owned.used_iff i).mpr
        ⟨r, InStep.mem_ranges ho hr, mem_chunks.mpr ⟨hlow, hhigh⟩⟩
  · rw [List.pairwise_iff_getElem]
    intro j k hj hk hjk mm ra rb hmm hra hrb
    have h := hpool mm hmm
    refine h.windows_apart (List.getElem_mem hj) (List.getElem_mem hk) hra hrb ?_
    rw [Finset.disjoint_left]
    intro i hia hib
    have heq := h.consistent.owned.index_eq (List.getElem?_eq_getElem hj)
      (List.getElem?_eq_getElem hk) hra hrb hia hib
    omega
  · obtain ⟨k, ⟨o, r, hk, hr, hir⟩, huniq⟩ := (hpool mm hmm).consistent.owned.existsUnique hi
    refine ⟨k, ⟨o, r, hk, hr, mem_chunks.mp hir⟩, ?_⟩
    rintro j ⟨o', r', hj, hr', hir'⟩
    exact huniq j ⟨o', r', hj, hr', mem_chunks.mpr hir'⟩
  · simp only [bufStep, hk] at ht
    split at ht
    · rename_i mem hret
      cases ht
      obtain ⟨-, hpos, -⟩ | ⟨-, hmm⟩ := rknpuGemObjectDestroy_cases hret
      · omega
      · exact hmm
    · cases ht

/-- A device before its SRAM is found. -/
def blankDevice : RknpuDevice where
  iommuEn := true
  sramEnabled := true
  noGki := true
  dkmsSram := false
  forceContigAlloc := false
  sramStart := 0
  sramEnd := 0
  sramSize := 0
  nbufStart := 0x3fe80000
  nbufSize := 0x100000
  numIrqs := 2
  cacheSgt := fun _ => none
  iovaGranule := 4096
  dmaBits := 32
  dmaBits_le := by decide

/-- The same with three pages of SRAM. -/
def threePages : RknpuDevice :=
  { blankDevice with sramStart := 0x3ff80000, sramEnd := 0x3ff83000, sramSize := 0x3000 }

/-- Every call succeeds, with the IOVA range and the pages given. -/
def noFailure (iova page : ℕ) : CreateOutcome where
  kzallocOk := true
  initRet := 0
  domainRet := 0
  mmObjOk := true
  cache := ⟨some 0, iova, fun _ => 0, .ok fun i => page + i, 0, 1, fun _ => 0⟩
  alloc := ⟨true, some (iova, fun i => page + i), none, true, 0, 1⟩

/-- The cache part cannot be mapped. -/
def mapFailure (iova page : ℕ) : CreateOutcome :=
  { noFailure iova page with
    cache := ⟨some 0, iova, fun _ => -12, .ok fun i => page + i, 0, 1, fun _ => 0⟩ }

def sramArgs (size : UInt64) : CreateArgs := ⟨0x100, size, 0, 0, 0⟩

theorem sram_owned_three_pages : ∃ s, (bufSystem threePages).Reachable s ∧
    s.live.map RknpuGemObject.sramSize = [4096, 0, 4096] ∧
    (∀ mm i, s.mem.sramMm = some mm → mm.bitmap i = true →
      ∃! k : ℕ, ∃ o r, s.live[k]? = some o ∧ o.sramRange = some r ∧
        r.rangeStart ≤ i ∧ i ≤ r.rangeEnd) := by
  have hinit : (bufSystem threePages).init
      ⟨⟨some threeChunks, fun _ _ => none⟩, []⟩ :=
    ⟨blankDevice, some (0x3ff80000, 0x3000), true, true, rfl, rfl, rfl, rfl⟩
  obtain ⟨s, hs, hp⟩ := System.Reachable.of_run_any (S := bufSystem threePages)
    (p := fun s => decide (s.live.map RknpuGemObject.sramSize = [4096, 0, 4096]))
    (l := [.create (sramArgs 5000) (noFailure 0x10000000 100),
      .create (sramArgs 5000) (noFailure 0x20000000 200),
      .create (sramArgs 4096) (noFailure 0x30000000 300),
      .destroy 0 ⟨fun _ => 0, some 0⟩,
      .create (sramArgs 4096) (mapFailure 0x40000000 400),
      .create (sramArgs 4096) (noFailure 0x50000000 500)]) hinit (by decide +kernel)
  exact ⟨s, hs, of_decide_eq_true hp, (sram_owned hs).2.2.1⟩

end RknpuDriver.Buffer
