import RknpuDriver.Buffer.Sram

/-! # How large a created buffer is

The two sizes of a creation are rounded up to pages in 64 bits, and zero means "nothing left to
allocate" for the one and "no limit" for the other. `AsAsked` is what a caller expects of the
object that it gets; `create_as_asked` says for which requests it gets that.
-/

namespace RknpuDriver.Buffer
open RknpuDriver.Lib RknpuDriver.Mm
set_option autoImplicit false

/-! ## Rounding -/

/-- `n` rounded up to a page, over the integers. -/
def wholePages (n : ℕ) : ℕ := (n + 4095) / pageSize * pageSize

theorem le_wholePages (n : ℕ) : n ≤ wholePages n := by
  unfold wholePages pageSize
  omega

theorem wholePages_lt_iff {n : ℕ} : wholePages n < 2 ^ 64 ↔ n ≤ 2 ^ 64 - 4096 := by
  unfold wholePages pageSize
  omega

theorem pageAlign_eq {n : ℕ} (h : wholePages n < 2 ^ 64) : pageAlign n = wholePages n := by
  rw [wholePages_lt_iff] at h
  unfold pageAlign wholePages pageSize
  rw [Nat.mod_eq_of_lt (by omega)]

/-- The limit is met, whether or not it wraps: past `2^64` there is no larger size. -/
theorem realSramSize_le_asked {size sramSize free : ℕ} (hsize : size ≤ maxLfsFilesize)
    (hlt : sramSize < 2 ^ 64) (hne : sramSize ≠ 0) :
    realSramSize size sramSize free ≤ wholePages sramSize := by
  by_cases hfits : wholePages sramSize < 2 ^ 64
  · have hpos : wholePages sramSize ≠ 0 := by
      have := le_wholePages sramSize
      omega
    unfold realSramSize
    simp only [if_pos hne, pageAlign_eq hfits]
    split_ifs <;> omega
  · have := realSramSize_le size sramSize free
    simp only [maxLfsFilesize] at hsize
    omega

/-! ## What a caller expects -/

/-- The object's memory is to come from the SRAM, as far as the pool has it. -/
abbrev AsksSram (dev : RknpuDevice) (args : CreateArgs) : Prop :=
  dev.sramEnabled = true ∧ createFlags dev args.flags &&& rknpuMemTryAllocSram ≠ 0 ∧
    0 < dev.sramSize

/-- The object's memory is to come from the NBUF first. -/
abbrev AsksNbuf (dev : RknpuDevice) (args : CreateArgs) : Prop :=
  ¬ AsksSram dev args ∧ dev.noGki = true ∧
    createFlags dev args.flags &&& rknpuMemTryAllocNbuf ≠ 0 ∧ 0 < dev.nbufSize

/-- What is asked of the pool. -/
def sramAsked (args : CreateArgs) (mm : RknpuMm) : ℕ :=
  realSramSize (pageAlign args.size.toNat) args.sramSize.toNat (u32 (mm.freeChunks * mm.chunkSize))

/-- The object gets a cache part: the pool has the range, or a part of the NBUF is there. -/
def HasCachePart (dev : RknpuDevice) (args : CreateArgs) (out : CreateOutcome) (m : Memory) :
    Prop :=
  (AsksSram dev args ∧ ∃ mm mm' r, m.sramMm = some mm ∧
    rknpuMmAlloc mm (UInt32.ofNat (sramAsked args mm)) out.mmObjOk = some (.ok (mm', r))) ∨
  (AsksNbuf dev args ∧ 0 < nbufPart dev args.coreMask (pageAlign args.size.toNat))

/-- The object is what its creator asked for. -/
structure AsLargeAsAsked (args : CreateArgs) (m : Memory) (o : RknpuGemObject) : Prop where
  aligned : o.size % pageSize = 0
  large : args.size.toNat ≤ o.size
  addressed : o.dmaAddr ≠ 0
  sram_le_size : o.sramSize ≤ o.size
  sram_le_free : o.sramSize ≤ (m.sramMm.map fun mm => mm.freeChunks * mm.chunkSize).getD 0
  sram_le_asked : args.sramSize ≠ 0 → o.sramSize ≤ wholePages args.sramSize.toNat

/-- No value on the way to it wraps: the two sizes are `unsigned long`, those of the pool and the
argument of `rknpu_mm_alloc` are `unsigned int`. -/
structure NothingWraps (dev : RknpuDevice) (args : CreateArgs) (m m' : Memory) : Prop where
  size_fits : wholePages args.size.toNat < 2 ^ 64
  sram_fits : AsksSram dev args → wholePages args.sramSize.toNat < 2 ^ 64
  free_fits : ∀ mm, m.sramMm = some mm → mm.freeChunks * mm.chunkSize < 2 ^ 32
  total_fits : ∀ mm, m.sramMm = some mm → mm.totalChunks * mm.chunkSize < 2 ^ 32
  asked_fits : ∀ mm, m.sramMm = some mm → sramAsked args mm < 2 ^ 32
  free_falls : ∀ mm mm', m.sramMm = some mm → m'.sramMm = some mm' →
    mm'.freeChunks ≤ mm.freeChunks

def AsAsked (dev : RknpuDevice) (args : CreateArgs) (m m' : Memory) (o : RknpuGemObject) : Prop :=
  AsLargeAsAsked args m o ∧ NothingWraps dev args m m'

/-! ## The object that is returned -/

theorem rknpuGemAllocBufWithCache_address {dev : RknpuDevice} {mm : Option RknpuMm}
    {obj obj' : RknpuGemObject} {type : RknpuCacheType} {out : CacheOutcome}
    {domains domains' : ℕ → Translation}
    (h : rknpuGemAllocBufWithCache dev mm obj type out domains = some (.ok obj', domains')) :
    obj'.dmaAddr ≠ 0 := by
  obtain ⟨_, _, _, base, _, _, _, -, -, rfl, hiova, -, -, -, ⟨-, rfl, -⟩ | ⟨-, hddr⟩⟩ :=
    rknpuGemAllocBufWithCache_ok h
  · exact hiova
  · obtain ⟨_, _, _, -, -, rfl, -⟩ := mapDdr_ok hddr
    exact hiova

theorem rknpuGemInit_pages {kzallocOk : Bool} {initRet : ℤ} {size : ℕ} {obj : RknpuGemObject}
    (h : rknpuGemInit kzallocOk initRet size = .ok obj) :
    obj.pages = none ∧ obj.numPages = 0 := by
  unfold rknpuGemInit at h
  split_ifs at h
  cases h
  exact ⟨rfl, rfl⟩

theorem rknpuGemObjectCreate_built {dev : RknpuDevice} {args : CreateArgs} {out : CreateOutcome}
    {m m' : Memory} {o : RknpuGemObject}
    (h : rknpuGemObjectCreate dev args out m = some (.ok o, m')) :
    ∃ fresh : RknpuGemObject, fresh.size = pageAlign args.size.toNat ∧
      fresh.size ≤ maxLfsFilesize ∧ fresh.sramSize = 0 ∧ fresh.dmaAddr = 0 ∧
      fresh.pages = none ∧ fresh.numPages = 0 ∧
      ((AsksSram dev args ∧ createInSram dev args out fresh m = some (.ok o, m')) ∨
        (AsksNbuf dev args ∧ createInNbuf dev args out fresh m = some (.ok o, m')) ∨
        (¬ AsksSram dev args ∧ ¬ AsksNbuf dev args ∧ m' = m ∧
          PlainResult dev fresh out (.ok o))) := by
  unfold rknpuGemObjectCreate at h
  split at h
  · cases h
  split at h
  · cases h
  rename_i fresh hinit
  split at h
  · cases h
  obtain ⟨hsize, hmax, hsram, -, hdma, -, -, -⟩ := rknpuGemInit_ok hinit
  obtain ⟨hpages, hcount⟩ := rknpuGemInit_pages hinit
  refine ⟨{ fresh with
    iommuDomainId := args.iommuDomainId
    flags := createFlags dev args.flags }, hsize, hmax, hsram, hdma, hpages, hcount, ?_⟩
  simp only at h
  by_cases hasks : AsksSram dev args
  · rw [if_pos hasks] at h
    exact Or.inl ⟨hasks, h⟩
  rw [if_neg hasks] at h
  by_cases hnbuf : dev.noGki = true ∧ createFlags dev args.flags &&& rknpuMemTryAllocNbuf ≠ 0 ∧
      0 < dev.nbufSize
  · rw [if_pos hnbuf] at h
    exact Or.inr (Or.inl ⟨⟨hasks, hnbuf⟩, h⟩)
  rw [if_neg hnbuf] at h
  refine Or.inr (Or.inr ⟨hasks, fun hn => hnbuf hn.2, ?_⟩)
  by_cases hpos : 0 < fresh.size
  · rw [if_pos hpos] at h
    obtain ⟨hres, rfl⟩ := Prod.mk.inj (Option.some.inj h)
    exact ⟨rfl, Or.inl ⟨hpos, hres.symm⟩⟩
  · rw [if_neg hpos] at h
    obtain ⟨hres, rfl⟩ := Prod.mk.inj (Option.some.inj h)
    exact ⟨rfl, Or.inr ⟨Nat.eq_zero_of_not_pos hpos, hres.symm⟩⟩

theorem PlainResult.address {dev : RknpuDevice} {obj o : RknpuGemObject} {out : CreateOutcome}
    (h : PlainResult dev obj out (.ok o)) (hfresh : obj.dmaAddr = 0) (hpos : 0 < obj.size) :
    o.dmaAddr = out.alloc.address := by
  obtain ⟨-, hbuf⟩ | ⟨hzero, -⟩ := h
  · obtain ⟨_, _, -, rfl⟩ := rknpuGemAllocBuf_filled hfresh hbuf.symm
    rfl
  · omega

theorem PlainResult.size {dev : RknpuDevice} {obj o : RknpuGemObject} {out : CreateOutcome}
    (h : PlainResult dev obj out (.ok o)) (hfresh : obj.dmaAddr = 0) : o.size = obj.size := by
  obtain ⟨-, hbuf⟩ | ⟨-, hbuf⟩ := h
  · exact (rknpuGemAllocBuf_ok hfresh hbuf.symm).1
  · cases hbuf
    rfl

/-- Its size is the request, rounded up; its part in SRAM is what was asked of the pool, if the
pool had it. -/
theorem rknpuGemObjectCreate_sizes {dev : RknpuDevice} {args : CreateArgs} {out : CreateOutcome}
    {m m' : Memory} {o : RknpuGemObject}
    (h : rknpuGemObjectCreate dev args out m = some (.ok o, m')) :
    o.size = pageAlign args.size.toNat ∧ o.size ≤ maxLfsFilesize ∧
      ((o.sramSize = 0 ∧ m'.sramMm = m.sramMm) ∨
        ∃ mm mm' r, m.sramMm = some mm ∧ m'.sramMm = some mm' ∧
          o.sramSize = sramAsked args mm ∧
          rknpuMmAlloc mm (UInt32.ofNat (sramAsked args mm)) out.mmObjOk =
            some (.ok (mm', r))) := by
  obtain ⟨fresh, hsize, hmax, hsram, hdma, -, -, ⟨-, hin⟩ | ⟨-, hin⟩ |
    ⟨-, -, hpool, hplain⟩⟩ := rknpuGemObjectCreate_built h
  all_goals rw [← hsize]
  · obtain ⟨mm, hmm, ⟨rfl, ⟨left, hplain⟩, -⟩ |
      ⟨mm', r, real, domains, -, hreal, halloc, hbuilt, hend⟩⟩ := createInSram_cases hin
    · have hosize : o.size = fresh.size := hplain.size hdma
      exact ⟨hosize, hosize ▸ hmax, Or.inl ⟨(hplain.sramSize hdma rfl).trans hsram, rfl⟩⟩
    · obtain ⟨hosize, hosram, -⟩ := rknpuGemAllocBufWithCache_frame hbuilt
      obtain ⟨-, -, rfl⟩ | ⟨_, _, he, -⟩ := hend
      · rw [hsize] at hreal
        rw [hreal] at halloc
        exact ⟨hosize, hosize ▸ hmax, Or.inr ⟨mm, mm', r, hmm, rfl, hosram.trans hreal, halloc⟩⟩
      · cases he
  · obtain ⟨base, hbsize, hbsram, hbdma, -, -, -, hpool, ⟨-, hplain, -⟩ | ⟨-, -, -, -, hbuilt⟩⟩ :=
      createInNbuf_cases hin
    · have hosize : o.size = fresh.size := (hplain.size (hbdma.trans hdma)).trans hbsize
      exact ⟨hosize, hosize ▸ hmax,
        Or.inl ⟨(hplain.sramSize (hbdma.trans hdma) rfl).trans (hbsram.trans hsram), hpool⟩⟩
    · obtain ⟨hosize, hosram, -⟩ := rknpuGemAllocBufWithCache_frame hbuilt
      have hosize : o.size = fresh.size := hosize.trans hbsize
      exact ⟨hosize, hosize ▸ hmax, Or.inl ⟨hosram.trans (hbsram.trans hsram), hpool⟩⟩
  · have hosize : o.size = fresh.size := hplain.size hdma
    exact ⟨hosize, hosize ▸ hmax, Or.inl ⟨(hplain.sramSize hdma rfl).trans hsram, by rw [hpool]⟩⟩

theorem rknpuGemObjectCreate_parts {dev : RknpuDevice} {args : CreateArgs} {out : CreateOutcome}
    {m m' : Memory} {o : RknpuGemObject}
    (h : rknpuGemObjectCreate dev args out m = some (.ok o, m')) :
    (HasCachePart dev args out m ∧ ∃ mm base type domains, 0 < base.size ∧
        rknpuGemAllocBufWithCache dev mm base type out.cache m.domains =
          some (.ok o, domains)) ∨
      (¬ HasCachePart dev args out m ∧ ∃ base : RknpuGemObject,
        base.size = pageAlign args.size.toNat ∧ base.dmaAddr = 0 ∧ base.pages = none ∧
          base.numPages = 0 ∧ PlainResult dev base out (.ok o)) := by
  obtain ⟨fresh, hsize, -, -, hdma, hpages, hcount, ⟨hasks, hin⟩ | ⟨hasks, hin⟩ |
    ⟨hsram, hnbuf, -, hplain⟩⟩ := rknpuGemObjectCreate_built h
  · obtain ⟨mm, hmm, ⟨-, ⟨left, hplain⟩, hnone⟩ |
      ⟨mm', r, real, domains, hpos, hreal, halloc, hbuilt, -⟩⟩ := createInSram_cases hin
    · refine Or.inr ⟨?_, { fresh with sramObj := left }, hsize, hdma, hpages, hcount, hplain⟩
      rintro (⟨-, mm₁, mid, r, hmm₁, halloc⟩ | ⟨hn, -⟩)
      · cases hmm.symm.trans hmm₁
        rw [hsize] at hnone
        exact hnone mid r halloc
      · exact hn.1 hasks
    · have hle : real ≤ fresh.size := by
        rw [hreal]
        exact realSramSize_le ..
      rw [hreal, hsize] at halloc
      exact Or.inl ⟨Or.inl ⟨hasks, mm, mm', r, hmm, halloc⟩, some mm',
        { fresh with sramObj := .held r, sramSize := real }, .sram, domains,
        Nat.lt_of_lt_of_le hpos hle, hbuilt⟩
  · obtain ⟨base, hbsize, -, hbdma, -, hbpages, hbcount, -, ⟨-, hplain, hnone⟩ |
      ⟨hpart, hbpos, hble, -, hbuilt⟩⟩ := createInNbuf_cases hin
    · refine Or.inr ⟨?_, base, hbsize.trans hsize, hbdma.trans hdma, hbpages.trans hpages,
        hbcount.trans hcount, hplain⟩
      rintro (⟨hs, -⟩ | ⟨-, hpart⟩)
      · exact hasks.1 hs
      · rw [← hsize, hnone] at hpart
        exact absurd hpart (Nat.lt_irrefl 0)
    · have hbase : 0 < base.size := by
        rw [hbsize]
        exact Nat.lt_of_lt_of_le hbpos hble
      rw [hpart, hsize] at hbpos
      exact Or.inl ⟨Or.inr ⟨hasks, hbpos⟩, _, base, _, _, hbase, hbuilt⟩
  · refine Or.inr ⟨?_, fresh, hsize, hdma, hpages, hcount, hplain⟩
    rintro (⟨hs, -⟩ | ⟨hn, -⟩)
    · exact hsram hs
    · exact hnbuf hn

/-- Its address comes from the IOVA allocator when it has a cache part, and from the DMA API
otherwise; an object of no size has none. -/
theorem rknpuGemObjectCreate_address {dev : RknpuDevice} {args : CreateArgs} {out : CreateOutcome}
    {m m' : Memory} {o : RknpuGemObject}
    (h : rknpuGemObjectCreate dev args out m = some (.ok o, m')) (hpos : 0 < o.size) :
    (HasCachePart dev args out m ∧ o.dmaAddr ≠ 0) ∨
      (¬ HasCachePart dev args out m ∧ o.dmaAddr = out.alloc.address) := by
  rw [(rknpuGemObjectCreate_sizes h).1] at hpos
  obtain ⟨hcache, mm, base, type, domains, -, hbuilt⟩ |
    ⟨hcache, base, hsize, hdma, -, -, hplain⟩ := rknpuGemObjectCreate_parts h
  · exact Or.inl ⟨hcache, rknpuGemAllocBufWithCache_address hbuilt⟩
  · rw [← hsize] at hpos
    exact Or.inr ⟨hcache, hplain.address hdma hpos⟩

/-! ## The pool -/

namespace InStep
variable {dev : RknpuDevice} {mm mm' : RknpuMm} {live : List RknpuGemObject}

theorem free_le_total (h : InStep dev mm live) : mm.freeChunks ≤ mm.totalChunks := by
  have hcount := h.consistent.counted
  simp only at hcount
  omega

theorem total_fits (h : InStep dev mm live) : mm.totalChunks * mm.chunkSize < 2 ^ 32 := by
  rw [h.chunk]
  exact h.small

theorem free_fits (h : InStep dev mm live) : mm.freeChunks * mm.chunkSize < 2 ^ 32 :=
  Nat.lt_of_le_of_lt (Nat.mul_le_mul_right _ h.free_le_total) h.total_fits

theorem sramAsked_le (h : InStep dev mm live) (args : CreateArgs) :
    sramAsked args mm ≤ mm.freeChunks * mm.chunkSize := by
  unfold sramAsked
  rw [u32_of_lt h.free_fits]
  exact realSramSize_le_free ..

theorem free_falls (h : InStep dev mm live) {size : UInt32} {objOk : Bool} {r : RknpuMmObj}
    (halloc : rknpuMmAlloc mm size objOk = some (.ok (mm', r))) :
    mm'.freeChunks ≤ mm.freeChunks := by
  have hbefore := h.consistent.counted
  have hafter := (h.consistent.alloc halloc).counted
  obtain ⟨-, -, -, hmm'⟩ := rknpuMmAlloc_ok halloc
  have htotal : mm'.totalChunks = mm.totalChunks := by rw [hmm']
  simp only [List.map_append, List.sum_append] at hbefore hafter
  omega

end InStep

theorem nothingWraps_iff {dev : RknpuDevice} {s : BufState} (hs : Sound dev s)
    {args : CreateArgs} {out : CreateOutcome} {o : RknpuGemObject} {m' : Memory}
    (h : rknpuGemObjectCreate dev args out s.mem = some (.ok o, m')) :
    NothingWraps dev args s.mem m' ↔ args.size.toNat ≤ 2 ^ 64 - 4096 ∧
      (AsksSram dev args → args.sramSize.toNat ≤ 2 ^ 64 - 4096) := by
  constructor
  · intro hwraps
    exact ⟨wholePages_lt_iff.mp hwraps.size_fits,
      fun hasks => wholePages_lt_iff.mp (hwraps.sram_fits hasks)⟩
  · rintro ⟨hsize, hsram⟩
    refine ⟨wholePages_lt_iff.mpr hsize, fun hasks => wholePages_lt_iff.mpr (hsram hasks),
      fun mm hmm => (hs.inStep hmm).free_fits, fun mm hmm => (hs.inStep hmm).total_fits,
      fun mm hmm => ?_, fun mm mm' hmm hmm' => ?_⟩
    · exact Nat.lt_of_le_of_lt ((hs.inStep hmm).sramAsked_le args) (hs.inStep hmm).free_fits
    · obtain ⟨-, -, ⟨-, hpool⟩ | ⟨mm₁, mm₂, r, hmm₁, hmm₂, -, halloc⟩⟩ :=
        rknpuGemObjectCreate_sizes h
      · cases hmm.symm.trans (hpool.symm.trans hmm')
        exact Nat.le_refl _
      · cases hmm.symm.trans hmm₁
        cases hmm'.symm.trans hmm₂
        exact (hs.inStep hmm).free_falls halloc

/-! ## Which requests are served -/

/-- A creation gives the object that was asked for exactly when neither size is in the last page
of the 64 bits (that of the SRAM counts when there is SRAM to ask for) and the DMA API, where it is
what the object's memory comes from, does not give it address zero. -/
theorem create_as_asked {dev : RknpuDevice} {s : BufState} (hs : (bufSystem dev).Reachable s)
    {args : CreateArgs} {out : CreateOutcome} {o : RknpuGemObject} {m' : Memory}
    (h : rknpuGemObjectCreate dev args out s.mem = some (.ok o, m')) :
    AsAsked dev args s.mem m' o ↔ args.size.toNat ≤ 2 ^ 64 - 4096 ∧
      (AsksSram dev args → args.sramSize.toNat ≤ 2 ^ 64 - 4096) ∧
      (¬ HasCachePart dev args out s.mem → out.alloc.address ≠ 0) := by
  have hsound := sound_reachable hs
  obtain ⟨hsize, hmax, hsram⟩ := rknpuGemObjectCreate_sizes h
  have hasked : args.size ≠ 0 := by
    intro hzero
    unfold rknpuGemObjectCreate at h
    rw [if_pos hzero] at h
    cases h
  have hnonzero : args.size.toNat ≠ 0 := fun hzero => hasked (UInt64.toNat_inj.mp hzero)
  constructor
  · rintro ⟨hlarge, hwraps⟩
    obtain ⟨hfits, hlimit⟩ := (nothingWraps_iff hsound h).mp hwraps
    refine ⟨hfits, hlimit, fun hplain => ?_⟩
    have hpos : 0 < o.size := by
      have := hlarge.large
      omega
    obtain ⟨hcache, -⟩ | ⟨-, haddr⟩ := rknpuGemObjectCreate_address h hpos
    · exact absurd hcache hplain
    · rw [← haddr]
      exact hlarge.addressed
  · rintro ⟨hfits, hlimit, haddress⟩
    refine ⟨?_, (nothingWraps_iff hsound h).mpr ⟨hfits, hlimit⟩⟩
    have hlarge : args.size.toNat ≤ o.size := by
      rw [hsize, pageAlign_eq (wholePages_lt_iff.mpr hfits)]
      exact le_wholePages _
    refine ⟨?_, hlarge, ?_, ?_, ?_, ?_⟩
    · rw [hsize]
      exact pageAlign_mod _
    · obtain ⟨-, hne⟩ | ⟨hplain, haddr⟩ := rknpuGemObjectCreate_address h (by omega)
      · exact hne
      · rw [haddr]
        exact haddress hplain
    · obtain ⟨hzero, -⟩ | ⟨mm, mm', r, hmm, -, hasked, -⟩ := hsram
      · omega
      · rw [hasked, hsize]
        exact realSramSize_le ..
    · obtain ⟨hzero, -⟩ | ⟨mm, mm', r, hmm, -, hasked, -⟩ := hsram
      · omega
      · rw [hasked, hmm]
        exact (hsound.inStep hmm).sramAsked_le args
    · intro hne
      obtain ⟨hzero, -⟩ | ⟨mm, mm', r, hmm, -, hasked, -⟩ := hsram
      · omega
      · rw [hasked]
        exact realSramSize_le_asked (hsize ▸ hmax) args.sramSize.toNat_lt
          fun hzero => hne (UInt64.toNat_inj.mp hzero)

def freshPool : Memory := ⟨some threeChunks, fun _ _ => none⟩

theorem freshPool_reachable : (bufSystem threePages).Reachable ⟨freshPool, []⟩ :=
  .init ⟨blankDevice, some (0x3ff80000, 0x3000), true, true, rfl, rfl, rfl, rfl⟩

theorem created_of_check {dev : RknpuDevice} {args : CreateArgs} {out : CreateOutcome}
    {m : Memory} {p : RknpuGemObject → Bool}
    (h : (rknpuGemObjectCreate dev args out m).map (fun res => res.1.toOption.any p) =
      some true) :
    ∃ o m', rknpuGemObjectCreate dev args out m = some (.ok o, m') ∧ p o = true := by
  obtain ⟨⟨res, m'⟩, hres, hp⟩ := Option.map_eq_some_iff.mp h
  cases res with
  | error e => cases hp
  | ok o => exact ⟨o, m', hres, hp⟩

theorem create_as_asked_sram : ∃ o m',
    rknpuGemObjectCreate threePages (sramArgs 5000) (noFailure 0x10000000 100) freshPool =
      some (.ok o, m') ∧ AsAsked threePages (sramArgs 5000) freshPool m' o := by
  obtain ⟨o, m', hres, -⟩ := @created_of_check threePages (sramArgs 5000)
    (noFailure 0x10000000 100) freshPool (fun _ => true) (by decide +kernel)
  exact ⟨o, m', hres, (create_as_asked freshPool_reachable hres).mpr
    ⟨by decide, fun _ => by decide, fun _ => by decide⟩⟩

/-- A request for all of the 64-bit sizes is served with nothing. -/
theorem create_serves_nothing : ∃ o m', (bufSystem threePages).Reachable ⟨freshPool, []⟩ ∧
    rknpuGemObjectCreate threePages ⟨0, 0xffffffffffffffff, 0, 0, 0⟩ (noFailure 0x10000000 100)
      freshPool = some (.ok o, m') ∧ o.size = 0 ∧ o.dmaAddr = 0 ∧
    ¬ AsAsked threePages ⟨0, 0xffffffffffffffff, 0, 0, 0⟩ freshPool m' o := by
  obtain ⟨o, m', hres, hempty⟩ := @created_of_check threePages
    ⟨0, 0xffffffffffffffff, 0, 0, 0⟩ (noFailure 0x10000000 100) freshPool
    (fun o => decide (o.size = 0 ∧ o.dmaAddr = 0)) (by decide +kernel)
  obtain ⟨hsize, haddr⟩ := of_decide_eq_true hempty
  refine ⟨o, m', freshPool_reachable, hres, hsize, haddr, fun h => ?_⟩
  have hlarge := h.1.large
  rw [hsize] at hlarge
  exact absurd hlarge (by decide)

end RknpuDriver.Buffer
