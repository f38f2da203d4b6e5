import RknpuDriver.Lib.System
import RknpuDriver.Mm.Pool
import RknpuDriver.Buffer.Pages

/-! # Buffers: creation and destruction

`rknpu_gem_object_create` backs a buffer by on-chip memory (SRAM or NBUF) followed by DDR pages,
or by DDR pages of the DMA API alone; `rknpu_gem_object_destroy` gives everything back. Each call
is one step of `bufSystem`, and `Memory` is what the calls share: the SRAM pool and what the
driver has mapped in each IOMMU domain. A function is `none` where the source reads through a
pointer that points to nothing.
-/

namespace RknpuDriver.Buffer
open RknpuDriver.Lib RknpuDriver.Mm
set_option autoImplicit false

/-! ## Data -/

def rknpuMemNonContiguous : UInt32 := 0x1
def rknpuMemTryAllocSram : UInt32 := 0x100
def rknpuMemTryAllocNbuf : UInt32 := 0x200

abbrev rknpuCoreAutoMask : UInt32 := 0
abbrev rknpuCore0Mask : UInt32 := 1
abbrev rknpuCore1Mask : UInt32 := 2

/-- The fields of `struct rknpu_device` that decide where a buffer lies, with the options of the
build. The entries of `cacheSgt` start at their offset in the NBUF. -/
structure RknpuDevice where
  iommuEn : Bool
  sramEnabled : Bool
  noGki : Bool
  dkmsSram : Bool
  forceContigAlloc : Bool
  sramStart : ℕ
  sramEnd : ℕ
  sramSize : ℕ
  nbufStart : ℕ
  nbufSize : ℕ
  numIrqs : ℕ
  cacheSgt : ℕ → Option (List Segment)
  iovaGranule : ℕ
  dmaBits : ℕ
  dmaBits_le : dmaBits ≤ 40

/-- `rknpu_obj->sram_obj`: after an allocation that failed it may point to freed memory. -/
inductive SramObj where
  | null
  | dangling
  | held (r : RknpuMmObj)
  deriving DecidableEq, Repr

/-- `struct rknpu_gem_object`. `cookie` stands for the buffer of `dma_alloc_attrs`, by its
pages. -/
structure RknpuGemObject where
  flags : UInt32
  size : ℕ
  sramSize : ℕ
  nbufSize : ℕ
  sramObj : SramObj
  iovaStart : ℕ
  iovaSize : ℕ
  cookie : Option (List ℕ)
  dmaAddr : ℕ
  numPages : ℕ
  pages : Option (List ℕ)
  sgt : Option (List Segment)
  iommuDomainId : ℤ
  coreMask : UInt32
  cacheWithSgt : Bool
  deriving DecidableEq, Repr

inductive RknpuCacheType where
  | sram
  | nbuf
  deriving DecidableEq, Repr

/-- The SRAM pool, and what is mapped in each `struct iommu_domain`. -/
structure Memory where
  sramMm : Option RknpuMm
  domains : ℕ → Translation

/-! ## Probe -/

/-- `rknpu_find_sram_resource`; `res` is the start and the size of the resource. -/
def rknpuFindSramResource (dev : RknpuDevice) (res : Option (ℕ × ℕ)) : Bool × RknpuDevice :=
  match res with
  | none => (false, { dev with sramSize := 0 })
  | some (start, size) =>
    let dev := { dev with
      sramStart := pageAlign start
      sramEnd := (start + size) / pageSize * pageSize
      sramSize := 0 }
    if dev.sramEnd ≤ dev.sramStart then (false, dev)
    else (true, { dev with sramSize := u32 (dev.sramEnd - dev.sramStart) })

/-- What `rknpu_probe` makes of the SRAM. -/
def rknpuProbeSram (dev : RknpuDevice) (res : Option (ℕ × ℕ)) (mmOk bitmapOk : Bool) :
    Except ℤ (RknpuDevice × Option RknpuMm) :=
  if (dev.dkmsSram || dev.noGki) && dev.sramEnabled && dev.iommuEn then
    let (found, dev) := rknpuFindSramResource dev res
    if found then
      (rknpuMmCreate (UInt32.ofNat dev.sramSize) 4096 mmOk bitmapOk).map fun mm => (dev, some mm)
    else .ok (dev, none)
  else .ok (dev, none)

/-! ## Buffers with a cache part -/

/-- What the calls of `rknpu_gem_alloc_buf_with_cache` return. `frames` numbers the pages of
`drm_gem_get_pages`; an entry of the page table has at most `maxPages` of them. -/
structure CacheOutcome where
  domain : Option ℕ
  iova : ℕ
  cacheRets : ℕ → ℤ
  frames : Except ℤ (ℕ → ℕ)
  sgRet : ℤ
  maxPages : ℕ
  ddrRets : ℕ → ℤ

/-- `iova_align`. -/
def iovaAlign (granule size : ℕ) : ℕ := (size + granule - 1) / granule * granule

/-- `rknpu_iommu_dma_alloc_iova`: a range that is found lies below the DMA limit. -/
def rknpuIommuDmaAllocIova (dev : RknpuDevice) (size iova : ℕ) : ℕ :=
  if iova + size ≤ 2 ^ dev.dmaBits then iova else 0

/-- Where the cache part of an object lies: `cache_start + cache_offset` and `cache_size`. -/
def cacheRange (dev : RknpuDevice) (mm : Option RknpuMm) (obj : RknpuGemObject) :
    RknpuCacheType → Option (ℕ × ℕ)
  | .sram =>
    match mm, obj.sramObj with
    | some mm, .held r => some (dev.sramStart + u32 (r.rangeStart * mm.chunkSize), obj.sramSize)
    | _, _ => none
  | .nbuf => some (dev.nbufStart, obj.nbufSize)

/-- The index in `cache_sgt`. -/
def cacheIndex (coreMask : UInt32) : ℕ :=
  if coreMask = rknpuCore0Mask then 0 else if coreMask = rknpuCore1Mask then 1 else 0

/-- The entries of the object's cache table, at their addresses. -/
def cacheSegments (dev : RknpuDevice) (obj : RknpuGemObject) : Option (List Segment) :=
  (dev.cacheSgt (cacheIndex obj.coreMask)).map fun sgl =>
    sgl.map fun s => ⟨dev.nbufStart + s.start, s.length⟩

/-- `rknpu_iommu_map_with_cache_sgt`. -/
def rknpuIommuMapWithCacheSgt (dev : RknpuDevice) (obj : RknpuGemObject) (cacheSize : ℕ)
    (rets : ℕ → ℤ) (tr : Translation) : Option (Laid ℤ) :=
  (cacheSegments dev obj).map fun sgl =>
    layOut (fun i => iommuMap (rets i)) 0 sgl obj.iovaStart cacheSize tr

/-- The cache part is mapped first. -/
def mapCache (dev : RknpuDevice) (obj : RknpuGemObject) (cacheStart cacheSize : ℕ)
    (rets : ℕ → ℤ) (tr : Translation) : Option (Laid ℤ) :=
  if !obj.cacheWithSgt then
    match iommuMap (rets 0) tr obj.iovaStart cacheStart cacheSize with
    | .error e => some ⟨some e, tr, cacheSize⟩
    | .ok tr => some ⟨none, tr, 0⟩
  else rknpuIommuMapWithCacheSgt dev obj cacheSize rets tr

/-- The DDR part follows, page by page; what fails undoes the mapping of the cache part too.
The page count fits an `int`: the IOVA range ends below `2^40`. -/
def mapDdr (obj : RknpuGemObject) (cacheSize : ℕ) (out : CacheOutcome) (tr : Translation) :
    Except ℤ RknpuGemObject × Translation :=
  match out.frames with
  | .error e => (.error e, iommuUnmap tr obj.iovaStart cacheSize)
  | .ok frame =>
    let numPages := obj.size / pageSize
    let pages := (List.range numPages).map frame
    if out.sgRet < 0 then (.error out.sgRet, iommuUnmap tr obj.iovaStart cacheSize)
    else
      let sgt := pagesToSg out.maxPages pages
      let laid := layOut (fun i => iommuMap (out.ddrRets i)) 0 sgt (obj.iovaStart + cacheSize)
        obj.size tr
      match laid.refused with
      | some e =>
        let tr := iommuUnmap laid.tr (obj.iovaStart + cacheSize) (obj.size - laid.left)
        (.error e, iommuUnmap tr obj.iovaStart cacheSize)
      | none =>
        (.ok { obj with pages := some pages, numPages := numPages, sgt := some sgt }, laid.tr)

/-- `rknpu_gem_alloc_buf_with_cache`. -/
def rknpuGemAllocBufWithCache (dev : RknpuDevice) (mm : Option RknpuMm) (obj : RknpuGemObject)
    (type : RknpuCacheType) (out : CacheOutcome) (domains : ℕ → Translation) :
    Option (Except ℤ RknpuGemObject × (ℕ → Translation)) :=
  match cacheRange dev mm obj type, out.domain with
  | none, _ => none
  | some _, none => some (.error (-einval), domains)
  | some (cacheStart, cacheSize), some d =>
    let iovaSize := iovaAlign dev.iovaGranule (cacheSize + obj.size)
    let iova := rknpuIommuDmaAllocIova dev iovaSize out.iova
    if iova = 0 then some (.error (-enomem), domains)
    else
      let obj := { obj with iovaSize := iovaSize, iovaStart := iova }
      (mapCache dev obj cacheStart cacheSize out.cacheRets (domains d)).map fun laid =>
        match laid.refused with
        | some e => (.error e, Function.update domains d laid.tr)
        | none =>
          let obj := { obj with dmaAddr := obj.iovaStart }
          if obj.size = 0 then (.ok obj, Function.update domains d laid.tr)
          else
            let (built, tr) := mapDdr obj cacheSize out laid.tr
            (built, Function.update domains d tr)

theorem mapDdr_ok {obj obj' : RknpuGemObject} {cacheSize : ℕ} {out : CacheOutcome}
    {tr tr' : Translation} (h : mapDdr obj cacheSize out tr = (.ok obj', tr')) :
    ∃ frame pages left, out.frames = .ok frame ∧
      pages = (List.range (obj.size / pageSize)).map frame ∧
      obj' = { obj with
        pages := some pages
        numPages := obj.size / pageSize
        sgt := some (pagesToSg out.maxPages pages) } ∧
      layOut (fun i => iommuMap (out.ddrRets i)) 0 (pagesToSg out.maxPages pages)
        (obj.iovaStart + cacheSize) obj.size tr = ⟨none, tr', left⟩ := by
  unfold mapDdr at h
  cases hframes : out.frames with
  | error e =>
    rw [hframes] at h
    cases h
  | ok frame =>
    simp only [hframes] at h
    by_cases hsg : out.sgRet < 0
    · rw [if_pos hsg] at h
      cases h
    rw [if_neg hsg] at h
    cases hlaid : layOut (fun i => iommuMap (out.ddrRets i)) 0
        (pagesToSg out.maxPages ((List.range (obj.size / pageSize)).map frame))
        (obj.iovaStart + cacheSize) obj.size tr with
    | mk refused mid left =>
      cases refused with
      | some e =>
        rw [hlaid] at h
        cases h
      | none =>
        rw [hlaid] at h
        cases h
        exact ⟨frame, _, left, rfl, rfl, rfl, hlaid⟩

/-- What a buffer with a cache part that was built consists of. -/
theorem rknpuGemAllocBufWithCache_ok {dev : RknpuDevice} {mm : Option RknpuMm}
    {obj obj' : RknpuGemObject} {type : RknpuCacheType} {out : CacheOutcome}
    {domains domains' : ℕ → Translation}
    (h : rknpuGemAllocBufWithCache dev mm obj type out domains = some (.ok obj', domains')) :
    ∃ cacheStart cacheSize d base tr left tr', cacheRange dev mm obj type =
        some (cacheStart, cacheSize) ∧
      out.domain = some d ∧
      base = { obj with
        iovaSize := iovaAlign dev.iovaGranule (cacheSize + obj.size)
        iovaStart := out.iova } ∧
      out.iova ≠ 0 ∧ out.iova + base.iovaSize ≤ 2 ^ dev.dmaBits ∧
      mapCache dev base cacheStart cacheSize out.cacheRets (domains d) = some ⟨none, tr, left⟩ ∧
      domains' = Function.update domains d tr' ∧
      ((obj.size = 0 ∧ obj' = { base with dmaAddr := out.iova } ∧ tr' = tr) ∨
        (obj.size ≠ 0 ∧
          mapDdr { base with dmaAddr := out.iova } cacheSize out tr = (.ok obj', tr'))) := by
  unfold rknpuGemAllocBufWithCache at h
  split at h
  · cases h
  · cases h
  · rename_i cacheStart cacheSize d hrange hdomain
    simp only at h
    by_cases hiova : rknpuIommuDmaAllocIova dev
        (iovaAlign dev.iovaGranule (cacheSize + obj.size)) out.iova = 0
    · rw [if_pos hiova] at h
      cases h
    rw [if_neg hiova] at h
    have hfits : out.iova + iovaAlign dev.iovaGranule (cacheSize + obj.size) ≤ 2 ^ dev.dmaBits := by
      refine Decidable.byContradiction fun hbeyond => hiova ?_
      exact if_neg hbeyond
    have hfound : rknpuIommuDmaAllocIova dev (iovaAlign dev.iovaGranule (cacheSize + obj.size))
        out.iova = out.iova := if_pos hfits
    rw [hfound] at h hiova
    obtain ⟨⟨refused, tr, left⟩, hlaid, hret⟩ := Option.map_eq_some_iff.mp h
    cases refused with
    | some e => cases hret
    | none =>
      simp only at hret
      split_ifs at hret with hsize
      · cases hret
        exact ⟨_, _, d, _, tr, left, tr, hrange, hdomain, rfl, hiova, hfits, hlaid, rfl,
          Or.inl ⟨hsize, rfl, rfl⟩⟩
      · cases hddr : mapDdr { obj with
            iovaSize := iovaAlign dev.iovaGranule (cacheSize + obj.size)
            iovaStart := out.iova
            dmaAddr := out.iova } cacheSize out tr with
        | mk built tr' =>
          rw [hddr] at hret
          cases hret
          exact ⟨_, _, d, _, tr, left, tr', hrange, hdomain, rfl, hiova, hfits, hlaid, rfl,
            Or.inr ⟨hsize, hddr⟩⟩

theorem rknpuGemAllocBufWithCache_frame {dev : RknpuDevice} {mm : Option RknpuMm}
    {obj obj' : RknpuGemObject} {type : RknpuCacheType} {out : CacheOutcome}
    {domains domains' : ℕ → Translation}
    (h : rknpuGemAllocBufWithCache dev mm obj type out domains = some (.ok obj', domains')) :
    obj'.size = obj.size ∧ obj'.sramSize = obj.sramSize ∧ obj'.nbufSize = obj.nbufSize ∧
      obj'.sramObj = obj.sramObj ∧ obj'.coreMask = obj.coreMask ∧
      obj'.cacheWithSgt = obj.cacheWithSgt := by
  obtain ⟨_, _, _, base, _, _, _, -, -, rfl, -, -, -, -, ⟨-, rfl, -⟩ | ⟨-, hddr⟩⟩ :=
    rknpuGemAllocBufWithCache_ok h
  · exact ⟨rfl, rfl, rfl, rfl, rfl, rfl⟩
  · obtain ⟨_, _, _, -, -, rfl, -⟩ := mapDdr_ok hddr
    exact ⟨rfl, rfl, rfl, rfl, rfl, rfl⟩

/-- `rknpu_gem_free_buf_with_cache`; `domain` is what `iommu_get_domain_for_dev` returns. -/
def rknpuGemFreeBufWithCache (obj : RknpuGemObject) (cacheSize : ℕ) (domain : Option ℕ)
    (domains : ℕ → Translation) : ℕ → Translation :=
  match domain with
  | none => domains
  | some d =>
    let tr := iommuUnmap (domains d) obj.iovaStart cacheSize
    Function.update domains d
      (if 0 < obj.size then iommuUnmap tr (obj.iovaStart + cacheSize) obj.size else tr)

/-! ## Buffers of the DMA API -/

/-- What the calls of `rknpu_gem_alloc_buf` return: `dma_alloc_attrs`, first and again, gives a
DMA address and the pages behind it. -/
structure AllocBufOutcome where
  pagesOk : Bool
  dma : Option (ℕ × (ℕ → ℕ))
  retry : Option (ℕ × (ℕ → ℕ))
  sgtOk : Bool
  sgtableRet : ℤ
  maxPages : ℕ

/-- The address that `dma_alloc_attrs` gives, in its first call or in its second. -/
def AllocBufOutcome.address (out : AllocBufOutcome) : ℕ :=
  match out.dma, out.retry with
  | some (dmaAddr, _), _ => dmaAddr
  | none, some (dmaAddr, _) => dmaAddr
  | none, none => 0

/-- The table of `dma_get_sgtable_attrs`, and the page array that is filled from it. -/
def fillPages (obj : RknpuGemObject) (out : AllocBufOutcome) (dmaAddr : ℕ) (buffer : List ℕ) :
    Except ℤ RknpuGemObject :=
  if !out.sgtOk then .error (-enomem)
  else if out.sgtableRet < 0 then .error out.sgtableRet
  else
    let sgt := pagesToSg out.maxPages buffer
    (drmPrimeSgToPageArray sgt (u32 (obj.size / pageSize))).map fun pages =>
      { obj with
        cookie := some buffer, dmaAddr := dmaAddr, pages := some pages, sgt := some sgt }

/-- `rknpu_gem_alloc_buf`. -/
def rknpuGemAllocBuf (dev : RknpuDevice) (obj : RknpuGemObject) (out : AllocBufOutcome) :
    Except ℤ RknpuGemObject :=
  if obj.dmaAddr ≠ 0 then .ok obj
  else
    let obj := { obj with
      flags := if dev.forceContigAlloc then obj.flags &&& ~~~rknpuMemNonContiguous
        else obj.flags }
    if !out.pagesOk then .error (-enomem)
    else
      match out.dma with
      | some (dmaAddr, frame) =>
        fillPages obj out dmaAddr ((List.range (obj.size / pageSize)).map frame)
      | none =>
        if obj.flags &&& rknpuMemNonContiguous = 0 ∧ dev.iommuEn = true then
          let obj := { obj with flags := obj.flags ||| rknpuMemNonContiguous }
          match out.retry with
          | some (dmaAddr, frame) =>
            fillPages obj out dmaAddr ((List.range (obj.size / pageSize)).map frame)
          | none => .error (-einval)
        else .error (-einval)

theorem fillPages_ok {obj obj' : RknpuGemObject} {out : AllocBufOutcome} {dmaAddr : ℕ}
    {buffer : List ℕ} (h : fillPages obj out dmaAddr buffer = .ok obj') :
    obj' = { obj with
      cookie := some buffer
      dmaAddr := dmaAddr
      pages := some buffer
      sgt := some (pagesToSg out.maxPages buffer) } := by
  unfold fillPages at h
  split_ifs at h
  simp only [drmPrimeSgToPageArray, sgPages_pagesToSg] at h
  by_cases hlen : u32 (obj.size / pageSize) < buffer.length
  · rw [if_pos hlen] at h
    cases h
  · rw [if_neg hlen] at h
    exact (Except.ok.inj h).symm

theorem rknpuGemAllocBuf_filled {dev : RknpuDevice} {obj obj' : RknpuGemObject}
    {out : AllocBufOutcome} (hfresh : obj.dmaAddr = 0)
    (h : rknpuGemAllocBuf dev obj out = .ok obj') :
    ∃ flags buffer, buffer.length = obj.size / pageSize ∧
      obj' = { obj with
        flags := flags
        cookie := some buffer
        dmaAddr := out.address
        pages := some buffer
        sgt := some (pagesToSg out.maxPages buffer) } := by
  have hlength : ∀ frame : ℕ → ℕ, ((List.range (obj.size / pageSize)).map frame).length =
      obj.size / pageSize := fun frame => by rw [List.length_map, List.length_range]
  unfold rknpuGemAllocBuf at h
  rw [if_neg (by rw [hfresh]; decide)] at h
  simp only at h
  by_cases hpages : (!out.pagesOk) = true
  · rw [if_pos hpages] at h
    cases h
  rw [if_neg hpages] at h
  unfold AllocBufOutcome.address
  split at h
  · rename_i hdma
    rw [fillPages_ok h, hdma]
    exact ⟨_, _, hlength _, rfl⟩
  rename_i hdma
  by_cases hretry : (if dev.forceContigAlloc = true then obj.flags &&& ~~~rknpuMemNonContiguous
      else obj.flags) &&& rknpuMemNonContiguous = 0 ∧ dev.iommuEn = true
  · rw [if_pos hretry] at h
    split at h
    · rename_i hagain
      rw [fillPages_ok h, hdma, hagain]
      exact ⟨_, _, hlength _, rfl⟩
    · cases h
  · rw [if_neg hretry] at h
    cases h

theorem rknpuGemAllocBuf_ok {dev : RknpuDevice} {obj obj' : RknpuGemObject}
    {out : AllocBufOutcome} (hfresh : obj.dmaAddr = 0)
    (h : rknpuGemAllocBuf dev obj out = .ok obj') :
    obj'.size = obj.size ∧ obj'.sramSize = obj.sramSize ∧ obj'.nbufSize = obj.nbufSize ∧
      ∃ buffer, buffer.length = obj.size / pageSize ∧ obj'.cookie = some buffer ∧
        obj'.pages = some buffer := by
  obtain ⟨_, buffer, hlength, rfl⟩ := rknpuGemAllocBuf_filled hfresh h
  exact ⟨rfl, rfl, rfl, buffer, hlength, rfl, rfl⟩

/-! ## Creation -/

/-- The arguments of `rknpu_gem_object_create`. -/
structure CreateArgs where
  flags : UInt32
  size : UInt64
  sramSize : UInt64
  iommuDomainId : ℤ
  coreMask : UInt32
  deriving DecidableEq, Repr

structure CreateOutcome where
  kzallocOk : Bool
  initRet : ℤ
  domainRet : ℤ
  mmObjOk : Bool
  cache : CacheOutcome
  alloc : AllocBufOutcome

/-- `MAX_LFS_FILESIZE`, the most that `drm_gem_object_init` can back by a file. -/
abbrev maxLfsFilesize : ℕ := 2 ^ 63 - 1

/-- `rknpu_gem_init`. -/
def rknpuGemInit (kzallocOk : Bool) (initRet : ℤ) (size : ℕ) : Except ℤ RknpuGemObject :=
  if !kzallocOk then .error (-enomem)
  else if maxLfsFilesize < size then .error (-einval)
  else if initRet < 0 then .error initRet
  else .ok {
    flags := 0, size := size, sramSize := 0, nbufSize := 0, sramObj := .null, iovaStart := 0
    iovaSize := 0, cookie := none, dmaAddr := 0, numPages := 0, pages := none, sgt := none
    iommuDomainId := 0, coreMask := 0, cacheWithSgt := false }

theorem rknpuGemInit_ok {kzallocOk : Bool} {initRet : ℤ} {size : ℕ} {obj : RknpuGemObject}
    (h : rknpuGemInit kzallocOk initRet size = .ok obj) :
    obj.size = size ∧ obj.size ≤ maxLfsFilesize ∧ obj.sramSize = 0 ∧ obj.nbufSize = 0 ∧
      obj.dmaAddr = 0 ∧ obj.cacheWithSgt = false ∧ obj.sgt = none ∧ obj.cookie = none := by
  unfold rknpuGemInit at h
  split_ifs at h with hkzalloc hlarge
  cases h
  exact ⟨rfl, Nat.le_of_not_lt hlarge, rfl, rfl, rfl, rfl, rfl, rfl⟩

/-- `real_sram_size` before the allocation: what is asked of the pool. -/
def realSramSize (remainDdrSize sramSize sramFreeSize : ℕ) : ℕ :=
  let sramSize := if sramSize ≠ 0 then pageAlign sramSize else sramSize
  let real := if sramSize ≠ 0 ∧ sramSize < remainDdrSize then sramSize else remainDdrSize
  if sramFreeSize < real then sramFreeSize else real

theorem realSramSize_le_free (size sramSize free : ℕ) :
    realSramSize size sramSize free ≤ free := by
  unfold realSramSize
  simp only
  split_ifs <;> omega

theorem realSramSize_le (size sramSize free : ℕ) : realSramSize size sramSize free ≤ size := by
  unfold realSramSize
  simp only
  split_ifs <;> omega

/-- What `rknpu_mm_alloc` leaves behind its last argument when it fails. -/
def mmObjLeft (mm : RknpuMm) (size : UInt32) (objOk : Bool) : SramObj :=
  if size.toNat = 0 ∨ u32 (mm.totalChunks * mm.chunkSize) < size.toNat ∨ objOk = false then .null
  else .dangling

/-- `rknpu_mm_alloc` as it is called by `rknpu_gem_object_create`, with `real_sram_size` after
it. The size is cut to an `unsigned int`. -/
def allocSram (mm : RknpuMm) (obj : RknpuGemObject) (real : ℕ) (objOk : Bool) :
    Option (RknpuMm × RknpuGemObject × ℕ) :=
  match rknpuMmAlloc mm (UInt32.ofNat real) objOk with
  | none => none
  | some (.error _) =>
    some (mm, { obj with sramObj := mmObjLeft mm (UInt32.ofNat real) objOk }, 0)
  | some (.ok (mm, r)) => some (mm, { obj with sramObj := .held r }, real)

/-- The part of an object that is to lie in SRAM: as much as was asked for, if the pool has it. -/
def reserveSram (mm : RknpuMm) (obj : RknpuGemObject) (sramSize : ℕ) (objOk : Bool) :
    Option (RknpuMm × RknpuGemObject × ℕ) :=
  let sramFreeSize := u32 (mm.freeChunks * mm.chunkSize)
  if 0 < sramFreeSize then
    allocSram mm obj (realSramSize obj.size sramSize sramFreeSize) objOk
  else some (mm, obj, 0)

/-- `rknpu_mm_free` of the object's `sram_obj`, when it is not `NULL`. -/
def freeSram (mm : RknpuMm) (obj : RknpuGemObject) : Option RknpuMm :=
  match obj.sramObj with
  | .null => some mm
  | .dangling => none
  | .held r => rknpuMmFree mm r

/-- The cache part in SRAM, when some was reserved, or else a buffer of the DMA API. -/
def createInSram (dev : RknpuDevice) (args : CreateArgs) (out : CreateOutcome)
    (obj : RknpuGemObject) (m : Memory) : Option (Except ℤ RknpuGemObject × Memory) := do
  let mm ← m.sramMm
  let (mm, obj, real) ← reserveSram mm obj args.sramSize.toNat out.mmObjOk
  if 0 < real then
    let obj := { obj with sramSize := real }
    let (built, domains) ←
      rknpuGemAllocBufWithCache dev (some mm) obj .sram out.cache m.domains
    match built with
    | .ok obj => some (.ok obj, ⟨some mm, domains⟩)
    | .error e =>
      let mm ← freeSram mm obj
      some (.error e, ⟨some mm, domains⟩)
  else if 0 < obj.size then
    some (rknpuGemAllocBuf dev obj out.alloc, { m with sramMm := some mm })
  else some (.ok obj, { m with sramMm := some mm })

/-- The core masks whose cores share the NBUF. -/
def sharesNbuf (coreMask : UInt32) : Bool :=
  coreMask = rknpuCoreAutoMask ∨ coreMask = rknpuCore0Mask ∨ coreMask = rknpuCore1Mask

/-- `nbuf_size` of an object: a core that shares the NBUF gets its part of it. -/
def nbufPart (dev : RknpuDevice) (coreMask : UInt32) (remainDdrSize : ℕ) : ℕ :=
  let nbufSize := if sharesNbuf coreMask then dev.nbufSize / dev.numIrqs else dev.nbufSize
  if remainDdrSize ≤ nbufSize then remainDdrSize else nbufSize

/-- The cache part in the NBUF, or else a buffer of the DMA API. -/
def createInNbuf (dev : RknpuDevice) (args : CreateArgs) (out : CreateOutcome)
    (obj : RknpuGemObject) (m : Memory) : Option (Except ℤ RknpuGemObject × Memory) :=
  let nbufSize := nbufPart dev args.coreMask obj.size
  let obj := { obj with
    cacheWithSgt := sharesNbuf args.coreMask && (dev.cacheSgt 0).isSome
    coreMask := args.coreMask }
  if 0 < nbufSize then
    (rknpuGemAllocBufWithCache dev m.sramMm { obj with nbufSize := nbufSize } .nbuf out.cache
      m.domains).map fun (built, domains) => (built, { m with domains := domains })
  else if 0 < obj.size then some (rknpuGemAllocBuf dev obj out.alloc, m)
  else some (.ok obj, m)

/-- Without IOMMU every buffer is contiguous. -/
def createFlags (dev : RknpuDevice) (flags : UInt32) : UInt32 :=
  if dev.iommuEn = false ∧ flags &&& rknpuMemNonContiguous ≠ 0 then
    flags &&& ~~~rknpuMemNonContiguous
  else flags

/-- `rknpu_gem_object_create`. -/
def rknpuGemObjectCreate (dev : RknpuDevice) (args : CreateArgs) (out : CreateOutcome)
    (m : Memory) : Option (Except ℤ RknpuGemObject × Memory) :=
  if args.size = 0 then some (.error (-einval), m)
  else
    match rknpuGemInit out.kzallocOk out.initRet (pageAlign args.size.toNat) with
    | .error e => some (.error e, m)
    | .ok obj =>
      if out.domainRet ≠ 0 then some (.error (-einval), m)
      else
        let flags := createFlags dev args.flags
        let obj := { obj with iommuDomainId := args.iommuDomainId, flags := flags }
        if dev.sramEnabled = true ∧ flags &&& rknpuMemTryAllocSram ≠ 0 ∧ 0 < dev.sramSize then
          createInSram dev args out obj m
        else if dev.noGki = true ∧ flags &&& rknpuMemTryAllocNbuf ≠ 0 ∧ 0 < dev.nbufSize then
          createInNbuf dev args out obj m
        else if 0 < obj.size then some (rknpuGemAllocBuf dev obj out.alloc, m)
        else some (.ok obj, m)

/-- Without a cache part, an object is a buffer of the DMA API or has no memory. -/
def PlainResult (dev : RknpuDevice) (obj : RknpuGemObject) (out : CreateOutcome)
    (res : Except ℤ RknpuGemObject) : Prop :=
  (0 < obj.size ∧ res = rknpuGemAllocBuf dev obj out.alloc) ∨ (obj.size = 0 ∧ res = .ok obj)

/-- What `reserveSram` can do: nothing is reserved, as the pool would not serve what is asked of
it, and then it is as it was; or a range is. -/
theorem reserveSram_cases {mm mm' : RknpuMm} {obj obj' : RknpuGemObject} {sramSize real : ℕ}
    {objOk : Bool} (h : reserveSram mm obj sramSize objOk = some (mm', obj', real)) :
    (mm' = mm ∧ real = 0 ∧ (∃ left, obj' = { obj with sramObj := left }) ∧
      ∀ mid r, rknpuMmAlloc mm (UInt32.ofNat (realSramSize obj.size sramSize
        (u32 (mm.freeChunks * mm.chunkSize)))) objOk ≠ some (.ok (mid, r))) ∨
    ∃ r, 0 < real ∧ real = realSramSize obj.size sramSize (u32 (mm.freeChunks * mm.chunkSize)) ∧
      rknpuMmAlloc mm (UInt32.ofNat real) objOk = some (.ok (mm', r)) ∧
      obj' = { obj with sramObj := .held r } := by
  unfold reserveSram at h
  by_cases hfree : 0 < u32 (mm.freeChunks * mm.chunkSize)
  · rw [if_pos hfree] at h
    unfold allocSram at h
    split at h
    · cases h
    · rename_i e halloc
      cases h
      refine Or.inl ⟨rfl, rfl, ⟨_, rfl⟩, fun mid r hok => ?_⟩
      cases halloc.symm.trans hok
    · rename_i mm' r halloc
      cases h
      refine Or.inr ⟨r, Nat.pos_of_ne_zero fun hzero => ?_, rfl, halloc, rfl⟩
      rw [hzero] at halloc
      cases halloc
  · rw [if_neg hfree] at h
    cases h
    refine Or.inl ⟨rfl, rfl, ⟨obj.sramObj, rfl⟩, fun mid r hok => ?_⟩
    rw [Nat.eq_zero_of_le_zero (Nat.le_trans (realSramSize_le_free ..)
      (Nat.le_of_not_lt hfree))] at hok
    cases hok

/-- What `createInSram` can do: either nothing was reserved, and then the pool is as it was, or a
range was; a buffer that cannot be built gives it back. -/
theorem createInSram_cases {dev : RknpuDevice} {args : CreateArgs} {out : CreateOutcome}
    {obj : RknpuGemObject} {m m' : Memory} {res : Except ℤ RknpuGemObject}
    (h : createInSram dev args out obj m = some (res, m')) :
    ∃ mm, m.sramMm = some mm ∧
      ((m' = m ∧ (∃ left, PlainResult dev { obj with sramObj := left } out res) ∧
        ∀ mid r, rknpuMmAlloc mm (UInt32.ofNat (realSramSize obj.size args.sramSize.toNat
          (u32 (mm.freeChunks * mm.chunkSize)))) out.mmObjOk ≠ some (.ok (mid, r))) ∨
      ∃ mm' r real domains, 0 < real ∧
        real = realSramSize obj.size args.sramSize.toNat (u32 (mm.freeChunks * mm.chunkSize)) ∧
        rknpuMmAlloc mm (UInt32.ofNat real) out.mmObjOk = some (.ok (mm', r)) ∧
        rknpuGemAllocBufWithCache dev (some mm') { obj with sramObj := .held r, sramSize := real }
          .sram out.cache m.domains = some (res, domains) ∧
        ((∃ o, res = .ok o ∧ m' = ⟨some mm', domains⟩) ∨
          ∃ e mm'', res = .error e ∧ rknpuMmFree mm' r = some mm'' ∧
            m' = ⟨some mm'', domains⟩)) := by
  simp only [createInSram, Option.bind_eq_bind, Option.bind_eq_some_iff] at h
  obtain ⟨mm, hmm, ⟨mid, obj', real⟩, hreserve, h⟩ := h
  refine ⟨mm, hmm, ?_⟩
  obtain ⟨rfl, rfl, ⟨left, rfl⟩, hnone⟩ | ⟨r, hreal, hsize, halloc, rfl⟩ :=
    reserveSram_cases hreserve
  · have hm : ({ m with sramMm := some mid } : Memory) = m := by rw [← hmm]
    rw [if_neg (Nat.lt_irrefl 0), hm] at h
    refine Or.inl ?_
    split_ifs at h with hpos
    · cases h
      exact ⟨rfl, ⟨left, Or.inl ⟨hpos, rfl⟩⟩, hnone⟩
    · cases h
      exact ⟨rfl, ⟨left, Or.inr ⟨Nat.eq_zero_of_not_pos hpos, rfl⟩⟩, hnone⟩
  · rw [if_pos hreal, Option.bind_eq_some_iff] at h
    obtain ⟨⟨built, domains⟩, hbuilt, h⟩ := h
    refine Or.inr ⟨mid, r, real, domains, hreal, hsize, halloc, ?_⟩
    cases built with
    | ok o =>
      cases h
      exact ⟨hbuilt, Or.inl ⟨o, rfl, rfl⟩⟩
    | error e =>
      obtain ⟨mm'', hfreed, h⟩ := Option.bind_eq_some_iff.mp h
      cases h
      exact ⟨hbuilt, Or.inr ⟨e, mm'', rfl, hfreed, rfl⟩⟩

theorem nbufPart_le_size (dev : RknpuDevice) (coreMask : UInt32) (size : ℕ) :
    nbufPart dev coreMask size ≤ size := by
  unfold nbufPart
  simp only
  split_ifs <;> omega

theorem nbufPart_le_nbuf (dev : RknpuDevice) (coreMask : UInt32) (size : ℕ) :
    nbufPart dev coreMask size ≤ dev.nbufSize := by
  have hshare : (if sharesNbuf coreMask then dev.nbufSize / dev.numIrqs else dev.nbufSize) ≤
      dev.nbufSize := by
    split_ifs
    · exact Nat.div_le_self _ _
    · exact Nat.le_refl _
  unfold nbufPart
  simp only
  split_ifs at hshare ⊢ <;> omega

theorem createInNbuf_cases {dev : RknpuDevice} {args : CreateArgs} {out : CreateOutcome}
    {obj : RknpuGemObject} {m m' : Memory} {res : Except ℤ RknpuGemObject}
    (h : createInNbuf dev args out obj m = some (res, m')) :
    ∃ base : RknpuGemObject, base.size = obj.size ∧ base.sramSize = obj.sramSize ∧
      base.dmaAddr = obj.dmaAddr ∧ base.sgt = obj.sgt ∧ base.pages = obj.pages ∧
      base.numPages = obj.numPages ∧ m'.sramMm = m.sramMm ∧
      ((base.nbufSize = obj.nbufSize ∧ PlainResult dev base out res ∧
        nbufPart dev args.coreMask obj.size = 0) ∨
      (base.nbufSize = nbufPart dev args.coreMask obj.size ∧ 0 < base.nbufSize ∧
        base.nbufSize ≤ obj.size ∧ base.nbufSize ≤ dev.nbufSize ∧
        rknpuGemAllocBufWithCache dev m.sramMm base .nbuf out.cache m.domains =
          some (res, m'.domains))) := by
  unfold createInNbuf at h
  by_cases hpos : 0 < nbufPart dev args.coreMask obj.size
  · simp only [if_pos hpos] at h
    obtain ⟨⟨built, domains⟩, hbuilt, hret⟩ := Option.map_eq_some_iff.mp h
    cases hret
    refine ⟨{ obj with
      cacheWithSgt := sharesNbuf args.coreMask && (dev.cacheSgt 0).isSome
      coreMask := args.coreMask
      nbufSize := nbufPart dev args.coreMask obj.size }, rfl, rfl, rfl, rfl, rfl, rfl, rfl,
      Or.inr ⟨rfl, hpos, nbufPart_le_size .., nbufPart_le_nbuf .., hbuilt⟩⟩
  · have hnone := Nat.eq_zero_of_not_pos hpos
    simp only [if_neg hpos] at h
    refine ⟨{ obj with
      cacheWithSgt := sharesNbuf args.coreMask && (dev.cacheSgt 0).isSome
      coreMask := args.coreMask }, rfl, rfl, rfl, rfl, rfl, rfl, ?_⟩
    by_cases hsize : 0 < obj.size
    · rw [if_pos hsize] at h
      cases h
      exact ⟨rfl, Or.inl ⟨rfl, Or.inl ⟨hsize, rfl⟩, hnone⟩⟩
    · rw [if_neg hsize] at h
      cases h
      exact ⟨rfl, Or.inl ⟨rfl, Or.inr ⟨Nat.eq_zero_of_not_pos hsize, rfl⟩, hnone⟩⟩

theorem rknpuGemObjectCreate_cases {dev : RknpuDevice} {args : CreateArgs} {out : CreateOutcome}
    {m m' : Memory} {res : Except ℤ RknpuGemObject}
    (h : rknpuGemObjectCreate dev args out m = some (res, m')) :
    (m' = m ∧ ∃ e, res = .error e) ∨
    ∃ obj : RknpuGemObject, obj.size = pageAlign args.size.toNat ∧
      obj.size ≤ maxLfsFilesize ∧ obj.sramSize = 0 ∧ obj.nbufSize = 0 ∧
      obj.dmaAddr = 0 ∧ obj.cacheWithSgt = false ∧ obj.sgt = none ∧
      (createInSram dev args out obj m = some (res, m') ∨
        createInNbuf dev args out obj m = some (res, m') ∨
        (m' = m ∧ PlainResult dev obj out res)) := by
  unfold rknpuGemObjectCreate at h
  by_cases hsize : args.size = 0
  · rw [if_pos hsize] at h
    cases h
    exact Or.inl ⟨rfl, _, rfl⟩
  rw [if_neg hsize] at h
  cases hinit : rknpuGemInit out.kzallocOk out.initRet (pageAlign args.size.toNat) with
  | error e =>
    rw [hinit] at h
    cases h
    exact Or.inl ⟨rfl, _, rfl⟩
  | ok fresh =>
    simp only [hinit] at h
    by_cases hdomain : out.domainRet ≠ 0
    · rw [if_pos hdomain] at h
      cases h
      exact Or.inl ⟨rfl, _, rfl⟩
    rw [if_neg hdomain] at h
    obtain ⟨hsize, hmax, hsram, hnbuf, hdma, hpiece, hsgt, -⟩ := rknpuGemInit_ok hinit
    refine Or.inr ⟨{ fresh with
      iommuDomainId := args.iommuDomainId
      flags := createFlags dev args.flags }, hsize, hmax, hsram, hnbuf, hdma, hpiece, hsgt, ?_⟩
    split at h
    · exact Or.inl h
    split at h
    · exact Or.inr (Or.inl h)
    refine Or.inr (Or.inr ?_)
    by_cases hpos : 0 < fresh.size
    · rw [if_pos hpos] at h
      cases h
      exact ⟨rfl, Or.inl ⟨hpos, rfl⟩⟩
    · rw [if_neg hpos] at h
      cases h
      exact ⟨rfl, Or.inr ⟨Nat.eq_zero_of_not_pos hpos, rfl⟩⟩

/-! ## Destruction -/

/-- The results of `rknpu_iommu_domain_get_and_switch`, and the domain it leaves attached. -/
structure DestroyOutcome where
  domainRets : ℕ → ℤ
  domain : Option ℕ

/-- The `do ... while (ret)` loop: the third failure is the last. -/
def DestroyOutcome.got (out : DestroyOutcome) : Bool :=
  out.domainRets 0 = 0 ∨ out.domainRets 1 = 0 ∨ out.domainRets 2 = 0

/-- `rknpu_gem_object_destroy` of an object that was not imported; the boolean is false when it
gave up. `rknpu_gem_free_buf` gives its memory back to the DMA API only. -/
def rknpuGemObjectDestroy (dev : RknpuDevice) (obj : RknpuGemObject) (out : DestroyOutcome)
    (m : Memory) : Option (Bool × Memory) :=
  if out.got = false then some (false, m)
  else if dev.sramEnabled = true ∧ 0 < obj.sramSize then do
    let mm ← m.sramMm
    let mm ← freeSram mm obj
    some (true, ⟨some mm, rknpuGemFreeBufWithCache obj obj.sramSize out.domain m.domains⟩)
  else if dev.noGki = true ∧ 0 < obj.nbufSize then
    some (true, { m with
      domains := rknpuGemFreeBufWithCache obj obj.nbufSize out.domain m.domains })
  else some (true, m)

/-! ## Runs -/

structure BufState where
  mem : Memory
  live : List RknpuGemObject

/-- A call with everything it does not decide itself; `destroy` names the object by its place
among the live ones. -/
inductive BufLabel where
  | create (args : CreateArgs) (out : CreateOutcome)
  | destroy (index : ℕ) (out : DestroyOutcome)

def bufStep (dev : RknpuDevice) (s : BufState) : BufLabel → Option BufState
  | .create args out =>
    match rknpuGemObjectCreate dev args out s.mem with
    | none => none
    | some (.error _, mem) => some { s with mem := mem }
    | some (.ok obj, mem) => some ⟨mem, s.live ++ [obj]⟩
  | .destroy index out =>
    match s.live[index]? with
    | none => none
    | some obj =>
      match rknpuGemObjectDestroy dev obj out s.mem with
      | some (true, mem) => some ⟨mem, s.live.eraseIdx index⟩
      | _ => none

/-- The calls on a probed device: any sequence of creations, with any outcome, and of
destructions of live objects whose domain is got. -/
def bufSystem (dev : RknpuDevice) : System BufState BufLabel where
  init s := ∃ dev₀ res mmOk bitmapOk, dev₀.sramSize = 0 ∧
    rknpuProbeSram dev₀ res mmOk bitmapOk = .ok (dev, s.mem.sramMm) ∧
    s.mem.domains = (fun _ _ => none) ∧ s.live = []
  step := bufStep dev

end RknpuDriver.Buffer
