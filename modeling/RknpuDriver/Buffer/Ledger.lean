import RknpuDriver.Buffer.Views
import Mathlib.Data.Multiset.AddSub

/-! # What creation and destruction take and give back

A `Ledger` lists what the calls take: chunks of the SRAM pool, IOVA ranges, translations, the
reference on the IOMMU domain, pages, buffers of the DMA API. The functions of `Buffer.Objects`
are run on it, with every step of theirs that takes or gives back something.

* `Ledger.iovaGranted`: the IOVA allocator, which gives out free ranges only.
* `Ledger.create_simulates`, `Ledger.destroy_simulates`: the runs are those of the functions.
-/

namespace RknpuDriver.Buffer
open RknpuDriver.Lib RknpuDriver.Mm
set_option autoImplicit false

/-- `iovas d` are the ranges, by start and size, that the IOVA allocator of domain `d` has given
out; `refcount` is `iommu_domain_refcount`; `dmaBufs` has the DMA address and the pages of each
buffer of `dma_alloc_attrs`. -/
structure Ledger where
  mem : Memory
  iovas : ℕ → Multiset (ℕ × ℕ)
  refcount : ℕ
  pinned : Multiset ℕ
  dmaBufs : Multiset (ℕ × List ℕ)

namespace Ledger

def setPool (L : Ledger) (mm : RknpuMm) : Ledger :=
  { L with mem := { L.mem with sramMm := some mm } }

def setDomain (L : Ledger) (d : ℕ) (tr : Translation) : Ledger :=
  { L with mem := { L.mem with domains := Function.update L.mem.domains d tr } }

/-- `iommu_unmap`. -/
def unmap (L : Ledger) (d iova size : ℕ) : Ledger :=
  L.setDomain d (iommuUnmap (L.mem.domains d) iova size)

/-- `rknpu_iommu_dma_alloc_iova`: a range that is found begins at a page, ends below the DMA limit
and overlaps none that was given out. -/
def iovaGranted (dev : RknpuDevice) (L : Ledger) (d size iova : ℕ) : ℕ :=
  if iova + size ≤ 2 ^ dev.dmaBits ∧ iova % pageSize = 0 ∧
      ∀ r ∈ L.iovas d, iova + size ≤ r.1 ∨ r.1 + r.2 ≤ iova then iova
  else 0

def takeIova (L : Ledger) (d iova size : ℕ) : Ledger :=
  { L with iovas := Function.update L.iovas d ((iova, size) ::ₘ L.iovas d) }

/-- `rknpu_iommu_dma_free_iova`. -/
def freeIova (L : Ledger) (d iova size : ℕ) : Ledger :=
  { L with iovas := Function.update L.iovas d ((L.iovas d).erase (iova, size)) }

def getDomain (L : Ledger) : Ledger := { L with refcount := L.refcount + 1 }

/-- `rknpu_iommu_domain_put`. -/
def putDomain (L : Ledger) : Ledger := { L with refcount := L.refcount - 1 }

/-- `drm_gem_get_pages`. -/
def getPages (L : Ledger) (pages : List ℕ) : Ledger := { L with pinned := L.pinned + pages }

/-- `drm_gem_put_pages`. -/
def putPages (L : Ledger) (pages : List ℕ) : Ledger := { L with pinned := L.pinned - pages }

def dmaAlloc (L : Ledger) (dmaAddr : ℕ) (pages : List ℕ) : Ledger :=
  { L with dmaBufs := (dmaAddr, pages) ::ₘ L.dmaBufs }

/-- `dma_free_attrs`. -/
def dmaFree (L : Ledger) (dmaAddr : ℕ) (pages : List ℕ) : Ledger :=
  { L with dmaBufs := L.dmaBufs.erase (dmaAddr, pages) }

@[simp] theorem setDomain_mem (L : Ledger) (d : ℕ) (tr : Translation) :
    (L.setDomain d tr).mem = { L.mem with domains := Function.update L.mem.domains d tr } := rfl

@[simp] theorem unmap_mem (L : Ledger) (d iova size : ℕ) : (L.unmap d iova size).mem =
    { L.mem with
      domains := Function.update L.mem.domains d (iommuUnmap (L.mem.domains d) iova size) } := rfl

@[simp] theorem setPool_mem (L : Ledger) (mm : RknpuMm) :
    (L.setPool mm).mem = { L.mem with sramMm := some mm } := rfl

@[simp] theorem takeIova_mem (L : Ledger) (d iova size : ℕ) :
    (L.takeIova d iova size).mem = L.mem := rfl

@[simp] theorem freeIova_mem (L : Ledger) (d iova size : ℕ) :
    (L.freeIova d iova size).mem = L.mem := rfl

@[simp] theorem getDomain_mem (L : Ledger) : L.getDomain.mem = L.mem := rfl
@[simp] theorem putDomain_mem (L : Ledger) : L.putDomain.mem = L.mem := rfl
@[simp] theorem getPages_mem (L : Ledger) (pages : List ℕ) : (L.getPages pages).mem = L.mem := rfl
@[simp] theorem putPages_mem (L : Ledger) (pages : List ℕ) : (L.putPages pages).mem = L.mem := rfl

@[simp] theorem dmaAlloc_mem (L : Ledger) (dmaAddr : ℕ) (pages : List ℕ) :
    (L.dmaAlloc dmaAddr pages).mem = L.mem := rfl

@[simp] theorem dmaFree_mem (L : Ledger) (dmaAddr : ℕ) (pages : List ℕ) :
    (L.dmaFree dmaAddr pages).mem = L.mem := rfl

/-- A range that is granted is one that `rknpu_iommu_dma_alloc_iova` can find. -/
theorem iovaGranted_found (L : Ledger) (dev : RknpuDevice) (d size iova : ℕ) :
    rknpuIommuDmaAllocIova dev size (L.iovaGranted dev d size iova) =
      L.iovaGranted dev d size iova := by
  unfold rknpuIommuDmaAllocIova iovaGranted
  by_cases hfree : iova + size ≤ 2 ^ dev.dmaBits ∧ iova % pageSize = 0 ∧
      ∀ r ∈ L.iovas d, iova + size ≤ r.1 ∨ r.1 + r.2 ≤ iova
  · rw [if_pos hfree, if_pos hfree.1]
  · rw [if_neg hfree]
    split_ifs <;> rfl

end Ledger

/-! ## Creation -/

/-- `mapDdr`, from `drm_gem_get_pages` on; what fails goes through `sgl_unmap`, `put_pages` and
`cache_unmap`. -/
def Ledger.mapDdr (L : Ledger) (obj : RknpuGemObject) (cacheSize : ℕ) (out : CacheOutcome)
    (d : ℕ) : Except ℤ RknpuGemObject × Ledger :=
  match out.frames with
  | .error e => (.error e, L.unmap d obj.iovaStart cacheSize)
  | .ok frame =>
    let numPages := obj.size / pageSize
    let pages := (List.range numPages).map frame
    let L := L.getPages pages
    if out.sgRet < 0 then
      (.error out.sgRet, (L.putPages pages).unmap d obj.iovaStart cacheSize)
    else
      let sgt := pagesToSg out.maxPages pages
      let laid := layOut (fun i => iommuMap (out.ddrRets i)) 0 sgt (obj.iovaStart + cacheSize)
        obj.size (L.mem.domains d)
      let L := L.setDomain d laid.tr
      match laid.refused with
      | some e =>
        let L := L.unmap d (obj.iovaStart + cacheSize) (obj.size - laid.left)
        (.error e, (L.putPages pages).unmap d obj.iovaStart cacheSize)
      | none =>
        (.ok { obj with pages := some pages, numPages := numPages, sgt := some sgt }, L)

/-- What follows the mapping of the cache part; what fails ends at `free_iova`. -/
def Ledger.mapRest (L : Ledger) (obj : RknpuGemObject) (cacheSize : ℕ) (out : CacheOutcome)
    (d : ℕ) (laid : Laid ℤ) : Except ℤ RknpuGemObject × Ledger :=
  let L := L.setDomain d laid.tr
  match laid.refused with
  | some e => (.error e, L.freeIova d obj.iovaStart obj.iovaSize)
  | none =>
    let obj := { obj with dmaAddr := obj.iovaStart }
    if obj.size = 0 then (.ok obj, L)
    else
      match L.mapDdr obj cacheSize out d with
      | (.ok obj, L) => (.ok obj, L)
      | (.error e, L) => (.error e, L.freeIova d obj.iovaStart obj.iovaSize)

/-- `rknpu_gem_alloc_buf_with_cache`. -/
def Ledger.allocBufWithCache (L : Ledger) (dev : RknpuDevice) (obj : RknpuGemObject)
    (type : RknpuCacheType) (out : CacheOutcome) : Option (Except ℤ RknpuGemObject × Ledger) :=
  match cacheRange dev L.mem.sramMm obj type, out.domain with
  | none, _ => none
  | some _, none => some (.error (-einval), L)
  | some (cacheStart, cacheSize), some d =>
    let iovaSize := iovaAlign dev.iovaGranule (cacheSize + obj.size)
    let iova := L.iovaGranted dev d iovaSize out.iova
    if iova = 0 then some (.error (-enomem), L)
    else
      let obj := { obj with iovaSize := iovaSize, iovaStart := iova }
      (mapCache dev obj cacheStart cacheSize out.cacheRets (L.mem.domains d)).map
        ((L.takeIova d iova iovaSize).mapRest obj cacheSize out d)

/-- `fillPages`, from the DMA allocation on; what fails goes through `err_free_dma`. -/
def Ledger.fillPages (L : Ledger) (obj : RknpuGemObject) (out : AllocBufOutcome) (dmaAddr : ℕ)
    (buffer : List ℕ) : Except ℤ RknpuGemObject × Ledger :=
  let L := L.dmaAlloc dmaAddr buffer
  match Buffer.fillPages obj out dmaAddr buffer with
  | .ok obj => (.ok obj, L)
  | .error e => (.error e, L.dmaFree dmaAddr buffer)

/-- `rknpu_gem_alloc_buf`. -/
def Ledger.allocBuf (L : Ledger) (dev : RknpuDevice) (obj : RknpuGemObject)
    (out : AllocBufOutcome) : Except ℤ RknpuGemObject × Ledger :=
  if obj.dmaAddr ≠ 0 then (.ok obj, L)
  else
    let obj := { obj with
      flags := if dev.forceContigAlloc then obj.flags &&& ~~~rknpuMemNonContiguous
        else obj.flags }
    if !out.pagesOk then (.error (-enomem), L)
    else
      match out.dma with
      | some (dmaAddr, frame) =>
        L.fillPages obj out dmaAddr ((List.range (obj.size / pageSize)).map frame)
      | none =>
        if obj.flags &&& rknpuMemNonContiguous = 0 ∧ dev.iommuEn = true then
          let obj := { obj with flags := obj.flags ||| rknpuMemNonContiguous }
          match out.retry with
          | some (dmaAddr, frame) =>
            L.fillPages obj out dmaAddr ((List.range (obj.size / pageSize)).map frame)
          | none => (.error (-einval), L)
        else (.error (-einval), L)

/-- `createInSram`; a buffer that cannot be built goes through `mm_free`. -/
def Ledger.createInSram (L : Ledger) (dev : RknpuDevice) (args : CreateArgs)
    (out : CreateOutcome) (obj : RknpuGemObject) :
    Option (Except ℤ RknpuGemObject × Ledger) := do
  let mm ← L.mem.sramMm
  let (mm, obj, real) ← reserveSram mm obj args.sramSize.toNat out.mmObjOk
  let L := L.setPool mm
  if 0 < real then
    let obj := { obj with sramSize := real }
    let (built, L) ← L.allocBufWithCache dev obj .sram out.cache
    match built with
    | .ok obj => some (.ok obj, L)
    | .error e =>
      let mm ← freeSram mm obj
      some (.error e, L.setPool mm)
  else if 0 < obj.size then some (L.allocBuf dev obj out.alloc)
  else some (.ok obj, L)

/-- `createInNbuf`. -/
def Ledger.createInNbuf (L : Ledger) (dev : RknpuDevice) (args : CreateArgs)
    (out : CreateOutcome) (obj : RknpuGemObject) : Option (Except ℤ RknpuGemObject × Ledger) :=
  let nbufSize := nbufPart dev args.coreMask obj.size
  let obj := { obj with
    cacheWithSgt := sharesNbuf args.coreMask && (dev.cacheSgt 0).isSome
    coreMask := args.coreMask }
  if 0 < nbufSize then
    L.allocBufWithCache dev { obj with nbufSize := nbufSize } .nbuf out.cache
  else if 0 < obj.size then some (L.allocBuf dev obj out.alloc)
  else some (.ok obj, L)

/-- `rknpu_gem_object_create`, between `rknpu_iommu_domain_get_and_switch` and
`rknpu_iommu_domain_put`. -/
def Ledger.createBacked (L : Ledger) (dev : RknpuDevice) (args : CreateArgs)
    (out : CreateOutcome) (obj : RknpuGemObject) : Option (Except ℤ RknpuGemObject × Ledger) :=
  if dev.sramEnabled = true ∧ obj.flags &&& rknpuMemTryAllocSram ≠ 0 ∧ 0 < dev.sramSize then
    L.createInSram dev args out obj
  else if dev.noGki = true ∧ obj.flags &&& rknpuMemTryAllocNbuf ≠ 0 ∧ 0 < dev.nbufSize then
    L.createInNbuf dev args out obj
  else if 0 < obj.size then some (L.allocBuf dev obj out.alloc)
  else some (.ok obj, L)

/-- `rknpu_gem_object_create`. -/
def Ledger.create (L : Ledger) (dev : RknpuDevice) (args : CreateArgs) (out : CreateOutcome) :
    Option (Except ℤ RknpuGemObject × Ledger) :=
  if args.size = 0 then some (.error (-einval), L)
  else
    match rknpuGemInit out.kzallocOk out.initRet (pageAlign args.size.toNat) with
    | .error e => some (.error e, L)
    | .ok obj =>
      if out.domainRet ≠ 0 then some (.error (-einval), L)
      else
        let obj := { obj with
          iommuDomainId := args.iommuDomainId
          flags := createFlags dev args.flags }
        (L.getDomain.createBacked dev args out obj).map fun (res, L) => (res, L.putDomain)

/-! ## Destruction -/

/-- `rknpu_gem_free_buf_with_cache`. -/
def Ledger.freeBufWithCache (L : Ledger) (obj : RknpuGemObject) (cacheSize : ℕ)
    (domain : Option ℕ) : Ledger :=
  let L :=
    match domain with
    | none => L
    | some d =>
      let L := L.unmap d obj.iovaStart cacheSize
      let L := if 0 < obj.size then L.unmap d (obj.iovaStart + cacheSize) obj.size else L
      L.freeIova d obj.iovaStart obj.iovaSize
  match obj.pages with
  | none => L
  | some pages => L.putPages pages

/-- `rknpu_gem_free_buf`. -/
def Ledger.freeBuf (L : Ledger) (obj : RknpuGemObject) : Ledger :=
  if obj.dmaAddr = 0 then L else L.dmaFree obj.dmaAddr (obj.cookie.getD [])

/-- `rknpu_gem_object_destroy`. -/
def Ledger.destroy (L : Ledger) (dev : RknpuDevice) (obj : RknpuGemObject)
    (out : DestroyOutcome) : Option (Bool × Ledger) :=
  if out.got = false then some (false, L)
  else
    let L := L.getDomain
    (if dev.sramEnabled = true ∧ 0 < obj.sramSize then do
      let mm ← L.mem.sramMm
      let mm ← freeSram mm obj
      some ((L.setPool mm).freeBufWithCache obj obj.sramSize out.domain)
    else if dev.noGki = true ∧ 0 < obj.nbufSize then
      some (L.freeBufWithCache obj obj.nbufSize out.domain)
    else some (L.freeBuf obj)).map fun L => (true, L.putDomain)

/-! ## The functions and their ledger -/

namespace Ledger
variable {dev : RknpuDevice} {L L' : Ledger} {res : Except ℤ RknpuGemObject}

theorem mapDdr_simulates (obj : RknpuGemObject) (cacheSize : ℕ) (out : CacheOutcome) (d : ℕ) :
    (L.mapDdr obj cacheSize out d).1 =
        (Buffer.mapDdr obj cacheSize out (L.mem.domains d)).1 ∧
      (L.mapDdr obj cacheSize out d).2.mem = { L.mem with
        domains := Function.update L.mem.domains d
          (Buffer.mapDdr obj cacheSize out (L.mem.domains d)).2 } := by
  unfold Ledger.mapDdr Buffer.mapDdr
  cases hframes : out.frames with
  | error e => exact ⟨rfl, rfl⟩
  | ok frame =>
    simp only
    split_ifs with hsg
    · exact ⟨rfl, rfl⟩
    · simp only [getPages_mem]
      generalize layOut (fun i => iommuMap (out.ddrRets i)) 0
        (pagesToSg out.maxPages ((List.range (obj.size / pageSize)).map frame))
        (obj.iovaStart + cacheSize) obj.size (L.mem.domains d) = laid
      obtain ⟨refused, tr, left⟩ := laid
      cases refused with
      | some e => simp
      | none => exact ⟨rfl, rfl⟩

theorem mapRest_simulates (obj : RknpuGemObject) (cacheSize : ℕ) (out : CacheOutcome) (d : ℕ)
    (laid : Laid ℤ) : (L.mapRest obj cacheSize out d laid).2.mem.sramMm = L.mem.sramMm ∧
      ((L.mapRest obj cacheSize out d laid).1,
          (L.mapRest obj cacheSize out d laid).2.mem.domains) =
        match laid.refused with
        | some e => (.error e, Function.update L.mem.domains d laid.tr)
        | none =>
          if obj.size = 0 then
            (.ok { obj with dmaAddr := obj.iovaStart }, Function.update L.mem.domains d laid.tr)
          else
            ((Buffer.mapDdr { obj with dmaAddr := obj.iovaStart } cacheSize out laid.tr).1,
              Function.update L.mem.domains d
                (Buffer.mapDdr { obj with dmaAddr := obj.iovaStart } cacheSize out laid.tr).2) := by
  unfold Ledger.mapRest
  cases laid.refused with
  | some e => exact ⟨rfl, rfl⟩
  | none =>
    simp only
    by_cases hsize : obj.size = 0
    · simp only [if_pos hsize]
      exact ⟨rfl, rfl⟩
    · simp only [if_neg hsize]
      have hddr := @mapDdr_simulates (L.setDomain d laid.tr)
        { obj with dmaAddr := obj.iovaStart } cacheSize out d
      simp only [setDomain_mem, Function.update_self, Function.update_idem] at hddr
      obtain ⟨hres, hmem⟩ := hddr
      split
      · rename_i built L₁ hbuilt
        rw [hbuilt] at hres hmem
        rw [← hres, hmem]
        exact ⟨rfl, rfl⟩
      · rename_i e L₁ hbuilt
        rw [hbuilt] at hres hmem
        rw [← hres, freeIova_mem, hmem]
        exact ⟨rfl, rfl⟩

theorem allocBufWithCache_simulates {obj : RknpuGemObject} {type : RknpuCacheType}
    {out : CacheOutcome} (h : L.allocBufWithCache dev obj type out = some (res, L')) :
    L'.mem.sramMm = L.mem.sramMm ∧
      ∃ iova, rknpuGemAllocBufWithCache dev L.mem.sramMm obj type { out with iova := iova }
        L.mem.domains = some (res, L'.mem.domains) := by
  unfold Ledger.allocBufWithCache at h
  unfold rknpuGemAllocBufWithCache
  split at h
  · cases h
  · rename_i hrange hdomain
    cases h
    exact ⟨rfl, out.iova, by simp only [hrange, hdomain]⟩
  · rename_i cacheStart cacheSize d hrange hdomain
    simp only at h
    have hfound := L.iovaGranted_found dev d
      (iovaAlign dev.iovaGranule (cacheSize + obj.size)) out.iova
    generalize L.iovaGranted dev d (iovaAlign dev.iovaGranule (cacheSize + obj.size)) out.iova =
      iova at h hfound
    simp only [hrange, hdomain]
    by_cases hzero : iova = 0
    · rw [if_pos hzero] at h
      cases h
      exact ⟨rfl, iova, by rw [hfound, if_pos hzero]⟩
    · rw [if_neg hzero] at h
      obtain ⟨laid, hlaid, h⟩ := Option.map_eq_some_iff.mp h
      obtain ⟨hpool, hrest⟩ := @mapRest_simulates
        (L.takeIova d iova (iovaAlign dev.iovaGranule (cacheSize + obj.size)))
        { obj with
          iovaSize := iovaAlign dev.iovaGranule (cacheSize + obj.size)
          iovaStart := iova } cacheSize out d laid
      rw [h] at hpool hrest
      refine ⟨hpool, iova, ?_⟩
      rw [hfound, if_neg hzero, hlaid, Option.map_some, hrest]
      rfl

theorem fillPages_simulates (obj : RknpuGemObject) (out : AllocBufOutcome) (dmaAddr : ℕ)
    (buffer : List ℕ) :
    (L.fillPages obj out dmaAddr buffer).1 = Buffer.fillPages obj out dmaAddr buffer ∧
      (L.fillPages obj out dmaAddr buffer).2.mem = L.mem := by
  unfold Ledger.fillPages
  cases Buffer.fillPages obj out dmaAddr buffer with
  | ok o => exact ⟨rfl, rfl⟩
  | error e => exact ⟨rfl, rfl⟩

theorem allocBuf_simulates (obj : RknpuGemObject) (out : AllocBufOutcome) :
    (L.allocBuf dev obj out).1 = rknpuGemAllocBuf dev obj out ∧
      (L.allocBuf dev obj out).2.mem = L.mem := by
  unfold Ledger.allocBuf rknpuGemAllocBuf
  by_cases hdone : obj.dmaAddr ≠ 0
  · simp only [if_pos hdone, and_self]
  simp only [if_neg hdone]
  generalize (if dev.forceContigAlloc = true then _ else _) = flags
  by_cases hpages : (!out.pagesOk) = true
  · simp only [if_pos hpages, and_self]
  simp only [if_neg hpages]
  cases out.dma with
  | some buffer => exact fillPages_simulates ..
  | none =>
    by_cases hretry : flags &&& rknpuMemNonContiguous = 0 ∧ dev.iommuEn = true
    · simp only [if_pos hretry]
      cases out.retry with
      | some buffer => exact fillPages_simulates ..
      | none => exact ⟨rfl, rfl⟩
    · simp only [if_neg hretry, and_self]

/-- An object without a cache part gets a buffer of the DMA API, or has no memory. -/
theorem plain_simulates (obj : RknpuGemObject) {out : AllocBufOutcome} {m : Memory}
    (hm : L.mem = m)
    (h : (if 0 < obj.size then some (L.allocBuf dev obj out) else some (.ok obj, L)) =
      some (res, L')) :
    (if 0 < obj.size then some (rknpuGemAllocBuf dev obj out, m) else some (.ok obj, m)) =
      some (res, L'.mem) := by
  obtain ⟨hres, hmem⟩ := @allocBuf_simulates dev L obj out
  by_cases hsize : 0 < obj.size
  · rw [if_pos hsize] at h ⊢
    rw [← hres, ← hm, ← hmem, Option.some.inj h]
  · rw [if_neg hsize] at h ⊢
    cases h
    rw [hm]

theorem createInSram_simulates {args : CreateArgs} {out : CreateOutcome} {obj : RknpuGemObject}
    (h : L.createInSram dev args out obj = some (res, L')) :
    ∃ iova, Buffer.createInSram dev args { out with cache := { out.cache with iova := iova } }
      obj L.mem = some (res, L'.mem) := by
  simp only [Ledger.createInSram, Option.bind_eq_bind, Option.bind_eq_some_iff] at h
  obtain ⟨mm, hmm, ⟨mid, obj', real⟩, hreserve, h⟩ := h
  simp only [Buffer.createInSram, Option.bind_eq_bind, hmm, Option.bind_some, hreserve]
  by_cases hreal : 0 < real
  · rw [if_pos hreal, Option.bind_eq_some_iff] at h
    obtain ⟨⟨built, L₁⟩, hbuilt, h⟩ := h
    obtain ⟨hpool, iova, hsame⟩ := allocBufWithCache_simulates hbuilt
    refine ⟨iova, ?_⟩
    rw [if_pos hreal]
    simp only [setPool_mem] at hsame hpool
    rw [hsame, Option.bind_some]
    cases built with
    | ok o =>
      cases h
      simp only [← hpool]
    | error e =>
      obtain ⟨mm', hfree, h⟩ := Option.bind_eq_some_iff.mp h
      cases h
      simp only [hfree, Option.bind_some, setPool_mem]
  · rw [if_neg hreal] at h
    refine ⟨out.cache.iova, ?_⟩
    rw [if_neg hreal]
    exact plain_simulates obj' rfl h

theorem createInNbuf_simulates {args : CreateArgs} {out : CreateOutcome} {obj : RknpuGemObject}
    (h : L.createInNbuf dev args out obj = some (res, L')) :
    ∃ iova, Buffer.createInNbuf dev args { out with cache := { out.cache with iova := iova } }
      obj L.mem = some (res, L'.mem) := by
  unfold Ledger.createInNbuf at h
  unfold Buffer.createInNbuf
  by_cases hpos : 0 < nbufPart dev args.coreMask obj.size
  · simp only [if_pos hpos] at h ⊢
    obtain ⟨hpool, iova, hsame⟩ := allocBufWithCache_simulates h
    refine ⟨iova, ?_⟩
    rw [hsame, Option.map_some, ← hpool]
  · simp only [if_neg hpos] at h ⊢
    exact ⟨out.cache.iova, plain_simulates { obj with
      cacheWithSgt := sharesNbuf args.coreMask && (dev.cacheSgt 0).isSome
      coreMask := args.coreMask } rfl h⟩

/-- **A creation on the ledger** is a creation, with the IOVAs that are granted. -/
theorem create_simulates {args : CreateArgs} {out : CreateOutcome}
    (h : L.create dev args out = some (res, L')) :
    ∃ iova, rknpuGemObjectCreate dev args { out with cache := { out.cache with iova := iova } }
      L.mem = some (res, L'.mem) := by
  unfold Ledger.create at h
  unfold rknpuGemObjectCreate
  by_cases hsize : args.size = 0
  · rw [if_pos hsize] at h
    cases h
    exact ⟨0, if_pos hsize⟩
  rw [if_neg hsize] at h
  simp only [if_neg hsize]
  cases hinit : rknpuGemInit out.kzallocOk out.initRet (pageAlign args.size.toNat) with
  | error e =>
    rw [hinit] at h
    cases h
    exact ⟨0, rfl⟩
  | ok obj =>
    simp only [hinit] at h ⊢
    by_cases hdomain : out.domainRet ≠ 0
    · rw [if_pos hdomain] at h
      cases h
      exact ⟨0, if_pos hdomain⟩
    rw [if_neg hdomain] at h
    simp only [if_neg hdomain]
    obtain ⟨⟨built, L₁⟩, hbacked, h⟩ := Option.map_eq_some_iff.mp h
    cases h
    rw [putDomain_mem]
    unfold Ledger.createBacked at hbacked
    split_ifs at hbacked ⊢ with hsram hnbuf hpos
    · have hsame := createInSram_simulates hbacked
      exact hsame
    · have hsame := createInNbuf_simulates hbacked
      exact hsame
    · obtain ⟨hres, hmem⟩ := @allocBuf_simulates dev L.getDomain { obj with
        iommuDomainId := args.iommuDomainId
        flags := createFlags dev args.flags } out.alloc
      rw [Option.some.inj hbacked] at hres hmem
      exact ⟨out.cache.iova, congrArg some (Prod.ext hres.symm hmem.symm)⟩
    · cases hbacked
      exact ⟨out.cache.iova, rfl⟩

theorem freeBufWithCache_simulates (obj : RknpuGemObject) (cacheSize : ℕ) (domain : Option ℕ) :
    (L.freeBufWithCache obj cacheSize domain).mem = { L.mem with
      domains := rknpuGemFreeBufWithCache obj cacheSize domain L.mem.domains } := by
  unfold Ledger.freeBufWithCache rknpuGemFreeBufWithCache
  have hput : ∀ L : Ledger, (match obj.pages with
      | none => L
      | some pages => L.putPages pages).mem = L.mem := by
    intro L
    cases obj.pages with
    | none => rfl
    | some pages => rfl
  rw [hput]
  cases domain with
  | none => rfl
  | some d =>
    simp only
    split_ifs <;> simp

/-- **A destruction on the ledger** is a destruction. -/
theorem destroy_simulates {obj : RknpuGemObject} {out : DestroyOutcome} {gone : Bool}
    (h : L.destroy dev obj out = some (gone, L')) :
    rknpuGemObjectDestroy dev obj out L.mem = some (gone, L'.mem) := by
  unfold Ledger.destroy at h
  unfold rknpuGemObjectDestroy
  by_cases hgot : out.got = false
  · rw [if_pos hgot] at h ⊢
    cases h
    rfl
  rw [if_neg hgot] at h ⊢
  obtain ⟨L₁, hfreed, h⟩ := Option.map_eq_some_iff.mp h
  cases h
  rw [putDomain_mem]
  split_ifs at hfreed ⊢ with hsram hnbuf
  · simp only [Option.bind_eq_bind, Option.bind_eq_some_iff, getDomain_mem] at hfreed ⊢
    obtain ⟨mm, hmm, mm', hfree, h⟩ := hfreed
    cases h
    exact ⟨mm, hmm, mm', hfree, by rw [freeBufWithCache_simulates]; rfl⟩
  · cases hfreed
    rw [freeBufWithCache_simulates]
    rfl
  · cases hfreed
    unfold Ledger.freeBuf
    split_ifs <;> rfl

end Ledger

end RknpuDriver.Buffer
