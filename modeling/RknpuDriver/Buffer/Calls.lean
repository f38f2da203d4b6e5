import RknpuDriver.Buffer.Mmap

/-! # Creation and destruction, step by step

`rknpu_gem_object_create` and `rknpu_gem_object_destroy` of different threads interleave: the
pool has a lock of its own, the IOMMU and the IOVA allocator have theirs, and nothing holds
over a whole call. A `BufCall` is an object with the place where the call on it stands; a step
runs a call up to and including its next access to something shared. Every call finds the same
IOMMU domain attached, the first one.

* `BufCall.exec`: one step of a call.
* `callSystem`: any number of calls on a probed device, in any order of their steps.
-/

namespace RknpuDriver.Buffer
open RknpuDriver.Lib RknpuDriver.Mm
set_option autoImplicit false

/-! ## Data -/

/-- Where a call stands: the access that comes next. From `live` on, no call works on the object
until it is destroyed; `stuck` is an object whose destruction gave up. -/
inductive Pc where
  | readFree (sramSize : ℕ)
  | mmAlloc (real : ℕ)
  | allocIova
  | mapCache (sgl : List Segment) (va length : ℕ)
  | getPages
  | mapDdr (sgl : List Segment) (va length : ℕ)
  | unmapDdr (size : ℕ)
  | unmapCache
  | freeIova
  | mmFree
  | allocBuf
  | live
  | stuck
  | destroyMmFree
  | destroyUnmapCache
  | destroyUnmapDdr
  | destroyFreeIova
  deriving DecidableEq, Repr

/-- An object and the call on it. `held` says that the IOVA range which the object records was
given out by the IOVA allocator, and has not come back. -/
structure BufCall where
  obj : RknpuGemObject
  cacheType : RknpuCacheType
  held : Bool
  pc : Pc
  deriving DecidableEq, Repr

/-- The SRAM pool, and the domain that `iommu_get_domain_for_dev` returns, by what is mapped in
it. -/
structure Shared where
  sramMm : Option RknpuMm
  domain : Option Translation

/-- What the access of a step returns, by the fields that it uses. -/
structure StepOutcome where
  objOk : Bool
  iova : ℕ
  ret : ℤ
  frames : Except ℤ (ℕ → ℕ)
  sgRet : ℤ
  maxPages : ℕ
  alloc : AllocBufOutcome

/-! ## Creation -/

namespace BufCall

/-- `remain_ddr_size > 0` after the cache part came to nothing. -/
def fallback (c : BufCall) : BufCall :=
  { c with pc := if 0 < c.obj.size then .allocBuf else .live }

/-- The steps of `rknpu_gem_object_create` before its first access to the pool or the IOMMU;
`none` when it has failed by then. -/
def start (dev : RknpuDevice) (args : CreateArgs) (kzallocOk : Bool) (initRet domainRet : ℤ) :
    Option BufCall :=
  if args.size = 0 then none
  else
    match rknpuGemInit kzallocOk initRet (pageAlign args.size.toNat) with
    | .error _ => none
    | .ok obj =>
      if domainRet ≠ 0 then none
      else
        let flags := createFlags dev args.flags
        let obj := { obj with iommuDomainId := args.iommuDomainId, flags := flags }
        if dev.sramEnabled = true ∧ flags &&& rknpuMemTryAllocSram ≠ 0 ∧ 0 < dev.sramSize then
          some ⟨obj, .sram, false, .readFree args.sramSize.toNat⟩
        else if dev.noGki = true ∧ flags &&& rknpuMemTryAllocNbuf ≠ 0 ∧ 0 < dev.nbufSize then
          let nbufSize := nbufPart dev args.coreMask obj.size
          let obj := { obj with
            cacheWithSgt := sharesNbuf args.coreMask && (dev.cacheSgt 0).isSome
            coreMask := args.coreMask }
          if 0 < nbufSize then some ⟨{ obj with nbufSize := nbufSize }, .nbuf, false, .allocIova⟩
          else some (fallback ⟨obj, .nbuf, false, .live⟩)
        else some (fallback ⟨obj, .nbuf, false, .live⟩)

/-- `rknpu_gem_alloc_buf_with_cache` returns an error: what was reserved in the pool goes back,
and an object in the NBUF has nothing else to give back. -/
def failed (c : BufCall) : Option BufCall :=
  match c.cacheType with
  | .sram => some { c with pc := .mmFree }
  | .nbuf => none

/-- The cache part is mapped. -/
def cacheMapped (c : BufCall) : BufCall :=
  { c with
    obj := { c.obj with dmaAddr := c.obj.iovaStart }
    pc := if c.obj.size = 0 then .live else .getPages }

/-- `sram_obj` after `rknpu_mm_free`. -/
def sramFreed (c : BufCall) : BufCall :=
  { c with obj := { c.obj with
    sramObj := match c.obj.sramObj with
      | .null => .null
      | _ => .dangling } }

/-- The IOVA range that an object records is `n` from `iova` on. -/
def withRange (c : BufCall) (iova n : ℕ) : BufCall :=
  { c with obj := { c.obj with iovaSize := n, iovaStart := iova } }

/-- No other object holds IOVAs of the `n` from `iova` on. -/
def IovaFree (others : List BufCall) (iova n : ℕ) : Prop :=
  ∀ c ∈ others, c.held = true →
    c.obj.iovaStart + c.obj.iovaSize ≤ iova ∨ iova + n ≤ c.obj.iovaStart

/-- The `n` pages are system memory, not on-chip memory. -/
def SystemPages (dev : RknpuDevice) (frame : ℕ → ℕ) (n : ℕ) : Prop :=
  ∀ i < n, (frame i + 1) * pageSize ≤ dev.sramStart ∨ dev.sramEnd ≤ frame i * pageSize

instance (others : List BufCall) (iova n : ℕ) : Decidable (IovaFree others iova n) :=
  inferInstanceAs (Decidable (∀ c ∈ others, _))

instance (dev : RknpuDevice) (frame : ℕ → ℕ) (n : ℕ) : Decidable (SystemPages dev frame n) :=
  inferInstanceAs (Decidable (∀ i < n, _))

/-- `free_chunks` is read without the lock of the pool. -/
def execReadFree (m : Shared) (c : BufCall) (sramSize : ℕ) : Option (Shared × Option BufCall) :=
  m.sramMm.map fun mm =>
    let sramFreeSize := u32 (mm.freeChunks * mm.chunkSize)
    (m, some (if 0 < sramFreeSize then
      { c with pc := .mmAlloc (realSramSize c.obj.size sramSize sramFreeSize) }
    else c.fallback))

def execMmAlloc (m : Shared) (c : BufCall) (real : ℕ) (out : StepOutcome) :
    Option (Shared × Option BufCall) := do
  let mm ← m.sramMm
  let (mm, obj, real) ← allocSram mm c.obj real out.objOk
  if 0 < real then
    some ({ m with sramMm := some mm },
      some { c with obj := { obj with sramSize := real }, pc := .allocIova })
  else some ({ m with sramMm := some mm }, some ({ c with obj := obj } : BufCall).fallback)

/-- The table that the cache part is mapped from. -/
def cacheTable (dev : RknpuDevice) (obj : RknpuGemObject) (cacheStart cacheSize : ℕ) :
    Option (List Segment) :=
  if !obj.cacheWithSgt then some [⟨cacheStart, cacheSize⟩] else cacheSegments dev obj

/-- The first part of `rknpu_gem_alloc_buf_with_cache`. The IOVA allocator gives out no range
that overlaps one it has given out before. -/
def execAllocIova (dev : RknpuDevice) (m : Shared) (others : List BufCall) (c : BufCall)
    (out : StepOutcome) : Option (Shared × Option BufCall) :=
  match cacheRange dev m.sramMm c.obj c.cacheType, m.domain with
  | none, _ => none
  | some _, none => some (m, c.failed)
  | some (cacheStart, cacheSize), some _ =>
    let iovaSize := iovaAlign dev.iovaGranule (cacheSize + c.obj.size)
    let iova := rknpuIommuDmaAllocIova dev iovaSize out.iova
    let c := c.withRange iova iovaSize
    if iova = 0 then some (m, c.failed)
    else if IovaFree others iova iovaSize then
      (cacheTable dev c.obj cacheStart cacheSize).map fun sgl =>
        (m, some { c with held := true, pc := .mapCache sgl iova cacheSize })
    else none

/-- One turn of the loop of `rknpu_iommu_map_with_cache_sgt`, or the call that takes its
place. -/
def execMapCache (m : Shared) (c : BufCall) (sgl : List Segment) (va length : ℕ)
    (out : StepOutcome) : Option (Shared × Option BufCall) :=
  match sgl, m.domain with
  | _, none => none
  | [], some _ => some (m, some c.cacheMapped)
  | s :: sgl, some tr =>
    let size := min length s.length
    match iommuMap out.ret tr va s.start size with
    | .error _ => some (m, some { c with pc := .freeIova })
    | .ok tr => some ({ m with domain := some tr }, some (
      if length - size = 0 then c.cacheMapped
      else { c with pc := .mapCache sgl (va + size) (length - size) }))

/-- `drm_gem_get_pages` and `drm_prime_pages_to_sg`. -/
def execGetPages (dev : RknpuDevice) (m : Shared) (c : BufCall) (out : StepOutcome) :
    Option (Shared × Option BufCall) :=
  match out.frames with
  | .error _ => some (m, some { c with pc := .unmapCache })
  | .ok frame =>
    let numPages := c.obj.size / pageSize
    if SystemPages dev frame numPages then
      if out.sgRet < 0 then some (m, some { c with pc := .unmapCache })
      else
        let pages := (List.range numPages).map frame
        let sgt := pagesToSg out.maxPages pages
        some (m, some { c with
          obj := { c.obj with pages := some pages, numPages := numPages, sgt := some sgt }
          pc := .mapDdr sgt (c.obj.iovaStart + c.obj.cacheSize c.cacheType) c.obj.size })
    else none

/-- One turn of the loop that maps the DDR part. -/
def execMapDdr (m : Shared) (c : BufCall) (sgl : List Segment) (va length : ℕ)
    (out : StepOutcome) : Option (Shared × Option BufCall) :=
  match sgl, m.domain with
  | _, none => none
  | [], some _ => some (m, some { c with pc := .live })
  | s :: sgl, some tr =>
    let size := min length s.length
    match iommuMap out.ret tr va s.start size with
    | .error _ => some (m, some { c with pc := .unmapDdr (c.obj.size - length) })
    | .ok tr => some ({ m with domain := some tr }, some { c with
      pc := if length - size = 0 then .live else .mapDdr sgl (va + size) (length - size) })

/-- `iommu_unmap` of a part of the object, and what comes next. -/
def execUnmap (m : Shared) (c : BufCall) (iova size : ℕ) (next : Pc) :
    Option (Shared × Option BufCall) :=
  m.domain.map fun tr => ({ m with domain := some (iommuUnmap tr iova size) },
    some { c with pc := next })

/-- `rknpu_mm_free`, and what is left of the call. -/
def execMmFree (m : Shared) (c : BufCall) (next : BufCall → Option BufCall) :
    Option (Shared × Option BufCall) := do
  let mm ← m.sramMm
  let mm ← freeSram mm c.obj
  some ({ m with sramMm := some mm }, next c.sramFreed)

def execAllocBuf (dev : RknpuDevice) (m : Shared) (c : BufCall) (out : StepOutcome) :
    Option (Shared × Option BufCall) :=
  match rknpuGemAllocBuf dev c.obj out.alloc with
  | .error _ => some (m, none)
  | .ok obj => some (m, some { c with obj := obj, pc := .live })

/-! ## Destruction -/

/-- `rknpu_gem_object_destroy` up to its first access to the pool or the IOMMU; the boolean is
`DestroyOutcome.got`. -/
def destroy (dev : RknpuDevice) (c : BufCall) (got : Bool) : Option BufCall :=
  if got = false then some { c with pc := .stuck }
  else if dev.sramEnabled = true ∧ 0 < c.obj.sramSize then
    some { c with cacheType := .sram, pc := .destroyMmFree }
  else if dev.noGki = true ∧ 0 < c.obj.nbufSize then
    some { c with cacheType := .nbuf, pc := .destroyUnmapCache }
  else none

/-- The first part of `rknpu_gem_free_buf_with_cache`. -/
def execDestroyUnmapCache (m : Shared) (c : BufCall) : Option (Shared × Option BufCall) :=
  match m.domain with
  | none => some (m, none)
  | some _ => execUnmap m c c.obj.iovaStart (c.obj.cacheSize c.cacheType)
    (if 0 < c.obj.size then .destroyUnmapDdr else .destroyFreeIova)

/-! ## Steps -/

/-- One step of a call: what is shared after it, and the call unless its object is gone. -/
def exec (dev : RknpuDevice) (m : Shared) (others : List BufCall) (c : BufCall)
    (out : StepOutcome) : Option (Shared × Option BufCall) :=
  match c.pc with
  | .readFree sramSize => execReadFree m c sramSize
  | .mmAlloc real => execMmAlloc m c real out
  | .allocIova => execAllocIova dev m others c out
  | .mapCache sgl va length => execMapCache m c sgl va length out
  | .getPages => execGetPages dev m c out
  | .mapDdr sgl va length => execMapDdr m c sgl va length out
  | .unmapDdr size =>
    execUnmap m c (c.obj.iovaStart + c.obj.cacheSize c.cacheType) size .unmapCache
  | .unmapCache => execUnmap m c c.obj.iovaStart (c.obj.cacheSize c.cacheType) .freeIova
  | .freeIova => some (m, ({ c with held := false } : BufCall).failed)
  | .mmFree => execMmFree m c fun _ => none
  | .allocBuf => execAllocBuf dev m c out
  | .live => none
  | .stuck => none
  | .destroyMmFree => execMmFree m c fun c => some { c with pc := .destroyUnmapCache }
  | .destroyUnmapCache => execDestroyUnmapCache m c
  | .destroyUnmapDdr =>
    execUnmap m c (c.obj.iovaStart + c.obj.cacheSize c.cacheType) c.obj.size .destroyFreeIova
  | .destroyFreeIova => some (m, none)

end BufCall

structure CallState where
  shared : Shared
  calls : List BufCall

inductive CallLabel where
  | create (args : CreateArgs) (kzallocOk : Bool) (initRet domainRet : ℤ)
  | destroy (index : ℕ) (got : Bool)
  | exec (index : ℕ) (out : StepOutcome)

/-- The calls after the one at `k` took a step. -/
def putCall (calls : List BufCall) (k : ℕ) : Option BufCall → List BufCall
  | none => calls.eraseIdx k
  | some c => calls.set k c

def callStep (dev : RknpuDevice) (s : CallState) : CallLabel → Option CallState
  | .create args kzallocOk initRet domainRet =>
    match BufCall.start dev args kzallocOk initRet domainRet with
    | none => some s
    | some c => some { s with calls := s.calls ++ [c] }
  | .destroy k got =>
    match s.calls[k]? with
    | none => none
    | some c =>
      if c.pc = .live then some { s with calls := putCall s.calls k (c.destroy dev got) } else none
  | .exec k out =>
    match s.calls[k]? with
    | none => none
    | some c =>
      (c.exec dev s.shared (s.calls.eraseIdx k) out).map fun (m, c) => ⟨m, putCall s.calls k c⟩

/-- Any number of calls on a probed device, in any order of their steps. An object is destroyed
once, when its creation has ended. -/
def callSystem (dev : RknpuDevice) : System CallState CallLabel where
  init s := ∃ dev₀ res mmOk bitmapOk, dev₀.sramSize = 0 ∧
    rknpuProbeSram dev₀ res mmOk bitmapOk = .ok (dev, s.shared.sramMm) ∧
    (∀ tr, s.shared.domain = some tr → tr = fun _ => none) ∧ s.calls = []
  step := callStep dev

end RknpuDriver.Buffer
