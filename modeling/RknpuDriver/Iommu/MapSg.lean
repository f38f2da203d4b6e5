import RknpuDriver.Basic
import Mathlib.Data.List.Basic

/-! # Scatterlists of `rknpu_iommu.c`

`rknpu_iommu_dma_map_sg` and `rknpu_iommu_dma_unmap_sg` with `iova_aligned` false, on kernels from
5.10 on. The entries of a scatterlist are in a list, `nents` is its length, and a pointer that the
code moves with `sg_next` is an index. The integers have the widths of the source.
-/

namespace RknpuDriver.Iommu
set_option autoImplicit false

/-- The DMA fields of an entry. `busAddress` is `sg_is_dma_bus_address`, which no entry is before
kernel 6.1. -/
structure SgDma where
  address : UInt64
  length : UInt32
  busAddress : Bool
  deriving DecidableEq, Repr

/-- `struct scatterlist`. -/
structure SgEntry where
  offset : UInt32
  length : UInt32
  dma : SgDma
  deriving DecidableEq, Repr

/-- `DMA_MAPPING_ERROR`. -/
abbrev dmaMappingError : UInt64 := 0xffffffffffffffff

/-- `struct iova_domain`, whose granule is a power of two. -/
structure IovaDomain where
  shift : ℕ
  shift_lt : shift < 64

def IovaDomain.granule (iovad : IovaDomain) : ℕ := 2 ^ iovad.shift

/-- `iova_offset`. -/
def iovaOffset (iovad : IovaDomain) (iova : UInt64) : UInt64 :=
  UInt64.ofNat (iova.toNat % iovad.granule)

/-- `iova_align`. -/
def iovaAlign (iovad : IovaDomain) (size : UInt64) : UInt64 :=
  UInt64.ofNat ((size.toNat + (iovad.granule - 1)) / iovad.granule * iovad.granule)

/-- What the functions read of the device, of its IOMMU domain and of the kernel they are built
for: `kernel61` is `KERNEL_VERSION(6, 1, 0) <= LINUX_VERSION_CODE`. -/
structure MapDevice where
  iovad : IovaDomain
  segBoundary : UInt64
  maxSegSize : UInt32
  dmaMask : UInt64
  busDmaLimit : UInt64
  forceAperture : Bool
  apertureEnd : UInt64
  kernel61 : Bool

/-- What the calls into the kernel return. -/
structure MapOutcome where
  allocIova : UInt64 → UInt64 → Option UInt64
  allocIovaFast : UInt64 → UInt64 → UInt64
  iommuMapSg : UInt64 → List SgEntry → ℤ

/-! ## `rknpu_iommu_dma_alloc_iova` -/

/-- `min_not_zero`. -/
def minNotZero (a b : UInt64) : UInt64 := if a = 0 then b else if b = 0 then a else min a b

/-- `IOVA_RANGE_CACHE_MAX_SIZE`. -/
abbrev iovaRangeCacheMaxSize : ℕ := 6

def rknpuIommuDmaAllocIova (dev : MapDevice) (o : MapOutcome) (size dmaLimit : UInt64)
    (sizeAligned : Bool) : UInt64 :=
  let shift := UInt64.ofNat dev.iovad.shift
  let iovaLen := size >>> shift
  let iovaLen :=
    if dev.kernel61 = false ∧ iovaLen.toNat < 2 ^ (iovaRangeCacheMaxSize - 1) then
      UInt64.ofNat iovaLen.toNat.nextPowerOfTwo
    else iovaLen
  let dmaLimit := minNotZero dmaLimit dev.busDmaLimit
  let dmaLimit := if dev.forceAperture then min dmaLimit dev.apertureEnd else dmaLimit
  let limitPfn := dmaLimit >>> shift
  if sizeAligned then o.allocIovaFast iovaLen limitPfn <<< shift
  else
    match o.allocIova iovaLen limitPfn with
    | none => 0
    | some pfnLo => pfnLo <<< shift

/-! ## `rknpu_iommu_dma_map_sg` -/

/-- The length of an entry as the IOMMU driver gets it. -/
def alignedLength (iovad : IovaDomain) (s : SgEntry) : UInt64 :=
  iovaAlign iovad (s.length.toUInt64 + iovaOffset iovad s.offset.toUInt64)

/-- An entry aligned to the granule, its unaligned parts in its DMA fields. -/
def SgEntry.stash (iovad : IovaDomain) (s : SgEntry) : SgEntry :=
  let sIovaOff := iovaOffset iovad s.offset.toUInt64
  { offset := s.offset - sIovaOff.toUInt32
    length := (alignedLength iovad s).toUInt32
    dma := { s.dma with address := sIovaOff, length := s.length } }

/-- What `prev->length` and `iova_len` are padded with. -/
def padding (mask iovaLen sLength : UInt64) : UInt64 :=
  let padLen := (mask - iovaLen + 1) &&& mask
  if padLen ≠ 0 ∧ padLen < sLength - 1 then padLen else 0

/-- The first loop. `prev` is the entry it has just left; it goes into the result when it can
change no more. There is no result where `prev` is dereferenced before it has a value. -/
def layOutSg (dev : MapDevice) :
    Option SgEntry → UInt64 → List SgEntry → Option (List SgEntry × UInt64)
  | prev, iovaLen, [] => some (prev.toList, iovaLen)
  | none, iovaLen, s :: rest =>
    let sLength := alignedLength dev.iovad s
    if padding dev.segBoundary iovaLen sLength ≠ 0 then none
    else layOutSg dev (some (s.stash dev.iovad)) (iovaLen + sLength) rest
  | some prev, iovaLen, s :: rest =>
    let sLength := alignedLength dev.iovad s
    let padLen := padding dev.segBoundary iovaLen sLength
    let prev := { prev with length := prev.length + padLen.toUInt32 }
    (layOutSg dev (some (s.stash dev.iovad)) (iovaLen + padLen + sLength) rest).map fun r =>
      (prev :: r.1, r.2)

/-- The variables of the loop of `__finalise_sg`. -/
structure Finalise where
  sg : List SgEntry
  cur : ℕ
  curLen : UInt32
  dmaAddr : UInt64
  count : ℕ
  deriving DecidableEq, Repr

/-- One turn of the loop, for the entry at index `i`. -/
def finaliseEntry (dev : MapDevice) (st : Finalise) (i : ℕ) : Finalise :=
  match st.sg[i]? with
  | none => st
  | some s =>
    let sIovaOff := s.dma.address.toUInt32
    let sLength := s.dma.length
    let sIovaLen := s.length
    let sg := st.sg.modify i fun s =>
      { s with dma := { s.dma with address := dmaMappingError, length := 0 } }
    let next := if 0 < i then st.cur + 1 else st.cur
    if s.dma.busAddress then
      let sg := sg.modify i fun s => { s with dma := { s.dma with busAddress := false } }
      let sg := sg.modify next fun cur => { cur with dma := ⟨s.dma.address, sLength, true⟩ }
      { sg, cur := next, curLen := 0, dmaAddr := st.dmaAddr, count := st.count + 1 }
    else
      let sg := sg.modify i fun s => { s with offset := s.offset + sIovaOff, length := sLength }
      let concatenate : Bool := st.curLen ≠ 0 ∧ sIovaOff = 0 ∧
        st.dmaAddr &&& dev.segBoundary ≠ 0 ∧ sLength ≤ dev.maxSegSize - st.curLen
      let cur := if concatenate then st.cur else next
      let curLen := if concatenate then st.curLen + sLength else sLength
      let sg :=
        if concatenate then sg
        else sg.modify cur fun cur =>
          { cur with dma := { cur.dma with address := st.dmaAddr + sIovaOff.toUInt64 } }
      let sg := sg.modify cur fun cur => { cur with dma := { cur.dma with length := curLen } }
      { sg, cur
        curLen := if sLength + sIovaOff < sIovaLen then 0 else curLen
        dmaAddr := st.dmaAddr + sIovaLen.toUInt64
        count := if concatenate then st.count else st.count + 1 }

/-- `__finalise_sg`. -/
def finaliseSg (dev : MapDevice) (sg : List SgEntry) (dmaAddr : UInt64) : ℕ × List SgEntry :=
  let st := (List.range sg.length).foldl (finaliseEntry dev) ⟨sg, 0, 0, dmaAddr, 0⟩
  (st.count, st.sg)

def invalidateEntry (s : SgEntry) : SgEntry :=
  if s.dma.busAddress then { s with dma := ⟨dmaMappingError, 0, false⟩ }
  else
    { offset :=
        if s.dma.address ≠ dmaMappingError then s.offset + s.dma.address.toUInt32 else s.offset
      length := if s.dma.length ≠ 0 then s.dma.length else s.length
      dma := ⟨dmaMappingError, 0, false⟩ }

/-- `__invalidate_sg`. -/
def invalidateSg (sg : List SgEntry) : List SgEntry := sg.map invalidateEntry

/-- What a call returns and leaves, and the IOVA range that it has mapped. -/
structure MapResult where
  ret : ℤ
  sg : List SgEntry
  mapped : Option (UInt64 × UInt64)
  deriving DecidableEq, Repr

/-- The `int` that a `ssize_t` is returned as. -/
def intOfSsize (ret : ℤ) : ℤ := Int.bmod ret (2 ^ 32)

def rknpuIommuDmaMapSg (dev : MapDevice) (o : MapOutcome) (sg : List SgEntry) :
    Option MapResult :=
  match layOutSg dev none 0 sg with
  | none => none
  | some (sg, iovaLen) =>
    if iovaLen = 0 then
      let (count, sg) := finaliseSg dev sg 0
      some ⟨count, sg, none⟩
    else
      let iova := rknpuIommuDmaAllocIova dev o iovaLen dev.dmaMask false
      if iova = 0 then some ⟨0, invalidateSg sg, none⟩
      else
        let ret := o.iommuMapSg iova sg
        if ret < 0 ∨ ret < iovaLen.toNat then
          some ⟨if ret < 0 then 0 else intOfSsize ret, invalidateSg sg, none⟩
        else
          let (count, sg) := finaliseSg dev sg iova
          some ⟨count, sg, some (iova, iovaLen)⟩

/-! ## `rknpu_iommu_dma_unmap_sg` -/

/-- The calls with which a range is given back. -/
inductive IommuCall where
  | iommuUnmap (dmaAddr size : UInt64)
  | freeIova (dmaAddr size : UInt64)
  deriving DecidableEq, Repr

/-- `start` after the first loop. -/
def unmapStart : List SgEntry → UInt64
  | [] => 0
  | s :: rest =>
    if s.dma.busAddress then unmapStart rest
    else if s.dma.length = 0 then 0
    else s.dma.address

/-- `end` after the second loop. -/
def unmapEnd : UInt64 → List SgEntry → UInt64
  | stop, [] => stop
  | stop, s :: rest =>
    if s.dma.busAddress then unmapEnd stop rest
    else if s.dma.length = 0 then stop
    else unmapEnd (s.dma.address + s.dma.length.toUInt64) rest

/-- The marks that the two loops leave. -/
def unmarkSg : List SgEntry → List SgEntry
  | [] => []
  | s :: rest =>
    if s.dma.busAddress then { s with dma := { s.dma with busAddress := false } } :: unmarkSg rest
    else if s.dma.length = 0 then s :: rest
    else s :: unmarkSg rest

/-- `sg` after the loop of the kernels before 6.1. -/
def lastMapped : SgEntry → List SgEntry → SgEntry
  | sg, [] => sg
  | sg, tmp :: rest => if tmp.dma.length = 0 then sg else lastMapped tmp rest

/-- `start` and `end`. -/
def unmapBounds (dev : MapDevice) (sg : List SgEntry) : UInt64 × UInt64 :=
  if dev.kernel61 then (unmapStart sg, unmapEnd 0 (sg.dropWhile fun s => s.dma.busAddress))
  else
    match sg with
    | [] => (0, 0)
    | s :: rest =>
      let last := lastMapped s rest
      (s.dma.address, last.dma.address + last.dma.length.toUInt64)

def rknpuIommuDmaUnmapSg (dev : MapDevice) (sg : List SgEntry) :
    List SgEntry × List IommuCall :=
  let (start, stop) := unmapBounds dev sg
  let iovaOff := iovaOffset dev.iovad start
  let dmaAddr := start - iovaOff
  let size := iovaAlign dev.iovad (stop - start + iovaOff)
  (if dev.kernel61 then unmarkSg sg else sg,
    if stop ≠ 0 then [.iommuUnmap dmaAddr size, .freeIova dmaAddr size] else [])

end RknpuDriver.Iommu
