import RknpuDriver.Buffer.Views
import RknpuDriver.Lib.Scatter

/-! # MEM_SYNC of a GEM object

`rknpu_gem_sync_ioctl` writes back or invalidates the data cache for a range of an object. A
contiguous object has one DMA range. Of the others, `rknpu_cache_sync` takes the part on the chip
and leaves the rest of the request to a loop over the table of the DDR pages. The calls are those
that the driver makes on a kernel from 6.1 on.

* `rangesOf`: what a run did to one kind of memory in one direction.
* `syncLoop_ranges`: the loop visits a window of the table.
* `sync_covers`: a request for an object without memory on the chip.
-/

namespace RknpuDriver.Buffer
open RknpuDriver.Lib RknpuDriver.Mm
set_option autoImplicit false

/-! ## Data -/

def rknpuMemCacheable : UInt32 := 0x2
def rknpuMemSyncToDevice : UInt32 := 0x1
def rknpuMemSyncFromDevice : UInt32 := 0x2

/-- `unsigned long` arithmetic: reduction modulo `2^64`. -/
def u64 (n : ℕ) : ℕ := n % 2 ^ 64

theorem u64_of_lt {n : ℕ} (h : n < 2 ^ 64) : u64 n = n := Nat.mod_eq_of_lt h

/-- A table of the kernel: the number of its entries and their lengths are `unsigned int`s. -/
abbrev SgTable := ScatterList (2 ^ 32)

theorem SgTable.total_lt (t : SgTable) : Segment.total t.segs < 2 ^ 64 := ScatterList.total_lt t

/-- Where the memory on the chip is mapped in the kernel, whose addresses are the upper half of
all; `dkms` is the option `RKNPU_DKMS` of the build. -/
structure IoMap (dev : RknpuDevice) where
  sramBaseIo : ℕ
  nbufBaseIo : ℕ
  dkms : Bool
  sram_high : 2 ^ 63 ≤ sramBaseIo
  nbuf_high : 2 ^ 63 ≤ nbufBaseIo
  sram_fits : sramBaseIo + dev.sramSize < 2 ^ 64
  nbuf_fits : nbufBaseIo + dev.nbufSize < 2 ^ 64

/-- `struct rknpu_mem_sync`, without the address that the object was found by. -/
structure SyncArgs where
  flags : UInt32
  offset : UInt64
  size : UInt64
  deriving DecidableEq, Repr

inductive Direction where
  | toDevice
  | fromDevice
  deriving DecidableEq, Repr

/-- Whose addresses a range has: those of the device, the physical ones of the DDR, given to
`fake_dev`, or those of the memory on the chip in the kernel. -/
inductive SyncTarget where
  | dma
  | ddr
  | cache
  deriving DecidableEq, Repr

/-- A range, or the whole of a table. -/
inductive SyncCall where
  | range (target : SyncTarget) (dir : Direction) (s : Segment)
  | table (dir : Direction) (sgl : List Segment)
  deriving DecidableEq, Repr

/-- The directions that are asked for, in the order in which the source looks at them. -/
def directions (flags : UInt32) : List Direction :=
  (if flags &&& rknpuMemSyncToDevice ≠ 0 then [.toDevice] else []) ++
    if flags &&& rknpuMemSyncFromDevice ≠ 0 then [.fromDevice] else []

def syncRange (flags : UInt32) (target : SyncTarget) (s : Segment) : List SyncCall :=
  (directions flags).map fun dir => .range target dir s

/-! ## The part on the chip -/

/-- The ranges that were visited, and what is left of `*length` and `*offset`. -/
structure Synced where
  ranges : List Segment
  length : ℕ
  offset : ℕ
  deriving DecidableEq, Repr

/-- The loop of `rknpu_cache_sync_with_sg`. -/
def cacheSgLoop (nbufBaseIo : ℕ) : List Segment → ℕ → ℕ → Synced
  | [], length, offset => ⟨[], length, offset⟩
  | s :: sgl, length, offset =>
    let cacheLength := if u64 (offset + length) ≤ s.length then length else u64Sub s.length offset
    let left := if u64 (offset + length) ≤ s.length then 0 else u64Sub length cacheLength
    let range : Segment := ⟨nbufBaseIo + s.start, cacheLength⟩
    if left = 0 then ⟨[range], 0, 0⟩
    else
      let rest := cacheSgLoop nbufBaseIo sgl left 0
      { rest with ranges := range :: rest.ranges }

variable {dev : RknpuDevice}

/-- `rknpu_cache_sync_with_sg`. -/
def rknpuCacheSyncWithSg (io : IoMap dev) (obj : RknpuGemObject) (length offset : ℕ) :
    Option Synced :=
  (dev.cacheSgt (cacheIndex obj.coreMask)).map fun sgl =>
    cacheSgLoop io.nbufBaseIo sgl length offset

/-- `cache_base_io + cache_offset` and `cache_size`. -/
def cacheIoRange (io : IoMap dev) (mm : Option RknpuMm) (obj : RknpuGemObject) :
    RknpuCacheType → Option (ℕ × ℕ)
  | .sram =>
    match mm, obj.sramObj with
    | some mm, .held r => some (io.sramBaseIo + u32 (r.rangeStart * mm.chunkSize), obj.sramSize)
    | _, _ => none
  | .nbuf => some (io.nbufBaseIo, obj.nbufSize)

/-- `rknpu_cache_sync`. -/
def rknpuCacheSync (io : IoMap dev) (mm : Option RknpuMm) (obj : RknpuGemObject)
    (type : RknpuCacheType) (length offset : ℕ) : Option Synced :=
  match cacheIoRange io mm obj type with
  | none => none
  | some (cacheStart, cacheSize) =>
    if cacheSize ≤ offset then some ⟨[], length, offset - cacheSize⟩
    else if !obj.cacheWithSgt then
      let cacheLength :=
        if u64 (offset + length) ≤ cacheSize then length else u64Sub cacheSize offset
      let left := if u64 (offset + length) ≤ cacheSize then 0 else u64Sub length cacheLength
      some ⟨[⟨cacheStart, cacheLength⟩], left, 0⟩
    else rknpuCacheSyncWithSg io obj length offset

/-! ## The whole request -/

/-- The ranges that a loop visited, and how many entries it read. -/
structure Walk where
  ranges : List Segment
  read : ℕ
  deriving DecidableEq, Repr

/-- The loop of `rknpu_gem_sync_ioctl` over the table of the DDR pages. -/
def syncLoop : ℕ → ℕ → ℕ → List Segment → Walk
  | _, _, _, [] => ⟨[], 0⟩
  | len, offset, length, sg :: sgl =>
    if length = 0 then ⟨[], 0⟩
    else
      let len := u64 (len + sg.length)
      if len ≤ offset then
        let rest := syncLoop len offset length sgl
        { rest with read := rest.read + 1 }
      else
        let sgLeft := u64Sub len offset
        let sgOffset := u64Sub sg.length sgLeft
        let size := if length < sgLeft then length else sgLeft
        let rest := syncLoop len (u64 (offset + size)) (u64Sub length size) sgl
        ⟨⟨sg.start + sgOffset, size⟩ :: rest.ranges, rest.read + 1⟩

/-- What becomes of the part on the chip: only a build with `CONFIG_NO_GKI` looks at it. -/
def syncCache (io : IoMap dev) (mm : Option RknpuMm) (obj : RknpuGemObject)
    (length offset : ℕ) : Option Synced :=
  if dev.noGki = true ∧ dev.sramEnabled = true ∧ 0 < obj.sramSize then
    rknpuCacheSync io mm obj .sram length offset
  else if dev.noGki = true ∧ 0 < obj.nbufSize then
    rknpuCacheSync io mm obj .nbuf length offset
  else some ⟨[], length, offset⟩

/-- The sync of the whole table that `RKNPU_DKMS` adds. -/
def syncTable (io : IoMap dev) (obj : RknpuGemObject) (flags : UInt32) : List SyncCall :=
  match io.dkms, obj.sgt with
  | true, some sgl => (directions flags).map fun dir => .table dir sgl
  | _, _ => []

/-- `rknpu_gem_sync_ioctl`; `domainRet` is what `rknpu_iommu_domain_get_and_switch` returns. -/
def rknpuGemSyncIoctl (io : IoMap dev) (mm : Option RknpuMm) (obj : RknpuGemObject)
    (args : SyncArgs) (domainRet : ℤ) : Option (ℤ × List SyncCall) :=
  if obj.flags &&& rknpuMemCacheable = 0 then some (-einval, [])
  else if domainRet ≠ 0 then some (-einval, [])
  else if obj.flags &&& rknpuMemNonContiguous = 0 then
    some (0, syncRange args.flags .dma ⟨u64 (obj.dmaAddr + args.offset.toNat), args.size.toNat⟩)
  else do
    let cache ← syncCache io mm obj args.size.toNat args.offset.toNat
    let sgl ← obj.sgt
    let walk := syncLoop 0 cache.offset cache.length sgl
    some (0, syncTable io obj args.flags ++ cache.ranges.flatMap (syncRange args.flags .cache) ++
      walk.ranges.flatMap (syncRange args.flags .ddr))

/-! ## What a run did -/

/-- The range of a call on a kind of memory in a direction, unless it is empty. -/
def SyncCall.rangeOf (target : SyncTarget) (dir : Direction) : SyncCall → Option Segment
  | .range target' dir' s =>
    if target' = target ∧ dir' = dir ∧ 0 < s.length then some s else none
  | .table _ _ => none

/-- The ranges that are not empty, in order. -/
def rangesOf (target : SyncTarget) (dir : Direction) (calls : List SyncCall) : List Segment :=
  calls.filterMap (SyncCall.rangeOf target dir)

variable {target target' : SyncTarget} {dir : Direction} {flags : UInt32}

theorem rangesOf_append (calls calls' : List SyncCall) :
    rangesOf target dir (calls ++ calls') =
      rangesOf target dir calls ++ rangesOf target dir calls' :=
  List.filterMap_append

theorem rangesOf_syncTable (io : IoMap dev) (obj : RknpuGemObject) :
    rangesOf target dir (syncTable io obj flags) = [] := by
  refine List.filterMap_eq_nil_iff.mpr fun call hcall => ?_
  unfold syncTable at hcall
  split at hcall
  · obtain ⟨d, -, rfl⟩ := List.mem_map.mp hcall
    rfl
  · cases hcall

theorem directions_cases (flags : UInt32) :
    directions flags = [] ∨ directions flags = [.toDevice] ∨ directions flags = [.fromDevice] ∨
      directions flags = [.toDevice, .fromDevice] := by
  unfold directions
  split_ifs <;> simp

theorem rangesOf_syncRange (hdir : dir ∈ directions flags) (s : Segment) :
    rangesOf target dir (syncRange flags target s) = [s].filter fun s => 0 < s.length := by
  unfold rangesOf syncRange
  obtain h | h | h | h := directions_cases flags <;>
  · rw [h] at hdir ⊢
    cases dir <;> by_cases hs : 0 < s.length <;>
      simp_all [SyncCall.rangeOf]

theorem rangesOf_syncRange_of_notMem (hdir : dir ∉ directions flags) (s : Segment) :
    rangesOf target dir (syncRange flags target' s) = [] := by
  refine List.filterMap_eq_nil_iff.mpr fun call hcall => ?_
  obtain ⟨d, hd, rfl⟩ := List.mem_map.mp hcall
  unfold SyncCall.rangeOf
  refine if_neg ?_
  rintro ⟨-, rfl, -⟩
  exact hdir hd

theorem rangesOf_syncRange_of_ne (hne : target' ≠ target) (s : Segment) :
    rangesOf target dir (syncRange flags target' s) = [] := by
  refine List.filterMap_eq_nil_iff.mpr fun call hcall => ?_
  obtain ⟨d, -, rfl⟩ := List.mem_map.mp hcall
  exact if_neg fun h => hne h.1

theorem rangesOf_ranges (hdir : dir ∈ directions flags) (ranges : List Segment) :
    rangesOf target dir (ranges.flatMap (syncRange flags target)) =
      ranges.filter fun s => 0 < s.length := by
  induction ranges with
  | nil => rfl
  | cons s ranges ih =>
    rw [List.flatMap_cons, rangesOf_append, rangesOf_syncRange hdir, ih, ← List.filter_append]
    rfl

theorem rangesOf_ranges_of_ne (hne : target' ≠ target) (ranges : List Segment) :
    rangesOf target dir (ranges.flatMap (syncRange flags target')) = [] := by
  induction ranges with
  | nil => rfl
  | cons s ranges ih =>
    rw [List.flatMap_cons, rangesOf_append, rangesOf_syncRange_of_ne hne, ih, List.nil_append]

theorem rangesOf_ranges_of_notMem (hdir : dir ∉ directions flags) (ranges : List Segment) :
    rangesOf target dir (ranges.flatMap (syncRange flags target')) = [] := by
  induction ranges with
  | nil => rfl
  | cons s ranges ih =>
    rw [List.flatMap_cons, rangesOf_append, rangesOf_syncRange_of_notMem hdir, ih, List.nil_append]

/-- What a run on an object that is not contiguous did. -/
theorem rknpuGemSyncIoctl_ok {io : IoMap dev} {mm : Option RknpuMm} {obj : RknpuGemObject}
    {args : SyncArgs} {cache : Synced} {sgl : List Segment}
    (hcacheable : obj.flags &&& rknpuMemCacheable ≠ 0)
    (hscattered : obj.flags &&& rknpuMemNonContiguous ≠ 0)
    (hcache : syncCache io mm obj args.size.toNat args.offset.toNat = some cache)
    (hsgt : obj.sgt = some sgl) :
    ∃ calls, rknpuGemSyncIoctl io mm obj args 0 = some (0, calls) ∧
      (∀ target, ∀ dir ∉ directions args.flags, rangesOf target dir calls = []) ∧
      ∀ dir ∈ directions args.flags,
        rangesOf .dma dir calls = [] ∧
        rangesOf .cache dir calls = (cache.ranges.filter fun s => 0 < s.length) ∧
        rangesOf .ddr dir calls =
          ((syncLoop 0 cache.offset cache.length sgl).ranges.filter fun s => 0 < s.length) := by
  unfold rknpuGemSyncIoctl
  rw [if_neg hcacheable, if_neg (by decide), if_neg hscattered, hcache, hsgt]
  refine ⟨_, rfl, fun target dir hdir => ?_, fun dir hdir => ⟨?_, ?_, ?_⟩⟩
  · rw [rangesOf_append, rangesOf_append, rangesOf_syncTable, rangesOf_ranges_of_notMem hdir,
      rangesOf_ranges_of_notMem hdir]
    rfl
  · rw [rangesOf_append, rangesOf_append, rangesOf_syncTable,
      rangesOf_ranges_of_ne (by decide), rangesOf_ranges_of_ne (by decide)]
    rfl
  · rw [rangesOf_append, rangesOf_append, rangesOf_syncTable, rangesOf_ranges hdir,
      rangesOf_ranges_of_ne (by decide), List.append_nil, List.nil_append]
  · rw [rangesOf_append, rangesOf_append, rangesOf_syncTable, rangesOf_ranges hdir,
      rangesOf_ranges_of_ne (by decide), List.nil_append, List.nil_append]

/-! ## The loop over the table -/

/-- **The loop visits a window**: from where it stands, `offset` is past the bytes walked over,
and the ranges are those of the `length` bytes from there on. -/
theorem syncLoop_ranges {len offset length : ℕ} (sgl : List Segment) (hlen : len ≤ offset)
    (hlt : len + Segment.total sgl < 2 ^ 64) (hlength : length < 2 ^ 64) :
    (syncLoop len offset length sgl).ranges = Segment.window (offset - len) length sgl := by
  induction sgl generalizing len offset length with
  | nil => rfl
  | cons sg sgl ih =>
    rw [Segment.total_cons] at hlt
    unfold syncLoop
    by_cases hzero : length = 0
    · rw [if_pos hzero, hzero, Segment.window_zero]
    rw [if_neg hzero, u64_of_lt (by omega)]
    unfold Segment.window
    by_cases hskip : len + sg.length ≤ offset
    · rw [if_pos hskip, if_pos (by omega)]
      simp only
      rw [ih hskip (by omega) hlength, Nat.sub_add_eq]
    · have hleft : u64Sub (len + sg.length) offset = len + sg.length - offset :=
        u64Sub_of_le (by omega) (by omega)
      have hoffset : u64Sub sg.length (len + sg.length - offset) = offset - len := by
        rw [u64Sub_of_le (by omega) (by omega)]
        omega
      have hsize : (if length < len + sg.length - offset then length
          else len + sg.length - offset) = min length (sg.length - (offset - len)) := by
        split_ifs <;> omega
      rw [if_neg hskip, if_neg (by omega), if_neg hzero]
      simp only [hleft, hoffset, hsize]
      have hsub : u64Sub length (min length (sg.length - (offset - len))) =
          length - min length (sg.length - (offset - len)) :=
        u64Sub_of_le (Nat.min_le_left _ _) hlength
      rw [hsub]
      congr 1
      by_cases hmore : length - min length (sg.length - (offset - len)) = 0
      · rw [hmore, Segment.window_zero]
        cases sgl <;> simp [syncLoop]
      · have hnext : offset + min length (sg.length - (offset - len)) = len + sg.length := by omega
        rw [hnext, u64_of_lt (by omega), ih (Nat.le_refl _) (by omega) (by omega), Nat.sub_self]

/-- The entries that the loop reads: none for an empty request, or else those that begin before
its end. -/
theorem syncLoop_read {len offset length : ℕ} (sgl : List Segment) (hlen : len ≤ offset)
    (hlt : len + Segment.total sgl < 2 ^ 64) (hlength : length < 2 ^ 64) :
    (syncLoop len offset length sgl).read =
      if length = 0 then 0 else (Segment.before (offset + length - len) sgl).length := by
  induction sgl generalizing len offset length with
  | nil => simp [syncLoop, Segment.before]
  | cons sg sgl ih =>
    rw [Segment.total_cons] at hlt
    unfold syncLoop
    by_cases hzero : length = 0
    · rw [if_pos hzero, if_pos hzero]
    rw [if_neg hzero, if_neg hzero, u64_of_lt (by omega)]
    have hmore : offset + length - len ≠ 0 := by omega
    unfold Segment.before
    rw [if_neg hmore, List.length_cons]
    by_cases hskip : len + sg.length ≤ offset
    · rw [if_pos hskip]
      simp only
      rw [ih hskip (by omega) hlength, if_neg hzero, Nat.sub_add_eq]
    · have hleft : u64Sub (len + sg.length) offset = len + sg.length - offset :=
        u64Sub_of_le (by omega) (by omega)
      rw [if_neg hskip]
      simp only [hleft]
      by_cases hlast : length ≤ len + sg.length - offset
      · have hsize : (if length < len + sg.length - offset then length
            else len + sg.length - offset) = length := by
          split_ifs <;> omega
        have hend : offset + length - len - sg.length = 0 := by omega
        rw [hsize, u64Sub_of_le (Nat.le_refl _) hlength, Nat.sub_self, hend]
        cases sgl <;> rfl
      · have hsize : (if length < len + sg.length - offset then length
            else len + sg.length - offset) = len + sg.length - offset := by
          split_ifs <;> omega
        have hnext : offset + (len + sg.length - offset) = len + sg.length := by omega
        have hrest : u64Sub length (len + sg.length - offset) =
            length - (len + sg.length - offset) := u64Sub_of_le (by omega) hlength
        rw [hsize, hnext, u64_of_lt (by omega), hrest, ih (Nat.le_refl _) (by omega) (by omega),
          if_neg (by omega)]
        congr 3
        omega

theorem window_filter (a n : ℕ) (sgl : List Segment) :
    ((Segment.window a n sgl).filter fun s => 0 < s.length) = Segment.window a n sgl :=
  List.filter_eq_self.mpr fun s hs => by simpa using Segment.window_pos hs

/-- **A request for an object without memory on the chip** syncs its bytes: in each direction that
is asked for, the bytes of the table from `offset` on, `size` of them or as many as there are,
each once and in order, and no entry is read that begins past the last of them. -/
theorem sync_covers {io : IoMap dev} {mm : Option RknpuMm} {obj : RknpuGemObject}
    {args : SyncArgs} (t : SgTable) (hcacheable : obj.flags &&& rknpuMemCacheable ≠ 0)
    (hscattered : obj.flags &&& rknpuMemNonContiguous ≠ 0) (hsram : obj.sramSize = 0)
    (hnbuf : obj.nbufSize = 0) (hsgt : obj.sgt = some t.segs) :
    ∃ calls, rknpuGemSyncIoctl io mm obj args 0 = some (0, calls) ∧
      (∀ dir ∈ directions args.flags,
        rangesOf .ddr dir calls =
          Segment.window args.offset.toNat args.size.toNat t.segs ∧
        Segment.bytes (rangesOf .ddr dir calls) =
          ((Segment.bytes t.segs).drop args.offset.toNat).take args.size.toNat ∧
        rangesOf .cache dir calls = [] ∧ rangesOf .dma dir calls = []) ∧
      (∀ target, ∀ dir ∉ directions args.flags, rangesOf target dir calls = []) ∧
      (syncLoop 0 args.offset.toNat args.size.toNat t.segs).read =
        if args.size.toNat = 0 then 0
        else (Segment.before (args.offset.toNat + args.size.toNat) t.segs).length := by
  have hlt : 0 + Segment.total t.segs < 2 ^ 64 := by
    rw [Nat.zero_add]
    exact SgTable.total_lt t
  have hsize : args.size.toNat < 2 ^ 64 := args.size.toNat_lt
  have hcache : syncCache io mm obj args.size.toNat args.offset.toNat =
      some ⟨[], args.size.toNat, args.offset.toNat⟩ := by
    unfold syncCache
    rw [hsram, hnbuf, if_neg (by simp), if_neg (by simp)]
  have hranges := syncLoop_ranges t.segs (Nat.zero_le args.offset.toNat) hlt hsize
  obtain ⟨calls, hcalls, hnone, hdirs⟩ := rknpuGemSyncIoctl_ok hcacheable hscattered hcache hsgt
  refine ⟨calls, hcalls, fun dir hdir => ?_, hnone, ?_⟩
  · obtain ⟨hdma, hchip, hddr⟩ := hdirs dir hdir
    rw [hranges, Nat.sub_zero, window_filter] at hddr
    refine ⟨hddr, ?_, hchip, hdma⟩
    rw [hddr]
    exact Segment.bytes_window ..
  · exact syncLoop_read t.segs (Nat.zero_le _) hlt hsize

theorem kernelBase_high : 2 ^ 63 ≤ 0xffff800010000000 := by decide

theorem kernelBase_high' : 2 ^ 63 ≤ 0xffff800020000000 := by decide

/-- The registers of the memory on the chip of `threePages`, where a kernel may have them. -/
def ioThreePages : IoMap threePages where
  sramBaseIo := 0xffff800010000000
  nbufBaseIo := 0xffff800020000000
  dkms := false
  sram_high := kernelBase_high
  nbuf_high := kernelBase_high'
  sram_fits := by decide
  nbuf_fits := by decide

/-- A table of two pages, with an empty entry between them. -/
def twoPages : SgTable := ⟨[⟨0x1000, 4096⟩, ⟨0x9000, 0⟩, ⟨0x5000, 4096⟩], by decide, by decide⟩

def scatteredObject : RknpuGemObject where
  flags := 0x3
  size := 8192
  sramSize := 0
  nbufSize := 0
  sramObj := .null
  iovaStart := 0
  iovaSize := 0
  cookie := some [1, 5]
  dmaAddr := 0x10000000
  numPages := 0
  pages := some [1, 5]
  sgt := some twoPages.segs
  iommuDomainId := 0
  coreMask := 0
  cacheWithSgt := false

theorem sync_covers_two_pages : ∃ calls,
    rknpuGemSyncIoctl ioThreePages none scatteredObject ⟨1, 4000, 200⟩ 0 = some (0, calls) ∧
      rangesOf .ddr .toDevice calls = [⟨0x1fa0, 96⟩, ⟨0x5000, 104⟩] ∧
      rangesOf .ddr .fromDevice calls = [] := by
  obtain ⟨calls, hcalls, hdirs, hnone, -⟩ := @sync_covers threePages ioThreePages none
    scatteredObject ⟨1, 4000, 200⟩ twoPages (by decide) (by decide) rfl rfl rfl
  exact ⟨calls, hcalls, (hdirs .toDevice (by decide)).1.trans (by decide),
    hnone .ddr .fromDevice (by decide)⟩

end RknpuDriver.Buffer
