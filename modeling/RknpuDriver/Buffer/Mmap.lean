import RknpuDriver.Buffer.Objects

/-! # What the CPU and what the NPU see

`rknpu_gem_mmap` builds the page tables of a process from the same object that the IOMMU's
translation was built from: the cache part first, the DDR pages after it. The two are built by
different loops, over scatter-gather entries and over pages; `cpu_device_agree` says that they
show the same bytes.
-/

namespace RknpuDriver.Buffer
open RknpuDriver.Lib RknpuDriver.Mm
set_option autoImplicit false

/-! ## Mapping a buffer -/

/-- What `remap_pfn_range`, `vm_insert_page` and `dma_mmap_attrs` return. -/
structure MmapOutcome where
  cacheRets : ℕ → ℤ
  insertRets : ℕ → ℤ
  dmaRet : ℤ

/-- `rknpu_remap_pfn_with_cache_sgt`; a physical address goes in by its page frame number. -/
def rknpuRemapPfnWithCacheSgt (dev : RknpuDevice) (obj : RknpuGemObject) (vma : Vma)
    (cacheSize : ℕ) (rets : ℕ → ℤ) (tr : Translation) : Option (Laid ℤ) :=
  (cacheSegments dev obj).map fun sgl =>
    layOut (fun i tr va pa n => remapPfnRange (rets i) tr va (pa / pageSize) n) 0 sgl vma.vmStart
      cacheSize tr

def remapCache (dev : RknpuDevice) (obj : RknpuGemObject) (vma : Vma) (cacheStart cacheSize : ℕ)
    (rets : ℕ → ℤ) (tr : Translation) : Option (Laid ℤ) :=
  if !obj.cacheWithSgt then
    match remapPfnRange (rets 0) tr vma.vmStart (cacheStart / pageSize) cacheSize with
    | .error e => some ⟨some e, tr, cacheSize⟩
    | .ok tr => some ⟨none, tr, 0⟩
  else rknpuRemapPfnWithCacheSgt dev obj vma cacheSize rets tr

/-- The loop over the pages: `n` of them from the `i`-th on go to `offset` and after. -/
def insertPages (rets : ℕ → ℤ) (vma : Vma) (pages : List ℕ) :
    ℕ → ℕ → ℕ → Translation → Option (Except ℤ Translation)
  | 0, _, _, tr => some (.ok tr)
  | n + 1, i, offset, tr =>
    match pages[i]? with
    | none => none
    | some page =>
      match vmInsertPage (rets i) vma tr (vma.vmStart + offset) page with
      | .error e => some (.error e)
      | .ok tr => insertPages rets vma pages n (i + 1) (offset + pageSize) tr

/-- `rknpu_gem_mmap_cache`. -/
def rknpuGemMmapCache (dev : RknpuDevice) (mm : Option RknpuMm) (obj : RknpuGemObject)
    (vma : Vma) (type : RknpuCacheType) (out : MmapOutcome) : Option (Except ℤ Translation) := do
  let (cacheStart, cacheSize) ← cacheRange dev mm obj type
  let laid ← remapCache dev obj vma cacheStart cacheSize out.cacheRets fun _ => none
  match laid.refused with
  | some _ => some (.error (-eagain))
  | none =>
    let numPages := u64Sub vma.size cacheSize / pageSize
    if obj.size = 0 then some (.ok laid.tr)
    else insertPages out.insertRets vma (obj.pages.getD []) numPages 0 cacheSize laid.tr

/-- `rknpu_gem_mmap_buffer`. -/
def rknpuGemMmapBuffer (dev : RknpuDevice) (mm : Option RknpuMm) (obj : RknpuGemObject)
    (vma : Vma) (out : MmapOutcome) : Option (Except ℤ Translation) :=
  if obj.size < vma.size then some (.error (-einval))
  else if 0 < obj.sramSize then rknpuGemMmapCache dev mm obj vma .sram out
  else if 0 < obj.nbufSize then rknpuGemMmapCache dev mm obj vma .nbuf out
  else obj.cookie.map fun buffer => dmaMmapAttrs out.dmaRet vma buffer

/-! ## The cache part -/

/-- The pieces that the cache part of an object is laid out from. -/
def cachePieces (dev : RknpuDevice) (obj : RknpuGemObject) (cacheStart cacheSize : ℕ) :
    Option (List Segment) :=
  if !obj.cacheWithSgt then some [⟨cacheStart, cacheSize⟩]
  else (cacheSegments dev obj).map (Segment.clip cacheSize)

/-- Whole pages, at a page boundary. -/
def Paged (pieces : List Segment) : Prop :=
  ∀ s ∈ pieces, s.start % pageSize = 0 ∧ s.length % pageSize = 0

theorem byteAt_singleton (s : Segment) (tr : Translation) (va : ℕ) :
    tr.mapRange va s.start s.length =
      tr.overlay va (Segment.total [s]) (Segment.byteAt [s]) := by
  rw [Segment.total_cons, Segment.total_nil, Nat.add_zero]
  refine Translation.overlay_congr fun o ho => ?_
  unfold Segment.byteAt
  rw [if_pos ho]

theorem mapCache_ok {dev : RknpuDevice} {obj : RknpuGemObject} {cacheStart cacheSize left : ℕ}
    {rets : ℕ → ℤ} {tr tr' : Translation}
    (h : mapCache dev obj cacheStart cacheSize rets tr = some ⟨none, tr', left⟩) :
    ∃ pieces, cachePieces dev obj cacheStart cacheSize = some pieces ∧ Paged pieces ∧
      tr' = tr.overlay obj.iovaStart (Segment.total pieces) (Segment.byteAt pieces) := by
  unfold mapCache at h
  unfold cachePieces
  by_cases hsgt : (!obj.cacheWithSgt) = true
  · rw [if_pos hsgt] at h ⊢
    split at h
    · cases h
    · rename_i hmap
      cases h
      obtain ⟨-, hpaddr, hsize, rfl⟩ := iommuMap_ok hmap
      refine ⟨_, rfl, fun s hs => ?_, byteAt_singleton ⟨cacheStart, cacheSize⟩ _ _⟩
      rw [List.mem_singleton.mp hs]
      exact ⟨hpaddr, hsize⟩
  · rw [if_neg hsgt] at h ⊢
    obtain ⟨sgl, hsgl, hlaid⟩ := Option.map_eq_some_iff.mp h
    refine ⟨Segment.clip cacheSize sgl, ?_, fun s hs => ?_, layOut_ok hlaid ?_⟩
    · rw [hsgl]
      rfl
    · obtain ⟨i, tr, va, tr', hput⟩ := layOut_pieces hlaid s hs
      obtain ⟨-, hpaddr, hsize, -⟩ := iommuMap_ok hput
      exact ⟨hpaddr, hsize⟩
    · exact fun s _ i tr va tr' hput => (iommuMap_ok hput).2.2.2

theorem remapCache_ok {dev : RknpuDevice} {obj : RknpuGemObject} {vma : Vma}
    {cacheStart cacheSize left : ℕ} {rets : ℕ → ℤ} {tr tr' : Translation} {pieces : List Segment}
    (hpieces : cachePieces dev obj cacheStart cacheSize = some pieces) (hpaged : Paged pieces)
    (hlt : cacheSize < 2 ^ 64)
    (h : remapCache dev obj vma cacheStart cacheSize rets tr = some ⟨none, tr', left⟩) :
    tr' = tr.overlay vma.vmStart (Segment.total pieces) (Segment.byteAt pieces) := by
  unfold remapCache at h
  unfold cachePieces at hpieces
  by_cases hsgt : (!obj.cacheWithSgt) = true
  · rw [if_pos hsgt] at h hpieces
    cases hpieces
    obtain ⟨hpaddr, hsize⟩ := hpaged _ (List.mem_singleton_self _)
    split at h
    · cases h
    · rename_i hmap
      cases h
      rw [remapPfnRange_ok hmap hpaddr hsize hlt]
      exact byteAt_singleton ⟨cacheStart, cacheSize⟩ _ _
  · rw [if_neg hsgt] at h hpieces
    obtain ⟨sgl, hsgl, hlaid⟩ := Option.map_eq_some_iff.mp h
    rw [hsgl] at hpieces
    cases hpieces
    refine layOut_ok hlaid fun s hs i tr va tr' hput => ?_
    obtain ⟨hpaddr, hsize⟩ := hpaged s hs
    exact remapPfnRange_ok hput hpaddr hsize (Nat.lt_of_le_of_lt (Segment.length_le_of_clip hs) hlt)

/-! ## The DDR part -/

theorem insertPages_ok {rets : ℕ → ℤ} {vma : Vma} {pages : List ℕ} {n i offset : ℕ}
    {tr tr' : Translation} (h : insertPages rets vma pages n i offset tr = some (.ok tr')) :
    tr' = tr.overlay (vma.vmStart + offset) (n * pageSize)
      (Segment.byteAt ((pages.drop i).map pageSegment)) := by
  induction n generalizing i offset tr with
  | zero =>
    cases h
    rw [Nat.zero_mul]
    exact Translation.overlay_empty.symm
  | succ n ih =>
    unfold insertPages at h
    split at h
    · cases h
    · rename_i page hpage
      split at h
      · cases h
      · rename_i mid hinsert
        obtain ⟨hi, hget⟩ := List.getElem?_eq_some_iff.mp hpage
        rw [ih h, vmInsertPage_ok hinsert, List.drop_eq_getElem_cons hi, hget, ← Nat.add_assoc,
          Nat.succ_mul, Nat.add_comm (n * pageSize)]
        exact Translation.overlay_overlay ..

theorem mapDdr_view {obj o : RknpuGemObject} {cacheSize : ℕ} {out : CacheOutcome}
    {tr tr' : Translation} (h : mapDdr obj cacheSize out tr = (.ok o, tr')) :
    ∃ pages, o.pages = some pages ∧ pages.length = obj.size / pageSize ∧
      tr' = tr.overlay (obj.iovaStart + cacheSize) (obj.size / pageSize * pageSize)
        (Segment.byteAt (pages.map pageSegment)) := by
  obtain ⟨frame, pages, left, -, hpages, rfl, hlaid⟩ := mapDdr_ok h
  have hlength : pages.length = obj.size / pageSize := by
    rw [hpages, List.length_map, List.length_range]
  refine ⟨pages, rfl, hlength, ?_⟩
  have hview := layOut_ok hlaid fun s _ i tr va tr' hput => (iommuMap_ok hput).2.2.2
  have htotal : Segment.total (Segment.clip obj.size (pagesToSg out.maxPages pages)) =
      obj.size / pageSize * pageSize := by
    rw [Segment.total_clip, total_pagesToSg, hlength]
    exact Nat.min_eq_right (Nat.div_mul_le_self _ _)
  rw [hview, htotal]
  refine Translation.overlay_congr fun k hk => ?_
  have hk' : k < obj.size := Nat.lt_of_lt_of_le hk (Nat.div_mul_le_self _ _)
  rw [Segment.byteAt_clip hk', byteAt_pagesToSg, byteAt_pages]

/-! ## The two views -/

def RknpuGemObject.cacheSize (o : RknpuGemObject) : RknpuCacheType → ℕ
  | .sram => o.sramSize
  | .nbuf => o.nbufSize

theorem cacheRange_size {dev : RknpuDevice} {mm : Option RknpuMm} {o : RknpuGemObject}
    {type : RknpuCacheType} {cacheStart cacheSize : ℕ}
    (h : cacheRange dev mm o type = some (cacheStart, cacheSize)) :
    cacheSize = o.cacheSize type := by
  cases type with
  | nbuf =>
    cases h
    rfl
  | sram =>
    simp only [cacheRange] at h
    split at h
    · cases h
      rfl
    · cases h

/-- The place of the cache part depends on the chunk size of the pool only. -/
theorem cacheRange_congr {dev : RknpuDevice} {mm mm' : Option RknpuMm} {o o' : RknpuGemObject}
    (hpool : mm'.map RknpuMm.chunkSize = mm.map RknpuMm.chunkSize)
    (hobj : o'.sramObj = o.sramObj) (hsram : o'.sramSize = o.sramSize)
    (hnbuf : o'.nbufSize = o.nbufSize) (type : RknpuCacheType) :
    cacheRange dev mm' o' type = cacheRange dev mm o type := by
  cases type with
  | nbuf => simp only [cacheRange, hnbuf]
  | sram =>
    unfold cacheRange
    rw [hobj, hsram]
    cases mm with
    | none =>
      cases mm' with
      | none => rfl
      | some m' => cases hpool
    | some m =>
      cases mm' with
      | none => cases hpool
      | some m' =>
        have hchunk : m'.chunkSize = m.chunkSize := Option.some.inj hpool
        cases o.sramObj with
        | null => rfl
        | dangling => rfl
        | held r => simp only [hchunk]

theorem device_view {dev : RknpuDevice} {mm : Option RknpuMm} {obj o : RknpuGemObject}
    {type : RknpuCacheType} {out : CacheOutcome} {domains domains' : ℕ → Translation}
    (h : rknpuGemAllocBufWithCache dev mm obj type out domains = some (.ok o, domains')) :
    ∃ d cacheStart pieces, out.domain = some d ∧
      cacheRange dev mm o type = some (cacheStart, o.cacheSize type) ∧
      cachePieces dev o cacheStart (o.cacheSize type) = some pieces ∧ Paged pieces ∧
      (o.size = 0 ∨ ∃ pages, o.pages = some pages ∧ pages.length = o.size / pageSize ∧
        domains' d = ((domains d).overlay o.iovaStart (Segment.total pieces)
          (Segment.byteAt pieces)).overlay (o.iovaStart + o.cacheSize type)
          (o.size / pageSize * pageSize) (Segment.byteAt (pages.map pageSegment))) := by
  obtain ⟨hsize, hsram, hnbuf, hobj, -, -⟩ := rknpuGemAllocBufWithCache_frame h
  obtain ⟨cacheStart, cacheSize, d, base, tr, left, tr', hrange, hdomain, hbase, -, -, hcache,
    hdomains, hend⟩ := rknpuGemAllocBufWithCache_ok h
  have hrange' : cacheRange dev mm o type = some (cacheStart, cacheSize) :=
    (cacheRange_congr rfl hobj hsram hnbuf type).trans hrange
  obtain rfl := cacheRange_size hrange'
  obtain ⟨pieces, hpieces, hpaged, htr⟩ := mapCache_ok hcache
  refine ⟨d, cacheStart, pieces, hdomain, hrange', ?_, hpaged, ?_⟩
  · obtain ⟨-, rfl, -⟩ | ⟨-, hddr⟩ := hend
    · exact hpieces
    · obtain ⟨_, _, _, -, -, rfl, -⟩ := mapDdr_ok hddr
      exact hpieces
  · obtain ⟨hzero, rfl, -⟩ | ⟨-, hddr⟩ := hend
    · exact Or.inl (hsize.trans hzero)
    · right
      obtain ⟨pages, hpages, hlength, hview⟩ := mapDdr_view hddr
      have hiova : o.iovaStart = base.iovaStart := by
        obtain ⟨_, _, _, -, -, rfl, -⟩ := mapDdr_ok hddr
        rfl
      have hbsize : base.size = o.size := by
        rw [hbase]
        exact hsize.symm
      refine ⟨pages, hpages, hlength.trans ?_, ?_⟩
      · rw [← hbsize]
      · rw [hdomains, Function.update_self, hview, htr, hiova, ← hbsize]

theorem cpu_view {dev : RknpuDevice} {mm : Option RknpuMm} {o : RknpuGemObject} {vma : Vma}
    {type : RknpuCacheType} {out : MmapOutcome} {tr : Translation} {cacheStart cacheSize : ℕ}
    {pieces : List Segment} (h : rknpuGemMmapCache dev mm o vma type out = some (.ok tr))
    (hrange : cacheRange dev mm o type = some (cacheStart, cacheSize))
    (hpieces : cachePieces dev o cacheStart cacheSize = some pieces) (hpaged : Paged pieces)
    (hlow : cacheSize ≤ vma.size) (hsize : o.size ≠ 0) :
    tr = (Translation.overlay (fun _ => none) vma.vmStart (Segment.total pieces)
        (Segment.byteAt pieces)).overlay (vma.vmStart + cacheSize)
        ((vma.size - cacheSize) / pageSize * pageSize)
        (Segment.byteAt ((o.pages.getD []).map pageSegment)) := by
  have hlt : vma.size < 2 ^ 64 := Nat.lt_of_le_of_lt (Nat.sub_le _ _) vma.end_lt
  simp only [rknpuGemMmapCache, Option.bind_eq_bind, hrange, Option.bind_some] at h
  obtain ⟨⟨refused, mid, left⟩, hlaid, h⟩ := Option.bind_eq_some_iff.mp h
  cases refused with
  | some e => cases h
  | none =>
    simp only [if_neg hsize, u64Sub_of_le hlow hlt] at h
    have hcache := remapCache_ok hpieces hpaged (Nat.lt_of_le_of_lt hlow hlt) hlaid
    rw [insertPages_ok h, hcache]
    rfl

/-- **The CPU and the NPU see the same bytes** of a buffer with a cache part: after it was built
and mapped, every byte of the mapping is the one that the IOMMU has at the same offset. Between
the two the pool may have changed, not its chunk size. -/
theorem cpu_device_agree {dev : RknpuDevice} {mm mm' : Option RknpuMm} {obj o : RknpuGemObject}
    {type : RknpuCacheType} {out : CacheOutcome} {domains domains' : ℕ → Translation} {vma : Vma}
    {out' : MmapOutcome} {tr : Translation}
    (hbuild : rknpuGemAllocBufWithCache dev mm obj type out domains = some (.ok o, domains'))
    (hcover : o.cacheWithSgt = true → ∀ sgl, cacheSegments dev o = some sgl →
      o.cacheSize type ≤ Segment.total sgl)
    (hpool : mm'.map RknpuMm.chunkSize = mm.map RknpuMm.chunkSize)
    (hlow : o.cacheSize type ≤ vma.size) (hhigh : vma.size ≤ o.size)
    (hmmap : rknpuGemMmapCache dev mm' o vma type out' = some (.ok tr)) :
    ∃ d, out.domain = some d ∧ ∀ k < vma.size, ∃ p,
      tr (vma.vmStart + k) = some p ∧ domains' d (o.iovaStart + k) = some p := by
  obtain ⟨d, cacheStart, pieces, hdomain, hrange, hpieces, hpaged, hddr⟩ := device_view hbuild
  have htotal : Segment.total pieces = o.cacheSize type := by
    unfold cachePieces at hpieces
    by_cases hsgt : (!o.cacheWithSgt) = true
    · rw [if_pos hsgt] at hpieces
      cases hpieces
      exact Nat.add_zero _
    · rw [if_neg hsgt] at hpieces
      obtain ⟨sgl, hsgl, rfl⟩ := Option.map_eq_some_iff.mp hpieces
      rw [Segment.total_clip]
      exact Nat.min_eq_left (hcover (by simpa using hsgt) sgl hsgl)
  refine ⟨d, hdomain, fun k hk => ?_⟩
  obtain hzero | ⟨pages, hpages, hlength, hdevice⟩ := hddr
  · omega
  have hcpu := cpu_view hmmap ((cacheRange_congr hpool rfl rfl rfl type).trans hrange) hpieces
    hpaged hlow (by omega)
  rw [hpages, Option.getD_some] at hcpu
  rw [hcpu, hdevice, htotal]
  by_cases hcache : k < o.cacheSize type
  · obtain ⟨p, hp⟩ := Segment.exists_byteAt (htotal ▸ hcache : k < Segment.total pieces)
    refine ⟨p, ?_, ?_⟩
    · rw [Translation.overlay_outside (by omega), Translation.overlay_add hcache, hp]
    · rw [Translation.overlay_outside (by omega), Translation.overlay_add hcache, hp]
  · -- the DDR part: both sizes are whole pages, so the last page is mapped on both sides
    have hmod : o.cacheSize type % pageSize = 0 := by
      rw [← htotal]
      exact Segment.total_mod fun s hs => (hpaged s hs).2
    have hvma := vma.size_aligned
    have hwhole : vma.size / pageSize * pageSize = vma.size :=
      Nat.div_mul_cancel (Nat.dvd_of_mod_eq_zero hvma)
    have hrest : (vma.size - o.cacheSize type) / pageSize * pageSize =
        vma.size - o.cacheSize type :=
      Nat.div_mul_cancel (Nat.dvd_of_mod_eq_zero
        (Nat.sub_mod_eq_zero_of_mod_eq (hvma.trans hmod.symm)))
    have hfits : vma.size / pageSize * pageSize ≤ o.size / pageSize * pageSize :=
      Nat.mul_le_mul_right pageSize (Nat.div_le_div_right hhigh)
    obtain ⟨j, rfl⟩ : ∃ j, k = o.cacheSize type + j := ⟨k - o.cacheSize type, by omega⟩
    have hcount : j < (vma.size - o.cacheSize type) / pageSize * pageSize := by
      rw [hrest]
      omega
    have hcount' : j < o.size / pageSize * pageSize :=
      Nat.lt_of_lt_of_le (Nat.lt_of_le_of_lt (Nat.le_add_left j _) hk) (hwhole ▸ hfits)
    have hin : j < Segment.total (pages.map pageSegment) := by
      rw [total_pageSegments, hlength]
      exact hcount'
    obtain ⟨p, hp⟩ := Segment.exists_byteAt hin
    refine ⟨p, ?_, ?_⟩
    · rw [← Nat.add_assoc, Translation.overlay_add hcount, hp]
    · rw [← Nat.add_assoc, Translation.overlay_add hcount', hp]

/-- A device whose first core has three pages of the NBUF, in two entries. -/
def splitNbuf : RknpuDevice where
  iommuEn := true
  sramEnabled := false
  noGki := true
  dkmsSram := false
  forceContigAlloc := false
  sramStart := 0
  sramEnd := 0
  sramSize := 0
  nbufStart := 0x3fe80000
  nbufSize := 0x100000
  numIrqs := 2
  cacheSgt := fun i => if i = 0 then some [⟨0, 8192⟩, ⟨0xe0000, 4096⟩] else none
  iovaGranule := 4096
  dmaBits := 40
  dmaBits_le := by decide

/-- An object of four pages before it is built, three of them to lie in the NBUF. -/
def fourPages : RknpuGemObject where
  flags := rknpuMemTryAllocNbuf
  size := 16384
  sramSize := 0
  nbufSize := 12288
  sramObj := .null
  iovaStart := 0
  iovaSize := 0
  cookie := none
  dmaAddr := 0
  numPages := 0
  pages := none
  sgt := none
  iommuDomainId := 0
  coreMask := rknpuCore0Mask
  cacheWithSgt := true

def builds : CacheOutcome where
  domain := some 0
  iova := 0x10000000
  cacheRets := fun _ => 0
  frames := .ok fun i => 7 + i
  sgRet := 0
  maxPages := 256
  ddrRets := fun _ => 0

def wholeVma : Vma := ⟨0x7f000000, 0x7f004000, by decide, by decide, by decide, by decide⟩

theorem cpu_device_agree_four_pages : ∃ o domains tr,
    rknpuGemAllocBufWithCache splitNbuf none fourPages .nbuf builds (fun _ _ => none) =
      some (.ok o, domains) ∧
    rknpuGemMmapCache splitNbuf none o wholeVma .nbuf ⟨fun _ => 0, fun _ => 0, 0⟩ =
      some (.ok tr) ∧
    ∀ k < 16384, ∃ p, tr (0x7f000000 + k) = some p ∧ domains 0 (o.iovaStart + k) = some p := by
  have hcover : ∀ sgl, cacheSegments splitNbuf fourPages = some sgl →
      12288 ≤ Segment.total sgl := by
    rintro sgl ⟨⟩
    decide
  refine ⟨{ fourPages with
      iovaStart := 0x10000000, iovaSize := 28672, dmaAddr := 0x10000000, numPages := 4
      pages := some [7, 8, 9, 10], sgt := some [⟨7 * 4096, 16384⟩] }, _, _, rfl, rfl, ?_⟩
  obtain ⟨d, hd, hview⟩ := cpu_device_agree
    (show rknpuGemAllocBufWithCache splitNbuf none fourPages .nbuf builds (fun _ _ => none) =
      some (.ok _, _) from rfl)
    (fun _ => hcover) (show (none : Option RknpuMm).map RknpuMm.chunkSize = _ from rfl)
    (by decide) (by decide)
    (show rknpuGemMmapCache splitNbuf none _ wholeVma .nbuf ⟨fun _ => 0, fun _ => 0, 0⟩ =
      some (.ok _) from rfl)
  cases hd
  exact hview

end RknpuDriver.Buffer
