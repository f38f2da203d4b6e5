import RknpuDriver.Buffer.CacheSync

/-! # MEM_SYNC of a buffer in SRAM, as the module is shipped

The shipped build allocates SRAM but is built without `CONFIG_NO_GKI`: a buffer begins in the SRAM
and goes on in the DDR pages behind it, and a request is not split. Its loop over the table takes
the offset in the buffer for one in the DDR part, `sramSize` bytes too far on.

* `built_in_sram`: how such an object came about.
* `shipped_sync_exact`: which requests sync the DDR bytes that the mapping has there.
-/

namespace RknpuDriver.Buffer
open RknpuDriver.Lib RknpuDriver.Mm
set_option autoImplicit false

variable {dev : RknpuDevice}

/-- An object with a part in SRAM was built as one piece of it, followed by the DDR pages. -/
theorem built_in_sram {args : CreateArgs} {out : CreateOutcome} {o : RknpuGemObject}
    {m m' : Memory} (h : rknpuGemObjectCreate dev args out m = some (.ok o, m'))
    (hsram : 0 < o.sramSize) :
    ∃ mm obj, rknpuGemAllocBufWithCache dev (some mm) obj .sram out.cache m.domains =
        some (.ok o, m'.domains) ∧
      o.cacheWithSgt = false ∧ o.sramSize ≤ o.size ∧ o.size % pageSize = 0 ∧
      o.size ≤ maxLfsFilesize := by
  have hplain : ∀ {obj : RknpuGemObject}, obj.dmaAddr = 0 → obj.sramSize = 0 →
      ¬ PlainResult dev obj out (.ok o) := by
    intro obj hfresh hzero hres
    rw [hres.sramSize hfresh rfl, hzero] at hsram
    exact absurd hsram (Nat.lt_irrefl 0)
  obtain ⟨-, e, he⟩ | ⟨obj, hsize, hmax, hzero, -, hdma, hpiece, -, hin | hin | ⟨-, hres⟩⟩ :=
    rknpuGemObjectCreate_cases h
  · cases he
  · obtain ⟨mm, -, ⟨-, ⟨left, hres⟩, -⟩ | ⟨mm', r, real, domains, -, hreal, -, hbuilt, hend⟩⟩ :=
      createInSram_cases hin
    · exact absurd hres (hplain hdma hzero)
    · obtain ⟨o', ho, rfl⟩ | ⟨e, _, he, -⟩ := hend
      · obtain ⟨hosize, hosram, -, -, -, hosgt⟩ := rknpuGemAllocBufWithCache_frame hbuilt
        have hmod : obj.size % pageSize = 0 := by
          rw [hsize]
          exact pageAlign_mod _
        refine ⟨mm', _, hbuilt, hosgt.trans hpiece, ?_, hosize ▸ hmod, hosize ▸ hmax⟩
        rw [hosram, hosize]
        simp only
        rw [hreal]
        exact realSramSize_le ..
      · cases he
  · obtain ⟨base, -, hbsram, hbdma, -, -, -, -, ⟨-, hres, -⟩ | ⟨-, -, -, -, hbuilt⟩⟩ :=
      createInNbuf_cases hin
    · exact absurd hres (hplain (hbdma.trans hdma) (hbsram.trans hzero))
    · obtain ⟨-, hosram, -⟩ := rknpuGemAllocBufWithCache_frame hbuilt
      rw [hosram, hbsram, hzero] at hsram
      exact absurd hsram (Nat.lt_irrefl 0)
  · exact absurd hres (hplain hdma hzero)

theorem sgt_built {mm : Option RknpuMm} {obj o : RknpuGemObject} {type : RknpuCacheType}
    {out : CacheOutcome} {domains domains' : ℕ → Translation}
    (h : rknpuGemAllocBufWithCache dev mm obj type out domains = some (.ok o, domains'))
    (hsize : o.size ≠ 0) :
    ∃ pages, o.pages = some pages ∧ o.sgt = some (pagesToSg out.maxPages pages) ∧
      pages.length = o.size / pageSize := by
  obtain ⟨hosize, -⟩ := rknpuGemAllocBufWithCache_frame h
  obtain ⟨_, _, _, base, _, _, _, -, -, hbase, -, -, -, -, ⟨hzero, -⟩ | ⟨-, hddr⟩⟩ :=
    rknpuGemAllocBufWithCache_ok h
  · exact absurd (hosize.trans hzero) hsize
  · obtain ⟨frame, pages, _, -, hpages, rfl, -⟩ := mapDdr_ok hddr
    refine ⟨pages, rfl, rfl, ?_⟩
    rw [hpages, List.length_map, List.length_range]

/-- A DDR byte that a mapping has at one of `length` offsets from `offset` on, past the part in
SRAM. -/
def MappedDdr (tr : Translation) (o : RknpuGemObject) (offset length x : ℕ) : Prop :=
  ∃ k, o.sramSize ≤ k ∧ offset ≤ k ∧ k < offset + length ∧ tr (o.iovaStart + k) = some x

theorem mappedDdr_iff {mm : RknpuMm} {obj o : RknpuGemObject} {out : CacheOutcome}
    {domains domains' : ℕ → Translation} {d offset length x : ℕ} {pages : List ℕ}
    (h : rknpuGemAllocBufWithCache dev (some mm) obj .sram out domains = some (.ok o, domains'))
    (hdomain : out.domain = some d) (hpages : o.pages = some pages) (hsize : o.size ≠ 0)
    (hmod : o.size % pageSize = 0) (hin : offset + length ≤ o.sramSize + o.size) :
    MappedDdr (domains' d) o offset length x ↔ ∃ k, o.sramSize ≤ k ∧ offset ≤ k ∧
      k < offset + length ∧ Segment.byteAt (pages.map pageSegment) (k - o.sramSize) = some x := by
  obtain ⟨d', _, pieces, hdomain', -, -, -, hzero | ⟨pages', hpages', -, hview⟩⟩ := device_view h
  · exact absurd hzero hsize
  rw [hdomain] at hdomain'
  rw [hpages] at hpages'
  cases hdomain'
  cases hpages'
  have hwhole : o.size / pageSize * pageSize = o.size :=
    Nat.div_mul_cancel (Nat.dvd_of_mod_eq_zero hmod)
  have hbyte : ∀ k, o.sramSize ≤ k → k < offset + length → domains' d (o.iovaStart + k) =
      Segment.byteAt (pages.map pageSegment) (k - o.sramSize) := by
    intro k hlow hhigh
    have hplace : o.iovaStart + k = o.iovaStart + o.cacheSize .sram + (k - o.sramSize) := by
      show _ = o.iovaStart + o.sramSize + _
      omega
    rw [hview, hplace, hwhole]
    exact Translation.overlay_add (by omega)
  unfold MappedDdr
  refine exists_congr fun k => and_congr_right fun hlow => and_congr_right fun _ =>
    and_congr_right fun hhigh => ?_
  rw [hbyte k hlow hhigh]

theorem shifted_window_iff {B : ℕ → Option ℕ} {sramSize size offset length : ℕ}
    (hsram : 0 < sramSize) (hle : sramSize ≤ size) (hin : offset + length ≤ sramSize + size)
    (hsome : ∀ j < size, ∃ x, B j = some x) (hnone : ∀ j, size ≤ j → B j = none)
    (hinj : ∀ {j j' x : ℕ}, B j = some x → B j' = some x → j = j') :
    (∀ x, (∃ j, offset ≤ j ∧ j < offset + length ∧ B j = some x) ↔
        ∃ k, sramSize ≤ k ∧ offset ≤ k ∧ k < offset + length ∧ B (k - sramSize) = some x) ↔
      length = 0 ∨ (offset = 0 ∧ length = sramSize + size) := by
  constructor
  · intro hsame
    by_cases hzero : length = 0
    · exact Or.inl hzero
    have hreach : sramSize < offset + length := by
      by_contra hwithin
      obtain ⟨x, hx⟩ := hsome offset (by omega)
      obtain ⟨k, hlow, -, hhigh, -⟩ := (hsame x).mp ⟨offset, Nat.le_refl _, by omega, hx⟩
      omega
    have hbegin : offset = 0 := by
      obtain ⟨x, hx⟩ := hsome (max offset sramSize - sramSize) (by omega)
      obtain ⟨j, hlow, -, hj⟩ := (hsame x).mpr
        ⟨max offset sramSize, Nat.le_max_right _ _, Nat.le_max_left _ _, by omega, hx⟩
      have := hinj hj hx
      omega
    subst hbegin
    obtain ⟨x, hx⟩ := hsome (min length size - 1) (by omega)
    obtain ⟨k, hlow, -, hhigh, hk⟩ := (hsame x).mp ⟨_, Nat.zero_le _, by omega, hx⟩
    have := hinj hk hx
    omega
  · rintro (rfl | ⟨rfl, rfl⟩) x
    · constructor
      · rintro ⟨j, hlow, hhigh, -⟩
        omega
      · rintro ⟨k, -, hlow, hhigh, -⟩
        omega
    · constructor
      · rintro ⟨j, -, -, hj⟩
        have hj' : j < size := by
          by_contra hpast
          rw [hnone j (Nat.le_of_not_lt hpast)] at hj
          cases hj
        refine ⟨sramSize + j, by omega, Nat.zero_le _, by omega, ?_⟩
        rw [Nat.add_sub_cancel_left]
        exact hj
      · rintro ⟨k, hlow, -, hhigh, hk⟩
        exact ⟨_, Nat.zero_le _, by omega, hk⟩

/-- **When the loop over the table syncs the right DDR bytes**, as the module is shipped, for an
object with a part in SRAM: the request is empty, or it is for the whole of the buffer. The pages
of `drm_gem_get_pages` are different from each other. -/
theorem shipped_sync_exact (io : IoMap dev) (mm : Option RknpuMm) {args : CreateArgs}
    {out : CreateOutcome} {o : RknpuGemObject} {m m' : Memory} {req : SyncArgs}
    (hgki : dev.noGki = false)
    (hcreate : rknpuGemObjectCreate dev args out m = some (.ok o, m'))
    (hsram : 0 < o.sramSize) (hcacheable : o.flags &&& rknpuMemCacheable ≠ 0)
    (hscattered : o.flags &&& rknpuMemNonContiguous ≠ 0)
    (hin : req.offset.toNat + req.size.toNat ≤ o.sramSize + o.size)
    (hdistinct : (o.pages.getD []).Nodup) :
    ∃ d calls, out.cache.domain = some d ∧ rknpuGemSyncIoctl io mm o req 0 = some (0, calls) ∧
      ∀ dir ∈ directions req.flags,
        ((∀ x, x ∈ Segment.bytes (rangesOf .ddr dir calls) ↔
            MappedDdr (m'.domains d) o req.offset.toNat req.size.toNat x) ↔
          req.size = 0 ∨ (req.offset = 0 ∧ req.size.toNat = o.sramSize + o.size)) := by
  have hsize0 : req.size = 0 ↔ req.size.toNat = 0 := by
    rw [← UInt64.toNat_inj]
    rfl
  have hoffset0 : req.offset = 0 ↔ req.offset.toNat = 0 := by
    rw [← UInt64.toNat_inj]
    rfl
  have hlt := req.size.toNat_lt
  obtain ⟨mm₀, obj, hbuilt, -, hle, hmod, hmax⟩ := built_in_sram hcreate hsram
  have hpos : o.size ≠ 0 := by omega
  obtain ⟨d, _, _, hdomain, -⟩ := device_view hbuilt
  obtain ⟨pages, hpages, hsgt, hcount⟩ := sgt_built hbuilt hpos
  rw [hpages, Option.getD_some] at hdistinct
  have htotal : Segment.total (pagesToSg out.cache.maxPages pages) = o.size := by
    rw [total_pagesToSg, hcount]
    exact Nat.div_mul_cancel (Nat.dvd_of_mod_eq_zero hmod)
  have hcache : syncCache io mm o req.size.toNat req.offset.toNat =
      some ⟨[], req.size.toNat, req.offset.toNat⟩ := by
    unfold syncCache
    rw [if_neg (by simp [hgki]), if_neg (by simp [hgki])]
  obtain ⟨calls, hcalls, -, hdirs⟩ := rknpuGemSyncIoctl_ok hcacheable hscattered hcache hsgt
  refine ⟨d, calls, hdomain, hcalls, fun dir hdir => ?_⟩
  obtain ⟨-, -, hddr⟩ := hdirs dir hdir
  rw [hsize0, hoffset0]
  rw [syncLoop_ranges _ (Nat.zero_le _) (by rw [htotal]; simp only [maxLfsFilesize] at hmax; omega)
    hlt, window_filter, Nat.sub_zero] at hddr
  generalize hoff : req.offset.toNat = offset at *
  generalize hlen : req.size.toNat = length at *
  generalize hB : Segment.byteAt (pages.map pageSegment) = B at *
  have hbytes : Segment.byteAt (pagesToSg out.cache.maxPages pages) = B := by
    funext j
    rw [byteAt_pagesToSg, ← byteAt_pages, hB]
  have hsome : ∀ j < o.size, ∃ x, B j = some x := fun j hj =>
    hbytes ▸ Segment.exists_byteAt (htotal.symm ▸ hj)
  have hnone : ∀ j, o.size ≤ j → B j = none := by
    intro j hj
    rw [← hbytes, ← Segment.getElem?_bytes, List.getElem?_eq_none_iff, Segment.length_bytes,
      htotal]
    exact hj
  have hinj : ∀ {j j' x : ℕ}, B j = some x → B j' = some x → j = j' := by
    subst hB
    exact fun h h' => byteAt_pages_inj hdistinct h h'
  simp only [hddr, Segment.mem_bytes_window, hbytes,
    mappedDdr_iff hbuilt hdomain hpages hpos hmod hin, hB]
  exact shifted_window_iff hsram hle hin hsome hnone hinj

/-- `threePages` as the module is shipped. -/
def shippedThreePages : RknpuDevice := { threePages with noGki := false, dkmsSram := true }

def ioShipped : IoMap shippedThreePages where
  sramBaseIo := 0xffff800010000000
  nbufBaseIo := 0xffff800020000000
  dkms := true
  sram_high := kernelBase_high
  nbuf_high := kernelBase_high'
  sram_fits := by decide
  nbuf_fits := by decide

def freshMemory : Memory := ⟨some threeChunks, fun _ _ => none⟩

theorem create_cachedPage : ∃ m', rknpuGemObjectCreate shippedThreePages ⟨0x103, 4096, 0, 0, 0⟩
    (noFailure 0x10000000 100) freshMemory = some (.ok cachedPage, m') := by
  have hcreate : (rknpuGemObjectCreate shippedThreePages ⟨0x103, 4096, 0, 0, 0⟩
      (noFailure 0x10000000 100) freshMemory).map (fun res => res.1.toOption) =
        some (some cachedPage) := by
    decide +kernel
  obtain ⟨⟨res, m'⟩, hres, ho⟩ := Option.map_eq_some_iff.mp hcreate
  cases res with
  | error e => cases ho
  | ok o =>
    cases ho
    exact ⟨m', hres⟩

theorem shipped_sync_exact_whole : ∃ m' calls,
    rknpuGemObjectCreate shippedThreePages ⟨0x103, 4096, 0, 0, 0⟩ (noFailure 0x10000000 100)
      freshMemory = some (.ok cachedPage, m') ∧
    rknpuGemSyncIoctl ioShipped m'.sramMm cachedPage ⟨1, 0, 8192⟩ 0 = some (0, calls) ∧
    ∀ x, x ∈ Segment.bytes (rangesOf .ddr .toDevice calls) ↔
      MappedDdr (m'.domains 0) cachedPage 0 8192 x := by
  obtain ⟨m', hm'⟩ := create_cachedPage
  obtain ⟨d, calls, hd, hcalls, hdirs⟩ := @shipped_sync_exact shippedThreePages ioShipped m'.sramMm
    ⟨0x103, 4096, 0, 0, 0⟩ (noFailure 0x10000000 100) cachedPage freshMemory m' ⟨1, 0, 8192⟩ rfl
    hm' (by decide) (by decide) (by decide) (by decide) (by decide)
  cases hd
  exact ⟨m', calls, hm', hcalls, (hdirs .toDevice (by decide)).mpr (Or.inr ⟨rfl, rfl⟩)⟩

/-- A request for the first page, which is in SRAM, syncs the DDR page behind it. -/
theorem shipped_sync_shifted : ∃ m' calls,
    rknpuGemObjectCreate shippedThreePages ⟨0x103, 4096, 0, 0, 0⟩ (noFailure 0x10000000 100)
      freshMemory = some (.ok cachedPage, m') ∧
    rknpuGemSyncIoctl ioShipped m'.sramMm cachedPage ⟨1, 0, 4096⟩ 0 = some (0, calls) ∧
    ¬ ∀ x, x ∈ Segment.bytes (rangesOf .ddr .toDevice calls) ↔
      MappedDdr (m'.domains 0) cachedPage 0 4096 x := by
  obtain ⟨m', hm'⟩ := create_cachedPage
  refine ⟨m', _, hm', rfl, fun hsame => ?_⟩
  have hsynced : 100 * 4096 ∈ Segment.bytes (rangesOf .ddr .toDevice
      [.table .toDevice [⟨100 * 4096, 4096⟩], .range .ddr .toDevice ⟨100 * 4096, 4096⟩]) :=
    Segment.mem_bytes.mpr ⟨⟨100 * 4096, 4096⟩, by decide, by decide, by decide⟩
  obtain ⟨k, hlow, -, hhigh, -⟩ := (hsame (100 * 4096)).mp hsynced
  exact absurd (show k < 0 + 4096 from hhigh) (Nat.not_lt_of_le hlow)

end RknpuDriver.Buffer
