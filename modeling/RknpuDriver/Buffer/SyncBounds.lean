import RknpuDriver.Buffer.ShippedSync

/-! # What MEM_SYNC may touch

A request carries any offset and any size, and `rknpu_gem_sync_ioctl` compares them with nothing
of the object. The loop over the table and a part on the chip in one piece keep to the object all
the same; the single range of a contiguous object does not, nor do the entries of a cache table.

* `sync_inside_iff`: which requests keep to the object.
* `rk3576_tables`: the tables of `rk3576_cache_sgt_init` are of the shape that this asks for.
-/

namespace RknpuDriver.Buffer
open RknpuDriver.Lib RknpuDriver.Mm
set_option autoImplicit false

variable {dev : RknpuDevice}

/-! ## The memory of an object -/

/-- The size of the object for the device. -/
def RknpuGemObject.extent (o : RknpuGemObject) : ℕ := o.sramSize + o.nbufSize + o.size

/-- The part on the chip, where the kernel has it. -/
def chipPieces (io : IoMap dev) (mm : Option RknpuMm) (o : RknpuGemObject) : List Segment :=
  let type : RknpuCacheType := if 0 < o.sramSize then .sram else .nbuf
  match cacheIoRange io mm o type, o.cacheWithSgt, dev.cacheSgt (cacheIndex o.coreMask) with
  | some (cacheStart, cacheSize), false, _ => [⟨cacheStart, cacheSize⟩]
  | some (_, cacheSize), true, some sgl =>
    Segment.window 0 cacheSize (ioSegments io.nbufBaseIo sgl)
  | _, _, _ => []

/-- The kernel addresses that the cache maintenance of a range goes over: it ends where the end
address, modulo `2^64`, says. -/
def Flushes (s : Segment) (x : ℕ) : Prop := s.start ≤ x ∧ x < u64 (s.start + s.length)

/-- A call touches bytes of the object only. DMA addresses are taken modulo `2^64`. -/
def SyncCall.Inside (io : IoMap dev) (mm : Option RknpuMm) (o : RknpuGemObject) : SyncCall → Prop
  | .range .dma _ s => ∀ i < s.length, ∃ j < o.extent, u64 (s.start + i) = u64 (o.dmaAddr + j)
  | .range .ddr _ s => ∀ x ∈ s.addrs, x ∈ Segment.bytes (o.sgt.getD [])
  | .range .cache _ s => ∀ x, Flushes s x → x ∈ Segment.bytes (chipPieces io mm o)
  | .table _ sgl => ∀ x ∈ Segment.bytes sgl, x ∈ Segment.bytes (o.sgt.getD [])

/-- A request fails, or what it does keeps to the object. -/
def SyncInside (io : IoMap dev) (mm : Option RknpuMm) (o : RknpuGemObject) (req : SyncArgs)
    (domainRet : ℤ) : Prop :=
  ∃ ret calls, rknpuGemSyncIoctl io mm o req domainRet = some (ret, calls) ∧
    (ret < 0 ∨ ∀ call ∈ calls, call.Inside io mm o)

/-! ## A contiguous object -/

theorem dma_inside_iff {dmaAddr extent offset length : ℕ} (hextent : extent < 2 ^ 64)
    (hoffset : offset < 2 ^ 64) :
    (∀ i < length, ∃ j < extent, u64 (u64 (dmaAddr + offset) + i) = u64 (dmaAddr + j)) ↔
      length = 0 ∨ offset + length ≤ extent := by
  unfold u64
  constructor
  · intro hin
    by_contra hout
    obtain ⟨j, hj, hsame⟩ := hin (extent - offset) (by omega)
    omega
  · rintro hfits i hi
    refine ⟨offset + i, by omega, ?_⟩
    omega

/-! ## A part on the chip in one piece -/

/-- Whatever the request is, the one range keeps to the part: a length that is too long makes the
end address wrap. -/
theorem piece_inside {cacheStart cacheSize offset length x : ℕ} (hhigh : 2 ^ 63 ≤ cacheStart)
    (hsize : cacheSize ≤ 2 ^ 63) (hoffset : offset < cacheSize)
    (hx : Flushes ⟨cacheStart, if u64 (offset + length) ≤ cacheSize then length
      else u64Sub cacheSize offset⟩ x) : x ∈ Segment.bytes [⟨cacheStart, cacheSize⟩] := by
  obtain ⟨hlow, hend⟩ := hx
  refine Segment.mem_bytes.mpr ⟨_, List.mem_singleton_self _, hlow, ?_⟩
  simp only at hlow hend ⊢
  rw [u64Sub_of_le (Nat.le_of_lt hoffset) (by omega)] at hend
  unfold u64 at hend
  split_ifs at hend <;> omega

/-! ## The entries of a cache table -/

/-- The cache tables: their entries are apart from each other and inside the NBUF. -/
structure RknpuDevice.TablesSound (dev : RknpuDevice) : Prop where
  apart : ∀ i sgl, dev.cacheSgt i = some sgl → (Segment.bytes sgl).Nodup
  inside : ∀ i sgl, dev.cacheSgt i = some sgl → ∀ s ∈ sgl, s.start + s.length ≤ dev.nbufSize

/-- Where the loop over the entries of a cache table stays in the first `nbufSize` bytes: the
first entry is visited up to the end of the request, or less the offset; what is left of the
request goes on in the second. -/
def TableFits (nbufSize offset length : ℕ) : List Segment → Prop
  | [] => True
  | first :: rest =>
    if u64 (offset + length) ≤ first.length then offset + length < 2 ^ 64 → length ≤ nbufSize
    else
      (offset ≤ first.length → first.length - offset ≤ nbufSize) ∧
        (min (u64 (offset + length)) (Segment.total (first :: rest)) ≤ nbufSize ∨
          Segment.total (first :: rest) ≤ first.length)

theorem flushes_all {ranges : List Segment} {P : ℕ → Prop}
    (hend : ∀ r ∈ ranges, r.start + r.length < 2 ^ 64) :
    (∀ r ∈ ranges, ∀ x, Flushes r x → P x) ↔ ∀ x ∈ Segment.bytes ranges, P x := by
  have hflush : ∀ r ∈ ranges, ∀ x, Flushes r x ↔ r.start ≤ x ∧ x < r.start + r.length := by
    intro r hr x
    unfold Flushes
    rw [u64_of_lt (hend r hr)]
  constructor
  · intro h x hx
    obtain ⟨r, hr, hin⟩ := Segment.mem_bytes.mp hx
    exact h r hr x ((hflush r hr x).mpr hin)
  · intro h r hr x hx
    exact h x (Segment.mem_bytes.mpr ⟨r, hr, (hflush r hr x).mp hx⟩)

theorem flushes_first {s : Segment} {sgl : List Segment} {n nbufSize : ℕ}
    (hnodup : (Segment.bytes (s :: sgl)).Nodup) (hend : s.start + s.length < 2 ^ 64)
    (hn : n ≤ s.length) :
    (∀ x, Flushes ⟨s.start, n⟩ x → x ∈ (Segment.bytes (s :: sgl)).take nbufSize) ↔
      n ≤ nbufSize := by
  have hshort : ∀ r ∈ [(⟨s.start, n⟩ : Segment)], r.start + r.length < 2 ^ 64 := by
    intro r hr
    rw [List.mem_singleton.mp hr]
    simp only
    omega
  have hall := @flushes_all _ (fun x => x ∈ (Segment.bytes (s :: sgl)).take nbufSize) hshort
  simp only [List.forall_mem_singleton] at hall
  have hrun : Segment.bytes [⟨s.start, n⟩] = ((Segment.bytes (s :: sgl)).drop 0).take (n - 0) := by
    rw [List.drop_zero, Nat.sub_zero, Segment.bytes_cons, Segment.bytes_cons, Segment.bytes_nil,
      List.append_nil, List.take_append_of_le_length (by rwa [Segment.length_addrs])]
    exact (List.take_range'_of_length_ge hn).symm
  have hlen : n ≤ (Segment.bytes (s :: sgl)).length := by
    rw [Segment.length_bytes, Segment.total_cons]
    omega
  rw [hall, hrun, run_subset_take hnodup hlen]
  omega

def blockSizeKb : List ℕ := [448, 64, 448, 64]
def blockOffsetKb : List ℕ := [0, 896, 448, 960]

/-- The tables of `rk3576_cache_sgt_init`, when its allocations succeed. -/
def rk3576CacheSgtInit (coreNum i : ℕ) : Option (List Segment) :=
  if i < coreNum then
    some ((List.range coreNum).map fun j =>
      ⟨blockOffsetKb.getD (i * coreNum + j) 0 * 1024, blockSizeKb.getD (i * coreNum + j) 0 * 1024⟩)
  else none

theorem rk3576_tables (hsgt : dev.cacheSgt = rk3576CacheSgtInit 2)
    (hsize : dev.nbufSize = 1024 * 1024) : dev.TablesSound := by
  have htables : ∀ i sgl, dev.cacheSgt i = some sgl →
      sgl = [⟨0, 448 * 1024⟩, ⟨896 * 1024, 64 * 1024⟩] ∨
        sgl = [⟨448 * 1024, 448 * 1024⟩, ⟨960 * 1024, 64 * 1024⟩] := by
    intro i sgl hsgl
    rw [hsgt] at hsgl
    unfold rk3576CacheSgtInit at hsgl
    split_ifs at hsgl with hi
    obtain rfl | rfl : i = 0 ∨ i = 1 := by omega
    · exact Or.inl (Option.some.inj hsgl).symm
    · exact Or.inr (Option.some.inj hsgl).symm
  have htwo : ∀ s t : Segment, s.start + s.length ≤ t.start → (Segment.bytes [s, t]).Nodup := by
    intro s t hst
    rw [Segment.bytes_cons, Segment.bytes_cons, Segment.bytes_nil, List.append_nil]
    refine List.nodup_append.mpr ⟨List.nodup_range', List.nodup_range', fun x hx y hy => ?_⟩
    have := (Segment.mem_addrs.mp hx).2
    have := (Segment.mem_addrs.mp hy).1
    omega
  constructor
  · intro i sgl hsgl
    obtain rfl | rfl := htables i sgl hsgl
    · exact htwo _ _ (by decide)
    · exact htwo _ _ (by decide)
  · intro i sgl hsgl s hs
    rw [hsize]
    obtain rfl | rfl := htables i sgl hsgl
    · simp only [List.mem_cons, List.not_mem_nil, or_false] at hs
      obtain rfl | rfl := hs <;> decide
    · simp only [List.mem_cons, List.not_mem_nil, or_false] at hs
      obtain rfl | rfl := hs <;> decide

theorem RknpuDevice.TablesSound.total_le (h : dev.TablesSound) {i : ℕ} {sgl : List Segment}
    (hsgl : dev.cacheSgt i = some sgl) : Segment.total sgl ≤ dev.nbufSize := by
  have hsub : Segment.bytes sgl ⊆ List.range dev.nbufSize := by
    intro x hx
    obtain ⟨s, hs, -, hhigh⟩ := Segment.mem_bytes.mp hx
    exact List.mem_range.mpr (Nat.lt_of_lt_of_le hhigh (h.inside i sgl hsgl s hs))
  have hle := (List.subperm_of_subset (h.apart i sgl hsgl) hsub).length_le
  rwa [Segment.length_bytes, List.length_range] at hle

theorem bytes_ioSegments (nbufBaseIo : ℕ) (sgl : List Segment) :
    Segment.bytes (ioSegments nbufBaseIo sgl) = (Segment.bytes sgl).map (nbufBaseIo + ·) := by
  induction sgl with
  | nil => rfl
  | cons s sgl ih =>
    have hio : ioSegments nbufBaseIo (s :: sgl) =
        ⟨nbufBaseIo + s.start, s.length⟩ :: ioSegments nbufBaseIo sgl := rfl
    rw [hio, Segment.bytes_cons, Segment.bytes_cons, List.map_append, ih]
    unfold Segment.addrs
    rw [List.map_add_range']

/-- The loop over the entries keeps to the first `nbufSize` bytes where the request fits. -/
theorem table_inside_iff {nbufBaseIo nbufSize offset length : ℕ} {sgl : List Segment}
    (hnodup : (Segment.bytes (ioSegments nbufBaseIo sgl)).Nodup) (hhigh : 2 ^ 63 ≤ nbufBaseIo)
    (hend : ∀ s ∈ sgl, nbufBaseIo + (s.start + s.length) < 2 ^ 64)
    (htotal : Segment.total sgl < 2 ^ 64) (hoffset : offset < 2 ^ 63) (hlength : length < 2 ^ 64) :
    (∀ r ∈ (cacheSgLoop nbufBaseIo sgl length offset).ranges, ∀ x, Flushes r x →
        x ∈ (Segment.bytes (ioSegments nbufBaseIo sgl)).take nbufSize) ↔
      TableFits nbufSize offset length sgl := by
  cases sgl with
  | nil => exact iff_of_true (fun r hr => by cases hr) trivial
  | cons s sgl =>
    rw [Segment.total_cons] at htotal
    have hio : ioSegments nbufBaseIo (s :: sgl) =
        ⟨nbufBaseIo + s.start, s.length⟩ :: ioSegments nbufBaseIo sgl := rfl
    have hfirst : nbufBaseIo + s.start + s.length < 2 ^ 64 := by
      have := hend s (List.mem_cons_self ..)
      omega
    have hnodup' := hio ▸ hnodup
    rw [TableFits]
    by_cases hlast : u64 (offset + length) ≤ s.length
    · have hranges : (cacheSgLoop nbufBaseIo (s :: sgl) length offset).ranges =
          [⟨nbufBaseIo + s.start, length⟩] := by
        unfold cacheSgLoop
        simp only [if_pos hlast, if_true]
      rw [hranges, if_pos hlast, List.forall_mem_singleton, hio]
      by_cases hwrap : offset + length < 2 ^ 64
      · rw [u64_of_lt hwrap] at hlast
        rw [flushes_first hnodup' hfirst (show length ≤ s.length by omega)]
        exact ⟨fun h _ => h, fun h => h hwrap⟩
      · refine iff_of_true (fun x hx => ?_) fun h => absurd h hwrap
        obtain ⟨hlow, hhigh'⟩ := hx
        unfold u64 at hhigh'
        simp only at hlow hhigh'
        omega
    · have hleft : u64Sub length (u64Sub s.length offset) = u64 (offset + length) - s.length := by
        unfold u64Sub u64 at *
        omega
      have hmore : u64 (offset + length) - s.length ≠ 0 := by omega
      have hranges : (cacheSgLoop nbufBaseIo (s :: sgl) length offset).ranges =
          ⟨nbufBaseIo + s.start, u64Sub s.length offset⟩ ::
            (cacheSgLoop nbufBaseIo sgl (u64 (offset + length) - s.length) 0).ranges := by
        rw [← hleft] at hmore ⊢
        conv_lhs => unfold cacheSgLoop
        simp only [if_neg hlast, if_neg hmore]
      have hrest := cacheSgLoop_from nbufBaseIo (show Segment.total sgl < 2 ^ 64 by omega)
        (show u64 (offset + length) - s.length < 2 ^ 64 by unfold u64; omega)
      have hinside : ∀ r ∈ (cacheSgLoop nbufBaseIo sgl
          (u64 (offset + length) - s.length) 0).ranges, r.start + r.length < 2 ^ 64 := by
        intro r hr
        obtain ⟨u, hu, -, hin⟩ := hrest.inside.of_mem hr
        obtain ⟨v, hv, rfl⟩ := List.mem_map.mp hu
        have := hend v (List.mem_cons_of_mem _ hv)
        simp only at hin
        omega
      have htail : (Segment.bytes (ioSegments nbufBaseIo sgl)).take
          (u64 (offset + length) - s.length) =
          ((Segment.bytes (ioSegments nbufBaseIo (s :: sgl))).drop s.length).take
            (min (u64 (offset + length)) (s.length + Segment.total sgl) - s.length) := by
        have hdrop : (Segment.bytes (ioSegments nbufBaseIo (s :: sgl))).drop s.length =
            Segment.bytes (ioSegments nbufBaseIo sgl) := by
          rw [hio, Segment.bytes_cons]
          exact List.drop_left' (Segment.length_addrs _)
        rw [hdrop, List.take_eq_take_iff, Segment.length_bytes, total_ioSegments]
        omega
      have hlen : min (u64 (offset + length)) (s.length + Segment.total sgl) ≤
          (Segment.bytes (ioSegments nbufBaseIo (s :: sgl))).length := by
        rw [Segment.length_bytes, total_ioSegments, Segment.total_cons]
        omega
      rw [hranges, if_neg hlast, List.forall_mem_cons, flushes_all hinside, hrest.bytes, htail,
        run_subset_take hnodup hlen, Segment.total_cons]
      refine and_congr ?_ (by omega)
      rw [hio]
      by_cases hwithin : offset ≤ s.length
      · rw [u64Sub_of_le hwithin (by omega),
          flushes_first hnodup' hfirst (show s.length - offset ≤ s.length from Nat.sub_le _ _)]
        exact ⟨fun h _ => h, fun h => h hwithin⟩
      · refine iff_of_true (fun x hx => ?_) fun h => absurd h hwithin
        obtain ⟨hlow, hhigh'⟩ := hx
        unfold u64 u64Sub at hhigh'
        simp only at hlow hhigh'
        omega

/-! ## Live objects -/

/-- What a request finds in an object. -/
structure Served (dev : RknpuDevice) (o : RknpuGemObject) : Prop where
  table : ∀ sgl, o.sgt = some sgl → Segment.total sgl < 2 ^ 64
  sram : 0 < o.sramSize → o.nbufSize = 0 ∧ o.cacheWithSgt = false
  entries : 0 < o.nbufSize → o.cacheWithSgt = true →
    ∃ sgl, dev.cacheSgt (cacheIndex o.coreMask) = some sgl
  sram_le : o.sramSize ≤ o.size
  nbuf_le : o.nbufSize ≤ o.size
  size_le : o.size ≤ maxLfsFilesize

theorem total_table_le {pages : List ℕ} {size maxPages : ℕ}
    (hcount : pages.length = size / pageSize) :
    Segment.total (pagesToSg maxPages pages) ≤ size := by
  rw [total_pagesToSg, hcount]
  exact Nat.div_mul_le_self _ _

theorem PlainResult.served {obj o : RknpuGemObject} {out : CreateOutcome}
    (h : PlainResult dev obj out (.ok o)) (hfresh : obj.dmaAddr = 0) (hsram : obj.sramSize = 0)
    (hnbuf : obj.nbufSize = 0) (hsgt : obj.sgt = none) (hmax : obj.size ≤ maxLfsFilesize) :
    Served dev o := by
  obtain ⟨-, hbuf⟩ | ⟨-, hbuf⟩ := h
  · obtain ⟨flags, buffer, hcount, rfl⟩ := rknpuGemAllocBuf_filled hfresh hbuf.symm
    refine ⟨fun sgl htable => ?_, fun hpos => ?_, fun hpos => ?_, ?_, ?_, hmax⟩
    · cases htable
      exact Nat.lt_of_le_of_lt (Nat.le_trans (total_table_le hcount) hmax) (by decide)
    · exact absurd hsram (Nat.ne_of_gt hpos)
    · exact absurd hnbuf (Nat.ne_of_gt hpos)
    · exact Nat.le_trans (Nat.le_of_eq hsram) (Nat.zero_le _)
    · exact Nat.le_trans (Nat.le_of_eq hnbuf) (Nat.zero_le _)
  · cases hbuf
    refine ⟨fun sgl htable => ?_, fun hpos => ?_, fun hpos => ?_, ?_, ?_, hmax⟩
    · rw [hsgt] at htable
      cases htable
    · exact absurd hsram (Nat.ne_of_gt hpos)
    · exact absurd hnbuf (Nat.ne_of_gt hpos)
    · rw [hsram]
      exact Nat.zero_le _
    · rw [hnbuf]
      exact Nat.zero_le _

theorem table_of_built {mm : Option RknpuMm} {obj o : RknpuGemObject} {type : RknpuCacheType}
    {out : CacheOutcome} {domains domains' : ℕ → Translation}
    (h : rknpuGemAllocBufWithCache dev mm obj type out domains = some (.ok o, domains'))
    (hsize : o.size ≠ 0) (hmax : o.size ≤ maxLfsFilesize) {sgl : List Segment}
    (hsgt : o.sgt = some sgl) : Segment.total sgl < 2 ^ 64 := by
  obtain ⟨pages, -, htable, hcount⟩ := sgt_built h hsize
  rw [hsgt] at htable
  cases htable
  exact Nat.lt_of_le_of_lt (Nat.le_trans (total_table_le hcount) hmax) (by decide)

theorem served_of_create {args : CreateArgs} {out : CreateOutcome} {o : RknpuGemObject}
    {m m' : Memory} (h : rknpuGemObjectCreate dev args out m = some (.ok o, m')) :
    Served dev o := by
  obtain ⟨-, e, he⟩ | ⟨obj, -, hmax, hsram, hnbuf, hdma, hpiece, hsgt, hin | hin | ⟨-, hplain⟩⟩ :=
    rknpuGemObjectCreate_cases h
  · cases he
  · obtain ⟨mm, -, ⟨-, ⟨left, hplain⟩, -⟩ |
        ⟨mm', r, real, domains, hpos, hreal, -, hbuilt, -⟩⟩ :=
      createInSram_cases hin
    · exact hplain.served hdma hsram hnbuf hsgt hmax
    · obtain ⟨hosize, hosram, honbuf, -, -, hopiece⟩ := rknpuGemAllocBufWithCache_frame hbuilt
      have hle : o.sramSize ≤ o.size := by
        rw [hosram, hosize]
        simp only
        rw [hreal]
        exact realSramSize_le ..
      have hmax' : o.size ≤ maxLfsFilesize := hosize ▸ hmax
      have hsome : o.size ≠ 0 := by
        have : 0 < o.sramSize := hosram ▸ hpos
        omega
      have hzero : o.nbufSize = 0 := honbuf.trans hnbuf
      refine ⟨fun sgl => table_of_built hbuilt hsome hmax', fun _ => ⟨hzero, ?_⟩, fun hpos' => ?_,
        hle, ?_, hmax'⟩
      · exact hopiece.trans hpiece
      · exact absurd hzero (Nat.ne_of_gt hpos')
      · rw [hzero]
        exact Nat.zero_le _
  · obtain ⟨base, hbsize, hbsram, hbdma, hbsgt, -, -, -, ⟨hbnbuf, hplain, -⟩ |
        ⟨-, hpos, hle, -, hbuilt⟩⟩ := createInNbuf_cases hin
    · exact hplain.served (hbdma.trans hdma) (hbsram.trans hsram) (hbnbuf.trans hnbuf)
        (hbsgt.trans hsgt) (hbsize ▸ hmax)
    · obtain ⟨hosize, hosram, honbuf, -⟩ := rknpuGemAllocBufWithCache_frame hbuilt
      have hsize : o.size = obj.size := hosize.trans hbsize
      have hmax' : o.size ≤ maxLfsFilesize := hsize ▸ hmax
      have hzero : o.sramSize = 0 := hosram.trans (hbsram.trans hsram)
      have hle' : o.nbufSize ≤ o.size := by
        rw [honbuf, hsize]
        exact hle
      have hsome : o.size ≠ 0 := by
        have : 0 < o.nbufSize := honbuf ▸ hpos
        omega
      refine ⟨fun sgl => table_of_built hbuilt hsome hmax', fun hpos' => ?_, fun _ hwith => ?_, ?_,
        hle', hmax'⟩
      · exact absurd hzero (Nat.ne_of_gt hpos')
      · obtain ⟨_, _, pieces, -, -, hpieces, -⟩ := device_view hbuilt
        unfold cachePieces at hpieces
        rw [hwith, if_neg (by decide)] at hpieces
        obtain ⟨sgl, hsgl, -⟩ := Option.map_eq_some_iff.mp hpieces
        obtain ⟨entries, hentries, -⟩ := Option.map_eq_some_iff.mp hsgl
        exact ⟨entries, hentries⟩
      · rw [hzero]
        exact Nat.zero_le _
  · exact hplain.served hdma hsram hnbuf hsgt hmax

/-! ## The whole request -/

theorem cacheSgLoop_length_lt (nbufBaseIo : ℕ) (sgl : List Segment) {length offset : ℕ}
    (hlength : length < 2 ^ 64) : (cacheSgLoop nbufBaseIo sgl length offset).length < 2 ^ 64 := by
  induction sgl generalizing length offset with
  | nil => exact hlength
  | cons s sgl ih =>
    unfold cacheSgLoop
    by_cases hlast : u64 (offset + length) ≤ s.length
    · simp only [if_pos hlast, if_true]
      exact Nat.two_pow_pos 64
    · simp only [if_neg hlast]
      split
      · exact Nat.two_pow_pos 64
      · exact ih (Nat.mod_lt _ (Nat.two_pow_pos 64))

theorem onePiece_inside {io : IoMap dev} {mm : Option RknpuMm} {o : RknpuGemObject}
    {type : RknpuCacheType} {start size length : ℕ} (offset : ℕ) (hserved : Served dev o)
    (hlength : length < 2 ^ 64) (hrange : cacheIoRange io mm o type = some (start, size))
    (hhigh : 2 ^ 63 ≤ start) (hsize : size ≤ o.size) (hone : o.cacheWithSgt = false)
    (hpieces : chipPieces io mm o = [⟨start, size⟩]) :
    ∃ cache, rknpuCacheSync io mm o type length offset = some cache ∧ cache.length < 2 ^ 64 ∧
      ∀ r ∈ cache.ranges, ∀ x, Flushes r x → x ∈ Segment.bytes (chipPieces io mm o) := by
  have hmax := hserved.size_le
  unfold rknpuCacheSync
  rw [hrange, hone, hpieces]
  simp only
  by_cases hpast : size ≤ offset
  · rw [if_pos hpast]
    exact ⟨_, rfl, hlength, fun r hr => by cases hr⟩
  · rw [if_neg hpast, if_pos (by decide)]
    refine ⟨_, rfl, ?_, fun r hr x hx => ?_⟩
    · split
      · exact Nat.two_pow_pos 64
      · exact Nat.mod_lt _ (Nat.two_pow_pos 64)
    · rw [List.mem_singleton.mp hr] at hx
      exact piece_inside hhigh (by simp only [maxLfsFilesize] at hmax; omega)
        (Nat.lt_of_not_le hpast) hx

/-- What becomes of the part on the chip keeps to it, unless the request leaves the entries of
the table that are the object's. -/
theorem chip_inside_iff (io : IoMap dev) {mm : Option RknpuMm} {o : RknpuGemObject}
    (offset : ℕ) {length : ℕ} (hserved : Served dev o) (htables : dev.TablesSound)
    (hplace : 0 < o.sramSize →
      ∃ start, cacheIoRange io mm o .sram = some (start, o.sramSize) ∧ 2 ^ 63 ≤ start)
    (hlength : length < 2 ^ 64) :
    ∃ cache, syncCache io mm o length offset = some cache ∧ cache.length < 2 ^ 64 ∧
      ((∀ r ∈ cache.ranges, ∀ x, Flushes r x → x ∈ Segment.bytes (chipPieces io mm o)) ↔
        (dev.noGki = true → o.sramSize = 0 → o.cacheWithSgt = true → offset < o.nbufSize →
          ∀ sgl, dev.cacheSgt (cacheIndex o.coreMask) = some sgl →
            TableFits o.nbufSize offset length sgl)) := by
  have hmax := hserved.size_le
  unfold syncCache
  by_cases hsram : dev.noGki = true ∧ dev.sramEnabled = true ∧ 0 < o.sramSize
  · rw [if_pos hsram]
    obtain ⟨start, hrange, hhigh⟩ := hplace hsram.2.2
    obtain ⟨-, hone⟩ := hserved.sram hsram.2.2
    obtain ⟨cache, hcache, hleft, hin⟩ := onePiece_inside offset hserved hlength hrange hhigh
      hserved.sram_le hone (by simp only [chipPieces, if_pos hsram.2.2, hrange, hone])
    refine ⟨cache, hcache, hleft, iff_of_true hin fun _ hzero => ?_⟩
    exact absurd hzero (Nat.ne_of_gt hsram.2.2)
  rw [if_neg hsram]
  by_cases hnbuf : dev.noGki = true ∧ 0 < o.nbufSize
  · rw [if_pos hnbuf]
    have hzero : ¬ 0 < o.sramSize := fun hpos =>
      absurd (hserved.sram hpos).1 (Nat.ne_of_gt hnbuf.2)
    have hrange : cacheIoRange io mm o .nbuf = some (io.nbufBaseIo, o.nbufSize) := rfl
    cases hwith : o.cacheWithSgt with
    | false =>
      obtain ⟨cache, hcache, hleft, hin⟩ := onePiece_inside offset hserved hlength hrange
        io.nbuf_high hserved.nbuf_le hwith (by simp only [chipPieces, if_neg hzero, hrange, hwith])
      refine ⟨cache, hcache, hleft, iff_of_true hin fun _ _ hsgt => ?_⟩
      cases hsgt
    | true =>
      obtain ⟨sgl, hsgl⟩ := hserved.entries hnbuf.2 hwith
      have hpieces : chipPieces io mm o =
          Segment.window 0 o.nbufSize (ioSegments io.nbufBaseIo sgl) := by
        simp only [chipPieces, if_neg hzero, hrange, hwith, hsgl]
      by_cases hpast : o.nbufSize ≤ offset
      · have hcache : rknpuCacheSync io mm o .nbuf length offset =
            some ⟨[], length, offset - o.nbufSize⟩ := by
          unfold rknpuCacheSync
          simp only [hrange, if_pos hpast]
        refine ⟨_, hcache, hlength,
          iff_of_true (fun r hr => by cases hr) fun _ _ _ hbefore => ?_⟩
        exact absurd hpast (Nat.not_le_of_lt hbefore)
      · have hcache : rknpuCacheSync io mm o .nbuf length offset =
            some (cacheSgLoop io.nbufBaseIo sgl length offset) := by
          unfold rknpuCacheSync rknpuCacheSyncWithSg
          simp [hrange, hpast, hwith, hsgl]
        have hnodup : (Segment.bytes (ioSegments io.nbufBaseIo sgl)).Nodup := by
          rw [bytes_ioSegments]
          exact (htables.apart _ _ hsgl).map (add_right_injective io.nbufBaseIo)
        have hfits := io.nbuf_fits
        have htotal := htables.total_le hsgl
        have hend : ∀ s ∈ sgl, io.nbufBaseIo + (s.start + s.length) < 2 ^ 64 := by
          intro s hs
          have := htables.inside _ _ hsgl s hs
          omega
        have hoffset : offset < 2 ^ 63 := by
          have := hserved.nbuf_le
          simp only [maxLfsFilesize] at hmax
          omega
        refine ⟨_, hcache, cacheSgLoop_length_lt _ _ hlength, ?_⟩
        rw [hpieces]
        simp only [Segment.bytes_window, List.drop_zero]
        rw [table_inside_iff hnodup io.nbuf_high hend (by omega) hoffset hlength]
        constructor
        · rintro hin - - - - sgl' hsgl'
          rw [hsgl] at hsgl'
          cases hsgl'
          exact hin
        · intro hin
          exact hin hnbuf.1 (Nat.eq_zero_of_not_pos hzero) trivial (Nat.lt_of_not_le hpast) sgl hsgl
  · rw [if_neg hnbuf]
    refine ⟨_, rfl, hlength, iff_of_true (fun r hr => by cases hr) fun hgki _ _ hbefore => ?_⟩
    exact absurd ⟨hgki, Nat.lt_of_le_of_lt (Nat.zero_le _) hbefore⟩ hnbuf

theorem forall_directions {flags : UInt32} {Q : Prop} :
    (∀ dir ∈ directions flags, Q) ↔ directions flags = [] ∨ Q := by
  cases directions flags with
  | nil => simp
  | cons dir dirs =>
    constructor
    · exact fun h => Or.inr (h dir (List.mem_cons_self ..))
    · rintro (h | h) - -
      · cases h
      · exact h

theorem forall_syncRange {P : SyncCall → Prop} {Q : Segment → Prop} {target : SyncTarget}
    {flags : UInt32} (hP : ∀ dir s, P (.range target dir s) ↔ Q s) (ranges : List Segment) :
    (∀ call ∈ ranges.flatMap (syncRange flags target), P call) ↔
      directions flags = [] ∨ ∀ s ∈ ranges, Q s := by
  rw [← forall_directions]
  constructor
  · intro h dir hdir s hs
    exact (hP dir s).mp (h _ (List.mem_flatMap.mpr ⟨s, hs, List.mem_map.mpr ⟨dir, hdir, rfl⟩⟩))
  · intro h call hcall
    obtain ⟨s, hs, hcall⟩ := List.mem_flatMap.mp hcall
    obtain ⟨dir, hdir, rfl⟩ := List.mem_map.mp hcall
    exact (hP dir s).mpr (h dir hdir s hs)

/-- Where a request keeps to the object: a contiguous one has to end in it, and of the others
only a part on the chip in several pieces sets a condition. -/
def SyncFits (dev : RknpuDevice) (o : RknpuGemObject) (offset length : ℕ) : Prop :=
  if o.flags &&& rknpuMemNonContiguous = 0 then length = 0 ∨ offset + length ≤ o.extent
  else
    dev.noGki = true → o.sramSize = 0 → o.cacheWithSgt = true → offset < o.nbufSize →
      ∀ sgl, dev.cacheSgt (cacheIndex o.coreMask) = some sgl →
        TableFits o.nbufSize offset length sgl

theorem sramRange_of_live (io : IoMap dev) {s : BufState} (hs : (bufSystem dev).Reachable s)
    {o : RknpuGemObject} (ho : o ∈ s.live) (hpos : 0 < o.sramSize) :
    ∃ start, cacheIoRange io s.mem.sramMm o .sram = some (start, o.sramSize) ∧
      2 ^ 63 ≤ start := by
  obtain ⟨mm, hmm⟩ := pool_of_live hs ho hpos
  obtain ⟨r, hr, -⟩ := ((sound_reachable hs).inStep hmm).sized o ho hpos
  have hrange : cacheIoRange io s.mem.sramMm o .sram =
      some (io.sramBaseIo + u32 (r.rangeStart * mm.chunkSize), o.sramSize) := by
    unfold cacheIoRange
    rw [hmm, (held_of_sramRange hr).2]
  exact ⟨_, hrange, Nat.le_trans io.sram_high (Nat.le_add_right _ _)⟩

theorem syncTable_inside (io : IoMap dev) (mm : Option RknpuMm) (o : RknpuGemObject)
    (flags : UInt32) : ∀ call ∈ syncTable io o flags, call.Inside io mm o := by
  intro call hcall
  unfold syncTable at hcall
  split at hcall
  · rename_i hsgt
    obtain ⟨dir, -, rfl⟩ := List.mem_map.mp hcall
    intro x hx
    rw [hsgt, Option.getD_some]
    exact hx
  · cases hcall

theorem syncLoop_inside {o : RknpuGemObject} (hserved : Served dev o) {sgl : List Segment}
    (hsgt : o.sgt = some sgl) {length : ℕ} (hlength : length < 2 ^ 64) (offset : ℕ) :
    ∀ r ∈ (syncLoop 0 offset length sgl).ranges, ∀ x ∈ r.addrs,
      x ∈ Segment.bytes (o.sgt.getD []) := by
  intro r hr x hx
  rw [syncLoop_ranges sgl (Nat.zero_le _) (by rw [Nat.zero_add]; exact hserved.table sgl hsgt)
    hlength] at hr
  obtain ⟨u, hu, hlow, hhigh⟩ := Segment.window_inside hr
  obtain ⟨hxlow, hxhigh⟩ := Segment.mem_addrs.mp hx
  rw [hsgt, Option.getD_some]
  exact Segment.mem_bytes.mpr ⟨u, hu, by omega, by omega⟩

/-- **When MEM_SYNC keeps to the object**, for any request and any live object that is cacheable:
the domain is not got; or the object has its memory, and no direction is asked for or the request
fits. -/
theorem sync_inside_iff (io : IoMap dev) {s : BufState} (hs : (bufSystem dev).Reachable s)
    {o : RknpuGemObject} (ho : o ∈ s.live) (hcacheable : o.flags &&& rknpuMemCacheable ≠ 0)
    (htables : dev.TablesSound) (req : SyncArgs) (domainRet : ℤ) :
    SyncInside io s.mem.sramMm o req domainRet ↔
      domainRet ≠ 0 ∨
        ((o.flags &&& rknpuMemNonContiguous ≠ 0 → o.sgt ≠ none) ∧
          (directions req.flags = [] ∨ SyncFits dev o req.offset.toNat req.size.toNat)) := by
  have hserved := live_of_create (fun _ h => served_of_create h) hs o ho
  have hdone : ∀ calls, rknpuGemSyncIoctl io s.mem.sramMm o req domainRet = some (0, calls) →
      (SyncInside io s.mem.sramMm o req domainRet ↔
        ∀ call ∈ calls, call.Inside io s.mem.sramMm o) := by
    intro calls hcalls
    constructor
    · rintro ⟨ret, calls', hret, hin⟩
      rw [hcalls] at hret
      cases hret
      exact hin.resolve_left (lt_irrefl 0)
    · exact fun hin => ⟨0, calls, hcalls, Or.inr hin⟩
  by_cases hdomain : domainRet ≠ 0
  · refine iff_of_true ⟨-einval, [], ?_, Or.inl (by decide)⟩ (Or.inl hdomain)
    unfold rknpuGemSyncIoctl
    rw [if_neg hcacheable, if_pos hdomain]
  rw [or_iff_right hdomain]
  by_cases hcontig : o.flags &&& rknpuMemNonContiguous = 0
  · have hcalls : rknpuGemSyncIoctl io s.mem.sramMm o req domainRet =
        some (0, [⟨u64 (o.dmaAddr + req.offset.toNat), req.size.toNat⟩].flatMap
          (syncRange req.flags .dma)) := by
      unfold rknpuGemSyncIoctl
      rw [if_neg hcacheable, if_neg hdomain, if_pos hcontig, List.flatMap_singleton]
    have hextent : o.extent < 2 ^ 64 := by
      have hmax := hserved.size_le
      have hsram := hserved.sram
      have hle := hserved.sram_le
      have hle' := hserved.nbuf_le
      unfold RknpuGemObject.extent
      simp only [maxLfsFilesize] at hmax
      omega
    have hfits : SyncFits dev o req.offset.toNat req.size.toNat ↔
        req.size.toNat = 0 ∨ req.offset.toNat + req.size.toNat ≤ o.extent := by
      unfold SyncFits
      rw [if_pos hcontig]
    rw [hdone _ hcalls, forall_syncRange (fun _ _ => Iff.rfl), List.forall_mem_singleton, hfits,
      dma_inside_iff hextent req.offset.toNat_lt]
    exact (and_iff_right fun h => absurd hcontig h).symm
  · cases hsgt : o.sgt with
    | none =>
      refine iff_of_false ?_ fun h => h.1 hcontig rfl
      rintro ⟨ret, calls, hcalls, -⟩
      unfold rknpuGemSyncIoctl at hcalls
      rw [if_neg hcacheable, if_neg hdomain, if_neg hcontig, hsgt] at hcalls
      simp at hcalls
    | some sgl =>
      obtain ⟨cache, hcache, hleft, hchip⟩ := chip_inside_iff io req.offset.toNat hserved
        htables (sramRange_of_live io hs ho) req.size.toNat_lt
      have hcalls : rknpuGemSyncIoctl io s.mem.sramMm o req domainRet =
          some (0, syncTable io o req.flags ++ cache.ranges.flatMap (syncRange req.flags .cache) ++
            (syncLoop 0 cache.offset cache.length sgl).ranges.flatMap
              (syncRange req.flags .ddr)) := by
        unfold rknpuGemSyncIoctl
        rw [if_neg hcacheable, if_neg hdomain, if_neg hcontig, hcache, hsgt]
        rfl
      have hfits : SyncFits dev o req.offset.toNat req.size.toNat ↔
          ∀ r ∈ cache.ranges, ∀ x, Flushes r x →
            x ∈ Segment.bytes (chipPieces io s.mem.sramMm o) := by
        unfold SyncFits
        rw [if_neg hcontig, hchip]
      rw [hdone _ hcalls, List.forall_mem_append, List.forall_mem_append,
        forall_syncRange (fun _ _ => Iff.rfl), forall_syncRange (fun _ _ => Iff.rfl), hfits]
      constructor
      · rintro ⟨⟨-, hin⟩, -⟩
        exact ⟨fun _ => by simp, hin⟩
      · rintro ⟨-, hin⟩
        exact ⟨⟨syncTable_inside io _ o _, hin⟩,
          Or.inr (syncLoop_inside hserved hsgt hleft cache.offset)⟩

theorem tablesSound_threePages : threePages.TablesSound where
  apart := fun i sgl h => by cases h
  inside := fun i sgl h => by cases h

theorem contiguous_reachable : ∃ s o, (bufSystem threePages).Reachable s ∧ s.live = [o] ∧
    o.flags = 0x2 ∧ o.extent = 8192 := by
  have hinit : (bufSystem threePages).init ⟨freshMemory, []⟩ :=
    ⟨blankDevice, some (0x3ff80000, 0x3000), true, true, rfl, rfl, rfl, rfl⟩
  obtain ⟨s, hs, hp⟩ := System.Reachable.of_run_any (S := bufSystem threePages)
    (p := fun s => decide (s.live.map (fun o => (o.flags, o.extent)) = [(0x2, 8192)]))
    (l := [.create ⟨0x2, 8192, 0, 0, 0⟩ (noFailure 0x20000000 200)]) hinit (by decide +kernel)
  obtain ⟨o, hlive, ho⟩ := List.map_eq_singleton_iff.mp (of_decide_eq_true hp)
  exact ⟨s, o, hs, hlive, (Prod.mk.inj ho).1, (Prod.mk.inj ho).2⟩

theorem sync_inside_second_page : ∃ s o, (bufSystem threePages).Reachable s ∧ s.live = [o] ∧
    SyncInside ioThreePages s.mem.sramMm o ⟨1, 4096, 4096⟩ 0 := by
  obtain ⟨s, o, hs, hlive, hflags, hextent⟩ := contiguous_reachable
  refine ⟨s, o, hs, hlive, (sync_inside_iff ioThreePages hs (by simp [hlive]) ?_
    tablesSound_threePages _ _).mpr (Or.inr ⟨fun h => ?_, Or.inr ?_⟩)⟩
  · rw [hflags]
    decide
  · rw [hflags] at h
    exact absurd rfl h
  · unfold SyncFits
    rw [if_pos (show o.flags &&& rknpuMemNonContiguous = 0 by rw [hflags]; decide), hextent]
    exact Or.inr (by decide)

/-- A request that begins at the end of the buffer is served. -/
theorem sync_outside : ∃ s o, (bufSystem threePages).Reachable s ∧ s.live = [o] ∧
    o.flags = 0x2 ∧ ¬ SyncInside ioThreePages s.mem.sramMm o ⟨2, 8192, 4096⟩ 0 := by
  obtain ⟨s, o, hs, hlive, hflags, hextent⟩ := contiguous_reachable
  refine ⟨s, o, hs, hlive, hflags, ?_⟩
  rintro ⟨ret, calls, hcalls, hin⟩
  unfold rknpuGemSyncIoctl at hcalls
  rw [if_neg (show ¬ o.flags &&& rknpuMemCacheable = 0 by rw [hflags]; decide),
    if_neg (by decide),
    if_pos (show o.flags &&& rknpuMemNonContiguous = 0 by rw [hflags]; decide)] at hcalls
  cases hcalls
  obtain ⟨j, hj, hsame⟩ := hin.resolve_left (lt_irrefl 0) _ (List.mem_singleton_self _) 0
    (show 0 < (4096 : UInt64).toNat by decide)
  rw [hextent] at hj
  simp only [u64] at hsame
  have hoffset : (8192 : UInt64).toNat = 8192 := rfl
  omega

end RknpuDriver.Buffer
