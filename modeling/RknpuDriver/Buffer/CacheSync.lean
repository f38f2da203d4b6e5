import RknpuDriver.Buffer.Sync

/-! # MEM_SYNC of a buffer with a part on the chip

A build with `CONFIG_NO_GKI` splits a request between the part on the chip and the DDR pages
behind it. `rknpu_cache_sync` and `rknpu_cache_sync_with_sg` begin at the start of the part, or of
its first entry, whatever the offset is; the length they use is the one from the offset on.

* `cache_sync_exact`: a part in one piece.
* `cache_sync_sg_exact`: a part in several pieces.
-/

namespace RknpuDriver.Buffer
open RknpuDriver.Lib RknpuDriver.Mm
set_option autoImplicit false

variable {dev : RknpuDevice}

/-! ## A part in one piece -/

/-- Where the buffer begins, if not in the DDR. -/
def RknpuGemObject.backing (dev : RknpuDevice) (obj : RknpuGemObject) : Option RknpuCacheType :=
  if dev.sramEnabled = true ∧ 0 < obj.sramSize then some .sram
  else if 0 < obj.nbufSize then some .nbuf
  else none

theorem syncCache_backed {io : IoMap dev} {mm : Option RknpuMm} {obj : RknpuGemObject}
    {type : RknpuCacheType} {length offset : ℕ} (hgki : dev.noGki = true)
    (hbacked : obj.backing dev = some type) :
    syncCache io mm obj length offset = rknpuCacheSync io mm obj type length offset := by
  unfold RknpuGemObject.backing at hbacked
  unfold syncCache
  by_cases hsram : dev.sramEnabled = true ∧ 0 < obj.sramSize
  · rw [if_pos hsram] at hbacked
    cases hbacked
    rw [if_pos ⟨hgki, hsram⟩]
  · rw [if_neg hsram] at hbacked
    rw [if_neg fun h => hsram h.2]
    by_cases hnbuf : 0 < obj.nbufSize
    · rw [if_pos hnbuf] at hbacked
      cases hbacked
      rw [if_pos ⟨hgki, hnbuf⟩]
    · rw [if_neg hnbuf] at hbacked
      cases hbacked

/-- The bytes of a buffer: `cacheSize` on the chip from `cacheStart` on, then those of the
table. -/
def bufferBytes (cacheStart cacheSize : ℕ) (sgl : List Segment) : List (SyncTarget × ℕ) :=
  (List.range' cacheStart cacheSize).map (fun x => (.cache, x)) ++
    (Segment.bytes sgl).map fun x => (.ddr, x)

/-- The bytes that were synced in a direction. -/
def syncedBytes (dir : Direction) (calls : List SyncCall) : List (SyncTarget × ℕ) :=
  (Segment.bytes (rangesOf .cache dir calls)).map (fun x => (.cache, x)) ++
    (Segment.bytes (rangesOf .ddr dir calls)).map fun x => (.ddr, x)

theorem bufferBytes_request (cacheStart cacheSize offset length : ℕ) (sgl : List Segment) :
    ((bufferBytes cacheStart cacheSize sgl).drop offset).take length =
      (List.range' (cacheStart + offset) (min length (cacheSize - offset))).map
          (fun x => (.cache, x)) ++
        (((Segment.bytes sgl).drop (offset - cacheSize)).take
          (length - (cacheSize - offset))).map fun x => (.ddr, x) := by
  have hcut : (List.range' (cacheStart + offset) (cacheSize - offset)).take length =
      List.range' (cacheStart + offset) (min length (cacheSize - offset)) := by
    obtain hle | hle := Nat.le_total length (cacheSize - offset)
    · rw [List.take_range'_of_length_ge hle, Nat.min_eq_left hle]
    · rw [List.take_range'_of_length_le hle, Nat.min_eq_right hle]
  unfold bufferBytes
  rw [List.drop_append, List.take_append, ← List.map_drop, ← List.map_drop, ← List.map_take,
    ← List.map_take, List.drop_range', Nat.mul_one, hcut, List.length_map, List.length_map,
    List.length_range', List.length_range']

theorem range'_eq_iff {a b n : ℕ} : List.range' a n = List.range' b n ↔ a = b ∨ n = 0 := by
  cases n with
  | zero => simp
  | succ n =>
    constructor
    · intro h
      exact Or.inl (List.cons.inj h).1
    · rintro (rfl | h)
      · rfl
      · cases h

/-- **When a request is synced exactly**, for a buffer whose part on the chip is one piece: it
begins at the start of the buffer, or past the part on the chip, or it is empty. -/
theorem cache_sync_exact {io : IoMap dev} {mm : Option RknpuMm} {obj : RknpuGemObject}
    {args : SyncArgs} {type : RknpuCacheType} {cacheStart cacheSize : ℕ} (t : SgTable)
    (hcacheable : obj.flags &&& rknpuMemCacheable ≠ 0)
    (hscattered : obj.flags &&& rknpuMemNonContiguous ≠ 0) (hgki : dev.noGki = true)
    (hbacked : obj.backing dev = some type) (hpiece : obj.cacheWithSgt = false)
    (hplace : cacheIoRange io mm obj type = some (cacheStart, cacheSize))
    (hsgt : obj.sgt = some t.segs) (hbuffer : cacheSize + Segment.total t.segs < 2 ^ 64)
    (hin : args.offset.toNat + args.size.toNat ≤ cacheSize + Segment.total t.segs) :
    ∃ calls, rknpuGemSyncIoctl io mm obj args 0 = some (0, calls) ∧
      ∀ dir ∈ directions args.flags,
        (syncedBytes dir calls =
            ((bufferBytes cacheStart cacheSize t.segs).drop args.offset.toNat).take
              args.size.toNat ↔
          args.offset = 0 ∨ cacheSize ≤ args.offset.toNat ∨ args.size = 0) := by
  have hsize0 : args.size = 0 ↔ args.size.toNat = 0 := by
    rw [← UInt64.toNat_inj]
    rfl
  have hoffset0 : args.offset = 0 ↔ args.offset.toNat = 0 := by
    rw [← UInt64.toNat_inj]
    rfl
  rw [hsize0, hoffset0]
  generalize hoff : args.offset.toNat = offset at *
  generalize hlen : args.size.toNat = length at *
  have hlt : 0 + Segment.total t.segs < 2 ^ 64 := by omega
  have hcache : syncCache io mm obj length offset =
      some (if cacheSize ≤ offset then ⟨[], length, offset - cacheSize⟩
        else ⟨[⟨cacheStart, min length (cacheSize - offset)⟩],
          length - (cacheSize - offset), 0⟩) := by
    rw [syncCache_backed hgki hbacked]
    unfold rknpuCacheSync
    simp only [hplace, hpiece, u64_of_lt (show offset + length < 2 ^ 64 by omega)]
    by_cases hpast : cacheSize ≤ offset
    · rw [if_pos hpast, if_pos hpast]
    · rw [if_neg hpast, if_neg hpast, if_pos (by decide)]
      by_cases hwithin : offset + length ≤ cacheSize
      · rw [if_pos hwithin, if_pos hwithin, Nat.min_eq_left (by omega),
          Nat.sub_eq_zero_of_le (show length ≤ cacheSize - offset by omega)]
      · have hsub : u64Sub cacheSize offset = cacheSize - offset :=
          u64Sub_of_le (by omega) (by omega)
        rw [if_neg hwithin, if_neg hwithin, hsub, Nat.min_eq_right (by omega),
          u64Sub_of_le (by omega) (by omega)]
  rw [← hoff, ← hlen] at hcache
  obtain ⟨calls, hcalls, -, hdirs⟩ := rknpuGemSyncIoctl_ok hcacheable hscattered hcache hsgt
  refine ⟨calls, hcalls, fun dir hdir => ?_⟩
  obtain ⟨-, hchip, hddr⟩ := hdirs dir hdir
  unfold syncedBytes
  rw [hchip, hddr, bufferBytes_request, hoff, hlen]
  by_cases hpast : cacheSize ≤ offset
  · refine iff_of_true ?_ (Or.inr (Or.inl hpast))
    simp only [if_pos hpast]
    rw [syncLoop_ranges t.segs (Nat.zero_le _) hlt (by omega), window_filter,
      Segment.bytes_window, Nat.sub_zero, Nat.sub_eq_zero_of_le hpast, Nat.min_zero, Nat.sub_zero]
    rfl
  · simp only [if_neg hpast]
    rw [syncLoop_ranges t.segs (Nat.le_refl 0) hlt (by omega), window_filter,
      Segment.bytes_window, Nat.sub_self, Nat.sub_eq_zero_of_le (show offset ≤ cacheSize by omega),
      List.append_left_inj, Segment.bytes_filter]
    have hinj : Function.Injective fun x : ℕ => (SyncTarget.cache, x) :=
      fun x y h => (Prod.mk.inj h).2
    rw [(List.map_injective_iff.mpr hinj).eq_iff, Segment.bytes_cons, Segment.bytes_nil,
      List.append_nil, Segment.addrs, range'_eq_iff]
    simp only
    omega

/-- A buffer with one page in the SRAM and one in the DDR. -/
def cachedPage : RknpuGemObject := { sramPage with flags := 0x103 }

def onePage : SgTable := ⟨[⟨100 * 4096, 4096⟩], by decide, by decide⟩

theorem cache_sync_exact_whole : ∃ calls,
    rknpuGemSyncIoctl ioThreePages (some threeChunks) cachedPage ⟨1, 0, 6000⟩ 0 =
      some (0, calls) ∧
    syncedBytes .toDevice calls =
      ((bufferBytes 0xffff800010000000 4096 onePage.segs).drop 0).take 6000 := by
  obtain ⟨calls, hcalls, hdirs⟩ := @cache_sync_exact threePages ioThreePages (some threeChunks)
    cachedPage ⟨1, 0, 6000⟩ .sram 0xffff800010000000 4096 onePage (by decide) (by decide) rfl rfl
    rfl rfl rfl (by decide) (by decide)
  exact ⟨calls, hcalls, (hdirs .toDevice (by decide)).mpr (Or.inl rfl)⟩

/-- Bytes 64 to 127 are asked for, bytes 0 to 63 are synced. -/
theorem cache_sync_shifted : ∃ calls,
    rknpuGemSyncIoctl ioThreePages (some threeChunks) cachedPage ⟨1, 64, 64⟩ 0 =
      some (0, calls) ∧
    syncedBytes .toDevice calls ≠
      ((bufferBytes 0xffff800010000000 4096 onePage.segs).drop 64).take 64 := by
  refine ⟨_, rfl, fun h => ?_⟩
  have hfirst := congrArg List.head? h
  exact absurd hfirst (by decide +kernel)

/-! ## A part in several pieces -/

/-- The entries of a cache table where the kernel has them. -/
def ioSegments (nbufBaseIo : ℕ) (sgl : List Segment) : List Segment :=
  sgl.map fun s => ⟨nbufBaseIo + s.start, s.length⟩

/-- No subtraction of `cacheSgLoop` wraps. -/
def NoWrap : List Segment → ℕ → ℕ → Prop
  | [], _, _ => True
  | s :: sgl, length, offset =>
    s.length < u64 (offset + length) →
      offset ≤ s.length ∧ s.length - offset ≤ length ∧ NoWrap sgl (length - (s.length - offset)) 0

/-- The first range is inside the first entry, the second one inside the second, and so on. -/
def RangesFit (ranges entries : List Segment) : Prop :=
  ∀ (k : ℕ) (r : Segment), ranges[k]? = some r → ∃ s : Segment, entries[k]? = some s ∧
    s.start ≤ r.start ∧ r.start + r.length ≤ s.start + s.length

/-- `rknpu_cache_sync_with_sg` syncs the bytes `expected`, each range inside its entry, and takes
them off the request. -/
structure CacheSynced (nbufBaseIo : ℕ) (sgl : List Segment) (length offset : ℕ)
    (expected : List ℕ) (res : Synced) : Prop where
  bytes : Segment.bytes res.ranges = expected
  inside : RangesFit res.ranges (ioSegments nbufBaseIo sgl)
  noWrap : NoWrap sgl length offset
  length : res.length = length - Segment.total res.ranges
  offset : res.offset = 0

theorem RangesFit.nil (entries : List Segment) : RangesFit [] entries := by
  intro k r hr
  simp at hr

theorem RangesFit.cons {ranges entries : List Segment} {r s : Segment}
    (h : RangesFit ranges entries) (hstart : s.start ≤ r.start)
    (hend : r.start + r.length ≤ s.start + s.length) :
    RangesFit (r :: ranges) (s :: entries) := by
  intro k r' hr
  cases k with
  | zero =>
    rw [List.getElem?_cons_zero, Option.some.injEq] at hr
    subst hr
    exact ⟨s, List.getElem?_cons_zero, hstart, hend⟩
  | succ k =>
    rw [List.getElem?_cons_succ] at hr ⊢
    exact h k r' hr

theorem RangesFit.of_mem {ranges entries : List Segment} {r : Segment}
    (h : RangesFit ranges entries) (hr : r ∈ ranges) :
    ∃ s ∈ entries, s.start ≤ r.start ∧ r.start + r.length ≤ s.start + s.length := by
  obtain ⟨k, hk⟩ := List.mem_iff_getElem?.mp hr
  obtain ⟨s, hs, hin⟩ := h k r hk
  exact ⟨s, List.mem_of_getElem? hs, hin⟩

theorem total_ioSegments (nbufBaseIo : ℕ) (sgl : List Segment) :
    Segment.total (ioSegments nbufBaseIo sgl) = Segment.total sgl := by
  unfold Segment.total ioSegments
  rw [List.map_map]
  rfl

theorem cacheSgLoop_from (nbufBaseIo : ℕ) {sgl : List Segment} {length : ℕ}
    (hlt : Segment.total sgl < 2 ^ 64) (hlength : length < 2 ^ 64) :
    CacheSynced nbufBaseIo sgl length 0
      ((Segment.bytes (ioSegments nbufBaseIo sgl)).take length)
      (cacheSgLoop nbufBaseIo sgl length 0) := by
  induction sgl generalizing length with
  | nil => exact ⟨by simp [cacheSgLoop, ioSegments], RangesFit.nil _, trivial,
      by simp [cacheSgLoop], rfl⟩
  | cons s sgl ih =>
    rw [Segment.total_cons] at hlt
    have hsum : u64 (0 + length) = length := by
      rw [Nat.zero_add]
      exact u64_of_lt hlength
    have hio : ioSegments nbufBaseIo (s :: sgl) =
        ⟨nbufBaseIo + s.start, s.length⟩ :: ioSegments nbufBaseIo sgl := rfl
    unfold cacheSgLoop
    rw [hsum]
    by_cases hlast : length ≤ s.length
    · simp only [if_pos hlast, if_true]
      refine ⟨?_, ?_, ?_, ?_, rfl⟩
      · rw [hio, Segment.bytes_cons, Segment.bytes_cons, Segment.bytes_nil, List.append_nil,
          List.take_append_of_le_length (by simpa using hlast)]
        exact (List.take_range'_of_length_ge hlast).symm
      · exact (RangesFit.nil _).cons (Nat.le_refl _) (Nat.add_le_add_left hlast _)
      · unfold NoWrap
        rw [hsum]
        exact fun h => absurd hlast (Nat.not_le_of_lt h)
      · simp
    · have hrest := ih (show Segment.total sgl < 2 ^ 64 by omega)
        (show length - s.length < 2 ^ 64 by omega)
      have hfull : u64Sub s.length 0 = s.length := u64Sub_of_le (Nat.zero_le _) (by omega)
      have hleft : u64Sub length s.length = length - s.length :=
        u64Sub_of_le (by omega) hlength
      simp only [if_neg hlast, hfull, hleft, if_neg (show ¬ length - s.length = 0 by omega)]
      refine ⟨?_, hrest.inside.cons (Nat.le_refl _) (Nat.le_refl _), ?_, ?_, hrest.offset⟩
      · have hwhole : (⟨nbufBaseIo + s.start, s.length⟩ : Segment).addrs.take length =
            (⟨nbufBaseIo + s.start, s.length⟩ : Segment).addrs :=
          List.take_of_length_le (by rw [Segment.length_addrs]; simp only; omega)
        rw [hio, Segment.bytes_cons, Segment.bytes_cons, List.take_append, Segment.length_addrs,
          hrest.bytes, hwhole]
      · unfold NoWrap
        intro _
        exact ⟨Nat.zero_le _, by omega, hrest.noWrap⟩
      · rw [Segment.total_cons, hrest.length]
        simp only
        omega

theorem cacheSgLoop_at (nbufBaseIo : ℕ) {s : Segment} {sgl : List Segment} {length offset : ℕ}
    (hlt : Segment.total (s :: sgl) < 2 ^ 64) (hbegin : offset = 0 ∨ offset = s.length)
    (hsum : offset + length < 2 ^ 64) :
    CacheSynced nbufBaseIo (s :: sgl) length offset
      (((Segment.bytes (ioSegments nbufBaseIo (s :: sgl))).drop offset).take length)
      (cacheSgLoop nbufBaseIo (s :: sgl) length offset) := by
  obtain rfl | rfl := hbegin
  · exact cacheSgLoop_from nbufBaseIo hlt (by omega)
  rw [Segment.total_cons] at hlt
  have hio : ioSegments nbufBaseIo (s :: sgl) =
      ⟨nbufBaseIo + s.start, s.length⟩ :: ioSegments nbufBaseIo sgl := rfl
  have hdrop : (Segment.bytes (ioSegments nbufBaseIo (s :: sgl))).drop s.length =
      Segment.bytes (ioSegments nbufBaseIo sgl) := by
    rw [hio, Segment.bytes_cons]
    exact List.drop_left' (Segment.length_addrs _)
  have hrest := cacheSgLoop_from nbufBaseIo (show Segment.total sgl < 2 ^ 64 by omega)
    (show length < 2 ^ 64 by omega)
  rw [hdrop]
  unfold cacheSgLoop
  rw [u64_of_lt hsum]
  by_cases hzero : length = 0
  · subst hzero
    simp only [Nat.add_zero, Nat.le_refl, if_true]
    refine ⟨rfl, ?_, ?_, rfl, rfl⟩
    · exact (RangesFit.nil _).cons (Nat.le_refl _) (Nat.le_add_right _ _)
    · unfold NoWrap
      rw [u64_of_lt hsum]
      exact fun h => absurd h (Nat.lt_irrefl _)
  · have hmore : ¬ s.length + length ≤ s.length := by omega
    have hnone : u64Sub s.length s.length = 0 := by
      rw [u64Sub_of_le (Nat.le_refl _) (by omega), Nat.sub_self]
    have hleft : u64Sub length 0 = length := u64Sub_of_le (Nat.zero_le _) (by omega)
    simp only [if_neg hmore, hnone, hleft, if_neg hzero]
    refine ⟨hrest.bytes, ?_, ?_, ?_, hrest.offset⟩
    · exact hrest.inside.cons (Nat.le_refl _) (Nat.add_le_add_left (Nat.zero_le _) _)
    · unfold NoWrap
      rw [u64_of_lt hsum, Nat.sub_self]
      exact fun _ => ⟨Nat.le_refl _, Nat.zero_le _, hrest.noWrap⟩
    · rw [Segment.total_cons, Nat.zero_add]
      exact hrest.length

theorem cacheSgLoop_head (nbufBaseIo : ℕ) {s : Segment} (sgl : List Segment) {length offset : ℕ}
    (hlt : s.length < 2 ^ 64) (hlength : 0 < length) (hoffset : offset < s.length) :
    (Segment.bytes (cacheSgLoop nbufBaseIo (s :: sgl) length offset).ranges).head? =
      some (nbufBaseIo + s.start) := by
  have hsub : u64Sub s.length offset = s.length - offset :=
    u64Sub_of_le (Nat.le_of_lt hoffset) hlt
  have hfirst : ∀ (n : ℕ) (ranges : List Segment), 0 < n →
      (Segment.bytes (⟨nbufBaseIo + s.start, n⟩ :: ranges)).head? =
        some (nbufBaseIo + s.start) := by
    intro n ranges hn
    obtain ⟨n, rfl⟩ := Nat.exists_eq_succ_of_ne_zero (Nat.ne_of_gt hn)
    rfl
  unfold cacheSgLoop
  by_cases hlast : u64 (offset + length) ≤ s.length
  · simp only [if_pos hlast, if_true]
    exact hfirst _ _ hlength
  · have hsome : 0 < u64Sub s.length offset := by
      rw [hsub]
      omega
    simp only [if_neg hlast]
    split
    · exact hfirst _ _ hsome
    · exact hfirst _ _ hsome

theorem cacheSgLoop_wrapped (nbufBaseIo : ℕ) {s : Segment} (sgl : List Segment)
    {length offset : ℕ} (hwrap : u64 (offset + length) ≤ s.length) :
    Segment.total (cacheSgLoop nbufBaseIo (s :: sgl) length offset).ranges = length := by
  unfold cacheSgLoop
  simp [if_pos hwrap]

section
variable {nbufBaseIo nbufSize length offset : ℕ} {s : Segment} {sgl : List Segment}

theorem begins_of_synced (htotal : Segment.total (s :: sgl) < 2 ^ 64)
    (hcover : nbufSize ≤ Segment.total (s :: sgl)) (hoffset : offset < nbufSize)
    (hlength : length < 2 ^ 64)
    (h : CacheSynced nbufBaseIo (s :: sgl) length offset
      ((((Segment.bytes (ioSegments nbufBaseIo (s :: sgl))).take nbufSize).drop offset).take
        length) (cacheSgLoop nbufBaseIo (s :: sgl) length offset)) :
    (length = 0 ∧ offset ≤ s.length) ∨
      ((offset = 0 ∨ offset = s.length) ∧ offset + length < 2 ^ 64 ∧
        (offset + length ≤ nbufSize ∨ Segment.total (s :: sgl) = nbufSize)) := by
  have hslt : s.length < 2 ^ 64 := by
    rw [Segment.total_cons] at htotal
    omega
  generalize hB : Segment.bytes (ioSegments nbufBaseIo (s :: sgl)) = B at h
  have hBlen : B.length = Segment.total (s :: sgl) := by
    rw [← hB, Segment.length_bytes, total_ioSegments]
  have hexpected : ((B.take nbufSize).drop offset).take length =
      (B.drop offset).take (min length (nbufSize - offset)) := by
    rw [List.drop_take, List.take_take]
  have hbytes := h.bytes
  rw [hexpected] at hbytes
  have hlen := congrArg List.length hbytes
  rw [Segment.length_bytes, List.length_take, List.length_drop, hBlen] at hlen
  have hnowrap : ¬ (u64 (offset + length) ≤ s.length ∧ 2 ^ 64 ≤ offset + length) := by
    rintro ⟨hle, hge⟩
    rw [cacheSgLoop_wrapped _ _ hle] at hlen
    omega
  have hfirst : offset ≤ s.length := by
    by_contra hbeyond
    have hsmall : u64 (offset + length) ≤ s.length := by
      by_contra hlarge
      have hno := h.noWrap
      unfold NoWrap at hno
      exact hbeyond (hno (Nat.lt_of_not_le hlarge)).1
    refine hnowrap ⟨hsmall, ?_⟩
    by_contra hlow
    rw [u64_of_lt (Nat.lt_of_not_le hlow)] at hsmall
    omega
  by_cases hzero : length = 0
  · exact Or.inl ⟨hzero, hfirst⟩
  · have hsum : offset + length < 2 ^ 64 := by
      refine Nat.lt_of_not_le fun hge => hnowrap ⟨?_, hge⟩
      unfold u64
      omega
    have hbegin : offset = 0 ∨ offset = s.length := by
      by_contra hmid
      have hhead := cacheSgLoop_head nbufBaseIo sgl hslt (Nat.pos_of_ne_zero hzero)
        (show offset < s.length by omega)
      have hwant : ((B.drop offset).take (min length (nbufSize - offset))).head? =
          some (nbufBaseIo + s.start + offset) := by
        rw [List.head?_take, if_neg (by omega), List.head?_drop, ← hB, Segment.getElem?_bytes]
        exact if_pos (show offset < s.length by omega)
      rw [hbytes, hwant] at hhead
      have := Option.some.inj hhead
      omega
    refine Or.inr ⟨hbegin, hsum, ?_⟩
    have hall := (cacheSgLoop_at nbufBaseIo htotal hbegin hsum).bytes
    rw [hB, hbytes] at hall
    have hmin := congrArg List.length hall
    rw [List.length_take, List.length_take, List.length_drop, hBlen] at hmin
    omega

theorem synced_of_begins (htotal : Segment.total (s :: sgl) < 2 ^ 64)
    (hcover : nbufSize ≤ Segment.total (s :: sgl)) (hoffset : offset < nbufSize)
    (h : (length = 0 ∧ offset ≤ s.length) ∨
      ((offset = 0 ∨ offset = s.length) ∧ offset + length < 2 ^ 64 ∧
        (offset + length ≤ nbufSize ∨ Segment.total (s :: sgl) = nbufSize))) :
    CacheSynced nbufBaseIo (s :: sgl) length offset
      ((((Segment.bytes (ioSegments nbufBaseIo (s :: sgl))).take nbufSize).drop offset).take
        length) (cacheSgLoop nbufBaseIo (s :: sgl) length offset) := by
  generalize hB : Segment.bytes (ioSegments nbufBaseIo (s :: sgl)) = B
  have hBlen : B.length = Segment.total (s :: sgl) := by
    rw [← hB, Segment.length_bytes, total_ioSegments]
  have hexpected : ((B.take nbufSize).drop offset).take length =
      (B.drop offset).take (min length (nbufSize - offset)) := by
    rw [List.drop_take, List.take_take]
  obtain ⟨rfl, hfirst⟩ | ⟨hbegin, hsum, hend⟩ := h
  · have hsmall : u64 (offset + 0) ≤ s.length := by
      rw [Nat.add_zero, u64_of_lt (by omega)]
      exact hfirst
    have hloop : cacheSgLoop nbufBaseIo (s :: sgl) 0 offset =
        ⟨[⟨nbufBaseIo + s.start, 0⟩], 0, 0⟩ := by
      unfold cacheSgLoop
      simp only [if_pos hsmall, if_true]
    rw [hloop]
    refine ⟨by simp [Segment.addrs], ?_, ?_, rfl, rfl⟩
    · exact (RangesFit.nil _).cons (Nat.le_refl _) (Nat.add_le_add_left (Nat.zero_le _) _)
    · unfold NoWrap
      exact fun hlarge => absurd hsmall (Nat.not_le_of_lt hlarge)
  · have hloop := cacheSgLoop_at nbufBaseIo htotal hbegin hsum
    have hsame : (B.drop offset).take (min length (nbufSize - offset)) =
        (B.drop offset).take length := by
      rw [List.take_eq_take_iff, List.length_drop, hBlen]
      omega
    rw [hexpected, hsame, ← hB]
    exact hloop

end

/-- **When `rknpu_cache_sync_with_sg` does what it is to do**: the request begins at the start or
at the end of the first entry, and ends in the part on the chip unless the entries end with it;
or it is empty and begins in the first entry. -/
theorem cache_sync_sg_exact (io : IoMap dev) (mm : Option RknpuMm) {obj : RknpuGemObject}
    {length offset : ℕ} (t : SgTable) (hpieces : obj.cacheWithSgt = true)
    (hsgt : dev.cacheSgt (cacheIndex obj.coreMask) = some t.segs)
    (hcover : obj.nbufSize ≤ Segment.total t.segs) (hoffset : offset < obj.nbufSize)
    (hlength : length < 2 ^ 64) :
    ∃ first res, t.segs.head? = some first ∧
      rknpuCacheSync io mm obj .nbuf length offset = some res ∧
      (CacheSynced io.nbufBaseIo t.segs length offset
          ((((Segment.bytes (ioSegments io.nbufBaseIo t.segs)).take obj.nbufSize).drop
            offset).take length) res ↔
        (length = 0 ∧ offset ≤ first.length) ∨
        ((offset = 0 ∨ offset = first.length) ∧ offset + length < 2 ^ 64 ∧
          (offset + length ≤ obj.nbufSize ∨ Segment.total t.segs = obj.nbufSize))) := by
  have htotal := SgTable.total_lt t
  cases hsegs : t.segs with
  | nil =>
    rw [hsegs, Segment.total_nil] at hcover
    omega
  | cons s sgl =>
    rw [hsegs] at hcover htotal hsgt
    have hres : rknpuCacheSync io mm obj .nbuf length offset =
        some (cacheSgLoop io.nbufBaseIo (s :: sgl) length offset) := by
      unfold rknpuCacheSync rknpuCacheSyncWithSg cacheIoRange
      simp [hpieces, hsgt, Nat.not_le_of_lt hoffset]
    refine ⟨s, _, rfl, hres, ?_⟩
    exact ⟨begins_of_synced htotal hcover hoffset hlength,
      synced_of_begins htotal hcover hoffset⟩

def ioSplitNbuf : IoMap splitNbuf where
  sramBaseIo := 0xffff800010000000
  nbufBaseIo := 0xffff800020000000
  dkms := false
  sram_high := kernelBase_high
  nbuf_high := kernelBase_high'
  sram_fits := by decide
  nbuf_fits := by decide

/-- The two pieces of the NBUF that `splitNbuf` gives to the first core. -/
def twoPieces : SgTable := ⟨[⟨0, 8192⟩, ⟨0xe0000, 4096⟩], by decide, by decide⟩

theorem cache_sync_sg_exact_second : ∃ res,
    rknpuCacheSync ioSplitNbuf none fourPages .nbuf 4096 8192 = some res ∧
      CacheSynced 0xffff800020000000 twoPieces.segs 4096 8192
        ((((Segment.bytes (ioSegments 0xffff800020000000 twoPieces.segs)).take 12288).drop
          8192).take 4096) res := by
  obtain ⟨first, res, hfirst, hres, hiff⟩ := @cache_sync_sg_exact splitNbuf ioSplitNbuf none
    fourPages 4096 8192 twoPieces rfl rfl (by decide) (by decide) (by decide)
  cases hfirst
  exact ⟨res, hres, hiff.mpr (Or.inr ⟨Or.inr rfl, by decide, Or.inl (by decide)⟩)⟩

/-- Bytes 64 to 127 are asked for, bytes 0 to 63 are synced. -/
theorem cache_sync_sg_shifted : ∃ res,
    rknpuCacheSync ioSplitNbuf none fourPages .nbuf 64 64 = some res ∧
      ¬ CacheSynced 0xffff800020000000 twoPieces.segs 64 64
        ((((Segment.bytes (ioSegments 0xffff800020000000 twoPieces.segs)).take 12288).drop
          64).take 64) res := by
  refine ⟨_, rfl, fun h => ?_⟩
  have hfirst := congrArg List.head? h.bytes
  exact absurd hfirst (by decide +kernel)

end RknpuDriver.Buffer
