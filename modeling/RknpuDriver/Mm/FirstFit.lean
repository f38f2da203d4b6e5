import RknpuDriver.Lib.Slices
import RknpuDriver.Mm.Runs

/-! # First fit

`rknpu_mm_alloc` takes the lowest run of free chunks that is long enough. The search goes from
free chunk to free chunk: a run that is cut short ends at a used chunk, past which the search
starts again.

* `FreeRun`, `FirstFit`: a run of free chunks, and the lowest one.
* `Sized`: the bitmap and the size in bytes of a pool.
* `alloc_first_fit`: what `rknpu_mm_alloc` returns.
-/

namespace RknpuDriver.Mm
open RknpuDriver.Lib
set_option autoImplicit false

/-- The `n` chunks from `i` on are inside the pool and free. -/
def FreeRun (mm : RknpuMm) (n i : ℕ) : Prop :=
  i + n ≤ mm.totalChunks ∧ ∀ k, i ≤ k → k < i + n → mm.bitmap k = false

/-- The lowest run of `n` free chunks from `start` on begins at `i`. -/
structure FirstFit (mm : RknpuMm) (n start i : ℕ) : Prop where
  run : FreeRun mm n i
  lowest : ∀ j, start ≤ j → j < i → ¬ FreeRun mm n j

/-- The chunks that a request of `size` bytes needs. -/
def chunksFor (mm : RknpuMm) (size : ℕ) : ℕ := sliceCount size mm.chunkSize

/-- The bitmap has a bit for each chunk, and the size in bytes is an `unsigned int`. -/
structure Sized (mm : RknpuMm) : Prop where
  chunk_pos : 0 < mm.chunkSize
  size_lt : mm.totalChunks * mm.chunkSize < 2 ^ 32
  longs : mm.totalChunks ≤ mm.bits

theorem sized_of_create {memSize chunkSize : UInt32} {mmOk bitmapOk : Bool} {mm : RknpuMm}
    (hlongs : memSize.toNat / chunkSize.toNat + bitsPerLong ≤ 2 ^ 32)
    (h : rknpuMmCreate memSize chunkSize mmOk bitmapOk = .ok mm) : Sized mm := by
  unfold rknpuMmCreate at h
  split_ifs at h
  cases h
  refine ⟨by simp only; omega, ?_, ?_⟩
  · exact lt_of_le_of_lt (Nat.div_mul_le_self _ _) memSize.toNat_lt
  · simp only [RknpuMm.bits, bitsPerLong] at hlongs ⊢
    rw [u32_of_lt (by omega)]
    omega

theorem Sized.reachable {mm : RknpuMm} (hm : Sized mm) {s : PoolState}
    (h : (poolSystem mm).Reachable s) : Sized s.mm := by
  rw [reachable_sizes h]
  exact ⟨hm.chunk_pos, hm.size_lt, hm.longs⟩

theorem setBit_isSome {mm : RknpuMm} {i : ℕ} (hi : i < mm.bits) :
    ∃ mm', setBit mm i = some mm' ∧ mm'.bits = mm.bits := by
  unfold setBit
  rw [if_pos hi]
  exact ⟨_, rfl, rfl⟩

theorem setBits_isSome {mm : RknpuMm} {n i : ℕ} (hn : i + n ≤ mm.bits) :
    ∃ mm', setBits mm n i = some mm' := by
  induction n generalizing mm i with
  | zero => exact ⟨mm, rfl⟩
  | succ n ih =>
    obtain ⟨mid, hmid, hbits⟩ := setBit_isSome (show i < mm.bits by omega)
    obtain ⟨mm', hmm'⟩ := ih (show i + 1 + n ≤ mid.bits by omega)
    refine ⟨mm', ?_⟩
    simp only [setBits, hmid, Option.bind_some]
    exact hmm'

section
variable {mm : RknpuMm} {size start n i j m : ℕ}

/-- The number of chunks, as the multiples of the chunk size that fall short of the size. -/
theorem lt_chunksFor (hchunk : 0 < mm.chunkSize) :
    m < chunksFor mm size ↔ m * mm.chunkSize < size := lt_sliceCount hchunk

theorem FreeRun.free (h : FreeRun mm n i) (hn : 0 < n) : mm.bitmap i = false :=
  h.2 i (Nat.le_refl i) (by omega)

theorem FreeRun.not_over (h : FreeRun mm n i) (hm : mm.bitmap m = true) (him : i ≤ m) :
    i + n ≤ m := by
  apply Nat.le_of_not_lt
  intro hlt
  have hfree := h.2 m him hlt
  rw [hm] at hfree
  cases hfree

/-! ## The search stays inside the bitmap -/

theorem scanZeroBit_isSome (h : i + n ≤ mm.bits) : ∃ r, scanZeroBit mm n i = some r := by
  induction n generalizing i with
  | zero => exact ⟨i, rfl⟩
  | succ n ih =>
    unfold scanZeroBit testBit
    rw [if_pos (by omega)]
    cases mm.bitmap i with
    | false => exact ⟨i, rfl⟩
    | true => exact ih (by omega)

theorem findNextZeroBit_isSome (hm : Sized mm) (offset : ℕ) :
    ∃ r, findNextZeroBit mm offset = some r := by
  unfold findNextZeroBit
  split_ifs with hend
  · exact ⟨_, rfl⟩
  · have := hm.longs
    exact scanZeroBit_isSome (by omega)

theorem extendRange_isSome (hm : Sized mm) (found curSize : ℕ) :
    ∃ r, extendRange mm found curSize = some r := by
  fun_induction extendRange mm found curSize with
  | case1 found curSize hz =>
    obtain ⟨r, hr⟩ := findNextZeroBit_isSome hm (found + 1)
    rw [hz] at hr
    cases hr
  | case2 => exact ⟨_, rfl⟩
  | case3 => exact ⟨_, rfl⟩
  | case4 _ _ _ _ _ _ _ _ ih => exact ih
  | case5 => exact ⟨_, rfl⟩

theorem searchRange_isSome (hm : Sized mm) (size start : ℕ) :
    ∃ r, searchRange mm size start = some r := by
  fun_induction searchRange mm size start with
  | case1 start hz =>
    obtain ⟨r, hr⟩ := findNextZeroBit_isSome hm start
    rw [hz] at hr
    cases hr
  | case2 => exact ⟨_, rfl⟩
  | case3 => exact ⟨_, rfl⟩
  | case4 start found hz hend hsize he =>
    obtain ⟨r, hr⟩ := extendRange_isSome hm found (size - mm.chunkSize)
    rw [he] at hr
    cases hr
  | case5 => exact ⟨_, rfl⟩
  | case6 => exact ⟨_, rfl⟩
  | case7 _ _ _ _ _ _ _ ih => exact ih

/-! ## The search finds the lowest run -/

theorem extendRange_cut {found curSize s : ℕ} (hpos : 0 < curSize) (hin : found < mm.totalChunks)
    (h : extendRange mm found curSize = some (.restart s)) :
    s < mm.totalChunks ∧ mm.bitmap s = true ∧ (s - found - 1) * mm.chunkSize < curSize := by
  fun_induction extendRange mm found curSize with
  | case1 => cases h
  | case2 found curSize rangeEnd hz hne =>
    cases h
    obtain ⟨hle, htotal, hused, -⟩ := findNextZeroBit_spec mm (show found + 1 ≤ _ from hin) hz
    refine ⟨by omega, hused (found + 1) (Nat.le_refl _) (by omega), ?_⟩
    rw [Nat.add_sub_cancel_left, Nat.sub_self, Nat.zero_mul]
    exact hpos
  | case3 => cases h
  | case4 found curSize rangeEnd hz hne hend curSize' hmore ih =>
    obtain ⟨hs, hused, hshort⟩ := ih hmore (by omega) h
    refine ⟨hs, hused, ?_⟩
    have hfound := extendRange_restart h
    have hcur : curSize' + mm.chunkSize = curSize := by
      by_cases hsmall : curSize ≤ mm.chunkSize
      · simp only [curSize', dif_pos hsmall] at hmore
        omega
      · simp only [curSize', dif_neg hsmall]
        omega
    have hsucc : s - found - 1 = s - (found + 1) - 1 + 1 := by omega
    rw [hsucc, Nat.succ_mul]
    omega
  | case5 => cases h

theorem extendRange_end {found curSize : ℕ} (hpos : 0 < curSize)
    (h : extendRange mm found curSize = some .noFreeChunk) :
    (mm.totalChunks - found - 1) * mm.chunkSize < curSize := by
  fun_induction extendRange mm found curSize with
  | case1 => cases h
  | case2 => cases h
  | case3 found curSize rangeEnd hz hne hend =>
    rw [← hend, Nat.add_sub_cancel_left, Nat.sub_self, Nat.zero_mul]
    exact hpos
  | case4 found curSize rangeEnd hz hne hend curSize' hmore ih =>
    have hshort := ih hmore h
    have hin := findNextZeroBit_eq_succ hz (by omega)
    have hcur : curSize' + mm.chunkSize = curSize := by
      by_cases hsmall : curSize ≤ mm.chunkSize
      · simp only [curSize', dif_pos hsmall] at hmore
        omega
      · simp only [curSize', dif_neg hsmall]
        omega
    have hsucc : mm.totalChunks - found - 1 = mm.totalChunks - (found + 1) - 1 + 1 := by omega
    rw [hsucc, Nat.succ_mul]
    omega
  | case5 => cases h

theorem FreeRun.found_le {found : ℕ} (h : FreeRun mm n j) (hn : 0 < n) (hj : start ≤ j)
    (hz : findNextZeroBit mm start = some found) : found ≤ j := by
  have hin := h.1
  obtain ⟨-, -, hused, -⟩ := findNextZeroBit_spec mm (show start ≤ mm.totalChunks by omega) hz
  apply Nat.le_of_not_lt
  intro hlt
  have hfree := h.free hn
  rw [hused j hj hlt] at hfree
  cases hfree

theorem FreeRun.restart_le {found s : ℕ} (hchunk : 0 < mm.chunkSize)
    (h : FreeRun mm (chunksFor mm size) j) (hj : start ≤ j)
    (hz : findNextZeroBit mm start = some found) (hend : found ≠ mm.totalChunks)
    (hsize : mm.chunkSize < size)
    (he : extendRange mm found (size - mm.chunkSize) = some (.restart s)) : s ≤ j := by
  have hn : 0 < chunksFor mm size := (lt_chunksFor hchunk).mpr (by omega)
  have hfound := h.found_le hn hj hz
  have hin := (findNextZeroBit_ne_end hz hend).2.1
  obtain ⟨-, hused, hshort⟩ := extendRange_cut (by omega) hin he
  have hlt := extendRange_restart he
  apply Nat.le_of_not_lt
  intro hjs
  -- the run from `j` would stop before `s`, but from `found` to `s` there is too little
  have hstop := h.not_over hused (Nat.le_of_lt hjs)
  have hshort' : s - found < chunksFor mm size := by
    rw [lt_chunksFor hchunk, show s - found = s - found - 1 + 1 by omega, Nat.succ_mul]
    omega
  omega

theorem searchRange_none (hchunk : 0 < mm.chunkSize) (hsize : 0 < size)
    (h : searchRange mm size start = some none) (hj : start ≤ j) :
    ¬ FreeRun mm (chunksFor mm size) j := by
  have hn : 0 < chunksFor mm size := (lt_chunksFor hchunk).mpr (by omega)
  intro hrun
  fun_induction searchRange mm size start with
  | case1 => cases h
  | case2 start hz =>
    have hfound := hrun.found_le hn hj hz
    have hin := hrun.1
    omega
  | case3 => cases h
  | case4 => cases h
  | case5 start found hz hend hlarge he =>
    have hfound := hrun.found_le hn hj hz
    have hshort := extendRange_end (by omega) he
    have hin := (findNextZeroBit_ne_end hz hend).2.1
    have hshort' : mm.totalChunks - found < chunksFor mm size := by
      rw [lt_chunksFor hchunk,
        show mm.totalChunks - found = mm.totalChunks - found - 1 + 1 by omega, Nat.succ_mul]
      omega
    have hend' := hrun.1
    omega
  | case6 => cases h
  | case7 start found hz hend hlarge s he ih =>
    exact ih h (hrun.restart_le hchunk hj hz hend (by omega) he)

/-- No run that is long enough begins before the one that the search finds. -/
theorem searchRange_lowest {obj : RknpuMmObj} (hchunk : 0 < mm.chunkSize) (hsize : 0 < size)
    (h : searchRange mm size start = some (some obj)) (hj : start ≤ j) (hlt : j < obj.rangeStart) :
    ¬ FreeRun mm (chunksFor mm size) j := by
  have hn : 0 < chunksFor mm size := (lt_chunksFor hchunk).mpr (by omega)
  intro hrun
  fun_induction searchRange mm size start with
  | case1 => cases h
  | case2 => cases h
  | case3 start found hz hend hsmall =>
    cases h
    have hfound := hrun.found_le hn hj hz
    exact absurd hlt (Nat.not_lt.mpr hfound)
  | case4 => cases h
  | case5 => cases h
  | case6 start found hz hend hlarge rangeEnd he =>
    cases h
    have hfound := hrun.found_le hn hj hz
    exact absurd hlt (Nat.not_lt.mpr hfound)
  | case7 start found hz hend hlarge s he ih =>
    exact ih h (hrun.restart_le hchunk hj hz hend (by omega) he)

/-- **The search is first fit**: what it finds is the lowest run of as many chunks as needed. -/
theorem searchRange_firstFit {obj : RknpuMmObj} (hchunk : 0 < mm.chunkSize) (hsize : 0 < size)
    (h : searchRange mm size start = some (some obj)) :
    obj.rangeEnd + 1 = obj.rangeStart + chunksFor mm size ∧
      FirstFit mm (chunksFor mm size) start obj.rangeStart := by
  obtain ⟨m, hend, hlt, hle⟩ := searchRange_length hsize h
  obtain ⟨-, hin, hfree⟩ := searchRange_some h
  have hm : m + 1 = chunksFor mm size := by
    have hlower := (lt_chunksFor hchunk).mpr hlt
    have hupper : ¬ m + 1 < chunksFor mm size := by
      rw [lt_chunksFor hchunk]
      omega
    omega
  refine ⟨by omega, ⟨by omega, fun k hk hke => hfree k hk (by omega)⟩, ?_⟩
  intro j hj hlt
  exact searchRange_lowest hchunk hsize h hj hlt

end

/-! ## What an allocation returns -/

theorem alloc_of_search {mm : RknpuMm} {size : UInt32} {obj : RknpuMmObj} (hm : Sized mm)
    (hsize : 0 < size.toNat) (h : searchRange mm size.toNat 0 = some (some obj)) :
    ∃ mm', rknpuMmAlloc mm size true = some (.ok (mm', obj)) := by
  obtain ⟨hlength, hfirst⟩ := searchRange_firstFit hm.chunk_pos hsize h
  obtain ⟨hin, -⟩ := hfirst.run
  have hlongs := hm.longs
  have hfits : size.toNat ≤ mm.totalChunks * mm.chunkSize := by
    apply Nat.le_of_not_lt
    rw [← lt_chunksFor hm.chunk_pos]
    omega
  unfold rknpuMmAlloc
  rw [if_neg (by omega), u32_of_lt hm.size_lt, if_neg (by omega), if_neg (by decide)]
  simp only [h]
  split_ifs with hsmall
  · have hn : 0 < chunksFor mm size.toNat := (lt_chunksFor hm.chunk_pos).mpr (by omega)
    obtain ⟨mid, hmid, -⟩ := setBit_isSome (show obj.rangeStart < mm.bits by omega)
    rw [hmid]
    exact ⟨_, rfl⟩
  · obtain ⟨mid, hmid⟩ := setBits_isSome
      (show obj.rangeStart + (obj.rangeEnd + 1 - obj.rangeStart) ≤ mm.bits by omega)
    rw [hmid]
    exact ⟨_, rfl⟩

theorem alloc_of_no_run {mm : RknpuMm} {size : UInt32} (hm : Sized mm) (hsize : 0 < size.toNat)
    (hnone : ¬ ∃ i, FreeRun mm (chunksFor mm size.toNat) i) :
    rknpuMmAlloc mm size true = some (.error (-enomem)) := by
  obtain ⟨found, hfound⟩ := searchRange_isSome hm size.toNat 0
  unfold rknpuMmAlloc
  rw [if_neg (by omega)]
  split
  · rfl
  · rw [if_neg (by decide), hfound]
    cases found with
    | none => rfl
    | some obj =>
      have hrun := (searchRange_firstFit hm.chunk_pos hsize hfound).2.run
      exact absurd ⟨_, hrun⟩ hnone

/-- **First fit**: in a consistent pool, an allocation succeeds exactly when some run of free
chunks is long enough. It takes the lowest such run, of just as many chunks as the size needs,
and sets these bits; else it fails and leaves the pool as it is. -/
theorem alloc_first_fit {s : PoolState} (hs : Consistent s) (hm : Sized s.mm) {size : UInt32}
    (hsize : 0 < size.toNat) :
    ((∃ ret, rknpuMmAlloc s.mm size true = some (.ok ret)) ↔
      ∃ i, FreeRun s.mm (chunksFor s.mm size.toNat) i) ∧
    (∀ mm obj, rknpuMmAlloc s.mm size true = some (.ok (mm, obj)) →
      FirstFit s.mm (chunksFor s.mm size.toNat) 0 obj.rangeStart ∧
      obj.rangeEnd = obj.rangeStart + chunksFor s.mm size.toNat - 1 ∧
      (∀ k, mm.bitmap k = true ↔
        obj.rangeStart ≤ k ∧ k ≤ obj.rangeEnd ∨ s.mm.bitmap k = true) ∧
      mm.freeChunks + chunksFor s.mm size.toNat = s.mm.freeChunks) ∧
    ((¬ ∃ i, FreeRun s.mm (chunksFor s.mm size.toNat) i) →
      rknpuMmAlloc s.mm size true = some (.error (-enomem)) ∧
      poolStep s (.alloc size true) = some s) := by
  refine ⟨⟨?_, ?_⟩, ?_, ?_⟩
  · rintro ⟨⟨mm, obj⟩, hret⟩
    obtain ⟨-, hfirst⟩ := searchRange_firstFit hm.chunk_pos hsize (rknpuMmAlloc_found hret).2.1
    exact ⟨_, hfirst.run⟩
  · rintro ⟨i, hrun⟩
    obtain ⟨found, hfound⟩ := searchRange_isSome hm size.toNat 0
    cases found with
    | none => exact absurd hrun (searchRange_none hm.chunk_pos hsize hfound (Nat.zero_le i))
    | some obj =>
      obtain ⟨mm, hret⟩ := alloc_of_search hm hsize hfound
      exact ⟨_, hret⟩
  · intro mm obj hret
    obtain ⟨hend, hfirst⟩ := searchRange_firstFit hm.chunk_pos hsize (rknpuMmAlloc_found hret).2.1
    have hlive := (hs.alloc hret).counted
    have hcount := hs.counted
    obtain ⟨hle, -, -, rfl⟩ := rknpuMmAlloc_ok hret
    refine ⟨hfirst, by omega, fun k => by simp, ?_⟩
    have hcard := card_chunks obj
    simp only [List.map_append, List.sum_append, List.map_cons, List.map_nil,
      List.sum_singleton] at hlive
    simp only at hlive ⊢
    omega
  · intro hnone
    have hret := alloc_of_no_run hm hsize hnone
    refine ⟨hret, ?_⟩
    simp only [poolStep, hret]

/-- With the second of three chunks held, one chunk is taken at the start of the pool. -/
theorem alloc_first_fit_three_chunks : ∃ s mm obj, (poolSystem threeChunks).Reachable s ∧
    s.live = [⟨1, 1⟩] ∧ rknpuMmAlloc s.mm 4096 true = some (.ok (mm, obj)) ∧
    FirstFit s.mm (chunksFor s.mm 4096) 0 obj.rangeStart := by
  have hrun : ((poolSystem threeChunks).run ⟨threeChunks, []⟩
      [.alloc 4096 true, .alloc 4096 true, .free 0]).map (fun s =>
        (s.live, (rknpuMmAlloc s.mm 4096 true).map fun ret => ret.toOption.isSome)) =
      some ([⟨1, 1⟩], some true) := by decide +kernel
  obtain ⟨s, hs, heq⟩ := Option.map_eq_some_iff.mp hrun
  obtain ⟨hlive, hret⟩ := Prod.mk.inj heq
  have hreach : (poolSystem threeChunks).Reachable s := ⟨_, _, rfl, hs⟩
  have hcreate : rknpuMmCreate 12288 4096 true true = .ok threeChunks := rfl
  have hm := (sized_of_create (by decide) hcreate).reachable hreach
  have hconsistent := (consistent_of_create hcreate).reachable hreach
  obtain ⟨ret, hret, hok⟩ := Option.map_eq_some_iff.mp hret
  cases ret with
  | error e => cases hok
  | ok ret =>
    obtain ⟨mm, obj⟩ := ret
    obtain ⟨-, hfirst, -⟩ := alloc_first_fit hconsistent hm
      (show 0 < (4096 : UInt32).toNat by decide)
    exact ⟨s, mm, obj, hreach, hlive, hret, (hfirst mm obj hret).1⟩

end RknpuDriver.Mm
