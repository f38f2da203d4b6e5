import RknpuDriver.Basic
import Mathlib.Tactic.SplitIfs

/-! # The chunk allocator of `rknpu_mm.c`

`rknpu_mm` hands out runs of consecutive chunks of a memory region, one bitmap bit for each
chunk. The bitmap is an array of `numOfLongs` longs: every access here goes through
`testBit`, `setBit` or `clearBit`, which give `none` outside of it (in the kernel, a wild
access), so that a call returning `some` has stayed inside its bitmap.

`mm->lock` is held from the search to the last field update of `rknpu_mm_alloc` and
`rknpu_mm_free`, so each call is one atomic step of the pool.
-/

namespace RknpuDriver.Mm
set_option autoImplicit false

/-- `struct rknpu_mm`. -/
structure RknpuMm where
  bitmap : ℕ → Bool
  numOfLongs : ℕ
  chunkSize : ℕ
  totalChunks : ℕ
  freeChunks : ℕ

/-- `struct rknpu_mm_obj`. -/
structure RknpuMmObj where
  rangeStart : ℕ
  rangeEnd : ℕ
  deriving DecidableEq, Repr

/-! ## Creation -/

/-- `rknpu_mm_create`; `mmOk` and `bitmapOk` are the outcomes of its two allocations. -/
def rknpuMmCreate (memSize chunkSize : UInt32) (mmOk bitmapOk : Bool) : Except ℤ RknpuMm :=
  if memSize.toNat < chunkSize.toNat then .error (-einval)
  else if memSize.toNat = 0 then .error (-einval)
  else if chunkSize.toNat = 0 then .error (-einval)
  else if !mmOk then .error (-enomem)
  else
    let totalChunks := memSize.toNat / chunkSize.toNat
    let numOfLongs := u32 (totalChunks + bitsPerLong - 1) / bitsPerLong
    if !bitmapOk then .error (-enomem)
    else .ok {
      bitmap := fun _ => false
      numOfLongs := numOfLongs
      chunkSize := chunkSize.toNat
      totalChunks := totalChunks
      freeChunks := totalChunks }

theorem rknpuMmCreate_ok {memSize chunkSize : UInt32} {mmOk bitmapOk : Bool} {mm : RknpuMm}
    (h : rknpuMmCreate memSize chunkSize mmOk bitmapOk = .ok mm) :
    mm.chunkSize = chunkSize.toNat ∧ mm.totalChunks = memSize.toNat / chunkSize.toNat := by
  unfold rknpuMmCreate at h
  split_ifs at h
  cases h
  exact ⟨rfl, rfl⟩

/-! ## Bit operations -/

/-- The number of bits the bitmap has memory for. -/
def RknpuMm.bits (mm : RknpuMm) : ℕ := bitsPerLong * mm.numOfLongs

def testBit (mm : RknpuMm) (i : ℕ) : Option Bool :=
  if i < mm.bits then some (mm.bitmap i) else none

def setBit (mm : RknpuMm) (i : ℕ) : Option RknpuMm :=
  if i < mm.bits then some { mm with bitmap := fun k => decide (k = i) || mm.bitmap k } else none

def clearBit (mm : RknpuMm) (i : ℕ) : Option RknpuMm :=
  if i < mm.bits then some { mm with bitmap := fun k => !decide (k = i) && mm.bitmap k }
  else none

/-- Scans `n` bits from `i` on; past the last of them the answer is their end. -/
def scanZeroBit (mm : RknpuMm) : ℕ → ℕ → Option ℕ
  | 0, i => some i
  | n + 1, i =>
    match testBit mm i with
    | none => none
    | some false => some i
    | some true => scanZeroBit mm n (i + 1)

/-- `find_next_zero_bit(mm->bitmap, mm->total_chunks, offset)`: the first clear bit at or after
`offset`, or `total_chunks` when there is none. -/
def findNextZeroBit (mm : RknpuMm) (offset : ℕ) : Option ℕ :=
  if mm.totalChunks ≤ offset then some mm.totalChunks
  else scanZeroBit mm (mm.totalChunks - offset) offset

theorem scanZeroBit_spec (mm : RknpuMm) {n i r : ℕ} (h : scanZeroBit mm n i = some r) :
    i ≤ r ∧ r ≤ i + n ∧ (∀ k, i ≤ k → k < r → mm.bitmap k = true) ∧
      (r < i + n → mm.bitmap r = false) := by
  induction n generalizing i with
  | zero =>
    simp only [scanZeroBit, Option.some.injEq] at h
    subst h
    exact ⟨Nat.le_refl _, Nat.le_refl _, fun k h1 h2 => by omega, fun h => by omega⟩
  | succ n ih =>
    unfold scanZeroBit at h
    unfold testBit at h
    by_cases hi : i < mm.bits
    · rw [if_pos hi] at h
      cases hb : mm.bitmap i with
      | false =>
        simp only [hb, Option.some.injEq] at h
        subst h
        exact ⟨Nat.le_refl _, by omega, fun k h1 h2 => by omega, fun _ => hb⟩
      | true =>
        simp only [hb] at h
        obtain ⟨h1, h2, h3, h4⟩ := ih h
        refine ⟨by omega, by omega, fun k hk hkr => ?_, fun hr => h4 (by omega)⟩
        by_cases hki : k = i
        · rw [hki]
          exact hb
        · exact h3 k (by omega) hkr
    · rw [if_neg hi] at h
      cases h

theorem findNextZeroBit_spec (mm : RknpuMm) {offset r : ℕ} (ho : offset ≤ mm.totalChunks)
    (h : findNextZeroBit mm offset = some r) :
    offset ≤ r ∧ r ≤ mm.totalChunks ∧ (∀ k, offset ≤ k → k < r → mm.bitmap k = true) ∧
      (r < mm.totalChunks → mm.bitmap r = false) := by
  unfold findNextZeroBit at h
  by_cases hle : mm.totalChunks ≤ offset
  · rw [if_pos hle] at h
    cases h
    exact ⟨ho, Nat.le_refl _, fun k h1 h2 => by omega, fun h => by omega⟩
  · rw [if_neg hle] at h
    obtain ⟨h1, h2, h3, h4⟩ := scanZeroBit_spec mm h
    exact ⟨h1, by omega, h3, fun hr => h4 (by omega)⟩

theorem findNextZeroBit_eq_succ {mm : RknpuMm} {i r : ℕ}
    (h : findNextZeroBit mm (i + 1) = some r) (hr : r = i + 1) : i < mm.totalChunks := by
  unfold findNextZeroBit at h
  split at h
  · simp only [Option.some.injEq] at h
    omega
  · omega

/-- A found chunk other than the end of the pool lies between the offset and that end. -/
theorem findNextZeroBit_ne_end {mm : RknpuMm} {offset r : ℕ}
    (h : findNextZeroBit mm offset = some r) (hr : r ≠ mm.totalChunks) :
    offset ≤ r ∧ r < mm.totalChunks ∧ mm.bitmap r = false := by
  by_cases ho : offset ≤ mm.totalChunks
  · obtain ⟨h1, h2, -, h4⟩ := findNextZeroBit_spec mm ho h
    exact ⟨h1, by omega, h4 (by omega)⟩
  · unfold findNextZeroBit at h
    rw [if_pos (by omega)] at h
    simp only [Option.some.injEq] at h
    omega

/-! ## The search of `rknpu_mm_alloc` -/

/-- How the `do ... while` loop of `rknpu_mm_alloc` is left. -/
inductive Extend where
  | restart (startSearch : ℕ)
  | noFreeChunk
  | done (rangeEnd : ℕ)
  deriving DecidableEq, Repr

set_option linter.unusedVariables false in
/-- The `do ... while (cur_size > 0)` loop: the run ends at chunk `found`, and `curSize` more
bytes are wanted. -/
def extendRange (mm : RknpuMm) (found curSize : ℕ) : Option Extend :=
  match hz : findNextZeroBit mm (found + 1) with
  | none => none
  | some rangeEnd =>
    if hne : rangeEnd ≠ found + 1 then some (.restart (found + 1))
    else if hend : found + 1 = mm.totalChunks then some .noFreeChunk
    else
      let curSize := if curSize ≤ mm.chunkSize then 0 else curSize - mm.chunkSize
      if 0 < curSize then extendRange mm (found + 1) curSize else some (.done rangeEnd)
  termination_by mm.totalChunks - found
  decreasing_by
    have := findNextZeroBit_eq_succ hz (by omega)
    omega

theorem extendRange_restart {mm : RknpuMm} {found curSize s : ℕ}
    (h : extendRange mm found curSize = some (.restart s)) : found < s := by
  fun_induction extendRange mm found curSize with
  | case1 => cases h
  | case2 => cases h; omega
  | case3 => cases h
  | case4 _ _ _ _ _ _ _ _ ih => have := ih h; omega
  | case5 => cases h

theorem extendRange_done {mm : RknpuMm} {found curSize e : ℕ}
    (h : extendRange mm found curSize = some (.done e)) :
    found < e ∧ e < mm.totalChunks ∧ ∀ k, found < k → k ≤ e → mm.bitmap k = false := by
  fun_induction extendRange mm found curSize with
  | case1 => cases h
  | case2 => cases h
  | case3 => cases h
  | case4 found curSize rangeEnd hz hne hend curSize' hpos ih =>
    obtain ⟨h1, h2, h3⟩ := ih h
    have hzero := findNextZeroBit_ne_end hz (by omega)
    refine ⟨by omega, h2, fun k hk hke => ?_⟩
    by_cases hnext : k = rangeEnd
    · rw [hnext]
      exact hzero.2.2
    · exact h3 k (by omega) hke
  | case5 found curSize rangeEnd hz hne hend curSize' hpos =>
    simp only [Option.some.injEq, Extend.done.injEq] at h
    subst h
    have hzero := findNextZeroBit_ne_end hz (by omega)
    refine ⟨by omega, hzero.2.1, fun k hk hke => ?_⟩
    have hke' : k = rangeEnd := by omega
    rw [hke']
    exact hzero.2.2

theorem extendRange_length {mm : RknpuMm} {found curSize e : ℕ} (hpos : 0 < curSize)
    (h : extendRange mm found curSize = some (.done e)) :
    ∃ n, e = found + 1 + n ∧ n * mm.chunkSize < curSize ∧ curSize ≤ (n + 1) * mm.chunkSize := by
  fun_induction extendRange mm found curSize with
  | case1 => cases h
  | case2 => cases h
  | case3 => cases h
  | case4 found curSize rangeEnd hz hne hend curSize' hmore ih =>
    obtain ⟨n, hn, hlt, hle⟩ := ih hmore h
    have hcur : curSize' = curSize - mm.chunkSize := dif_neg fun hsmall => by
      simp only [curSize', dif_pos hsmall] at hmore
      omega
    have hlarge : mm.chunkSize < curSize := by omega
    clear_value curSize'
    refine ⟨n + 1, by omega, ?_, ?_⟩
    · rw [Nat.succ_mul]
      omega
    · rw [Nat.succ_mul]
      omega
  | case5 found curSize rangeEnd hz hne hend curSize' hdone =>
    simp only [Option.some.injEq, Extend.done.injEq] at h
    subst h
    refine ⟨0, by omega, by omega, ?_⟩
    rw [Nat.zero_add, Nat.one_mul]
    refine Nat.le_of_not_lt fun hlarge => hdone ?_
    rw [show curSize' = curSize - mm.chunkSize from dif_neg (by omega)]
    omega

set_option linter.unusedVariables false in
/-- `mm_restart_search`: `none` when the bitmap was left, `some none` for
`mm_no_free_chunk`. -/
def searchRange (mm : RknpuMm) (size startSearch : ℕ) : Option (Option RknpuMmObj) :=
  match hz : findNextZeroBit mm startSearch with
  | none => none
  | some found =>
    if hend : found = mm.totalChunks then some none
    else if size ≤ mm.chunkSize then some (some ⟨found, found⟩)
    else
      match he : extendRange mm found (size - mm.chunkSize) with
      | none => none
      | some .noFreeChunk => some none
      | some (.done rangeEnd) => some (some ⟨found, rangeEnd⟩)
      | some (.restart s) => searchRange mm size s
  termination_by mm.totalChunks - startSearch
  decreasing_by
    have := extendRange_restart he
    have := findNextZeroBit_ne_end hz hend
    omega

theorem searchRange_some {mm : RknpuMm} {size startSearch : ℕ} {obj : RknpuMmObj}
    (h : searchRange mm size startSearch = some (some obj)) :
    obj.rangeStart ≤ obj.rangeEnd ∧ obj.rangeEnd < mm.totalChunks ∧
      ∀ k, obj.rangeStart ≤ k → k ≤ obj.rangeEnd → mm.bitmap k = false := by
  fun_induction searchRange mm size startSearch with
  | case1 => cases h
  | case2 => cases h
  | case3 startSearch found hz hend hsize =>
    cases h
    obtain ⟨-, h2, h3⟩ := findNextZeroBit_ne_end hz hend
    refine ⟨Nat.le_refl _, h2, fun k hk hke => ?_⟩
    have hkf : found = k := Nat.le_antisymm hk hke
    rw [← hkf]
    exact h3
  | case4 => cases h
  | case5 => cases h
  | case6 startSearch found hz hend hsize rangeEnd he =>
    cases h
    obtain ⟨-, -, h3⟩ := findNextZeroBit_ne_end hz hend
    obtain ⟨e1, e2, e3⟩ := extendRange_done he
    refine ⟨Nat.le_of_lt e1, e2, fun k hk hke => ?_⟩
    rcases Nat.eq_or_lt_of_le hk with hkf | hkf
    · rw [← hkf]
      exact h3
    · exact e3 k hkf hke
  | case7 _ _ _ _ _ _ _ ih => exact ih h

theorem searchRange_single {mm : RknpuMm} {size startSearch : ℕ} {obj : RknpuMmObj}
    (hsize : size ≤ mm.chunkSize) (h : searchRange mm size startSearch = some (some obj)) :
    obj.rangeEnd = obj.rangeStart := by
  unfold searchRange at h
  split at h
  · cases h
  · split at h
    · cases h
    · cases h
      rfl

theorem searchRange_length {mm : RknpuMm} {size startSearch : ℕ} {obj : RknpuMmObj}
    (hpos : 0 < size) (h : searchRange mm size startSearch = some (some obj)) :
    ∃ n, obj.rangeEnd = obj.rangeStart + n ∧ n * mm.chunkSize < size ∧
      size ≤ (n + 1) * mm.chunkSize := by
  fun_induction searchRange mm size startSearch with
  | case1 => cases h
  | case2 => cases h
  | case3 startSearch found hz hend hsize =>
    cases h
    exact ⟨0, rfl, by omega, by omega⟩
  | case4 => cases h
  | case5 => cases h
  | case6 startSearch found hz hend hsize rangeEnd he =>
    cases h
    obtain ⟨n, hn, hlt, hle⟩ := extendRange_length (by omega) he
    refine ⟨n + 1, ?_, ?_, ?_⟩
    · show rangeEnd = found + (n + 1)
      omega
    · rw [Nat.succ_mul]
      omega
    · rw [Nat.succ_mul]
      omega
  | case7 _ _ _ _ _ _ _ ih => exact ih h

/-! ## Allocation and release -/

/-- `for (found = i; ...; found++) set_bit(found, mm->bitmap)`, `n` times. -/
def setBits (mm : RknpuMm) : ℕ → ℕ → Option RknpuMm
  | 0, _ => some mm
  | n + 1, i => (setBit mm i).bind fun mm => setBits mm n (i + 1)

/-- `for (bit = i; ...; bit++) clear_bit(bit, mm->bitmap)`, `n` times. -/
def clearBits (mm : RknpuMm) : ℕ → ℕ → Option RknpuMm
  | 0, _ => some mm
  | n + 1, i => (clearBit mm i).bind fun mm => clearBits mm n (i + 1)

/-- `range_end - range_start + 1`, in `unsigned int`. -/
def RknpuMmObj.chunkCount (obj : RknpuMmObj) : ℕ :=
  u32 (u32Sub obj.rangeEnd obj.rangeStart + 1)

/-- `rknpu_mm_alloc`; `objOk` is the outcome of `kzalloc` for the object. A request of one
chunk sets its bit and is out; a longer one goes through the marking loop. -/
def rknpuMmAlloc (mm : RknpuMm) (size : UInt32) (objOk : Bool) :
    Option (Except ℤ (RknpuMm × RknpuMmObj)) :=
  if size.toNat = 0 then some (.error (-einval))
  else if u32 (mm.totalChunks * mm.chunkSize) < size.toNat then some (.error (-enomem))
  else if !objOk then some (.error (-enomem))
  else
    match searchRange mm size.toNat 0 with
    | none => none
    | some none => some (.error (-enomem))
    | some (some obj) =>
      let marked :=
        if size.toNat ≤ mm.chunkSize then setBit mm obj.rangeStart
        else setBits mm (obj.rangeEnd + 1 - obj.rangeStart) obj.rangeStart
      marked.map fun mm =>
        .ok ({ mm with freeChunks := u32Sub mm.freeChunks obj.chunkCount }, obj)

/-- `rknpu_mm_free` of an object that is not `NULL`. -/
def rknpuMmFree (mm : RknpuMm) (obj : RknpuMmObj) : Option RknpuMm :=
  (clearBits mm (obj.rangeEnd + 1 - obj.rangeStart) obj.rangeStart).map fun mm =>
    { mm with freeChunks := u32 (mm.freeChunks + obj.chunkCount) }

/-- A loop over `n` bits from `i` on, whose turns change the bit at which they stand with `g`. -/
theorem bitLoop_eq {g : Bool → Bool → Bool} {loop : RknpuMm → ℕ → ℕ → Option RknpuMm}
    (hkept : ∀ b, g false b = b) (hzero : ∀ mm i, loop mm 0 i = some mm)
    (hsucc : ∀ {mm mm' n i}, loop mm (n + 1) i = some mm' →
      loop { mm with bitmap := fun k => g (decide (k = i)) (mm.bitmap k) } n (i + 1) = some mm')
    {mm mm' : RknpuMm} {n i : ℕ} (h : loop mm n i = some mm') :
    mm' = { mm with bitmap := fun k => g (decide (i ≤ k ∧ k < i + n)) (mm.bitmap k) } := by
  induction n generalizing mm i with
  | zero =>
    rw [hzero, Option.some.injEq] at h
    subst h
    cases mm with
    | mk bitmap longs chunk total free =>
      congr 1
      funext k
      rw [decide_eq_false (show ¬ (i ≤ k ∧ k < i + 0) by omega), hkept]
  | succ n ih =>
    rw [ih (hsucc h)]
    congr 1
    funext k
    by_cases hki : k = i
    · subst hki
      rw [decide_eq_false (show ¬ (k + 1 ≤ k ∧ k < k + 1 + n) by omega), hkept,
        decide_eq_true (show k ≤ k ∧ k < k + (n + 1) by omega)]
      exact congrArg (fun d => g d (mm.bitmap k)) (decide_eq_true rfl)
    · have hiff : (i + 1 ≤ k ∧ k < i + 1 + n) ↔ (i ≤ k ∧ k < i + (n + 1)) := by omega
      simp only [hki, decide_false, hkept, hiff]

theorem setBits_eq {mm mm' : RknpuMm} {n i : ℕ} (h : setBits mm n i = some mm') :
    mm' = { mm with bitmap := fun k => decide (i ≤ k ∧ k < i + n) || mm.bitmap k } := by
  refine bitLoop_eq (fun _ => rfl) (fun _ _ => rfl) (fun {mm mm' n i} hloop => ?_) h
  simp only [setBits, setBit] at hloop
  split_ifs at hloop
  · exact hloop
  · cases hloop

theorem clearBits_eq {mm mm' : RknpuMm} {n i : ℕ} (h : clearBits mm n i = some mm') :
    mm' = { mm with bitmap := fun k => !decide (i ≤ k ∧ k < i + n) && mm.bitmap k } := by
  refine bitLoop_eq (g := fun d b => !d && b) (fun _ => rfl) (fun _ _ => rfl)
    (fun {mm mm' n i} hloop => ?_) h
  simp only [clearBits, clearBit] at hloop
  split_ifs at hloop
  · exact hloop
  · cases hloop

theorem rknpuMmAlloc_found {mm mm' : RknpuMm} {size : UInt32} {objOk : Bool} {obj : RknpuMmObj}
    (h : rknpuMmAlloc mm size objOk = some (.ok (mm', obj))) :
    0 < size.toNat ∧ searchRange mm size.toNat 0 = some (some obj) ∧
      ∃ mid, (if size.toNat ≤ mm.chunkSize then setBit mm obj.rangeStart
          else setBits mm (obj.rangeEnd + 1 - obj.rangeStart) obj.rangeStart) = some mid ∧
        mm' = { mid with freeChunks := u32Sub mid.freeChunks obj.chunkCount } := by
  unfold rknpuMmAlloc at h
  split at h
  · cases h
  rename_i hpos
  split at h
  · cases h
  split at h
  · cases h
  split at h
  · cases h
  · cases h
  · rename_i found hfound
    rw [Option.map_eq_some_iff] at h
    obtain ⟨mid, hmid, hret⟩ := h
    cases hret
    exact ⟨Nat.pos_of_ne_zero hpos, hfound, mid, hmid, rfl⟩

/-- **A successful allocation**: a free range inside the pool becomes used, and the counter
drops by its length. -/
theorem rknpuMmAlloc_ok {mm mm' : RknpuMm} {size : UInt32} {objOk : Bool} {obj : RknpuMmObj}
    (h : rknpuMmAlloc mm size objOk = some (.ok (mm', obj))) :
    obj.rangeStart ≤ obj.rangeEnd ∧ obj.rangeEnd < mm.totalChunks ∧
      (∀ k, obj.rangeStart ≤ k → k ≤ obj.rangeEnd → mm.bitmap k = false) ∧
      mm' = { mm with
        bitmap := fun k => decide (obj.rangeStart ≤ k ∧ k ≤ obj.rangeEnd) || mm.bitmap k
        freeChunks := u32Sub mm.freeChunks obj.chunkCount } := by
  obtain ⟨-, hfound, mid, hmid, rfl⟩ := rknpuMmAlloc_found h
  obtain ⟨h1, h2, h3⟩ := searchRange_some hfound
  have hmarked : setBits mm (obj.rangeEnd + 1 - obj.rangeStart) obj.rangeStart = some mid := by
    split_ifs at hmid with hsize
    · have hone : obj.rangeEnd + 1 - obj.rangeStart = 1 := by
        have := searchRange_single hsize hfound
        omega
      rw [hone]
      simp [setBits, hmid]
    · exact hmid
  refine ⟨h1, h2, h3, ?_⟩
  rw [setBits_eq hmarked]
  congr 1
  funext k
  have hiff : (obj.rangeStart ≤ k ∧
      k < obj.rangeStart + (obj.rangeEnd + 1 - obj.rangeStart)) ↔
      (obj.rangeStart ≤ k ∧ k ≤ obj.rangeEnd) := by omega
  simp only [hiff]

theorem rknpuMmAlloc_length {mm mm' : RknpuMm} {size : UInt32} {objOk : Bool} {obj : RknpuMmObj}
    (h : rknpuMmAlloc mm size objOk = some (.ok (mm', obj))) :
    ∃ n, obj.rangeEnd = obj.rangeStart + n ∧ n * mm.chunkSize < size.toNat ∧
      size.toNat ≤ (n + 1) * mm.chunkSize := by
  obtain ⟨hpos, hfound, -⟩ := rknpuMmAlloc_found h
  exact searchRange_length hpos hfound

/-- **A release**: the object's range becomes free, and the counter grows by its length. -/
theorem rknpuMmFree_some {mm mm' : RknpuMm} {obj : RknpuMmObj}
    (h : rknpuMmFree mm obj = some mm') :
    mm' = { mm with
      bitmap := fun k => !decide (obj.rangeStart ≤ k ∧ k ≤ obj.rangeEnd) && mm.bitmap k
      freeChunks := u32 (mm.freeChunks + obj.chunkCount) } := by
  unfold rknpuMmFree at h
  rw [Option.map_eq_some_iff] at h
  obtain ⟨mid, hmid, rfl⟩ := h
  rw [clearBits_eq hmid]
  congr 1
  funext k
  have hiff : (obj.rangeStart ≤ k ∧ k < obj.rangeStart + (obj.rangeEnd + 1 - obj.rangeStart)) ↔
      (obj.rangeStart ≤ k ∧ k ≤ obj.rangeEnd) := by omega
  simp only [hiff]

end RknpuDriver.Mm
