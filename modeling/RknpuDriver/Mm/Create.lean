import RknpuDriver.Mm.Release

/-! # The memory of `rknpu_mm_create`

`rknpu_mm_create` allocates the structure and its bitmap, and `rknpu_mm_destroy` gives both back.
A call is a ledger of what it allocated and what it passed to `kfree`. The error exit of the
source passes `mm`, which is the address of the caller's pointer and not the structure. For more
than `2^32 - 64` chunks the number of longs wraps to zero, and `kcalloc` of nothing succeeds with
a pointer to no memory.

* `createCall_pool`: the pool is that of `rknpuMmCreate`.
* `SoundCreate`: the bitmap holds all bits of a pool that is made; a call that fails gives back
  what it took.
* `create_sound_iff`: the sizes and outcomes for which this is so.
* `rknpuMmDestroy_releases`: a pool that is destroyed gives back what its creation took.
-/

namespace RknpuDriver.Mm
open RknpuDriver.Lib
set_option autoImplicit false

/-- The pointers of a call: `mm` itself, the structure at `*mm`, and its bitmap. -/
inductive MmPtr where
  | callerPtr
  | mm
  | bitmap
  deriving DecidableEq, Repr

/-- A call of `rknpu_mm_create`: what it returns, the pool when that is `0`, and the pointers it
got from the allocator and gave to `kfree`. -/
structure MmCreate where
  ret : ℤ
  pool : Option RknpuMm
  allocated : List MmPtr
  freed : List MmPtr

/-- The length of the bitmap of a pool of `totalChunks` chunks, in `unsigned int`. -/
def numOfLongs (totalChunks : ℕ) : ℕ := u32 (totalChunks + bitsPerLong - 1) / bitsPerLong

/-- `kcalloc(n, sizeof(long), GFP_KERNEL)`: the memory it takes, or `none` when it fails; no long
needs no memory. -/
def kcallocLongs (n : ℕ) (ok : Bool) : Option (List MmPtr) :=
  if n = 0 then some [] else if ok then some [.bitmap] else none

/-- The fields that `rknpu_mm_create` sets. -/
def newMm (memSize chunkSize : UInt32) : RknpuMm :=
  let totalChunks := memSize.toNat / chunkSize.toNat
  { bitmap := fun _ => false
    numOfLongs := numOfLongs totalChunks
    chunkSize := chunkSize.toNat
    totalChunks := totalChunks
    freeChunks := totalChunks }

/-- `rknpu_mm_create`; `mmOk` and `bitmapOk` are the outcomes of its two allocations. -/
def rknpuMmCreateCall (memSize chunkSize : UInt32) (mmOk bitmapOk : Bool) : MmCreate :=
  if memSize.toNat < chunkSize.toNat then ⟨-einval, none, [], []⟩
  else if memSize.toNat = 0 then ⟨-einval, none, [], []⟩
  else if chunkSize.toNat = 0 then ⟨-einval, none, [], []⟩
  else if !mmOk then ⟨-enomem, none, [], []⟩
  else
    let mm := newMm memSize chunkSize
    match kcallocLongs mm.numOfLongs bitmapOk with
    | none => ⟨-enomem, none, [.mm], [.callerPtr]⟩
    | some bitmap => ⟨0, some mm, .mm :: bitmap, []⟩

/-- `rknpu_mm_destroy` of a pool that was made: what it gives to `kfree`, which ignores a pointer
to no memory. -/
def rknpuMmDestroy (mm : RknpuMm) : List MmPtr :=
  if mm.numOfLongs = 0 then [.mm] else [.bitmap, .mm]

/-- The sizes that `rknpu_mm_create` takes. -/
structure Accepted (memSize chunkSize : UInt32) : Prop where
  le : chunkSize.toNat ≤ memSize.toNat
  size_pos : 0 < memSize.toNat
  chunk_pos : 0 < chunkSize.toNat

/-! ## Cases of a call -/

section
variable {memSize chunkSize : UInt32} {mmOk bitmapOk : Bool}

theorem createCall_refused (h : ¬Accepted memSize chunkSize) :
    rknpuMmCreateCall memSize chunkSize mmOk bitmapOk = ⟨-einval, none, [], []⟩ := by
  unfold rknpuMmCreateCall
  split_ifs with hlt hsize hchunk
  · rfl
  · rfl
  · rfl
  all_goals exact absurd ⟨by omega, by omega, by omega⟩ h

theorem createCall_no_struct (h : Accepted memSize chunkSize) :
    rknpuMmCreateCall memSize chunkSize false bitmapOk = ⟨-enomem, none, [], []⟩ := by
  have hlt := Nat.not_lt_of_le h.le
  have hsize := Nat.ne_of_gt h.size_pos
  have hchunk := Nat.ne_of_gt h.chunk_pos
  simp [rknpuMmCreateCall, hlt, hsize, hchunk]

theorem createCall_accepted (h : Accepted memSize chunkSize) :
    rknpuMmCreateCall memSize chunkSize true bitmapOk =
      match kcallocLongs (newMm memSize chunkSize).numOfLongs bitmapOk with
      | none => ⟨-enomem, none, [.mm], [.callerPtr]⟩
      | some bitmap => ⟨0, some (newMm memSize chunkSize), .mm :: bitmap, []⟩ := by
  have hlt := Nat.not_lt_of_le h.le
  have hsize := Nat.ne_of_gt h.size_pos
  have hchunk := Nat.ne_of_gt h.chunk_pos
  simp [rknpuMmCreateCall, hlt, hsize, hchunk]

theorem rknpuMmCreate_accepted (h : Accepted memSize chunkSize) :
    rknpuMmCreate memSize chunkSize mmOk bitmapOk =
      if mmOk && bitmapOk then .ok (newMm memSize chunkSize) else .error (-enomem) := by
  unfold rknpuMmCreate
  rw [if_neg (Nat.not_lt_of_le h.le), if_neg (Nat.ne_of_gt h.size_pos),
    if_neg (Nat.ne_of_gt h.chunk_pos)]
  cases mmOk <;> cases bitmapOk <;> rfl

/-- **The pool** is that of the model without memory, where a bitmap of no long is always
allocated. -/
theorem createCall_pool (memSize chunkSize : UInt32) (mmOk bitmapOk : Bool) :
    (rknpuMmCreateCall memSize chunkSize mmOk bitmapOk).pool =
      (rknpuMmCreate memSize chunkSize mmOk
        (bitmapOk || (newMm memSize chunkSize).numOfLongs = 0)).toOption := by
  by_cases h : Accepted memSize chunkSize
  · rw [rknpuMmCreate_accepted h]
    cases mmOk with
    | false =>
      rw [createCall_no_struct h]
      rfl
    | true =>
      rw [createCall_accepted h]
      unfold kcallocLongs
      by_cases hlongs : (newMm memSize chunkSize).numOfLongs = 0
      · simp [hlongs, Except.toOption]
      · cases bitmapOk <;> simp [hlongs, Except.toOption]
  · rw [createCall_refused h]
    unfold rknpuMmCreate
    split_ifs with hlt hsize hchunk
    · rfl
    · rfl
    · rfl
    all_goals exact absurd ⟨by omega, by omega, by omega⟩ h

/-! ## The length of the bitmap -/

theorem numOfLongs_wraps {t : ℕ} (hlt : t < 2 ^ 32) (h : 2 ^ 32 < t + bitsPerLong) :
    numOfLongs t = 0 := by
  have hsum : u32 (t + bitsPerLong - 1) = t + bitsPerLong - 1 - 2 ^ 32 := by
    unfold u32
    simp only [bitsPerLong] at h ⊢
    omega
  unfold numOfLongs
  rw [hsum]
  simp only [bitsPerLong]
  omega

theorem numOfLongs_enough {t : ℕ} (h : t + bitsPerLong ≤ 2 ^ 32) :
    t ≤ bitsPerLong * numOfLongs t := by
  unfold numOfLongs
  simp only [bitsPerLong] at h ⊢
  rw [u32_of_lt (by omega)]
  omega

theorem rknpuMmAlloc_isSome {mm : RknpuMm} (hm : Sized mm) (size : UInt32) (objOk : Bool) :
    rknpuMmAlloc mm size objOk ≠ none := by
  by_cases hsize : size.toNat = 0
  · simp [rknpuMmAlloc, hsize]
  cases objOk with
  | false =>
    simp only [rknpuMmAlloc, if_neg hsize, Bool.not_false, if_true]
    split_ifs <;> simp
  | true =>
    obtain ⟨found, hfound⟩ := searchRange_isSome hm size.toNat 0
    cases found with
    | none =>
      simp only [rknpuMmAlloc, hfound]
      split_ifs <;> simp
    | some obj =>
      obtain ⟨mm', hret⟩ := alloc_of_search hm (Nat.pos_of_ne_zero hsize) hfound
      simp [hret]

/-! ## Sound calls -/

/-- A pool that is made has a bit for each chunk and a size that does not wrap, so that no
allocation in any history of it leaves the bitmap; a call that fails frees just what it
allocated. -/
structure SoundCreate (c : MmCreate) : Prop where
  made : c.ret = 0 → ∃ mm, c.pool = some mm ∧ mm.totalChunks ≤ mm.bits ∧
    mm.totalChunks * mm.chunkSize < 2 ^ 32 ∧
    ∀ s, (poolSystem mm).Reachable s → ∀ size objOk, rknpuMmAlloc s.mm size objOk ≠ none
  unwound : c.ret ≠ 0 → c.freed.Perm c.allocated

theorem soundCreate_refused (e : ℤ) (he : e ≠ 0) : SoundCreate ⟨e, none, [], []⟩ :=
  ⟨fun h => absurd h he, fun _ => List.Perm.refl _⟩

theorem soundCreate_made {mm : RknpuMm} (hm : Sized mm) (allocated : List MmPtr) :
    SoundCreate ⟨0, some mm, allocated, []⟩ := by
  refine ⟨fun _ => ⟨mm, rfl, hm.longs, hm.size_lt, fun s hs size objOk => ?_⟩,
    fun h => absurd rfl h⟩
  exact rknpuMmAlloc_isSome (hm.reachable hs) size objOk

/-- **When `rknpu_mm_create` is all-or-nothing**: the sizes are refused, or the structure cannot
be allocated, or both allocations succeed for a pool of at most `2^32 - 64` chunks. -/
theorem create_sound_iff (memSize chunkSize : UInt32) (mmOk bitmapOk : Bool) :
    SoundCreate (rknpuMmCreateCall memSize chunkSize mmOk bitmapOk) ↔
      (Accepted memSize chunkSize → mmOk = true →
        bitmapOk = true ∧ memSize.toNat / chunkSize.toNat + bitsPerLong ≤ 2 ^ 32) := by
  by_cases h : Accepted memSize chunkSize
  · have htotal : 0 < memSize.toNat / chunkSize.toNat := Nat.div_pos h.le h.chunk_pos
    have hlt : memSize.toNat / chunkSize.toNat < 2 ^ 32 :=
      lt_of_le_of_lt (Nat.div_le_self _ _) memSize.toNat_lt
    cases mmOk with
    | false =>
      rw [createCall_no_struct h]
      exact iff_of_true (soundCreate_refused _ (by decide)) fun _ hok => absurd hok (by decide)
    | true =>
      rw [createCall_accepted h]
      constructor
      · intro hsound _ _
        by_cases hwrap : 2 ^ 32 < memSize.toNat / chunkSize.toNat + bitsPerLong
        · have hzero : (newMm memSize chunkSize).numOfLongs = 0 := numOfLongs_wraps hlt hwrap
          simp only [kcallocLongs, if_pos hzero] at hsound
          obtain ⟨mm, hpool, hbits, -⟩ := hsound.made rfl
          cases hpool
          rw [RknpuMm.bits, hzero, Nat.mul_zero] at hbits
          exact absurd htotal (Nat.not_lt_of_le hbits)
        · refine ⟨?_, Nat.le_of_not_lt hwrap⟩
          have henough := numOfLongs_enough (Nat.le_of_not_lt hwrap)
          have hlongs : (newMm memSize chunkSize).numOfLongs ≠ 0 := by
            intro hzero
            have hnone : numOfLongs (memSize.toNat / chunkSize.toNat) = 0 := hzero
            rw [hnone, Nat.mul_zero] at henough
            omega
          by_contra hfail
          simp only [kcallocLongs, if_neg hlongs, if_neg hfail] at hsound
          have hperm := hsound.unwound (by decide)
          exact absurd (hperm.mem_iff.mp (List.mem_singleton_self MmPtr.callerPtr)) (by decide)
      · intro hcond
        obtain ⟨rfl, hfits⟩ := hcond h rfl
        have hm : Sized (newMm memSize chunkSize) :=
          ⟨h.chunk_pos, lt_of_le_of_lt (Nat.div_mul_le_self _ _) memSize.toNat_lt,
            numOfLongs_enough hfits⟩
        unfold kcallocLongs
        rw [if_pos rfl]
        split_ifs <;> exact soundCreate_made hm _
  · rw [createCall_refused h]
    exact iff_of_true (soundCreate_refused _ (by decide)) fun hacc => absurd hacc h

/-- **A pool that is destroyed** gives back just what its creation took. -/
theorem rknpuMmDestroy_releases {mm : RknpuMm}
    (h : (rknpuMmCreateCall memSize chunkSize mmOk bitmapOk).pool = some mm) :
    (rknpuMmDestroy mm).Perm (rknpuMmCreateCall memSize chunkSize mmOk bitmapOk).allocated := by
  by_cases hacc : Accepted memSize chunkSize
  · cases mmOk with
    | false =>
      rw [createCall_no_struct hacc] at h
      cases h
    | true =>
      rw [createCall_accepted hacc] at h ⊢
      by_cases hlongs : (newMm memSize chunkSize).numOfLongs = 0
      · simp only [kcallocLongs, if_pos hlongs] at h ⊢
        cases h
        rw [rknpuMmDestroy, if_pos hlongs]
      · cases bitmapOk with
        | false =>
          simp only [kcallocLongs, if_neg hlongs] at h
          cases h
        | true =>
          simp only [kcallocLongs, if_neg hlongs, if_true] at h ⊢
          cases h
          rw [rknpuMmDestroy, if_neg hlongs]
          exact List.Perm.swap _ _ _
  · rw [createCall_refused hacc] at h
    cases h

end

/-- Without memory for the bitmap the caller's pointer is freed and the structure is lost; and
`2^32 - 1` chunks of a byte get a bitmap of no long. -/
theorem create_unsound :
    rknpuMmCreateCall 4096 4096 true false = ⟨-enomem, none, [.mm], [.callerPtr]⟩ ∧
      ¬SoundCreate (rknpuMmCreateCall 4096 4096 true false) ∧
      ((rknpuMmCreateCall 4294967295 1 true true).pool.map fun mm => (mm.totalChunks, mm.bits)) =
        some (4294967295, 0) ∧
      ¬SoundCreate (rknpuMmCreateCall 4294967295 1 true true) := by
  have hfailed : rknpuMmCreateCall 4096 4096 true false =
      ⟨-enomem, none, [.mm], [.callerPtr]⟩ := rfl
  have hwrapped : ((rknpuMmCreateCall 4294967295 1 true true).pool.map fun mm =>
      (mm.totalChunks, mm.bits)) = some (4294967295, 0) := by decide
  refine ⟨hfailed, fun h => ?_, hwrapped, fun h => ?_⟩
  · rw [hfailed] at h
    have hperm := h.unwound (by decide)
    exact absurd (hperm.mem_iff.mp (List.mem_singleton_self MmPtr.callerPtr)) (by decide)
  · obtain ⟨mm, hpool, hbits, -⟩ := h.made (by decide)
    rw [hpool, Option.map_some, Option.some.injEq, Prod.mk.injEq] at hwrapped
    omega

end RknpuDriver.Mm
