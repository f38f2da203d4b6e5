import RknpuDriver.Mm.FirstFit

/-! # Releases

`rknpu_mm_free` undoes `rknpu_mm_alloc`, releases may be made in any order, and a pool whose
objects are all released is as it was made.

* `freeAll`: the releases of a list of objects, one after another.
* `Backed`: the chunks of the objects are in the memory of the bitmap.
* `release_inverts_iff`: the pools of which the three facts hold.
-/

namespace RknpuDriver.Mm
open RknpuDriver.Lib
set_option autoImplicit false

/-- `rknpu_mm_free` of each object of the list, in its order. -/
def freeAll (mm : RknpuMm) : List RknpuMmObj → Option RknpuMm
  | [] => some mm
  | obj :: objs => (rknpuMmFree mm obj).bind fun mm => freeAll mm objs

/-- The chunks of the live objects are in the memory of the bitmap. -/
def Backed (s : PoolState) : Prop := ∀ obj ∈ s.live, obj.rangeEnd < s.mm.bits

/-! ## One release -/

theorem setBits_lt {mm mm' : RknpuMm} {n i : ℕ} (h : setBits mm n i = some mm') (hn : 0 < n) :
    i + n ≤ mm.bits := by
  induction n generalizing mm i with
  | zero => omega
  | succ n ih =>
    simp only [setBits, setBit] at h
    split_ifs at h with hi
    · rw [Option.bind_some] at h
      cases n with
      | zero => omega
      | succ n =>
        have hrest := ih h (Nat.succ_pos n)
        simp only [RknpuMm.bits] at hrest ⊢
        omega
    · cases h

theorem clearBits_isSome {mm : RknpuMm} {n i : ℕ} (hn : i + n ≤ mm.bits) :
    ∃ mm', clearBits mm n i = some mm' := by
  induction n generalizing mm i with
  | zero => exact ⟨mm, rfl⟩
  | succ n ih =>
    simp only [clearBits, clearBit]
    rw [if_pos (by omega), Option.bind_some]
    apply ih
    simp only [RknpuMm.bits] at hn ⊢
    omega

theorem rknpuMmAlloc_lt_bits {mm mm' : RknpuMm} {size : UInt32} {objOk : Bool} {obj : RknpuMmObj}
    (h : rknpuMmAlloc mm size objOk = some (.ok (mm', obj))) : obj.rangeEnd < mm.bits := by
  have hle := (rknpuMmAlloc_ok h).1
  obtain ⟨-, hfound, mid, hmid, -⟩ := rknpuMmAlloc_found h
  split_ifs at hmid with hsize
  · rw [searchRange_single hsize hfound]
    unfold setBit at hmid
    split_ifs at hmid with hin
    exact hin
  · have hin := setBits_lt hmid (by omega)
    omega

theorem Backed.step {s t : PoolState} {call : PoolCall} (hb : Backed s)
    (h : poolStep s call = some t) : Backed t := by
  have hbits : t.mm.bits = s.mm.bits := by rw [step_sizes h]; rfl
  unfold Backed
  rw [hbits]
  obtain ⟨rfl, -⟩ | ⟨size, objOk, mm, obj, -, hret, rfl⟩ | ⟨index, obj, mm, -, -, -, rfl⟩ :=
    poolStep_cases h
  · exact hb
  · intro obj' hobj
    obtain hobj | hobj := List.mem_append.mp hobj
    · exact hb obj' hobj
    · rw [List.mem_singleton.mp hobj]
      exact rknpuMmAlloc_lt_bits hret
  · intro obj' hobj
    exact hb obj' (List.mem_of_mem_eraseIdx hobj)

theorem Backed.reachable {mm : RknpuMm} {s : PoolState} (h : (poolSystem mm).Reachable s) :
    Backed s := by
  refine h.invariant Backed (fun t ht => ?_) fun _ _ _ hs ht => hs.step ht
  rw [show t = ⟨mm, []⟩ from ht]
  intro obj hobj
  cases hobj

theorem free_isSome {mm : RknpuMm} {obj : RknpuMmObj} (hne : obj.rangeStart ≤ obj.rangeEnd)
    (hin : obj.rangeEnd < mm.bits) : ∃ mm', rknpuMmFree mm obj = some mm' := by
  obtain ⟨mid, hmid⟩ := clearBits_isSome
    (show obj.rangeStart + (obj.rangeEnd + 1 - obj.rangeStart) ≤ mm.bits by omega)
  exact ⟨_, by rw [rknpuMmFree, hmid]; rfl⟩

theorem Backed.free {s : PoolState} (hb : Backed s) (hs : Consistent s) {obj : RknpuMmObj}
    (hobj : obj ∈ s.live) : ∃ mm, rknpuMmFree s.mm obj = some mm :=
  free_isSome (hs.nonempty obj hobj) (hb obj hobj)

/-- **A release undoes the allocation**: the pool is as it was before. -/
theorem free_of_alloc {s : PoolState} (hs : Consistent s) {size : UInt32} {objOk : Bool}
    {mm : RknpuMm} {obj : RknpuMmObj} (h : rknpuMmAlloc s.mm size objOk = some (.ok (mm, obj))) :
    rknpuMmFree mm obj = some s.mm := by
  have hbits := rknpuMmAlloc_lt_bits h
  have hcount := (hs.alloc h).counted
  have hcount' := hs.counted
  have htotal := hs.total_lt
  obtain ⟨hne, hin, hclear, hmm⟩ := rknpuMmAlloc_ok h
  obtain ⟨mm', hfree⟩ := free_isSome hne (show obj.rangeEnd < mm.bits by rw [hmm]; exact hbits)
  subst hmm
  have hcard := chunkCount_eq hne (by omega)
  simp only [List.map_append, List.sum_append, List.map_cons, List.map_nil,
    List.sum_singleton] at hcount
  rw [hfree, rknpuMmFree_some hfree]
  congr 1
  have hbitmap : (fun k => !decide (obj.rangeStart ≤ k ∧ k ≤ obj.rangeEnd) &&
      (decide (obj.rangeStart ≤ k ∧ k ≤ obj.rangeEnd) || s.mm.bitmap k)) = s.mm.bitmap := by
    funext k
    by_cases hk : obj.rangeStart ≤ k ∧ k ≤ obj.rangeEnd
    · rw [decide_eq_true hk, hclear k hk.1 hk.2]
      rfl
    · rw [decide_eq_false hk]
      rfl
  have hcounter : u32 (u32Sub s.mm.freeChunks obj.chunkCount + obj.chunkCount) =
      s.mm.freeChunks := by
    simp only [hcard] at hcount ⊢
    rw [u32_of_lt] <;> omega
  simp only [hbitmap, hcounter]

/-! ## Any number of releases -/

/-- The chunks of a list of objects. -/
def chunksOf (objs : List RknpuMmObj) : ℕ := (objs.map fun obj => obj.chunks.card).sum

theorem chunksOf_cons (obj : RknpuMmObj) (objs : List RknpuMmObj) :
    chunksOf (obj :: objs) = obj.chunks.card + chunksOf objs := by
  simp [chunksOf]

theorem chunksOf_perm {objs objs' : List RknpuMmObj} (h : objs.Perm objs') :
    chunksOf objs = chunksOf objs' := (h.map _).sum_eq

/-- A pool with the chunks of the objects free. -/
def released (mm : RknpuMm) (objs : List RknpuMmObj) : RknpuMm :=
  { mm with
    bitmap := fun k => !(objs.any fun obj => decide (k ∈ obj.chunks)) && mm.bitmap k
    freeChunks := mm.freeChunks + chunksOf objs }

theorem released_perm {mm : RknpuMm} {objs objs' : List RknpuMmObj} (h : objs.Perm objs') :
    released mm objs = released mm objs' := by
  simp only [released, chunksOf_perm h, h.any_eq]

/-- **The releases of some live objects** free their chunks, in whatever order they are made. -/
theorem freeAll_eq {s : PoolState} {objs rest : List RknpuMmObj} (hs : Consistent s)
    (hb : Backed s) (hlive : s.live.Perm (objs ++ rest)) :
    freeAll s.mm objs = some (released s.mm objs) := by
  induction objs generalizing s with
  | nil => simp [freeAll, released, chunksOf]
  | cons obj objs ih =>
    have hmem : obj ∈ s.live := hlive.mem_iff.mpr (by simp)
    obtain ⟨mm, hfree⟩ := hb.free hs hmem
    have hfirst : Consistent ⟨s.mm, obj :: (objs ++ rest)⟩ := Consistent.perm hs hlive
    have hnext : Consistent ⟨mm, objs ++ rest⟩ := hfirst.free
      (show (obj :: (objs ++ rest))[0]? = some obj from rfl) hfree
    have hcount := hfirst.counted
    have hcount' := hnext.counted
    have hmm := rknpuMmFree_some hfree
    have hb' : Backed ⟨mm, objs ++ rest⟩ := by
      intro o ho
      rw [hmm]
      exact hb o (hlive.mem_iff.mpr (List.mem_cons_of_mem obj ho))
    simp only [freeAll, hfree, Option.bind_some]
    rw [ih hnext hb' (List.Perm.refl _)]
    have hfreeChunks : mm.freeChunks = s.mm.freeChunks + obj.chunks.card := by
      have htotal : mm.totalChunks = s.mm.totalChunks := by rw [hmm]
      simp only [List.map_cons, List.sum_cons] at hcount hcount'
      omega
    have hbitmap : ∀ k, mm.bitmap k = (!decide (k ∈ obj.chunks) && s.mm.bitmap k) := by
      intro k
      rw [hmm]
      simp only [mem_chunks]
    congr 1
    unfold released
    rw [chunksOf_cons, hfreeChunks, Nat.add_assoc]
    have hfun : (fun k => !(objs.any fun o => decide (k ∈ o.chunks)) && mm.bitmap k) =
        fun k => !((obj :: objs).any fun o => decide (k ∈ o.chunks)) && s.mm.bitmap k := by
      funext k
      rw [hbitmap, List.any_cons, Bool.not_or, ← Bool.and_assoc, Bool.and_comm (!decide _)]
    rw [hfun, hmm]

theorem total_pos_of_create {memSize chunkSize : UInt32} {mmOk bitmapOk : Bool} {mm : RknpuMm}
    (h : rknpuMmCreate memSize chunkSize mmOk bitmapOk = .ok mm) : 0 < mm.totalChunks := by
  unfold rknpuMmCreate at h
  split_ifs at h
  cases h
  exact Nat.div_pos (by omega) (by omega)

theorem released_live {memSize chunkSize : UInt32} {mmOk bitmapOk : Bool} {mm : RknpuMm}
    (hcreate : rknpuMmCreate memSize chunkSize mmOk bitmapOk = .ok mm) {s : PoolState}
    (hs : (poolSystem mm).Reachable s) : released s.mm s.live = mm := by
  have hc := (consistent_of_create hcreate).reachable hs
  have hcount : s.mm.freeChunks + chunksOf s.live = s.mm.totalChunks := hc.counted
  have hsizes := reachable_sizes hs
  have hempty : ∀ k, mm.bitmap k = false ∧ mm.freeChunks = mm.totalChunks := by
    unfold rknpuMmCreate at hcreate
    split_ifs at hcreate
    cases hcreate
    exact fun _ => ⟨rfl, rfl⟩
  have hbitmap : (fun k => !(s.live.any fun obj => decide (k ∈ obj.chunks)) && s.mm.bitmap k) =
      mm.bitmap := by
    funext k
    rw [(hempty k).1, Bool.and_eq_false_iff]
    cases hk : s.mm.bitmap k with
    | false => exact .inr rfl
    | true =>
      obtain ⟨obj, hobj, hin⟩ := (hc.owned.used_iff k).mp hk
      left
      have hany : s.live.any (fun obj => decide (k ∈ obj.chunks)) = true :=
        List.any_eq_true.mpr ⟨obj, hobj, decide_eq_true hin⟩
      rw [hany]
      rfl
  unfold released
  rw [hbitmap, hcount, hsizes]
  show RknpuMm.mk _ _ _ _ mm.totalChunks = RknpuMm.mk _ _ _ _ mm.freeChunks
  rw [(hempty 0).2]

theorem alloc_whole {mm : RknpuMm} (hm : Sized mm) (hempty : ∀ i, mm.bitmap i = false)
    (hpos : 0 < mm.totalChunks) :
    ∃ mm', rknpuMmAlloc mm (UInt32.ofNat (mm.totalChunks * mm.chunkSize)) true =
      some (.ok (mm', ⟨0, mm.totalChunks - 1⟩)) := by
  have hchunk := hm.chunk_pos
  have hsize : (UInt32.ofNat (mm.totalChunks * mm.chunkSize)).toNat =
      mm.totalChunks * mm.chunkSize := UInt32.toNat_ofNat_of_lt' hm.size_lt
  have hpos' : 0 < mm.totalChunks * mm.chunkSize := Nat.mul_pos hpos hchunk
  have hn : chunksFor mm (mm.totalChunks * mm.chunkSize) = mm.totalChunks := by
    apply Nat.le_antisymm
    · apply Nat.le_of_not_lt
      rw [lt_chunksFor hchunk]
      exact Nat.lt_irrefl _
    · rw [← Nat.sub_add_cancel hpos, Nat.succ_le_iff, lt_chunksFor hchunk]
      exact Nat.mul_lt_mul_of_pos_right (by omega) hchunk
  have hrun : FreeRun mm mm.totalChunks 0 := ⟨by omega, fun k _ _ => hempty k⟩
  obtain ⟨found, hfound⟩ := searchRange_isSome hm (mm.totalChunks * mm.chunkSize) 0
  cases found with
  | none =>
    rw [← hn] at hrun
    exact absurd hrun (searchRange_none hchunk hpos' hfound (Nat.zero_le 0))
  | some obj =>
    obtain ⟨hend, hfirst⟩ := searchRange_firstFit hchunk hpos' hfound
    have hin := hfirst.run.1
    rw [hn] at hend hin
    have hobj : obj = ⟨0, mm.totalChunks - 1⟩ := by
      cases obj
      simp only [RknpuMmObj.mk.injEq] at hend hin ⊢
      omega
    rw [← hobj]
    exact alloc_of_search hm (by omega) (by rw [hsize]; exact hfound)

theorem bits_of_create {memSize chunkSize : UInt32} {mmOk bitmapOk : Bool} {mm : RknpuMm}
    (h : rknpuMmCreate memSize chunkSize mmOk bitmapOk = .ok mm)
    (hwrap : 2 ^ 32 < memSize.toNat / chunkSize.toNat + bitsPerLong) : mm.bits = 0 := by
  have hlt : memSize.toNat / chunkSize.toNat < 2 ^ 32 :=
    lt_of_le_of_lt (Nat.div_le_self _ _) memSize.toNat_lt
  unfold rknpuMmCreate at h
  split_ifs at h
  cases h
  simp only [RknpuMm.bits, bitsPerLong, u32] at hwrap ⊢
  omega

theorem freeAll_comm {s : PoolState} (hs : Consistent s) (hb : Backed s)
    {objs objs' : List RknpuMmObj} (hsub : objs.Subperm s.live) (hperm : objs.Perm objs') :
    ∃ mm', freeAll s.mm objs = some mm' ∧ freeAll s.mm objs' = some mm' := by
  obtain ⟨part, hpart, hsublist⟩ := hsub
  obtain ⟨rest, hrest⟩ := hsublist.exists_perm_append
  have hlive := hrest.trans (hpart.append_right rest)
  refine ⟨released s.mm objs, freeAll_eq hs hb hlive, ?_⟩
  rw [released_perm hperm]
  exact freeAll_eq hs hb (hlive.trans (hperm.append_right rest))

theorem freeAll_live {memSize chunkSize : UInt32} {mmOk bitmapOk : Bool} {mm : RknpuMm}
    (hcreate : rknpuMmCreate memSize chunkSize mmOk bitmapOk = .ok mm) {s : PoolState}
    (hs : (poolSystem mm).Reachable s) {objs : List RknpuMmObj} (hperm : objs.Perm s.live) :
    freeAll s.mm objs = some mm := by
  have hc := (consistent_of_create hcreate).reachable hs
  have hlive : s.live.Perm (objs ++ []) := by
    rw [List.append_nil]
    exact hperm.symm
  rw [freeAll_eq hc (Backed.reachable hs) hlive, released_perm hperm, released_live hcreate hs]

/-- A release right after an allocation restores the pool; live objects may be released in any
order, with the same result; and once all are released, the pool is empty again and grants the
whole of its memory. -/
structure Inverts (s : PoolState) : Prop where
  undone : ∀ size objOk mm' obj, rknpuMmAlloc s.mm size objOk = some (.ok (mm', obj)) →
    rknpuMmFree mm' obj = some s.mm
  commute : ∀ objs objs', objs.Subperm s.live → objs.Perm objs' →
    ∃ mm', freeAll s.mm objs = some mm' ∧ freeAll s.mm objs' = some mm'
  emptied : ∀ objs, objs.Perm s.live → ∃ mm', freeAll s.mm objs = some mm' ∧
    (∀ i, mm'.bitmap i = false) ∧ mm'.freeChunks = mm'.totalChunks ∧
    ∃ mm'', rknpuMmAlloc mm' (UInt32.ofNat (mm'.totalChunks * mm'.chunkSize)) true =
      some (.ok (mm'', ⟨0, mm'.totalChunks - 1⟩))

/-- **When releases invert allocations**: in every reachable state of the pools whose bitmap has a
bit for each chunk, and in none of the others. -/
theorem release_inverts_iff {memSize chunkSize : UInt32} {mmOk bitmapOk : Bool} {mm : RknpuMm}
    (hcreate : rknpuMmCreate memSize chunkSize mmOk bitmapOk = .ok mm) {s : PoolState}
    (hs : (poolSystem mm).Reachable s) :
    Inverts s ↔ memSize.toNat / chunkSize.toNat + bitsPerLong ≤ 2 ^ 32 := by
  have hfresh := consistent_of_create hcreate
  constructor
  · intro h
    by_contra hwrap
    obtain ⟨mm', hfree, -, -, mm'', halloc⟩ := h.emptied s.live (List.Perm.refl _)
    rw [freeAll_live hcreate hs (List.Perm.refl _), Option.some.injEq] at hfree
    subst hfree
    have hlt := rknpuMmAlloc_lt_bits halloc
    rw [bits_of_create hcreate (Nat.lt_of_not_le hwrap)] at hlt
    exact Nat.not_lt_zero _ hlt
  · intro hlongs
    have hc := hfresh.reachable hs
    refine ⟨fun size objOk mm' obj h => free_of_alloc hc h, fun objs objs' hsub hperm =>
      freeAll_comm hc (Backed.reachable hs) hsub hperm, fun objs hperm => ?_⟩
    have hbitmap : ∀ i, mm.bitmap i = false := by
      intro i
      by_contra hused
      obtain ⟨obj, hobj, -⟩ := (hfresh.owned.used_iff i).mp (Bool.eq_true_of_not_eq_false hused)
      cases hobj
    have hcount : mm.freeChunks + 0 = mm.totalChunks := hfresh.counted
    refine ⟨mm, freeAll_live hcreate hs hperm, hbitmap, hcount, ?_⟩
    exact alloc_whole (sized_of_create hlongs hcreate) hbitmap (total_pos_of_create hcreate)

/-- Three pages are taken in two requests and given back, the last ones first. -/
theorem release_inverts_three_chunks : ∃ s mm', (poolSystem threeChunks).Reachable s ∧
    s.live = [⟨0, 0⟩, ⟨1, 2⟩] ∧ freeAll s.mm [⟨1, 2⟩, ⟨0, 0⟩] = some mm' ∧
    ∃ mm'', rknpuMmAlloc mm' (UInt32.ofNat (mm'.totalChunks * mm'.chunkSize)) true =
      some (.ok (mm'', ⟨0, mm'.totalChunks - 1⟩)) := by
  have hrun : ((poolSystem threeChunks).run ⟨threeChunks, []⟩
      [.alloc 4096 true, .alloc 8192 true]).map (fun s => s.live) = some [⟨0, 0⟩, ⟨1, 2⟩] := by
    decide +kernel
  obtain ⟨s, hs, hlive⟩ := Option.map_eq_some_iff.mp hrun
  have hreach : (poolSystem threeChunks).Reachable s := ⟨_, _, rfl, hs⟩
  have hinverts : Inverts s :=
    (@release_inverts_iff 12288 4096 true true threeChunks rfl s hreach).mpr (by decide)
  obtain ⟨mm', hfree, -, -, halloc⟩ := hinverts.emptied [⟨1, 2⟩, ⟨0, 0⟩] (by
    rw [hlive]
    exact List.Perm.swap _ _ _)
  exact ⟨s, mm', hreach, hlive, hfree, halloc⟩

/-- `2^32 - 1` chunks of a byte get a bitmap of no long: nothing can be allocated. -/
theorem release_stuck : ∃ mm, rknpuMmCreate 4294967295 1 true true = .ok mm ∧
    mm.totalChunks * mm.chunkSize = 4294967295 ∧ (poolSystem mm).Reachable ⟨mm, []⟩ ∧
    (∀ size mm' obj, rknpuMmAlloc mm size true ≠ some (.ok (mm', obj))) ∧ ¬ Inverts ⟨mm, []⟩ := by
  have hstuck : ∀ {size mm' obj},
      rknpuMmAlloc ⟨fun _ => false, 0, 1, 4294967295, 4294967295⟩ size true ≠
        some (.ok (mm', obj)) :=
    fun halloc => Nat.not_lt_zero _ (rknpuMmAlloc_lt_bits halloc)
  refine ⟨⟨fun _ => false, 0, 1, 4294967295, 4294967295⟩, rfl, rfl, .init rfl,
    fun _ _ _ => hstuck, fun h => ?_⟩
  obtain ⟨mm', hfree, -, -, mm'', halloc⟩ := h.emptied [] (List.Perm.refl _)
  cases hfree
  exact hstuck halloc

end RknpuDriver.Mm
