import RknpuDriver.Buffer.Views

/-! # What a mapping touches

`rknpu_gem_mmap_buffer` accepts every mapping that is no longer than the object. For an object
with a part on the chip `rknpu_gem_mmap_cache` maps this part in full and subtracts its size from
that of the mapping, which may be the smaller of the two.

* `MmapRun`: what a run mapped and read, whether or not it failed in the end.
* `mmapCacheRun_ok`: the run of a mapping that succeeds.
* `mmap_inside_iff`: which mappings keep to the `vm_area_struct` and to the object.
-/

namespace RknpuDriver.Buffer
open RknpuDriver.Lib RknpuDriver.Mm
set_option autoImplicit false

/-! ## Runs of `rknpu_gem_mmap_cache` -/

/-- The page tables at the end of a run, the two sides of the subtraction that `num_pages` is
computed from, and the indices of the pages that were read. -/
structure MmapRun where
  tr : Translation
  difference : Option (ℕ × ℕ)
  read : List ℕ

/-- The loop over the pages, up to its end or its first failure. -/
def insertPagesRun (rets : ℕ → ℤ) (vma : Vma) (pages : List ℕ) :
    ℕ → ℕ → ℕ → Translation → Translation × List ℕ
  | 0, _, _, tr => (tr, [])
  | n + 1, i, offset, tr =>
    match pages[i]? with
    | none => (tr, [i])
    | some page =>
      match vmInsertPage (rets i) vma tr (vma.vmStart + offset) page with
      | .error _ => (tr, [i])
      | .ok tr =>
        let rest := insertPagesRun rets vma pages n (i + 1) (offset + pageSize) tr
        (rest.1, i :: rest.2)

/-- A run of `rknpu_gem_mmap_cache`. -/
def mmapCacheRun (dev : RknpuDevice) (mm : Option RknpuMm) (obj : RknpuGemObject)
    (vma : Vma) (type : RknpuCacheType) (out : MmapOutcome) : Option MmapRun := do
  let (cacheStart, cacheSize) ← cacheRange dev mm obj type
  let laid ← remapCache dev obj vma cacheStart cacheSize out.cacheRets fun _ => none
  match laid.refused with
  | some _ => some ⟨laid.tr, none, []⟩
  | none =>
    if obj.size = 0 then some ⟨laid.tr, none, []⟩
    else
      let numPages := u64Sub vma.size cacheSize / pageSize
      let inserted :=
        insertPagesRun out.insertRets vma (obj.pages.getD []) numPages 0 cacheSize laid.tr
      some ⟨inserted.1, some (vma.size, cacheSize), inserted.2⟩

theorem insertPagesRun_ok {rets : ℕ → ℤ} {vma : Vma} {pages : List ℕ} {n i offset : ℕ}
    {tr tr' : Translation} (h : insertPages rets vma pages n i offset tr = some (.ok tr')) :
    insertPagesRun rets vma pages n i offset tr = (tr', List.range' i n) := by
  induction n generalizing i offset tr with
  | zero =>
    cases h
    rfl
  | succ n ih =>
    unfold insertPages at h
    unfold insertPagesRun
    cases hpage : pages[i]? with
    | none =>
      rw [hpage] at h
      cases h
    | some page =>
      rw [hpage] at h
      cases hinsert : vmInsertPage (rets i) vma tr (vma.vmStart + offset) page with
      | error e =>
        simp only [hinsert] at h
        cases h
      | ok mid =>
        simp only [hinsert] at h
        simp only [hinsert, ih h, List.range'_succ]

theorem mmapCacheRun_eq {dev : RknpuDevice} {mm : Option RknpuMm} {obj : RknpuGemObject}
    {vma : Vma} {type : RknpuCacheType} {out : MmapOutcome} {cacheStart cacheSize left : ℕ}
    {tr : Translation} (hrange : cacheRange dev mm obj type = some (cacheStart, cacheSize))
    (hlaid : remapCache dev obj vma cacheStart cacheSize out.cacheRets (fun _ => none) =
      some ⟨none, tr, left⟩) (hsize : obj.size ≠ 0) :
    mmapCacheRun dev mm obj vma type out =
      some ⟨(insertPagesRun out.insertRets vma (obj.pages.getD [])
          (u64Sub vma.size cacheSize / pageSize) 0 cacheSize tr).1, some (vma.size, cacheSize),
        (insertPagesRun out.insertRets vma (obj.pages.getD [])
          (u64Sub vma.size cacheSize / pageSize) 0 cacheSize tr).2⟩ := by
  simp only [mmapCacheRun, Option.bind_eq_bind, hrange, Option.bind_some, hlaid, if_neg hsize]

/-- The run of a mapping that succeeds ends with its page tables. -/
theorem mmapCacheRun_ok {dev : RknpuDevice} {mm : Option RknpuMm} {obj : RknpuGemObject}
    {vma : Vma} {type : RknpuCacheType} {out : MmapOutcome} {tr : Translation}
    (h : rknpuGemMmapCache dev mm obj vma type out = some (.ok tr)) :
    ∃ run, mmapCacheRun dev mm obj vma type out = some run ∧ run.tr = tr := by
  simp only [rknpuGemMmapCache, Option.bind_eq_bind, Option.bind_eq_some_iff] at h
  obtain ⟨⟨cacheStart, cacheSize⟩, hrange, ⟨refused, mid, left⟩, hlaid, h⟩ := h
  cases refused with
  | some e => cases h
  | none =>
    by_cases hsize : obj.size = 0
    · simp only [if_pos hsize] at h
      cases h
      have hrun : mmapCacheRun dev mm obj vma type out = some ⟨tr, none, []⟩ := by
        simp only [mmapCacheRun, Option.bind_eq_bind, hrange, Option.bind_some, hlaid,
          if_pos hsize]
      exact ⟨_, hrun, rfl⟩
    · simp only [if_neg hsize] at h
      exact ⟨_, mmapCacheRun_eq hrange hlaid hsize, by rw [insertPagesRun_ok h]⟩

/-! ## Mappings that keep to their place -/

/-- A run maps addresses of the mapping only, reads pages of the object only, and its subtraction
does not wrap. -/
structure MmapRun.Inside (run : MmapRun) (o : RknpuGemObject) (vma : Vma) : Prop where
  mapped : ∀ x, run.tr x ≠ none → vma.vmStart ≤ x ∧ x < vma.vmEnd
  noWrap : ∀ a b, run.difference = some (a, b) → b ≤ a
  read : ∀ i ∈ run.read, i < o.size / pageSize

/-- What `rknpu_gem_mmap_buffer` maps first, of an object with a part on the chip. -/
def RknpuGemObject.cacheKind (o : RknpuGemObject) : RknpuCacheType :=
  if 0 < o.sramSize then .sram else .nbuf

theorem insertPagesRun_inside (rets : ℕ → ℤ) {vma : Vma} (pages : List ℕ) {n : ℕ} (i : ℕ)
    {offset : ℕ} {tr : Translation} (hin : vma.vmStart + offset + n * pageSize ≤ vma.vmEnd)
    (htr : ∀ x, tr x ≠ none → vma.vmStart ≤ x ∧ x < vma.vmEnd) :
    (∀ x, (insertPagesRun rets vma pages n i offset tr).1 x ≠ none →
      vma.vmStart ≤ x ∧ x < vma.vmEnd) ∧
    ∀ j ∈ (insertPagesRun rets vma pages n i offset tr).2, j < i + n := by
  induction n generalizing i offset tr with
  | zero => exact ⟨htr, fun j hj => by cases hj⟩
  | succ n ih =>
    have hlast : ∀ j ∈ [i], j < i + (n + 1) := by
      intro j hj
      rw [List.mem_singleton.mp hj]
      omega
    rw [Nat.succ_mul] at hin
    unfold insertPagesRun
    split
    · exact ⟨htr, hlast⟩
    · split
      · exact ⟨htr, hlast⟩
      · rename_i mid hinsert
        have hmid : ∀ x, mid x ≠ none → vma.vmStart ≤ x ∧ x < vma.vmEnd := by
          intro x hx
          rw [vmInsertPage_ok hinsert] at hx
          by_cases hpage : vma.vmStart + offset ≤ x ∧ x < vma.vmStart + offset + pageSize
          · omega
          · rw [Translation.mapRange, Translation.overlay_outside (by omega)] at hx
            exact htr x hx
        have hrest : vma.vmStart + (offset + pageSize) + n * pageSize ≤ vma.vmEnd := by omega
        obtain ⟨hmapped, hread⟩ := ih (i + 1) hrest hmid
        refine ⟨hmapped, fun j hj => ?_⟩
        obtain rfl | hj := List.mem_cons.mp hj
        · omega
        · have := hread j hj
          omega

theorem remapCache_outside {dev : RknpuDevice} {o : RknpuGemObject} {vma : Vma}
    {cacheStart cacheSize x : ℕ} {rets : ℕ → ℤ} {tr : Translation} {laid : Laid ℤ}
    {pieces : List Segment} (hpieces : cachePieces dev o cacheStart cacheSize = some pieces)
    (hpaged : Paged pieces) (hlt : cacheSize < 2 ^ 64)
    (h : remapCache dev o vma cacheStart cacheSize rets tr = some laid)
    (hx : x < vma.vmStart ∨ vma.vmStart + cacheSize ≤ x) : laid.tr x = tr x := by
  unfold remapCache at h
  unfold cachePieces at hpieces
  by_cases hsgt : (!o.cacheWithSgt) = true
  · rw [if_pos hsgt] at h hpieces
    cases hpieces
    obtain ⟨hpaddr, hsize⟩ := hpaged _ (List.mem_singleton_self _)
    split at h
    · cases h
      rfl
    · rename_i hmap
      cases h
      simp only [remapPfnRange_ok hmap hpaddr hsize hlt]
      exact Translation.overlay_outside hx
  · rw [if_neg hsgt] at h hpieces
    obtain ⟨sgl, hsgl, rfl⟩ := Option.map_eq_some_iff.mp h
    rw [hsgl] at hpieces
    cases hpieces
    refine layOut_outside (hx.imp_right fun hle => Nat.le_trans
      (Nat.add_le_add_left (Nat.sub_le _ _) _) hle) fun s hs i tr va tr' hput hout => ?_
    obtain ⟨hpaddr, hsize⟩ := hpaged s hs
    rw [remapPfnRange_ok hput hpaddr hsize
      (Nat.lt_of_le_of_lt (Segment.length_le_of_clip hs) hlt)]
    exact Translation.overlay_outside hout

/-- **Which mappings keep to their place**, of those that are accepted for a live object with a
part on the chip: those that are at least as long as this part. -/
theorem mmap_inside_iff {dev : RknpuDevice} {s : BufState} (hs : (bufSystem dev).Reachable s)
    {o : RknpuGemObject} (ho : o ∈ s.live) (hcached : 0 < o.cacheSize o.cacheKind) {vma : Vma}
    (haccepted : vma.size ≤ o.size) :
    (∀ out run, mmapCacheRun dev s.mem.sramMm o vma o.cacheKind out = some run →
        run.Inside o vma) ↔
      o.cacheSize o.cacheKind ≤ vma.size := by
  cases built_reachable hs o ho with
  | plain hsram hnbuf hpages =>
    unfold RknpuGemObject.cacheKind at hcached
    rw [if_neg (by omega)] at hcached
    exact absurd hnbuf (Nat.ne_of_gt hcached)
  | cached type mm obj out domains domains' hbuilt hchunk hpos hle hmod hmax htype =>
    have hkind : o.cacheKind = type := by
      unfold RknpuGemObject.cacheKind
      cases type with
      | sram => exact if_pos hpos
      | nbuf => exact if_neg (by rw [(htype rfl).1]; decide)
    rw [hkind] at hcached ⊢
    obtain ⟨d, cacheStart, pieces, -, hbase, hpieces, hpaged, -⟩ := device_view hbuilt
    have hrange := (cacheRange_live hs ho hbuilt hchunk hpos).trans hbase
    have hlt : o.cacheSize type < 2 ^ 64 :=
      Nat.lt_of_le_of_lt (Nat.le_trans hle hmax) (by decide)
    have hsize : o.size ≠ 0 := by omega
    constructor
    · intro hall
      obtain ⟨mid, left, hcache⟩ := remapCache_accepts vma (fun _ => none) hpieces hpaged
      let out : MmapOutcome := ⟨fun _ => 0, fun _ => 0, 0⟩
      exact (hall out _ (mmapCacheRun_eq hrange hcache hsize)).noWrap _ _ rfl
    · intro hlow out run hrun
      obtain ⟨⟨refused, mid, left⟩, hlaid⟩ : ∃ laid, remapCache dev o vma cacheStart
          (o.cacheSize type) out.cacheRets (fun _ => none) = some laid := by
        refine Option.ne_none_iff_exists'.mp fun hnone => ?_
        simp only [mmapCacheRun, Option.bind_eq_bind, hrange, Option.bind_some, hnone,
          Option.bind_none] at hrun
        cases hrun
      have hmid : ∀ x, mid x ≠ none → vma.vmStart ≤ x ∧ x < vma.vmEnd := by
        intro x hx
        have hend : vma.vmStart + o.cacheSize type ≤ vma.vmEnd := by
          have := vma.ordered
          unfold Vma.size at hlow
          omega
        by_contra hout
        exact hx (remapCache_outside hpieces hpaged hlt hlaid (by omega))
      cases refused with
      | some e =>
        simp only [mmapCacheRun, Option.bind_eq_bind, hrange, Option.bind_some, hlaid] at hrun
        cases hrun
        exact ⟨hmid, fun a b h => (by cases h), fun i hi => (by cases hi)⟩
      | none =>
        rw [mmapCacheRun_eq hrange hlaid hsize] at hrun
        obtain rfl := Option.some.inj hrun
        have hsub : u64Sub vma.size (o.cacheSize type) = vma.size - o.cacheSize type :=
          u64Sub_of_le hlow (Nat.lt_of_le_of_lt (Nat.sub_le _ _) vma.end_lt)
        have hdiv := Nat.div_mul_le_self (vma.size - o.cacheSize type) pageSize
        rw [hsub]
        have hroom : vma.vmStart + o.cacheSize type +
            (vma.size - o.cacheSize type) / pageSize * pageSize ≤ vma.vmEnd := by
          have := vma.ordered
          unfold Vma.size at hlow hdiv ⊢
          omega
        obtain ⟨hmapped, hread⟩ :=
          insertPagesRun_inside out.insertRets (o.pages.getD []) 0 hroom hmid
        refine ⟨hmapped, fun a b h => ?_, fun i hi => ?_⟩
        · cases h
          exact hlow
        · have hi' := hread i hi
          rw [Nat.zero_add] at hi'
          exact Nat.lt_of_lt_of_le hi'
            (Nat.div_le_div_right (Nat.le_trans (Nat.sub_le _ _) haccepted))

/-- A buffer of two pages, both with a page of SRAM before them. -/
def sramPages : RknpuGemObject :=
  { sramPage with
    size := 8192
    sramSize := 8192
    sramObj := .held ⟨0, 1⟩
    iovaSize := 16384
    numPages := 2
    pages := some [100, 101]
    sgt := some [⟨100 * 4096, 4096⟩, ⟨101 * 4096, 4096⟩] }

theorem sramPages_reachable : ∃ s, (bufSystem threePages).Reachable s ∧ s.live = [sramPages] ∧
    s.mem.sramMm.map RknpuMm.chunkSize = some 4096 := by
  have hinit : (bufSystem threePages).init ⟨⟨some threeChunks, fun _ _ => none⟩, []⟩ :=
    ⟨blankDevice, some (0x3ff80000, 0x3000), true, true, rfl, rfl, rfl, rfl⟩
  obtain ⟨s, hs, hp⟩ := System.Reachable.of_run_any (S := bufSystem threePages)
    (p := fun s => decide (s.live = [sramPages] ∧
      s.mem.sramMm.map RknpuMm.chunkSize = some 4096))
    (l := [.create (sramArgs 8192) (noFailure 0x10000000 100)]) hinit (by decide +kernel)
  exact ⟨s, hs, of_decide_eq_true hp⟩

def twoPageVma : Vma :=
  ⟨0x7f000000, 0x7f002000, by decide, wholeVma.start_aligned, by decide, by decide⟩

theorem mmap_inside_two_pages : ∃ s, (bufSystem threePages).Reachable s ∧ s.live = [sramPages] ∧
    ∀ out run, mmapCacheRun threePages s.mem.sramMm sramPages twoPageVma .sram out = some run →
      run.Inside sramPages twoPageVma := by
  obtain ⟨s, hs, hlive, -⟩ := sramPages_reachable
  have ho : sramPages ∈ s.live := by rw [hlive]; exact List.mem_singleton_self _
  exact ⟨s, hs, hlive, (mmap_inside_iff hs ho (by decide) (by decide)).mpr (by decide)⟩

/-- A mapping of one page: the second page of the SRAM is mapped behind its end. -/
theorem mmap_outside : ∃ s run, (bufSystem threePages).Reachable s ∧ s.live = [sramPages] ∧
    mmapCacheRun threePages s.mem.sramMm sramPages onePageVma .sram
      ⟨fun _ => 0, fun _ => 0, 0⟩ = some run ∧
    run.tr onePageVma.vmEnd = some 0x3ff81000 ∧ ¬ run.Inside sramPages onePageVma := by
  obtain ⟨s, hs, hlive, hchunk⟩ := sramPages_reachable
  have hrange : cacheRange threePages s.mem.sramMm sramPages .sram =
      cacheRange threePages (some threeChunks) sramPages .sram :=
    cacheRange_congr hchunk rfl rfl rfl .sram
  have hbehind : (mmapCacheRun threePages (some threeChunks) sramPages onePageVma .sram
      ⟨fun _ => 0, fun _ => 0, 0⟩).bind (fun run => run.tr onePageVma.vmEnd) =
      some 0x3ff81000 := by decide +kernel
  obtain ⟨run, hrun, htr⟩ := Option.bind_eq_some_iff.mp hbehind
  refine ⟨s, run, hs, hlive, ?_, htr, fun hin => ?_⟩
  · rw [← hrun]
    simp only [mmapCacheRun, hrange]
  · have := (hin.mapped onePageVma.vmEnd (by rw [htr]; exact Option.some_ne_none _)).2
    exact absurd this (Nat.lt_irrefl _)

end RknpuDriver.Buffer
