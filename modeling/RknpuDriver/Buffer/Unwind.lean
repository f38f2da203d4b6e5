import RknpuDriver.Buffer.Ledger
import RknpuDriver.Buffer.Windows
import RknpuDriver.Mm.Release

/-! # What a creation that fails leaves behind

Every error path of `rknpu_gem_object_create` gives back what was taken, but for one: when
`rknpu_iommu_map_with_cache_sgt` fails behind its first piece, `goto free_iova` skips the
`iommu_unmap` of what is mapped by then.

* `StopsLate`: a request that gets there.
* `Ledger.allocBufWithCache_error`, `Ledger.create_error`: what an error leaves behind.
* `create_unwinds`: creation takes nothing exactly when it does not get there, and destruction
  gives back what creation took.
-/

namespace RknpuDriver.Buffer
open RknpuDriver.Lib RknpuDriver.Mm
set_option autoImplicit false

/-! ## Giving back -/

namespace Ledger
variable {L : Ledger} {d : ℕ}

@[simp] theorem setDomain_self : L.setDomain d (L.mem.domains d) = L := by
  unfold setDomain
  rw [Function.update_eq_self]

@[simp] theorem setDomain_setDomain (tr tr' : Translation) :
    (L.setDomain d tr).setDomain d tr' = L.setDomain d tr' := by
  unfold setDomain
  simp only [Function.update_idem]

@[simp] theorem freeIova_takeIova (iova size : ℕ) :
    (L.takeIova d iova size).freeIova d iova size = L := by
  unfold takeIova freeIova
  simp only [Function.update_self, Multiset.erase_cons_head, Function.update_idem,
    Function.update_eq_self]

@[simp] theorem putPages_getPages (pages : List ℕ) : (L.getPages pages).putPages pages = L := by
  unfold getPages putPages
  simp only [add_tsub_cancel_right]

@[simp] theorem putDomain_getDomain : L.getDomain.putDomain = L := rfl

@[simp] theorem dmaFree_dmaAlloc (dmaAddr : ℕ) (pages : List ℕ) :
    (L.dmaAlloc dmaAddr pages).dmaFree dmaAddr pages = L := by
  unfold dmaAlloc dmaFree
  simp only [Multiset.erase_cons_head]

theorem setDomain_getPages (tr : Translation) (pages : List ℕ) :
    (L.getPages pages).setDomain d tr = (L.setDomain d tr).getPages pages := rfl

theorem setDomain_takeIova (tr : Translation) (iova size : ℕ) :
    (L.takeIova d iova size).setDomain d tr = (L.setDomain d tr).takeIova d iova size := rfl

theorem setDomain_eq_iff {tr : Translation} : L.setDomain d tr = L ↔ tr = L.mem.domains d := by
  constructor
  · intro h
    have hmem := congrArg (fun L : Ledger => L.mem.domains d) h
    simpa only [setDomain_mem, Function.update_self] using hmem
  · rintro rfl
    exact setDomain_self

theorem unmap_setDomain (tr : Translation) (iova size : ℕ) :
    (L.setDomain d tr).unmap d iova size = L.setDomain d (iommuUnmap tr iova size) := by
  unfold unmap
  rw [setDomain_setDomain, setDomain_mem]
  simp only [Function.update_self]

theorem setPool_self {mm : RknpuMm} (h : L.mem.sramMm = some mm) : L.setPool mm = L := by
  unfold setPool
  rw [← h]

end Ledger

/-! ## Mapped pieces -/

/-- `iommu_map` takes the piece when it succeeds. -/
def Takes (rets : ℕ → ℤ) (i : ℕ) (s : Segment) : Prop :=
  s.start % pageSize = 0 ∧ s.length % pageSize = 0 ∧ 0 ≤ rets i

instance (rets : ℕ → ℤ) (i : ℕ) (s : Segment) : Decidable (Takes rets i s) :=
  inferInstanceAs (Decidable (_ ∧ _ ∧ _))

/-- Nothing is mapped at `n` addresses from `va` on. -/
def Free (tr : Translation) (va n : ℕ) : Prop := ∀ x, va ≤ x → x < va + n → tr x = none

section Pieces
variable {rets : ℕ → ℤ} {segs : List Segment} {va n : ℕ} {tr : Translation}

theorem iommuMap_takes {i : ℕ} {s : Segment} (hva : va % pageSize = 0) :
    (∃ tr', iommuMap (rets i) tr va s.start s.length = .ok tr') ↔ Takes rets i s := by
  unfold iommuMap Takes
  split_ifs with halign hret
  · refine iff_of_false (by rintro ⟨tr', h⟩; cases h) fun h => ?_
    omega
  · refine iff_of_false (by rintro ⟨tr', h⟩; cases h) fun h => ?_
    omega
  · push Not at halign
    exact iff_of_true ⟨_, rfl⟩ ⟨halign.2.1, halign.2.2, Int.not_lt.mp hret⟩

theorem takes_next {i : ℕ} {s : Segment} (hva : va % pageSize = 0) (h : Takes rets i s) :
    (va + s.length) % pageSize = 0 := by
  rw [Nat.add_mod, hva, h.2.1, Nat.add_zero, Nat.zero_mod]

theorem layOut_inside_page (hva : va % pageSize ≠ 0) :
    (layOut (fun i => iommuMap (rets i)) 0 segs va n tr).tr = tr ∧
      (segs ≠ [] → (layOut (fun i => iommuMap (rets i)) 0 segs va n tr).refused ≠ none) := by
  cases segs with
  | nil => exact ⟨rfl, fun h => absurd rfl h⟩
  | cons s segs =>
    unfold layOut
    have herror : iommuMap (rets 0) tr va s.start (min n s.length) = .error (-einval) :=
      if_pos (Or.inl hva)
    simp only [herror]
    exact ⟨trivial, fun _ => Option.some_ne_none _⟩

theorem layOut_iommu_outside {i x : ℕ} (hx : x < va ∨
      va + (n - (layOut (fun i => iommuMap (rets i)) i segs va n tr).left) ≤ x) :
    (layOut (fun i => iommuMap (rets i)) i segs va n tr).tr x = tr x := by
  refine layOut_outside hx fun s _ i tr va tr' hput hout => ?_
  rw [(iommuMap_ok hput).2.2.2]
  exact Translation.overlay_outside hout

/-- Pieces that are unmapped leave no trace where nothing was mapped before. -/
theorem unmap_layOut {m : ℕ} (hva : va % pageSize = 0) (hm : m % pageSize = 0)
    (hused : n - (layOut (fun i => iommuMap (rets i)) 0 segs va n tr).left ≤ m)
    (hfree : Free tr va m) :
    iommuUnmap (layOut (fun i => iommuMap (rets i)) 0 segs va n tr).tr va m = tr := by
  unfold iommuUnmap
  rw [if_neg (by omega)]
  funext x
  by_cases hx : va ≤ x ∧ x < va + m
  · obtain ⟨o, rfl⟩ : ∃ o, x = va + o := ⟨x - va, by omega⟩
    rw [hfree _ hx.1 hx.2]
    exact Translation.overlay_add (by omega)
  · rw [Translation.unmapRange, Translation.overlay_outside (by omega)]
    exact layOut_iommu_outside (by omega)

theorem unmap_ddr (hn : n % pageSize = 0) (hfree : Free tr va n) :
    iommuUnmap (layOut (fun i => iommuMap (rets i)) 0 segs va n tr).tr va
      (n - (layOut (fun i => iommuMap (rets i)) 0 segs va n tr).left) = tr := by
  by_cases hva : va % pageSize = 0
  · have hleft : (layOut (fun i => iommuMap (rets i)) 0 segs va n tr).left % pageSize = 0 :=
      layOut_left_mod hn fun s _ i tr va tr' hput => (iommuMap_ok hput).2.2.1
    exact unmap_layOut hva (Nat.sub_mod_eq_zero_of_mod_eq (hn.trans hleft.symm)) (Nat.le_refl _)
      fun x hlow hhigh => hfree x hlow (by omega)
  · rw [(layOut_inside_page hva).1]
    exact if_pos (Or.inl hva)

/-- What a layout on free addresses comes to. -/
structure LaidOnFree (rets : ℕ → ℤ) (pieces : List Segment) (va n : ℕ) (tr : Translation)
    (laid : Laid ℤ) : Prop where
  traceless : laid.tr = tr ↔ ¬ Begins (Takes rets) 0 pieces
  refused : laid.refused ≠ none ↔ Refuses (Takes rets) 0 pieces
  unmapped : n % pageSize = 0 → iommuUnmap laid.tr va n = tr
  outside : ∀ x, x < va ∨ va + n ≤ x → laid.tr x = tr x

theorem laidOnFree (hva : va % pageSize = 0) (hfree : Free tr va n) :
    LaidOnFree rets (Segment.clip n segs) va n tr
      (layOut (fun i => iommuMap (rets i)) 0 segs va n tr) := by
  have haccepts : ∀ s ∈ Segment.clip n segs, ∀ i tr va, va % pageSize = 0 →
      ((∃ tr', iommuMap (rets i) tr va s.start s.length = .ok tr') ↔ Takes rets i s) ∧
        (Takes rets i s → (va + s.length) % pageSize = 0) :=
    fun s _ i tr va hva => ⟨iommuMap_takes hva, takes_next hva⟩
  refine ⟨?_, layOut_refused_iff _ hva haccepts,
    fun hn => unmap_layOut hva hn (Nat.sub_le _ _) hfree,
    fun x hx => layOut_iommu_outside (by omega)⟩
  have hused : (layOut (fun i => iommuMap (rets i)) 0 segs va n tr).left < n ↔
      Begins (Takes rets) 0 (Segment.clip n segs) := layOut_used_iff _ hva haccepts
  rw [← hused]
  constructor
  · intro h hleft
    have hmapped : (layOut (fun i => iommuMap (rets i)) 0 segs va n tr).tr va ≠ none :=
      layOut_mapped (Nat.le_refl va) (by omega)
        fun s _ i tr va tr' hput => (iommuMap_ok hput).2.2.2
    rw [h, hfree va (Nat.le_refl va) (by omega)] at hmapped
    exact hmapped rfl
  · intro hleft
    funext x
    exact layOut_iommu_outside (by omega)

end Pieces

/-! ## Buffers with a cache part -/

namespace Ledger
variable {dev : RknpuDevice} {L L' : Ledger} {d : ℕ}

/-- What the error paths of the DDR part leave behind: the cache part is unmapped. -/
theorem mapDdr_error {obj : RknpuGemObject} {cacheSize : ℕ} {out : CacheOutcome} {e : ℤ}
    (h : L.mapDdr obj cacheSize out d = (.error e, L')) (hsize : obj.size % pageSize = 0)
    (hfree : Free (L.mem.domains d) (obj.iovaStart + cacheSize) obj.size) :
    L' = L.unmap d obj.iovaStart cacheSize := by
  unfold Ledger.mapDdr at h
  cases hframes : out.frames with
  | error e =>
    rw [hframes] at h
    cases h
    rfl
  | ok frame =>
    simp only [hframes] at h
    by_cases hsg : out.sgRet < 0
    · rw [if_pos hsg, putPages_getPages] at h
      cases h
      rfl
    · rw [if_neg hsg] at h
      split at h
      · cases h
        unfold unmap
        simp only [setDomain_mem, getPages_mem, Function.update_self, setDomain_setDomain]
        rw [unmap_ddr hsize hfree, setDomain_getPages, setDomain_self, putPages_getPages]
      · cases h

theorem mapDdr_built {obj obj' : RknpuGemObject} {cacheSize : ℕ} {out : CacheOutcome}
    (h : L.mapDdr obj cacheSize out d = (.ok obj', L')) (hpos : 0 < obj.size)
    (hsize : obj.size % pageSize = 0) :
    (obj.iovaStart + cacheSize) % pageSize = 0 ∧
    ∃ pages sgt tr, obj' = { obj with
        pages := some pages, numPages := obj.size / pageSize, sgt := some sgt } ∧
      L' = (L.setDomain d tr).getPages pages ∧
      ∀ x, x < obj.iovaStart + cacheSize ∨ obj.iovaStart + cacheSize + obj.size ≤ x →
        tr x = L.mem.domains d x := by
  unfold Ledger.mapDdr at h
  cases hframes : out.frames with
  | error e =>
    rw [hframes] at h
    cases h
  | ok frame =>
    simp only [hframes] at h
    by_cases hsg : out.sgRet < 0
    · rw [if_pos hsg] at h
      cases h
    · rw [if_neg hsg] at h
      split at h
      · cases h
      · rename_i hrefused
        cases h
        refine ⟨Decidable.byContradiction fun hva => ?_, _, _, _, rfl, rfl, fun x hx => ?_⟩
        · refine (layOut_inside_page hva).2 (fun hnil => ?_) hrefused
          have htotal := total_pagesToSg out.maxPages
            ((List.range (obj.size / pageSize)).map frame)
          rw [hnil, Segment.total_nil, List.length_map, List.length_range,
            Nat.div_mul_cancel (Nat.dvd_of_mod_eq_zero hsize)] at htotal
          omega
        · exact layOut_iommu_outside (by omega)

theorem mapCache_table (dev : RknpuDevice) (obj : RknpuGemObject) (cacheStart cacheSize : ℕ)
    (rets : ℕ → ℤ) (tr : Translation) : mapCache dev obj cacheStart cacheSize rets tr =
      (BufCall.cacheTable dev obj cacheStart cacheSize).map fun sgl =>
        layOut (fun i => iommuMap (rets i)) 0 sgl obj.iovaStart cacheSize tr := by
  unfold mapCache BufCall.cacheTable
  split_ifs with hsgt
  · simp only [Option.map_some, layOut, Nat.min_self, Nat.sub_self]
    cases iommuMap (rets 0) tr obj.iovaStart cacheStart cacheSize with
    | error e => rfl
    | ok tr' => rfl
  · rfl

end Ledger

/-- Something of a cache part of `cacheSize` bytes is mapped when a piece of it is refused, or when
the part turns out to end inside a page. -/
def StopsAmid (rets : ℕ → ℤ) (cacheSize : ℕ) (sgl : List Segment) : Prop :=
  Begins (Takes rets) 0 (Segment.clip cacheSize sgl) ∧
    (Refuses (Takes rets) 0 (Segment.clip cacheSize sgl) ∨ cacheSize % pageSize ≠ 0)

instance (rets : ℕ → ℤ) (cacheSize : ℕ) (sgl : List Segment) :
    Decidable (StopsAmid rets cacheSize sgl) := inferInstanceAs (Decidable (_ ∧ _))

theorem not_stopsAmid (rets : ℕ → ℤ) (cacheStart cacheSize : ℕ) :
    ¬ StopsAmid rets cacheSize [⟨cacheStart, cacheSize⟩] := by
  have hclip : Segment.clip cacheSize [⟨cacheStart, cacheSize⟩] = [⟨cacheStart, cacheSize⟩] := by
    simp [Segment.clip]
  unfold StopsAmid
  rw [hclip]
  rintro ⟨⟨htakes, -⟩, (hno | hno) | hpart⟩
  · exact hno htakes
  · exact hno
  · exact hpart htakes.2.1

/-- What is mapped lies in a range that was given out. -/
def Ledger.Covered (L : Ledger) : Prop :=
  ∀ d x, L.mem.domains d x ≠ none → ∃ r ∈ L.iovas d, r.1 ≤ x ∧ x < r.1 + r.2

namespace Ledger
variable {dev : RknpuDevice} {L L' : Ledger} {d : ℕ}

/-- A range that is granted begins at a page, and nothing is mapped in it. -/
theorem Covered.granted (hL : L.Covered) {size iova : ℕ}
    (h : L.iovaGranted dev d size iova ≠ 0) : L.iovaGranted dev d size iova % pageSize = 0 ∧
      Free (L.mem.domains d) (L.iovaGranted dev d size iova) size := by
  unfold iovaGranted at h ⊢
  split_ifs at h ⊢ with hgrant
  · obtain ⟨-, hpage, hapart⟩ := hgrant
    refine ⟨hpage, fun x hlow hhigh => Classical.byContradiction fun hmapped => ?_⟩
    obtain ⟨r, hr, hin⟩ := hL d x hmapped
    have := hapart r hr
    omega
  · exact absurd rfl h

/-- What `rknpu_gem_alloc_buf_with_cache` has taken once it has an IOVA, and what it has mapped. -/
structure CacheLaid (L : Ledger) (dev : RknpuDevice) (obj base : RknpuGemObject)
    (out : CacheOutcome) (cacheStart cacheSize d : ℕ) (sgl : List Segment) (laid : Laid ℤ) :
    Prop where
  domain : out.domain = some d
  granted : L.iovaGranted dev d (iovaAlign dev.iovaGranule (cacheSize + obj.size)) out.iova ≠ 0
  base_eq : base = { obj with iovaSize := base.iovaSize, iovaStart := base.iovaStart }
  fits : cacheSize + obj.size ≤ base.iovaSize
  page : base.iovaStart % pageSize = 0
  free : Free (L.mem.domains d) base.iovaStart base.iovaSize
  table : BufCall.cacheTable dev obj cacheStart cacheSize = some sgl
  laid : LaidOnFree out.cacheRets (Segment.clip cacheSize sgl) base.iovaStart cacheSize
    (L.mem.domains d) laid

theorem allocBufWithCache_cases (hgranule : 0 < dev.iovaGranule) (hL : L.Covered)
    {obj : RknpuGemObject} {type : RknpuCacheType} {out : CacheOutcome}
    {res : Except ℤ RknpuGemObject} (h : L.allocBufWithCache dev obj type out = some (res, L')) :
    ∃ cacheStart cacheSize, cacheRange dev L.mem.sramMm obj type = some (cacheStart, cacheSize) ∧
      ((L' = L ∧ (∃ e, res = .error e) ∧ ∀ d ∈ out.domain,
        L.iovaGranted dev d (iovaAlign dev.iovaGranule (cacheSize + obj.size)) out.iova = 0) ∨
      ∃ base d sgl laid, CacheLaid L dev obj base out cacheStart cacheSize d sgl laid ∧
        (L.takeIova d base.iovaStart base.iovaSize).mapRest base cacheSize out d laid =
          (res, L')) := by
  unfold Ledger.allocBufWithCache at h
  split at h
  · cases h
  · rename_i part hrange hdomain
    cases h
    refine ⟨part.1, part.2, hrange, Or.inl ⟨rfl, ⟨_, rfl⟩, fun d hd => ?_⟩⟩
    cases hdomain.symm.trans hd
  · rename_i cacheStart cacheSize d hrange hdomain
    simp only at h
    refine ⟨cacheStart, cacheSize, hrange, ?_⟩
    by_cases hzero : L.iovaGranted dev d (iovaAlign dev.iovaGranule (cacheSize + obj.size))
        out.iova = 0
    · rw [if_pos hzero] at h
      cases h
      refine Or.inl ⟨rfl, ⟨_, rfl⟩, fun d' hd' => ?_⟩
      cases hdomain.symm.trans hd'
      exact hzero
    rw [if_neg hzero, mapCache_table, Option.map_map] at h
    obtain ⟨sgl, htable, h⟩ := Option.map_eq_some_iff.mp h
    obtain ⟨hpage, hfree⟩ := hL.granted hzero
    have hfits := WindowsOk.le_iovaAlign hgranule (cacheSize + obj.size)
    exact Or.inr ⟨_, d, sgl, _, ⟨hdomain, hzero, rfl, hfits, hpage, hfree, htable,
      laidOnFree hpage fun x hlow hhigh => hfree x hlow
        (Nat.lt_of_lt_of_le hhigh (Nat.add_le_add_left (by omega) _))⟩, h⟩

/-- **What an error of `rknpu_gem_alloc_buf_with_cache` leaves behind**: nothing but translations,
and these when it comes in the middle of the cache part. -/
theorem allocBufWithCache_error (hgranule : 0 < dev.iovaGranule) (hL : L.Covered)
    {obj : RknpuGemObject} {type : RknpuCacheType} {out : CacheOutcome} {e : ℤ}
    (hsize : obj.size % pageSize = 0)
    (h : L.allocBufWithCache dev obj type out = some (.error e, L')) :
    ∃ d tr, L' = L.setDomain d tr ∧ (tr = L.mem.domains d ↔
      ¬ ∃ part ∈ cacheRange dev L.mem.sramMm obj type, ∃ d ∈ out.domain,
        L.iovaGranted dev d (iovaAlign dev.iovaGranule (part.2 + obj.size)) out.iova ≠ 0 ∧
          ∃ sgl ∈ BufCall.cacheTable dev obj part.1 part.2,
            StopsAmid out.cacheRets part.2 sgl) := by
  obtain ⟨cacheStart, cacheSize, hrange, ⟨rfl, -, hzero⟩ | ⟨base, d, sgl, laid, hlaid, h⟩⟩ :=
    allocBufWithCache_cases hgranule hL h
  · refine ⟨0, _, setDomain_self.symm, iff_of_true rfl ?_⟩
    rintro ⟨part, hpart, d, hd, hgranted, -⟩
    cases hrange.symm.trans hpart
    exact hgranted (hzero d hd)
  obtain ⟨hdomain, hgranted, hbase, hfits, hpage, hfree, htable, hcache⟩ := hlaid
  have hbaseSize : base.size = obj.size := by rw [hbase]
  simp only [hrange, hdomain, htable, Option.mem_def, Option.some.injEq, exists_eq_left',
    and_iff_right hgranted, StopsAmid]
  unfold Ledger.mapRest at h
  cases hrefused : laid.refused with
  | some e' =>
    rw [hrefused] at h
    cases h
    refine ⟨d, laid.tr, by rw [setDomain_takeIova, freeIova_takeIova], ?_⟩
    have hsome := hcache.refused.mp (by rw [hrefused]; exact Option.some_ne_none _)
    rw [hcache.traceless, and_iff_left (Or.inl hsome)]
  | none =>
    have hnone : ¬ Refuses (Takes out.cacheRets) 0 (Segment.clip cacheSize sgl) :=
      fun hsome => hcache.refused.mpr hsome hrefused
    rw [or_iff_right hnone]
    simp only [hrefused] at h
    split_ifs at h with hempty
    · cases h
    split at h
    · cases h
    · rename_i e' L₁ hddr
      cases h
      have hend := mapDdr_error hddr (by rw [← hbaseSize] at hsize; exact hsize) (by
        intro x hlow hhigh
        simp only [setDomain_mem, Function.update_self, hbaseSize] at hlow hhigh ⊢
        exact (hcache.outside x (by omega)).trans (hfree x (by omega) (by omega)))
      refine ⟨d, iommuUnmap laid.tr base.iovaStart cacheSize, ?_, ?_⟩
      · rw [hend, unmap_setDomain, setDomain_takeIova, freeIova_takeIova]
      by_cases hcacheSize : cacheSize % pageSize = 0
      · exact iff_of_true (hcache.unmapped hcacheSize) fun hstop => hstop.2 hcacheSize
      · rw [and_iff_left hcacheSize, ← hcache.traceless]
        unfold iommuUnmap
        rw [if_pos (Or.inr hcacheSize)]

/-- What a buffer with a cache part has taken: IOVAs at which nothing was mapped, translations and
pages. -/
structure Built (tr₀ : Translation) (o : RknpuGemObject) (cacheSize : ℕ) (tr : Translation)
    (pages : List ℕ) : Prop where
  page : o.iovaStart % pageSize = 0
  part : cacheSize % pageSize = 0
  whole : o.size % pageSize = 0
  some : 0 < o.size
  fits : cacheSize + o.size ≤ o.iovaSize
  free : Free tr₀ o.iovaStart (cacheSize + o.size)
  outside : ∀ x, x < o.iovaStart ∨ o.iovaStart + (cacheSize + o.size) ≤ x → tr x = tr₀ x
  pages : o.pages = .some pages

/-- The ledger with a buffer taken. -/
def withBuffer (L : Ledger) (o : RknpuGemObject) (d : ℕ) (tr : Translation) (pages : List ℕ) :
    Ledger :=
  ((L.takeIova d o.iovaStart o.iovaSize).setDomain d tr).getPages pages

theorem allocBufWithCache_built (hgranule : 0 < dev.iovaGranule) (hL : L.Covered)
    {obj o : RknpuGemObject} {type : RknpuCacheType} {out : CacheOutcome} (hpos : 0 < obj.size)
    (hsize : obj.size % pageSize = 0)
    (h : L.allocBufWithCache dev obj type out = some (.ok o, L')) :
    ∃ cacheStart cacheSize d tr pages,
      cacheRange dev L.mem.sramMm obj type = some (cacheStart, cacheSize) ∧
      out.domain = some d ∧ Built (L.mem.domains d) o cacheSize tr pages ∧
        L' = L.withBuffer o d tr pages := by
  obtain ⟨cacheStart, cacheSize, hrange, ⟨-, ⟨e, he⟩, -⟩ | ⟨base, d, sgl, laid, hlaid, h⟩⟩ :=
    allocBufWithCache_cases hgranule hL h
  · cases he
  obtain ⟨hdomain, -, hbase, hfits, hpage, hfree, -, hcache⟩ := hlaid
  have hbaseSize : base.size = obj.size := by rw [hbase]
  unfold Ledger.mapRest at h
  cases hrefused : laid.refused with
  | some e' =>
    rw [hrefused] at h
    cases h
  | none =>
    simp only [hrefused] at h
    rw [if_neg (by omega)] at h
    rw [← hbaseSize] at hpos hsize hfits
    split at h
    · rename_i o' L₁ hddr
      cases h
      obtain ⟨hend, pages, sgt, tr, rfl, rfl, houtside⟩ := mapDdr_built hddr hpos hsize
      simp only [setDomain_mem, Function.update_self] at houtside hend
      have hpart : cacheSize % pageSize = 0 := by
        simp only [pageSize] at hend hpage ⊢
        omega
      refine ⟨cacheStart, cacheSize, d, tr, pages, hrange, hdomain,
        ⟨hpage, hpart, hsize, hpos, hfits, ?_, fun x hx => ?_, rfl⟩, ?_⟩
      · exact fun x hlow hhigh => hfree x hlow
          (Nat.lt_of_lt_of_le hhigh (Nat.add_le_add_left hfits _))
      · simp only at hx
        rw [houtside x (by omega)]
        exact hcache.outside x (by omega)
      · rw [setDomain_setDomain]
        rfl
    · cases h

end Ledger

/-! ## Creation -/

/-- How much of a buffer is on the chip: one of the two parts is empty. -/
def RknpuGemObject.chipSize (o : RknpuGemObject) : ℕ := o.sramSize + o.nbufSize

/-- What a creation has taken for its object. `home` is the domain that was attached. -/
inductive Created (dev : RknpuDevice) (L : Ledger) (home : Option ℕ) (o : RknpuGemObject) :
    Ledger → Prop
  | nothing (hchip : o.chipSize = 0) (hcookie : o.cookie = none) (hdma : o.dmaAddr = 0) :
    Created dev L home o L
  | dmaBuffer {buffer : List ℕ} (hchip : o.chipSize = 0) (hcookie : o.cookie = some buffer) :
    Created dev L home o (L.dmaAlloc o.dmaAddr buffer)
  | inSram {mm mm' : RknpuMm} {d : ℕ} {tr : Translation} {pages : List ℕ} (hhome : home = some d)
    (henabled : dev.sramEnabled = true) (hpos : 0 < o.sramSize) (hnbuf : o.nbufSize = 0)
    (hmm : L.mem.sramMm = some mm) (hfree : freeSram mm' o = some mm)
    (hbuilt : Ledger.Built (L.mem.domains d) o o.sramSize tr pages) :
    Created dev L home o ((L.setPool mm').withBuffer o d tr pages)
  | inNbuf {d : ℕ} {tr : Translation} {pages : List ℕ} (hhome : home = some d)
    (henabled : dev.noGki = true) (hsram : o.sramSize = 0) (hpos : 0 < o.nbufSize)
    (hbuilt : Ledger.Built (L.mem.domains d) o o.nbufSize tr pages) :
    Created dev L home o (L.withBuffer o d tr pages)

/-- How a creation ends: with what it took for its object, or with nothing taken unless it
`stops` in the cache part. -/
def Ended (dev : RknpuDevice) (L : Ledger) (home : Option ℕ) (stops : Prop) :
    Except ℤ RknpuGemObject × Ledger → Prop
  | (.ok o, L') => Created dev L home o L'
  | (.error _, L') => ∃ d tr, L' = L.setDomain d tr ∧ (tr = L.mem.domains d ↔ ¬ stops)

namespace Ledger
variable {dev : RknpuDevice} {L L' : Ledger} {home : Option ℕ} {stops : Prop}

theorem ended_error {e : ℤ} (hstops : ¬ stops) : Ended dev L home stops (.error e, L) :=
  ⟨0, _, setDomain_self.symm, iff_of_true rfl hstops⟩

theorem fillPages_ended {obj : RknpuGemObject} (hstops : ¬ stops) (hchip : obj.chipSize = 0)
    (out : AllocBufOutcome) (dmaAddr : ℕ) (buffer : List ℕ) :
    Ended dev L home stops (L.fillPages obj out dmaAddr buffer) := by
  unfold Ledger.fillPages
  cases hfill : Buffer.fillPages obj out dmaAddr buffer with
  | ok o =>
    obtain rfl := fillPages_ok hfill
    exact .dmaBuffer hchip rfl
  | error e =>
    simp only [dmaFree_dmaAlloc]
    exact ended_error hstops

theorem allocBuf_ended {obj : RknpuGemObject} (hstops : ¬ stops) (hchip : obj.chipSize = 0)
    (hdma : obj.dmaAddr = 0) (out : AllocBufOutcome) :
    Ended dev L home stops (L.allocBuf dev obj out) := by
  unfold Ledger.allocBuf
  simp only [if_neg (not_not_intro hdma)]
  generalize (if dev.forceContigAlloc = true then _ else _) = flags
  by_cases hpages : (!out.pagesOk) = true
  · rw [if_pos hpages]
    exact ended_error hstops
  rw [if_neg hpages]
  cases out.dma with
  | some buffer =>
    refine fillPages_ended hstops ?_ ..
    exact hchip
  | none =>
    simp only
    split_ifs with hretry
    · cases out.retry with
      | some buffer =>
        refine fillPages_ended hstops ?_ ..
        exact hchip
      | none => exact ended_error hstops
    · exact ended_error hstops

theorem plain_ended (obj : RknpuGemObject) {out : AllocBufOutcome}
    {ret : Except ℤ RknpuGemObject × Ledger} (hstops : ¬ stops) (hchip : obj.chipSize = 0)
    (hcookie : obj.cookie = none) (hdma : obj.dmaAddr = 0)
    (h : (if 0 < obj.size then some (L.allocBuf dev obj out) else some (.ok obj, L)) = some ret) :
    Ended dev L home stops ret := by
  split_ifs at h
  · cases h
    exact allocBuf_ended hstops hchip hdma out
  · cases h
    exact .nothing hchip hcookie hdma

theorem allocBufWithCache_frame {obj o : RknpuGemObject} {type : RknpuCacheType}
    {out : CacheOutcome} (h : L.allocBufWithCache dev obj type out = some (.ok o, L')) :
    o.size = obj.size ∧ o.sramSize = obj.sramSize ∧ o.nbufSize = obj.nbufSize ∧
      o.sramObj = obj.sramObj := by
  obtain ⟨-, iova, hsame⟩ := allocBufWithCache_simulates h
  obtain ⟨hsize, hsram, hnbuf, hobj, -⟩ := rknpuGemAllocBufWithCache_frame hsame
  exact ⟨hsize, hsram, hnbuf, hobj⟩

/-- An error after a part in SRAM, which is always one piece, leaves nothing behind. -/
theorem createInSram_ended (hgranule : 0 < dev.iovaGranule) (hL : L.Covered)
    {live : List RknpuMmObj} {mm : RknpuMm} (hmm : L.mem.sramMm = some mm)
    (hpool : Consistent ⟨mm, live⟩) (henabled : dev.sramEnabled = true) {args : CreateArgs}
    {out : CreateOutcome} {obj : RknpuGemObject} {ret : Except ℤ RknpuGemObject × Ledger}
    (hstops : ¬ stops) (hchip : obj.chipSize = 0) (hcookie : obj.cookie = none)
    (hdma : obj.dmaAddr = 0) (htable : obj.cacheWithSgt = false) (hsize : obj.size % pageSize = 0)
    (h : L.createInSram dev args out obj = some ret) :
    Ended dev L out.cache.domain stops ret := by
  have hsram : obj.sramSize = 0 := Nat.eq_zero_of_add_eq_zero_right hchip
  have hnbuf : obj.nbufSize = 0 := Nat.eq_zero_of_add_eq_zero_left hchip
  simp only [Ledger.createInSram, Option.bind_eq_bind, Option.bind_eq_some_iff, hmm,
    Option.some.injEq, exists_eq_left'] at h
  obtain ⟨⟨mm', obj', real⟩, hreserve, h⟩ := h
  obtain ⟨rfl, rfl, ⟨left, rfl⟩, -⟩ | ⟨r, hreal, hrealSize, halloc, rfl⟩ :=
    reserveSram_cases hreserve
  · rw [if_neg (Nat.lt_irrefl 0), setPool_self hmm] at h
    exact plain_ended { obj with sramObj := left } hstops hchip hcookie hdma h
  rw [if_pos hreal, Option.bind_eq_some_iff] at h
  obtain ⟨⟨res, L₁⟩, hbuilt, h⟩ := h
  simp only at hbuilt h
  have hfree : rknpuMmFree mm' r = some mm := free_of_alloc hpool halloc
  have hcovered : (L.setPool mm').Covered := hL
  have hpos : 0 < obj.size :=
    Nat.lt_of_lt_of_le hreal (hrealSize ▸ realSramSize_le obj.size _ _)
  generalize hbase : ({ obj with sramObj := .held r, sramSize := real } : RknpuGemObject) = base
    at hbuilt h
  have hbaseSize : base.size = obj.size := by rw [← hbase]
  have hbaseObj : base.sramObj = .held r := by rw [← hbase]
  rw [← hbaseSize] at hpos hsize
  cases res with
  | ok o =>
    cases h
    obtain ⟨-, hosram, honbuf, hoobj⟩ := allocBufWithCache_frame hbuilt
    obtain ⟨cacheStart, cacheSize, d, tr, pages, hrange, hdomain, htaken, rfl⟩ :=
      allocBufWithCache_built hgranule hcovered hpos hsize hbuilt
    obtain rfl : cacheSize = o.sramSize := by
      rw [hosram]
      unfold cacheRange at hrange
      rw [setPool_mem, hbaseObj] at hrange
      cases hrange
      rfl
    refine Created.inSram hdomain henabled ?_ ?_ hmm ?_ htaken
    · rw [hosram, ← hbase]
      exact hreal
    · rw [honbuf, ← hbase]
      exact hnbuf
    · unfold freeSram
      rw [hoobj, hbaseObj]
      exact hfree
  | error e =>
    simp only [freeSram, hbaseObj, hfree, Option.bind_some] at h
    cases h
    obtain ⟨d, tr, rfl, htr⟩ := allocBufWithCache_error hgranule hcovered hsize hbuilt
    refine ⟨d, tr, ?_, iff_of_true (htr.mpr ?_) hstops⟩
    · conv_rhs => rw [← setPool_self hmm]
      rfl
    · rintro ⟨part, -, d, -, -, sgl, hsgl, hstop⟩
      have hone : base.cacheWithSgt = false := by rw [← hbase]; exact htable
      unfold BufCall.cacheTable at hsgl
      rw [hone] at hsgl
      cases hsgl
      exact not_stopsAmid _ _ _ hstop

end Ledger

/-- `rknpu_iommu_map_with_cache_sgt` is called for the part of an object of `size` bytes in the
NBUF, and stops amid the table. -/
def StopsInNbuf (dev : RknpuDevice) (L : Ledger) (coreMask : UInt32) (size : ℕ)
    (out : CacheOutcome) : Prop :=
  0 < nbufPart dev coreMask size ∧ sharesNbuf coreMask = true ∧ (dev.cacheSgt 0).isSome = true ∧
    ∃ d ∈ out.domain, L.iovaGranted dev d
        (iovaAlign dev.iovaGranule (nbufPart dev coreMask size + size)) out.iova ≠ 0 ∧
      ∃ sgl ∈ dev.cacheSgt (cacheIndex coreMask), StopsAmid out.cacheRets
        (nbufPart dev coreMask size) (sgl.map fun s => ⟨dev.nbufStart + s.start, s.length⟩)

instance (dev : RknpuDevice) (L : Ledger) (coreMask : UInt32) (size : ℕ) (out : CacheOutcome) :
    Decidable (StopsInNbuf dev L coreMask size out) := by
  unfold StopsInNbuf
  infer_instance

/-- The request gets as far as the NBUF, and stops there. -/
def StopsLate (dev : RknpuDevice) (L : Ledger) (args : CreateArgs) (out : CreateOutcome) : Prop :=
  args.size ≠ 0 ∧
    (rknpuGemInit out.kzallocOk out.initRet (pageAlign args.size.toNat)).toBool = true ∧
    out.domainRet = 0 ∧
    ¬ (dev.sramEnabled = true ∧ createFlags dev args.flags &&& rknpuMemTryAllocSram ≠ 0 ∧
      0 < dev.sramSize) ∧
    (dev.noGki = true ∧ createFlags dev args.flags &&& rknpuMemTryAllocNbuf ≠ 0 ∧
      0 < dev.nbufSize) ∧
    StopsInNbuf dev L args.coreMask (pageAlign args.size.toNat) out.cache

instance (dev : RknpuDevice) (L : Ledger) (args : CreateArgs) (out : CreateOutcome) :
    Decidable (StopsLate dev L args out) := by
  unfold StopsLate
  infer_instance

namespace Ledger
variable {dev : RknpuDevice} {L L' : Ledger}

theorem createInNbuf_ended (hgranule : 0 < dev.iovaGranule) (hL : L.Covered)
    (henabled : dev.noGki = true) {args : CreateArgs} {out : CreateOutcome} {obj : RknpuGemObject}
    {ret : Except ℤ RknpuGemObject × Ledger} (hchip : obj.chipSize = 0)
    (hcookie : obj.cookie = none) (hdma : obj.dmaAddr = 0) (hsize : obj.size % pageSize = 0)
    (h : L.createInNbuf dev args out obj = some ret) :
    Ended dev L out.cache.domain (StopsInNbuf dev L args.coreMask obj.size out.cache) ret := by
  unfold Ledger.createInNbuf at h
  by_cases hpart : 0 < nbufPart dev args.coreMask obj.size
  · simp only [if_pos hpart] at h
    have hpos : 0 < obj.size := Nat.lt_of_lt_of_le hpart (nbufPart_le_size ..)
    generalize hbase : ({ obj with
      nbufSize := nbufPart dev args.coreMask obj.size
      coreMask := args.coreMask
      cacheWithSgt := sharesNbuf args.coreMask && (dev.cacheSgt 0).isSome } : RknpuGemObject) =
        base at h
    have hbaseSize : base.size = obj.size := by rw [← hbase]
    have hrange : cacheRange dev L.mem.sramMm base .nbuf =
        some (dev.nbufStart, nbufPart dev args.coreMask obj.size) := by rw [← hbase]; rfl
    obtain ⟨res, L₁⟩ := ret
    cases res with
    | ok o =>
      obtain ⟨-, hosram, honbuf, -⟩ := allocBufWithCache_frame h
      obtain ⟨cacheStart, cacheSize, d, tr, pages, hrange', hdomain, htaken, rfl⟩ :=
        allocBufWithCache_built hgranule hL (hbaseSize ▸ hpos) (hbaseSize ▸ hsize) h
      cases hrange.symm.trans hrange'
      have honbuf' : o.nbufSize = nbufPart dev args.coreMask obj.size := by
        rw [honbuf, ← hbase]
      rw [← honbuf'] at htaken hpart
      refine Created.inNbuf hdomain henabled ?_ hpart htaken
      rw [hosram, ← hbase]
      exact Nat.eq_zero_of_add_eq_zero_right hchip
    | error e =>
      obtain ⟨d, tr, rfl, htr⟩ :=
        allocBufWithCache_error hgranule hL (hbaseSize ▸ hsize) h
      refine ⟨d, tr, rfl, htr.trans (not_congr ?_)⟩
      unfold StopsInNbuf BufCall.cacheTable cacheSegments
      have hmask : base.coreMask = args.coreMask := by rw [← hbase]
      have hsgt : base.cacheWithSgt = (sharesNbuf args.coreMask && (dev.cacheSgt 0).isSome) := by
        rw [← hbase]
      simp only [hrange, hmask, hsgt, hbaseSize, Option.mem_def, Option.some.injEq,
        exists_eq_left', and_iff_right hpart]
      by_cases htable : sharesNbuf args.coreMask = true ∧ (dev.cacheSgt 0).isSome = true
      · simp only [htable.1, htable.2, Bool.and_self, Bool.not_true, Bool.false_eq_true, if_false,
          true_and, Option.map_eq_some_iff, exists_exists_and_eq_and]
      · refine iff_of_false ?_ fun hstops => htable ⟨hstops.1, hstops.2.1⟩
        rintro ⟨d, -, -, sgl, hsgl, hstops⟩
        have hone : (sharesNbuf args.coreMask && (dev.cacheSgt 0).isSome) = false :=
          Bool.eq_false_iff.mpr fun hboth => htable (Bool.and_eq_true_iff.mp hboth)
        rw [hone] at hsgl
        cases hsgl
        exact not_stopsAmid _ _ _ hstops
  · simp only [if_neg hpart] at h
    exact plain_ended { obj with
      cacheWithSgt := sharesNbuf args.coreMask && (dev.cacheSgt 0).isSome
      coreMask := args.coreMask } (fun hstops => hpart hstops.1) hchip hcookie hdma h

theorem ended_put {home : Option ℕ} {stops : Prop} {res : Except ℤ RknpuGemObject}
    (h : Ended dev L.getDomain home stops (res, L')) :
    Ended dev L home stops (res, L'.putDomain) := by
  cases res with
  | error e =>
    obtain ⟨d, tr, rfl, htr⟩ := h
    exact ⟨d, tr, rfl, htr⟩
  | ok o =>
    cases h with
    | nothing hchip hcookie hdma => exact .nothing hchip hcookie hdma
    | dmaBuffer hchip hcookie => exact .dmaBuffer hchip hcookie
    | inSram hhome henabled hpos hnbuf hmm hfree hbuilt =>
      exact .inSram hhome henabled hpos hnbuf hmm hfree hbuilt
    | inNbuf hhome henabled hsram hpos hbuilt => exact .inNbuf hhome henabled hsram hpos hbuilt

/-- **How a creation ends**, whatever fails. -/
theorem create_ended (hgranule : 0 < dev.iovaGranule) (hL : L.Covered)
    {live : List RknpuGemObject} (hs : Sound dev ⟨L.mem, live⟩) {args : CreateArgs}
    {out : CreateOutcome} {res : Except ℤ RknpuGemObject}
    (h : L.create dev args out = some (res, L')) :
    Ended dev L out.cache.domain (StopsLate dev L args out) (res, L') := by
  unfold Ledger.create at h
  by_cases hsize : args.size = 0
  · rw [if_pos hsize] at h
    cases h
    exact ended_error fun hstops => hstops.1 hsize
  rw [if_neg hsize] at h
  cases hinit : rknpuGemInit out.kzallocOk out.initRet (pageAlign args.size.toNat) with
  | error e =>
    rw [hinit] at h
    cases h
    refine ended_error fun hstops => ?_
    have hok := hstops.2.1
    rw [hinit] at hok
    cases hok
  | ok obj =>
    simp only [hinit] at h
    by_cases hdomain : out.domainRet ≠ 0
    · rw [if_pos hdomain] at h
      cases h
      exact ended_error fun hstops => hdomain hstops.2.2.1
    rw [if_neg hdomain] at h
    obtain ⟨⟨built, L₁⟩, hbacked, h⟩ := Option.map_eq_some_iff.mp h
    cases h
    refine ended_put ?_
    obtain ⟨hobjSize, -, hsram, hnbuf, hdma, htable, -, hcookie⟩ := rknpuGemInit_ok hinit
    have hcovered : L.getDomain.Covered := hL
    unfold Ledger.createBacked at hbacked
    generalize hfresh : ({ obj with
      iommuDomainId := args.iommuDomainId
      flags := createFlags dev args.flags } : RknpuGemObject) = fresh at hbacked
    have hflags : fresh.flags = createFlags dev args.flags := by rw [← hfresh]
    have hsame : fresh.size = pageAlign args.size.toNat := by rw [← hfresh]; exact hobjSize
    have hmod : fresh.size % pageSize = 0 := by rw [hsame]; exact pageAlign_mod _
    have hchip : fresh.chipSize = 0 := by
      rw [← hfresh, RknpuGemObject.chipSize, hsram, hnbuf]
    have hplain : fresh.cookie = none := by rw [← hfresh]; exact hcookie
    have hnodma : fresh.dmaAddr = 0 := by rw [← hfresh]; exact hdma
    rw [hflags] at hbacked
    by_cases hinSram : dev.sramEnabled = true ∧
        createFlags dev args.flags &&& rknpuMemTryAllocSram ≠ 0 ∧ 0 < dev.sramSize
    · rw [if_pos hinSram] at hbacked
      have hstops : ¬ StopsLate dev L args out := fun hstops => hstops.2.2.2.1 hinSram
      cases hmm : L.mem.sramMm with
      | none =>
        have hnone : L.getDomain.mem.sramMm = none := hmm
        simp only [Ledger.createInSram, Option.bind_eq_bind, hnone, Option.bind_none] at hbacked
        cases hbacked
      | some mm =>
        exact createInSram_ended hgranule hcovered hmm (hs.inStep hmm).consistent hinSram.1 hstops
          hchip hplain hnodma (by rw [← hfresh]; exact htable) hmod hbacked
    rw [if_neg hinSram] at hbacked
    by_cases hinNbuf : dev.noGki = true ∧
        createFlags dev args.flags &&& rknpuMemTryAllocNbuf ≠ 0 ∧ 0 < dev.nbufSize
    · rw [if_pos hinNbuf] at hbacked
      have hended := createInNbuf_ended hgranule hcovered hinNbuf.1 hchip hplain hnodma hmod
        hbacked
      have hiff : StopsLate dev L args out ↔
          StopsInNbuf dev L args.coreMask fresh.size out.cache := by
        unfold StopsLate
        rw [hinit, hsame]
        exact ⟨fun h => h.2.2.2.2.2,
          fun h => ⟨hsize, rfl, not_not.mp hdomain, hinSram, hinNbuf, h⟩⟩
      rwa [hiff]
    · rw [if_neg hinNbuf] at hbacked
      exact plain_ended fresh (fun hstops => hinNbuf hstops.2.2.2.2.1) hchip hplain hnodma
        hbacked

end Ledger

/-! ## Destruction -/

/-- The destruction gets the domain, which is the one of the creation when there is a part on the
chip, and the buffer of the DMA API, if that is what there is, has an address. -/
def GivesBack (home : Option ℕ) (o : RknpuGemObject) (out : DestroyOutcome) : Prop :=
  (0 < o.chipSize ∨ o.cookie ≠ none → out.got = true) ∧ (0 < o.chipSize → out.domain = home) ∧
    (o.chipSize = 0 → o.cookie ≠ none → o.dmaAddr ≠ 0)

namespace Ledger
variable {dev : RknpuDevice} {L L' : Ledger} {home : Option ℕ} {o : RknpuGemObject}
  {cacheSize d : ℕ} {tr tr₀ : Translation} {pages : List ℕ}

theorem unmap_parts (hpage : o.iovaStart % pageSize = 0) (hpart : cacheSize % pageSize = 0)
    (hwhole : o.size % pageSize = 0) (x : ℕ) :
    iommuUnmap (iommuUnmap tr o.iovaStart cacheSize) (o.iovaStart + cacheSize) o.size x =
      if o.iovaStart ≤ x ∧ x < o.iovaStart + (cacheSize + o.size) then none else tr x := by
  have hmid : (o.iovaStart + cacheSize) % pageSize = 0 := by
    rw [Nat.add_mod, hpage, hpart, Nat.add_zero, Nat.zero_mod]
  unfold iommuUnmap
  rw [if_neg (by omega), if_neg (by omega)]
  unfold Translation.unmapRange Translation.overlay
  split_ifs <;> first | rfl | omega

/-- Freed in the domain where it was built, a buffer leaves nothing behind. -/
theorem freeBufWithCache_built (hbuilt : Built (L.mem.domains d) o cacheSize tr pages) :
    (L.withBuffer o d tr pages).freeBufWithCache o cacheSize (some d) = L := by
  have hunmapped : iommuUnmap (iommuUnmap tr o.iovaStart cacheSize) (o.iovaStart + cacheSize)
      o.size = L.mem.domains d := by
    funext x
    rw [unmap_parts hbuilt.page hbuilt.part hbuilt.whole]
    split_ifs with hx
    · exact (hbuilt.free x hx.1 hx.2).symm
    · exact hbuilt.outside x (by omega)
  have htaken : L.withBuffer o d tr pages =
      ((L.getPages pages).takeIova d o.iovaStart o.iovaSize).setDomain d tr := rfl
  have hself : ((L.getPages pages).takeIova d o.iovaStart o.iovaSize).setDomain d
      (L.mem.domains d) = (L.getPages pages).takeIova d o.iovaStart o.iovaSize := setDomain_self
  unfold freeBufWithCache
  simp only [if_pos hbuilt.some, hbuilt.pages]
  rw [htaken, unmap_setDomain, unmap_setDomain, hunmapped, hself, freeIova_takeIova,
    putPages_getPages]

theorem freeBufWithCache_elsewhere {domain : Option ℕ} (hdomain : domain ≠ some d) :
    ((L.withBuffer o d tr pages).freeBufWithCache o cacheSize domain).iovas d =
      (o.iovaStart, o.iovaSize) ::ₘ L.iovas d := by
  have htaken : (L.withBuffer o d tr pages).iovas d = (o.iovaStart, o.iovaSize) ::ₘ L.iovas d :=
    Function.update_self ..
  rw [← htaken]
  unfold freeBufWithCache
  cases domain with
  | none =>
    cases o.pages with
    | none => rfl
    | some pages => rfl
  | some d' =>
    have hne : d ≠ d' := fun h => hdomain (congrArg some h.symm)
    simp only
    split_ifs <;> cases o.pages <;> exact Function.update_of_ne hne _ _

theorem ne_of_iovas (hiovas : L'.iovas d = (o.iovaStart, o.iovaSize) ::ₘ L.iovas d) : L' ≠ L := by
  rintro rfl
  have hcard := congrArg Multiset.card hiovas
  rw [Multiset.card_cons] at hcard
  omega

section Destroy
variable {out : DestroyOutcome}

theorem destroy_gaveUp (hgot : out.got = false) : L.destroy dev o out = some (false, L) :=
  if_pos hgot

theorem destroy_plain (hgot : out.got = true) (hchip : o.chipSize = 0) :
    L.destroy dev o out = some (true, (L.getDomain.freeBuf o).putDomain) := by
  unfold RknpuGemObject.chipSize at hchip
  unfold Ledger.destroy
  simp only [hgot, Bool.true_eq_false, if_false]
  rw [if_neg (by omega), if_neg (by omega), Option.map_some]

theorem destroy_sram {mm mm' : RknpuMm} (hgot : out.got = true) (henabled : dev.sramEnabled = true)
    (hpos : 0 < o.sramSize) (hmm : L.mem.sramMm = some mm) (hfree : freeSram mm o = some mm') :
    L.destroy dev o out = some (true,
      ((L.getDomain.setPool mm').freeBufWithCache o o.sramSize out.domain).putDomain) := by
  have hmm' : L.getDomain.mem.sramMm = some mm := hmm
  unfold Ledger.destroy
  simp only [hgot, Bool.true_eq_false, if_false]
  rw [if_pos ⟨henabled, hpos⟩]
  simp only [hmm', Option.bind_eq_bind, Option.bind_some, hfree, Option.map_some]

theorem destroy_nbuf (hgot : out.got = true) (henabled : dev.noGki = true)
    (hsram : o.sramSize = 0) (hpos : 0 < o.nbufSize) :
    L.destroy dev o out = some (true,
      (L.getDomain.freeBufWithCache o o.nbufSize out.domain).putDomain) := by
  unfold Ledger.destroy
  simp only [hgot, Bool.true_eq_false, if_false]
  rw [if_neg (by omega), if_pos ⟨henabled, hpos⟩, Option.map_some]

end Destroy

/-- A part on the chip is given back by a destruction in the domain of the creation. -/
theorem destroy_chip_iff {out : DestroyOutcome} (hchip : 0 < o.chipSize)
    (hbuilt : Built (L.mem.domains d) o cacheSize tr pages)
    (hdestroy : out.got = true → L'.destroy dev o out =
      some (true, ((L.withBuffer o d tr pages).getDomain.freeBufWithCache o cacheSize
        out.domain).putDomain))
    (hiovas : L'.iovas d = (o.iovaStart, o.iovaSize) ::ₘ L.iovas d) :
    (∃ gone, L'.destroy dev o out = some (gone, L)) ↔ GivesBack (some d) o out := by
  unfold GivesBack
  cases hgot : out.got with
  | false =>
    refine iff_of_false ?_ fun h => Bool.false_ne_true (h.1 (Or.inl hchip))
    rintro ⟨gone, h⟩
    rw [destroy_gaveUp hgot] at h
    exact ne_of_iovas hiovas (congrArg Prod.snd (Option.some.inj h))
  | true =>
    rw [hdestroy hgot]
    by_cases hdomain : out.domain = some d
    · rw [hdomain]
      refine iff_of_true ⟨true, ?_⟩ ⟨fun _ => rfl, fun _ => rfl, fun h => by omega⟩
      have hfreed := freeBufWithCache_built (L := L.getDomain) hbuilt
      have hput : (L.withBuffer o d tr pages).getDomain = L.getDomain.withBuffer o d tr pages := rfl
      rw [hput, hfreed, putDomain_getDomain]
    · refine iff_of_false ?_ fun h => hdomain (h.2.1 hchip)
      rintro ⟨gone, h⟩
      have hleft : ((L.withBuffer o d tr pages).getDomain.freeBufWithCache o cacheSize
          out.domain).putDomain.iovas d = (o.iovaStart, o.iovaSize) ::ₘ L.iovas d :=
        @freeBufWithCache_elsewhere L.getDomain o cacheSize d tr pages out.domain hdomain
      exact ne_of_iovas hleft (congrArg Prod.snd (Option.some.inj h))

end Ledger

open Ledger in
/-- **When a destruction gives back** all that the creation took. -/
theorem Created.destroy_iff {dev : RknpuDevice} {L L' : Ledger} {home : Option ℕ}
    {o : RknpuGemObject} (h : Created dev L home o L') (out : DestroyOutcome) :
    (∃ gone, L'.destroy dev o out = some (gone, L)) ↔ GivesBack home o out := by
  cases h with
  | nothing hchip hcookie hdma =>
    refine iff_of_true ?_ ⟨fun h => ?_, fun h => by omega, fun _ h => absurd hcookie h⟩
    · cases hgot : out.got with
      | false => exact ⟨false, destroy_gaveUp hgot⟩
      | true =>
        refine ⟨true, ?_⟩
        rw [destroy_plain hgot hchip, freeBuf, if_pos hdma]
        rfl
    · exact h.elim (fun h => by omega) (absurd hcookie)
  | @dmaBuffer buffer hchip hcookie =>
    have hsome : o.cookie ≠ none := by rw [hcookie]; exact Option.some_ne_none _
    have htaken : L.dmaAlloc o.dmaAddr buffer ≠ L := by
      intro h
      have hcard := congrArg (fun L : Ledger => Multiset.card L.dmaBufs) h
      simp only [dmaAlloc, Multiset.card_cons] at hcard
      omega
    unfold GivesBack
    cases hgot : out.got with
    | false =>
      refine iff_of_false ?_ fun h => Bool.false_ne_true (h.1 (Or.inr hsome))
      rintro ⟨gone, h⟩
      rw [destroy_gaveUp hgot] at h
      exact htaken (congrArg Prod.snd (Option.some.inj h))
    | true =>
      rw [destroy_plain hgot hchip]
      by_cases hdma : o.dmaAddr = 0
      · refine iff_of_false ?_ fun h => h.2.2 hchip hsome hdma
        rintro ⟨gone, h⟩
        rw [freeBuf, if_pos hdma] at h
        exact htaken (congrArg Prod.snd (Option.some.inj h))
      · refine iff_of_true ⟨true, ?_⟩ ⟨fun _ => rfl, fun h => by omega, fun _ _ => hdma⟩
        have hfreed : (L.getDomain.dmaAlloc o.dmaAddr buffer).dmaFree o.dmaAddr buffer =
            L.getDomain := dmaFree_dmaAlloc ..
        have hput : (L.dmaAlloc o.dmaAddr buffer).getDomain =
            L.getDomain.dmaAlloc o.dmaAddr buffer := rfl
        rw [freeBuf, if_neg hdma, hcookie, Option.getD_some, hput, hfreed, putDomain_getDomain]
  | @inSram mm mm' d tr pages hhome henabled hpos hnbuf hmm hfree hbuilt =>
    rw [hhome]
    refine destroy_chip_iff (Nat.add_pos_left hpos _) hbuilt (fun hgot => ?_) ?_
    · have hpool : ((L.setPool mm').withBuffer o d tr pages).getDomain.setPool mm =
          (L.withBuffer o d tr pages).getDomain := by
        conv_rhs => rw [← setPool_self hmm]
        rfl
      rw [destroy_sram hgot henabled hpos rfl hfree, hpool]
    · exact Function.update_self ..
  | inNbuf hhome henabled hsram hpos hbuilt =>
    rw [hhome]
    exact destroy_chip_iff (Nat.add_pos_right _ hpos) hbuilt
      (fun hgot => destroy_nbuf hgot henabled hsram hpos) (Function.update_self ..)

/-! ## Runs -/

/-- The live objects, each with the domain that was attached when it was created. -/
structure LedgerState where
  ledger : Ledger
  live : List (RknpuGemObject × Option ℕ)

def ledgerStep (dev : RknpuDevice) (s : LedgerState) : BufLabel → Option LedgerState
  | .create args out =>
    match s.ledger.create dev args out with
    | none => none
    | some (.error _, L) => some { s with ledger := L }
    | some (.ok o, L) => some ⟨L, s.live ++ [(o, out.cache.domain)]⟩
  | .destroy index out =>
    match s.live[index]? with
    | none => none
    | some (o, _) =>
      match s.ledger.destroy dev o out with
      | some (true, L) => some ⟨L, s.live.eraseIdx index⟩
      | _ => none

def LedgerState.buf (s : LedgerState) : BufState := ⟨s.ledger.mem, s.live.map Prod.fst⟩

/-- `bufSystem`, with the ledger. -/
def ledgerSystem (dev : RknpuDevice) : System LedgerState BufLabel where
  init s := (bufSystem dev).init s.buf
  step := ledgerStep dev

theorem bufSystem_of_ledger {dev : RknpuDevice} {s : LedgerState}
    (hs : (ledgerSystem dev).Reachable s) : (bufSystem dev).Reachable s.buf := by
  refine System.Reachable.map (f := LedgerState.buf) (fun _ h => h)
    (fun s label t h => Or.inr ?_) hs
  cases label with
  | create args out =>
    simp only [ledgerSystem, ledgerStep] at h
    split at h
    · cases h
    · rename_i e L hret
      cases h
      obtain ⟨iova, hsame⟩ := Ledger.create_simulates hret
      refine ⟨.create args { out with cache := { out.cache with iova := iova } }, ?_⟩
      simp only [bufSystem, bufStep, LedgerState.buf, hsame]
    · rename_i o L hret
      cases h
      obtain ⟨iova, hsame⟩ := Ledger.create_simulates hret
      refine ⟨.create args { out with cache := { out.cache with iova := iova } }, ?_⟩
      simp only [bufSystem, bufStep, LedgerState.buf, hsame, List.map_append, List.map_cons,
        List.map_nil]
  | destroy index out =>
    simp only [ledgerSystem, ledgerStep] at h
    split at h
    · cases h
    · rename_i o home hk
      split at h
      · rename_i L hret
        cases h
        have hsame := Ledger.destroy_simulates hret
        refine ⟨.destroy index out, ?_⟩
        simp only [bufSystem, bufStep, LedgerState.buf, List.getElem?_map, hk, Option.map_some,
          hsame, List.eraseIdx_map]
      · cases h

/-- No creation stops late, and an object with a part on the chip is destroyed in its domain. -/
def Unwinds (dev : RknpuDevice) (s : LedgerState) : BufLabel → Prop
  | .create args out => ¬ StopsLate dev s.ledger args out
  | .destroy index out => ∀ p ∈ s.live[index]?, 0 < p.1.chipSize → out.domain = p.2

instance (dev : RknpuDevice) (s : LedgerState) :
    (label : BufLabel) → Decidable (Unwinds dev s label)
  | .create args out => inferInstanceAs (Decidable (¬ StopsLate dev s.ledger args out))
  | .destroy index out =>
    inferInstanceAs (Decidable (∀ p ∈ s.live[index]?, 0 < p.1.chipSize → out.domain = p.2))

/-- The range of IOVAs that an object holds in the domain. -/
def iovaHeld (d : ℕ) (p : RknpuGemObject × Option ℕ) : Option (ℕ × ℕ) :=
  if p.2 = some d ∧ 0 < p.1.chipSize then some (p.1.iovaStart, p.1.iovaSize) else none

/-- An object with a part on the chip lies at page boundaries, in its range. -/
structure Placed (dev : RknpuDevice) (o : RknpuGemObject) : Prop where
  page : o.iovaStart % pageSize = 0
  part : o.chipSize % pageSize = 0
  whole : o.size % pageSize = 0
  some : 0 < o.size
  fits : o.chipSize + o.size ≤ o.iovaSize
  place : (dev.sramEnabled = true ∧ 0 < o.sramSize ∧ o.nbufSize = 0) ∨
    (dev.noGki = true ∧ o.sramSize = 0 ∧ 0 < o.nbufSize)

/-- IOVAs and translations belong to live objects. -/
structure Held (dev : RknpuDevice) (iovas : ℕ → Multiset (ℕ × ℕ)) (domains : ℕ → Translation)
    (live : List (RknpuGemObject × Option ℕ)) : Prop where
  given : ∀ d, (live.filterMap (iovaHeld d) : Multiset (ℕ × ℕ)) ≤ iovas d
  mapped : ∀ d x, domains d x ≠ none → ∃ p ∈ live, p.2 = some d ∧ 0 < p.1.chipSize ∧
    p.1.iovaStart ≤ x ∧ x < p.1.iovaStart + (p.1.chipSize + p.1.size)
  placed : ∀ p ∈ live, 0 < p.1.chipSize → Placed dev p.1

namespace Held
variable {dev : RknpuDevice} {iovas : ℕ → Multiset (ℕ × ℕ)} {domains : ℕ → Translation}
  {live : List (RknpuGemObject × Option ℕ)} {o : RknpuGemObject} {home : Option ℕ} {d k : ℕ}

theorem covered {L : Ledger} (h : Held dev L.iovas L.mem.domains live) : L.Covered := by
  intro d x hx
  obtain ⟨p, hp, hhome, hchip, hlow, hhigh⟩ := h.mapped d x hx
  have hheld : iovaHeld d p = some (p.1.iovaStart, p.1.iovaSize) := if_pos ⟨hhome, hchip⟩
  refine ⟨_, Multiset.mem_of_le (h.given d)
    (Multiset.mem_coe.mpr (List.mem_filterMap.mpr ⟨p, hp, hheld⟩)), hlow, ?_⟩
  have := (h.placed p hp hchip).fits
  simp only
  omega

theorem iovaHeld_plain (hchip : o.chipSize = 0) : iovaHeld d (o, home) = none :=
  if_neg fun hheld => Nat.ne_of_gt hheld.2 hchip

theorem push_plain (h : Held dev iovas domains live) (hchip : o.chipSize = 0) :
    Held dev iovas domains (live ++ [(o, home)]) := by
  refine ⟨fun d => ?_, fun d x hx => ?_, fun p hp hpos => ?_⟩
  · rw [List.filterMap_append, List.filterMap_cons, iovaHeld_plain hchip, List.filterMap_nil,
      List.append_nil]
    exact h.given d
  · obtain ⟨p, hp, hrest⟩ := h.mapped d x hx
    exact ⟨p, List.mem_append_left _ hp, hrest⟩
  · obtain hp | hp := List.mem_append.mp hp
    · exact h.placed p hp hpos
    · obtain rfl := List.mem_singleton.mp hp
      exact absurd hchip (Nat.ne_of_gt hpos)

theorem push {tr : Translation} {pages : List ℕ} (h : Held dev iovas domains live)
    (hplaced : Placed dev o) (hchip : 0 < o.chipSize)
    (hbuilt : Ledger.Built (domains d) o o.chipSize tr pages) :
    Held dev (Function.update iovas d ((o.iovaStart, o.iovaSize) ::ₘ iovas d))
      (Function.update domains d tr) (live ++ [(o, some d)]) := by
  refine ⟨fun d' => ?_, fun d' x hx => ?_, fun p hp hpos => ?_⟩
  · rw [List.filterMap_append, List.filterMap_cons, List.filterMap_nil]
    by_cases hd : d' = d
    · subst hd
      have hheld : iovaHeld d' (o, some d') = some (o.iovaStart, o.iovaSize) := if_pos ⟨rfl, hchip⟩
      rw [hheld, Function.update_self, Multiset.coe_eq_coe.mpr (List.perm_append_singleton _ _),
        ← Multiset.cons_coe]
      exact Multiset.cons_le_cons _ (h.given d')
    · have hheld : iovaHeld d' (o, some d) = none :=
        if_neg fun hheld => hd (Option.some.inj hheld.1).symm
      rw [hheld, List.append_nil, Function.update_of_ne hd]
      exact h.given d'
  · by_cases hd : d' = d
    · subst hd
      rw [Function.update_self] at hx
      by_cases hin : o.iovaStart ≤ x ∧ x < o.iovaStart + (o.chipSize + o.size)
      · exact ⟨(o, some d'), List.mem_append_right _ (List.mem_singleton_self _), rfl, hchip, hin⟩
      · rw [hbuilt.outside x (by omega)] at hx
        obtain ⟨p, hp, hrest⟩ := h.mapped d' x hx
        exact ⟨p, List.mem_append_left _ hp, hrest⟩
    · rw [Function.update_of_ne hd] at hx
      obtain ⟨p, hp, hrest⟩ := h.mapped d' x hx
      exact ⟨p, List.mem_append_left _ hp, hrest⟩
  · obtain hp | hp := List.mem_append.mp hp
    · exact h.placed p hp hpos
    · obtain rfl := List.mem_singleton.mp hp
      exact hplaced

theorem drop_idle (h : Held dev iovas domains live) (hk : live[k]? = some (o, home))
    (hidle : ∀ d, iovaHeld d (o, home) = none) : Held dev iovas domains (live.eraseIdx k) := by
  refine ⟨fun d => ?_, fun d x hx => ?_, fun p hp => h.placed p (List.mem_of_mem_eraseIdx hp)⟩
  · have hgiven := h.given d
    rwa [Multiset.coe_eq_coe.mpr (perm_filterMap (iovaHeld d) hk), hidle d] at hgiven
  · obtain ⟨p, hp, hhome, hpos, hrest⟩ := h.mapped d x hx
    obtain rfl | hp := List.mem_cons.mp ((perm_first hk).mem_iff.mp hp)
    · have hheld : iovaHeld d (o, home) = some (o.iovaStart, o.iovaSize) := if_pos ⟨hhome, hpos⟩
      cases hheld.symm.trans (hidle d)
    · exact ⟨p, hp, hhome, hpos, hrest⟩

theorem drop (h : Held dev iovas domains live) (hk : live[k]? = some (o, some d))
    (hchip : 0 < o.chipSize) :
    Held dev (Function.update iovas d ((iovas d).erase (o.iovaStart, o.iovaSize)))
      (Function.update domains d (iommuUnmap (iommuUnmap (domains d) o.iovaStart o.chipSize)
        (o.iovaStart + o.chipSize) o.size)) (live.eraseIdx k) := by
  have hplaced := h.placed _ (List.mem_of_getElem? hk) hchip
  refine ⟨fun d' => ?_, fun d' x hx => ?_, fun p hp => h.placed p (List.mem_of_mem_eraseIdx hp)⟩
  · have hperm := perm_filterMap (iovaHeld d') hk
    have hgiven := h.given d'
    rw [Multiset.coe_eq_coe.mpr hperm] at hgiven
    by_cases hd : d' = d
    · subst hd
      have hheld : iovaHeld d' (o, some d') = some (o.iovaStart, o.iovaSize) := if_pos ⟨rfl, hchip⟩
      rw [hheld, Option.toList_some, List.singleton_append, ← Multiset.cons_coe] at hgiven
      have hrest := Multiset.erase_le_erase (o.iovaStart, o.iovaSize) hgiven
      rwa [Multiset.erase_cons_head, ← Function.update_self d'
        ((iovas d').erase (o.iovaStart, o.iovaSize)) iovas] at hrest
    · have hheld : iovaHeld d' (o, some d) = none :=
        if_neg fun hheld => hd (Option.some.inj hheld.1).symm
      rw [hheld, Option.toList_none, List.nil_append] at hgiven
      rwa [Function.update_of_ne hd]
  · have hmapped : domains d' x ≠ none ∧
        (d' = d → ¬ (o.iovaStart ≤ x ∧ x < o.iovaStart + (o.chipSize + o.size))) := by
      by_cases hd : d' = d
      · subst hd
        rw [Function.update_self,
          Ledger.unmap_parts hplaced.page hplaced.part hplaced.whole] at hx
        split_ifs at hx with hin
        · exact absurd rfl hx
        · exact ⟨hx, fun _ => hin⟩
      · rw [Function.update_of_ne hd] at hx
        exact ⟨hx, fun h => absurd h hd⟩
    obtain ⟨p, hp, hhome, hpos, hin⟩ := h.mapped d' x hmapped.1
    obtain rfl | hp := List.mem_cons.mp ((perm_first hk).mem_iff.mp hp)
    · exact absurd hin (hmapped.2 (Option.some.inj hhome).symm)
    · exact ⟨p, hp, hhome, hpos, hin⟩

theorem created {L L' : Ledger} (h : Held dev L.iovas L.mem.domains live)
    (hcreated : Created dev L home o L') :
    Held dev L'.iovas L'.mem.domains (live ++ [(o, home)]) := by
  cases hcreated with
  | nothing hchip hcookie hdma => exact h.push_plain hchip
  | dmaBuffer hchip hcookie => exact h.push_plain hchip
  | inSram hhome henabled hpos hnbuf hmm hfree hbuilt =>
    subst hhome
    have hchip : o.sramSize = o.chipSize := by rw [RknpuGemObject.chipSize, hnbuf, Nat.add_zero]
    rw [hchip] at hbuilt
    exact h.push ⟨hbuilt.page, hbuilt.part, hbuilt.whole, hbuilt.some, hbuilt.fits,
      Or.inl ⟨henabled, hpos, hnbuf⟩⟩ (hchip ▸ hpos) hbuilt
  | inNbuf hhome henabled hsram hpos hbuilt =>
    subst hhome
    have hchip : o.nbufSize = o.chipSize := by rw [RknpuGemObject.chipSize, hsram, Nat.zero_add]
    rw [hchip] at hbuilt
    exact h.push ⟨hbuilt.page, hbuilt.part, hbuilt.whole, hbuilt.some, hbuilt.fits,
      Or.inr ⟨henabled, hsram, hpos⟩⟩ (hchip ▸ hpos) hbuilt

theorem freed {L : Ledger} {domain : Option ℕ} (h : Held dev L.iovas L.mem.domains live)
    (hk : live[k]? = some (o, home)) (hchip : 0 < o.chipSize) (hdomain : domain = home) :
    Held dev (L.freeBufWithCache o o.chipSize domain).iovas
      (L.freeBufWithCache o o.chipSize domain).mem.domains (live.eraseIdx k) := by
  have hplaced := h.placed _ (List.mem_of_getElem? hk) hchip
  subst hdomain
  rw [Ledger.freeBufWithCache_simulates]
  unfold Ledger.freeBufWithCache rknpuGemFreeBufWithCache
  cases domain with
  | none =>
    have hdropped := h.drop_idle hk fun d => if_neg fun hheld => by cases hheld.1
    cases o.pages with
    | none => exact hdropped
    | some pages => exact hdropped
  | some d =>
    have hdropped := h.drop hk hchip
    simp only [if_pos hplaced.some]
    cases o.pages with
    | none => exact hdropped
    | some pages => exact hdropped

theorem destroyed {L L' : Ledger} {out : DestroyOutcome}
    (h : Held dev L.iovas L.mem.domains live) (hk : live[k]? = some (o, home))
    (hdomain : 0 < o.chipSize → out.domain = home)
    (hdestroy : L.destroy dev o out = some (true, L')) :
    Held dev L'.iovas L'.mem.domains (live.eraseIdx k) := by
  have hgot : out.got = true := by
    by_contra hgot
    rw [Ledger.destroy_gaveUp (Bool.eq_false_iff.mpr hgot)] at hdestroy
    cases hdestroy
  by_cases hchip : o.chipSize = 0
  · rw [Ledger.destroy_plain hgot hchip] at hdestroy
    cases hdestroy
    have hdropped := h.drop_idle hk fun d => iovaHeld_plain hchip
    unfold Ledger.freeBuf
    split_ifs
    · exact hdropped
    · exact hdropped
  have hpos := Nat.pos_of_ne_zero hchip
  obtain ⟨henabled, hsram, hnbuf⟩ | ⟨henabled, hsram, hnbuf⟩ :=
    (h.placed _ (List.mem_of_getElem? hk) hpos).place
  · have hpart : o.sramSize = o.chipSize := by rw [RknpuGemObject.chipSize, hnbuf, Nat.add_zero]
    obtain ⟨-, -, mm, mm', hmm, hfree, -⟩ | ⟨hnone, -⟩ :=
      rknpuGemObjectDestroy_cases (Ledger.destroy_simulates hdestroy)
    · rw [Ledger.destroy_sram hgot henabled hsram hmm hfree, hpart] at hdestroy
      cases hdestroy
      exact freed (L := L.getDomain.setPool mm') h hk hpos (hdomain hpos)
    · exact absurd ⟨henabled, hsram⟩ hnone
  · have hpart : o.nbufSize = o.chipSize := by rw [RknpuGemObject.chipSize, hsram, Nat.zero_add]
    rw [Ledger.destroy_nbuf hgot henabled hsram hnbuf, hpart] at hdestroy
    cases hdestroy
    exact freed (L := L.getDomain) h hk hpos (hdomain hpos)

end Held

/-- In a run that unwinds, what is mapped and given out belongs to live objects. -/
theorem held_of_unwinds {dev : RknpuDevice} (hgranule : 0 < dev.iovaGranule) {s : LedgerState}
    (hs : ((ledgerSystem dev).guarded (Unwinds dev)).Reachable s) :
    Held dev s.ledger.iovas s.ledger.mem.domains s.live := by
  suffices h : (ledgerSystem dev).Reachable s ∧
      Held dev s.ledger.iovas s.ledger.mem.domains s.live from h.2
  refine hs.invariant (fun s => (ledgerSystem dev).Reachable s ∧
    Held dev s.ledger.iovas s.ledger.mem.domains s.live) ?_ ?_
  · intro s hinit
    obtain ⟨_, _, _, _, -, -, hdomains, hlive⟩ := id hinit
    refine ⟨System.Reachable.init hinit, ?_⟩
    have hnone : s.live = [] := List.map_eq_nil_iff.mp hlive
    have hfree : s.ledger.mem.domains = fun _ _ => none := hdomains
    rw [hnone, hfree]
    exact ⟨fun d => Multiset.zero_le _, fun d x hx => absurd rfl hx, fun p hp => by cases hp⟩
  · rintro s label t ⟨hreach, hheld⟩ hstep
    obtain ⟨hunwinds, hstep⟩ := System.guarded_step.mp hstep
    refine ⟨hreach.step hstep, ?_⟩
    have hsound := sound_reachable (bufSystem_of_ledger hreach)
    cases label with
    | create args out =>
      simp only [ledgerSystem, ledgerStep] at hstep
      split at hstep
      · cases hstep
      · rename_i e L hret
        cases hstep
        obtain ⟨d, tr, rfl, htr⟩ := Ledger.create_ended hgranule hheld.covered hsound hret
        rw [htr.mpr hunwinds, Ledger.setDomain_self]
        exact hheld
      · rename_i o L hret
        cases hstep
        exact hheld.created (Ledger.create_ended hgranule hheld.covered hsound hret)
    | destroy index out =>
      simp only [ledgerSystem, ledgerStep] at hstep
      split at hstep
      · cases hstep
      · rename_i o home hk
        split at hstep
        · rename_i L hret
          cases hstep
          exact hheld.destroyed hk (hunwinds _ hk) hret
        · cases hstep

/-- **Creation is all or nothing** exactly when it does not stop late, and what it has taken is
given back. -/
theorem create_unwinds {dev : RknpuDevice} (hgranule : 0 < dev.iovaGranule) {s : LedgerState}
    (hs : ((ledgerSystem dev).guarded (Unwinds dev)).Reachable s) (args : CreateArgs)
    (out : CreateOutcome) :
    (∀ e L', s.ledger.create dev args out = some (.error e, L') →
      (L' = s.ledger ↔ ¬ StopsLate dev s.ledger args out)) ∧
    ∀ o L', s.ledger.create dev args out = some (.ok o, L') → ∀ destroyOut : DestroyOutcome,
      (∃ gone, L'.destroy dev o destroyOut = some (gone, s.ledger)) ↔
        GivesBack out.cache.domain o destroyOut := by
  have hheld := held_of_unwinds hgranule hs
  have hsound := sound_reachable (bufSystem_of_ledger hs.unguarded)
  refine ⟨fun e L' h => ?_, fun o L' h destroyOut => ?_⟩
  · obtain ⟨d, tr, rfl, htr⟩ := Ledger.create_ended hgranule hheld.covered hsound h
    rw [Ledger.setDomain_eq_iff, htr]
  · exact Created.destroy_iff (Ledger.create_ended hgranule hheld.covered hsound h) destroyOut

/-- Nothing is taken yet. -/
def freshLedger : Ledger := ⟨⟨none, fun _ _ => none⟩, fun _ => 0, 0, 0, 0⟩

def nbufArgs : CreateArgs := ⟨rknpuMemTryAllocNbuf, 12288, 0, 0, rknpuCore0Mask⟩

/-- `iommu_map` fails for the piece `k` of the cache part. -/
def pieceFails (k : ℕ) : CreateOutcome :=
  { noFailure 0x10000000 100 with
    cache := ⟨some 0, 0x10000000, fun i => if i = k then -12 else 0, .ok fun i => 100 + i, 0, 256,
      fun _ => 0⟩ }

theorem freshLedger_init : (ledgerSystem splitNbuf).init ⟨freshLedger, []⟩ :=
  ⟨splitNbuf, none, true, true, rfl, rfl, rfl, rfl⟩

theorem create_unwinds_first_piece :
    (∃ e L', freshLedger.create splitNbuf nbufArgs (pieceFails 0) = some (.error e, L') ∧
      L' = freshLedger) ∧
    ∃ o L', freshLedger.create splitNbuf nbufArgs (pieceFails 2) = some (.ok o, L') ∧
      ∃ gone, L'.destroy splitNbuf o ⟨fun _ => 0, some 0⟩ = some (gone, freshLedger) := by
  have hs : ((ledgerSystem splitNbuf).guarded (Unwinds splitNbuf)).Reachable ⟨freshLedger, []⟩ :=
    System.Reachable.init freshLedger_init
  obtain ⟨e, L, hfails⟩ : ∃ e L, freshLedger.create splitNbuf nbufArgs (pieceFails 0) =
      some (.error e, L) := ⟨_, _, rfl⟩
  obtain ⟨o, L', hbuilds, hchip⟩ : ∃ o L', freshLedger.create splitNbuf nbufArgs (pieceFails 2) =
      some (.ok o, L') ∧ o.chipSize = 12288 := ⟨_, _, rfl, rfl⟩
  refine ⟨⟨e, L, hfails, ?_⟩, o, L', hbuilds, ?_⟩
  · exact ((create_unwinds (by decide) hs nbufArgs (pieceFails 0)).1 e L hfails).mpr
      (by decide +kernel)
  · exact ((create_unwinds (by decide) hs nbufArgs (pieceFails 2)).2 o L' hbuilds _).mpr
      ⟨fun _ => rfl, fun _ => rfl, fun h => by omega⟩

/-- The second piece cannot be mapped: the first one stays mapped, at IOVAs that are free again. -/
theorem create_leaves_mapped : (ledgerSystem splitNbuf).Reachable ⟨freshLedger, []⟩ ∧ ∃ e L',
    freshLedger.create splitNbuf nbufArgs (pieceFails 1) = some (.error e, L') ∧
      L'.iovas 0 = 0 ∧ freshLedger.mem.domains 0 0x10000000 = none ∧
      L'.mem.domains 0 0x10000000 = some 0x3fe80000 :=
  ⟨System.Reachable.init freshLedger_init, _, _, rfl, by decide +kernel, rfl, by decide +kernel⟩

end RknpuDriver.Buffer
