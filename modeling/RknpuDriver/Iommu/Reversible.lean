import RknpuDriver.Iommu.Groups
import Mathlib.Data.Nat.ModEq

/-! # A mapping is faithful and reversible

* `Faithful`: what the caller of `rknpu_iommu_dma_map_sg` expects.
* `map_sg_reversible_iff`: the calls with positive lengths and a layout below `2^32` that give it.
-/

namespace RknpuDriver.Iommu
open RknpuDriver.Lib
open Place
set_option autoImplicit false

/-- What DMA fields cover on the bus. -/
def SgDma.segment (d : SgDma) : Segment := ⟨d.address.toNat, d.length.toNat⟩

/-- The bus addresses that the DMA fields of some entries cover, in order. -/
def busBytes (sg : List SgEntry) : List ℕ :=
  (Segment.bytes (sg.map fun s => s.dma.segment)).map (· % 2 ^ 64)

/-- The bus addresses at which the layout places the bytes of the list, in order. -/
def layoutBytes (dev : MapDevice) (iova : UInt64) (sg : List SgEntry) : List ℕ :=
  (Segment.bytes ((places dev 0 sg).map (Place.segment iova.toNat))).map (· % 2 ^ 64)

/-- The first `count` entries of the result are the output segments. -/
structure Covers (dev : MapDevice) (iova : UInt64) (sg : List SgEntry) (r : MapResult)
    (count : ℕ) : Prop where
  ret : r.ret = count
  le : count ≤ sg.length
  positive : ∀ s ∈ r.sg.take count, 0 < s.dma.length.toNat
  sum : ((r.sg.take count).map fun s => s.dma.length.toNat).sum =
    (sg.map fun s => s.length.toNat).sum
  bytes : busBytes (r.sg.take count) = layoutBytes dev iova sg
  rest : ∀ s ∈ r.sg.drop count, s.dma.length = 0

section Failure
variable {dev : MapDevice} {sg : List SgEntry}

/-- The first segment is not padded away from a boundary of a mask of ones. -/
theorem nextStart_of_mask {k : ℕ} (hk : k ≤ 64) (hmask : dev.segBoundary.toNat = 2 ^ k - 1)
    (sg : List SgEntry) : nextStart dev 0 sg = 0 := by
  have hpad : (dev.segBoundary - 0 + 1) &&& dev.segBoundary = 0 := by
    rw [← UInt64.toNat_inj, UInt64.sub_zero, UInt64.toNat_and, UInt64.toNat_add, hmask,
      Nat.and_two_pow_sub_one_eq_mod]
    have hpos := Nat.two_pow_pos k
    have hsum : 2 ^ k - 1 + (1 : UInt64).toNat = 2 ^ k := Nat.sub_add_cancel hpos
    rw [hsum, Nat.mod_mod_of_dvd _ (Nat.pow_dvd_pow 2 hk), Nat.mod_self]
    rfl
  cases sg with
  | nil => rfl
  | cons s rest =>
    show startAt dev 0 s = 0
    have hzero :
        padding dev.segBoundary (UInt64.ofNat 0) (UInt64.ofNat (s.space dev.iovad)) = 0 := by
      show (if (dev.segBoundary - 0 + 1) &&& dev.segBoundary ≠ 0 ∧ _ then _ else _) = _
      rw [if_neg fun h => h.1 hpad]
    rw [startAt, hzero]
    rfl

theorem invalidate_stash {s : SgEntry} (hmemory : s.dma.busAddress = false)
    (hpos : 0 < s.length.toNat) (n : UInt32) :
    invalidateEntry { s.stash dev.iovad with length := n } = s.cleared := by
  have hoff : iovaOffset dev.iovad s.offset.toUInt64 ≠ dmaMappingError := by
    intro h
    have hlt := s.offset.toNat_lt
    have hmod := Nat.mod_le s.offset.toNat dev.iovad.granule
    have htoNat := toNat_iovaOffset s dev.iovad
    rw [h] at htoNat
    have hmax : dmaMappingError.toNat = 2 ^ 64 - 1 := rfl
    omega
  have hlen : s.length ≠ 0 := by
    rintro h
    rw [h] at hpos
    exact absurd hpos (Nat.lt_irrefl 0)
  have hbus : ¬ s.dma.busAddress = true := by
    rw [hmemory]
    exact Bool.false_ne_true
  show (if s.dma.busAddress = true then _ else SgEntry.mk
    (if iovaOffset dev.iovad s.offset.toUInt64 ≠ dmaMappingError then _ else _)
    (if s.length ≠ 0 then _ else _) _) = _
  rw [if_neg hbus, if_pos hoff, if_pos hlen]
  show SgEntry.mk (s.offset - (iovaOffset dev.iovad s.offset.toUInt64).toUInt32 +
    (iovaOffset dev.iovad s.offset.toUInt64).toUInt32) s.length _ = _
  rw [UInt32.sub_add_cancel]
  rfl

theorem invalidateSg_stashes (hmemory : ∀ s ∈ sg, s.dma.busAddress = false)
    (hpos : ∀ s ∈ sg, 0 < s.length.toNat) (pos : ℕ) :
    invalidateSg (stashes dev pos sg) = sg.map SgEntry.cleared := by
  induction sg generalizing pos with
  | nil => rfl
  | cons s rest ih =>
    rw [stashes, invalidateSg, List.map_cons, List.map_cons,
      invalidate_stash (hmemory s List.mem_cons_self) (hpos s List.mem_cons_self)]
    exact congrArg _ (ih (fun t ht => hmemory t (List.mem_cons_of_mem s ht))
      (fun t ht => hpos t (List.mem_cons_of_mem s ht)) _)

end Failure

section Success
variable {dev : MapDevice} {iova : UInt64} {sg : List SgEntry} {g : List Place}

theorem map_mod_range' {a b m : ℕ} (h : a ≡ b [MOD m]) (n : ℕ) :
    (List.range' a n).map (· % m) = (List.range' b n).map (· % m) := by
  rw [List.range'_eq_map_range, List.range'_eq_map_range, List.map_map, List.map_map]
  exact List.map_congr_left fun j _ => h.add_right j

/-- A group of a list of memory segments with positive lengths. -/
structure Filled (g : List Place) : Prop where
  chain : g.IsChain Continues
  memory : ∀ p ∈ g, p.busAddress = false
  nonempty : g ≠ []
  lt : total g < 2 ^ 32
  pos : 0 < total g

theorem filled_of_mem (hmemory : ∀ s ∈ sg, s.dma.busAddress = false)
    (hpos : ∀ s ∈ sg, 0 < s.length.toNat) (htotal : paddedTotal dev sg < 2 ^ 32)
    (hg : g ∈ groups dev iova sg) : Filled g :=
  ⟨isChain_of_mem_groups hg, fun _ hp => memory_of_mem_groups hmemory hg hp,
    ne_nil_of_mem_coalesce hg, lt_of_le_of_lt (total_le_of_mem_groups hg) htotal,
    total_pos_of_mem_groups hpos hg⟩

theorem Filled.length (h : Filled g) (iova : UInt64) :
    (groupDma iova g).length.toNat = total g := by
  obtain ⟨p, g', rfl⟩ := List.exists_cons_of_ne_nil h.nonempty
  rw [length_groupDma iova g' (h.memory p List.mem_cons_self), Nat.mod_eq_of_lt h.lt]

theorem Filled.bytes (h : Filled g) :
    (groupDma iova g).segment.addrs.map (· % 2 ^ 64) =
      (Segment.bytes (g.map (Place.segment iova.toNat))).map (· % 2 ^ 64) := by
  have hlength := h.length iova
  rw [← Segment.addrs_span (isChain_segments iova.toNat h.chain)]
  obtain ⟨p, g', rfl⟩ := List.exists_cons_of_ne_nil h.nonempty
  rw [span_segments, SgDma.segment, hlength, groupDma_cons iova g' (h.memory p List.mem_cons_self)]
  refine map_mod_range' ?_ _
  show (iova + UInt64.ofNat (p.start + p.offset)).toNat ≡ _ [MOD 2 ^ 64]
  rw [UInt64.toNat_add, UInt64.toNat_ofNat']
  exact (Nat.mod_modEq _ _).trans ((Nat.mod_modEq _ _).add_left _)

theorem bytes_groupDma (iova : UInt64) {gs : List (List Place)} (h : ∀ g ∈ gs, Filled g) :
    (Segment.bytes ((gs.map (groupDma iova)).map SgDma.segment)).map (· % 2 ^ 64) =
      (Segment.bytes (gs.flatten.map (Place.segment iova.toNat))).map (· % 2 ^ 64) := by
  induction gs with
  | nil => rfl
  | cons g gs ih =>
    rw [List.map_cons, List.map_cons, Segment.bytes_cons, List.map_append,
      (h g List.mem_cons_self).bytes, ih fun g' hg' => h g' (List.mem_cons_of_mem g hg'),
      List.flatten_cons, List.map_append, Segment.bytes_append, List.map_append]

theorem sum_groupDma (iova : UInt64) {gs : List (List Place)} (h : ∀ g ∈ gs, Filled g) :
    ((gs.map (groupDma iova)).map fun d => d.length.toNat).sum = total gs.flatten := by
  rw [total_flatten, List.map_map]
  exact congrArg List.sum (List.map_congr_left fun g hg => (h g hg).length iova)

theorem Outputs.covers {sg' : List SgEntry} (h : Outputs dev iova sg sg')
    (hfilled : ∀ g ∈ groups dev iova sg, Filled g) (mapped : Option (UInt64 × UInt64)) :
    Covers dev iova sg ⟨(groups dev iova sg).length, sg', mapped⟩ (groups dev iova sg).length := by
  refine ⟨rfl, length_groups_le dev iova sg, ?_, ?_, ?_, ?_⟩
  · intro s hs
    have hmem : s.dma ∈ (groups dev iova sg).map (groupDma iova) := by
      rw [← h.dma]
      exact List.mem_map_of_mem hs
    obtain ⟨g, hg, hgs⟩ := List.mem_map.mp hmem
    rw [← hgs, (hfilled g hg).length iova]
    exact (hfilled g hg).pos
  · have hsum := sum_groupDma iova hfilled
    rw [flatten_groups, total_places, ← h.dma, List.map_map] at hsum
    exact hsum
  · have hbytes := bytes_groupDma iova hfilled
    rw [flatten_groups, ← h.dma, List.map_map] at hbytes
    exact hbytes
  · intro s hs
    rw [h.rest s hs]

end Success

theorem map_sg_nil (dev : MapDevice) (o : MapOutcome) :
    rknpuIommuDmaMapSg dev o [] = some ⟨0, [], none⟩ := rfl

/-- `iommu_map_sg` has mapped a part of the range, and not all of it. -/
def MapsPart (dev : MapDevice) (o : MapOutcome) (sg : List SgEntry) : Prop :=
  allocated dev o sg ≠ 0 ∧ 0 < o.iommuMapSg (allocated dev o sg) (stashes dev 0 sg) ∧
    o.iommuMapSg (allocated dev o sg) (stashes dev 0 sg) < paddedTotal dev sg

/-- What a caller gets that takes every result but `0` for a success, as `rknpu_gem_get_pages`
does. -/
structure Faithful (dev : MapDevice) (o : MapOutcome) (sg : List SgEntry) (r : MapResult) :
    Prop where
  kept : r.sg.map (fun s => (s.offset, s.length)) = sg.map fun s => (s.offset, s.length)
  success : r.ret ≠ 0 →
    r.mapped = some (allocated dev o sg, UInt64.ofNat (paddedTotal dev sg)) ∧
      ∃ count, Covers dev (allocated dev o sg) sg r count
  failure : r.ret = 0 → r.mapped = none ∧ ∀ s ∈ r.sg, s.dma.length = 0

section Calls
variable {dev : MapDevice} {o : MapOutcome} {sg : List SgEntry}

theorem sum_length_le (dev : MapDevice) (sg : List SgEntry) :
    (sg.map fun s => s.length.toNat).sum ≤ paddedTotal dev sg := by
  have hbytes := total_places_le dev 0 sg
  rw [total_places, Nat.zero_add] at hbytes
  exact hbytes

theorem space_ne_zero (hpos : ∀ s ∈ sg, 0 < s.length.toNat) (hne : sg ≠ [])
    (htotal : paddedTotal dev sg < 2 ^ 32) : UInt64.ofNat (paddedTotal dev sg) ≠ 0 := by
  intro hspace
  have hsum := sum_length_le dev sg
  have hzero := congrArg UInt64.toNat hspace
  obtain ⟨s, rest, rfl⟩ := List.exists_cons_of_ne_nil hne
  have hs := hpos s List.mem_cons_self
  rw [UInt64.toNat_ofNat', Nat.mod_eq_of_lt (by omega)] at hzero
  rw [List.map_cons, List.sum_cons] at hsum
  have hpadded : paddedTotal dev (s :: rest) = 0 := hzero
  omega

theorem groups_ne_nil {iova : UInt64} (hne : sg ≠ []) : groups dev iova sg ≠ [] := by
  intro hnil
  have hflatten := flatten_groups dev iova sg
  rw [hnil] at hflatten
  cases sg with
  | nil => exact hne rfl
  | cons s rest => cases hflatten

/-- A failed call returns `0`, unless a part of the range has been mapped. -/
theorem failedRet_ne_zero (htotal : paddedTotal dev sg < 2 ^ 32) (h : ¬ Succeeds dev o sg)
    (hspace : UInt64.ofNat (paddedTotal dev sg) ≠ 0) :
    failedRet dev o sg ≠ 0 ↔ MapsPart dev o sg := by
  unfold failedRet MapsPart
  by_cases hiova : allocated dev o sg = 0
  · simp [hiova]
  · have hshort : o.iommuMapSg (allocated dev o sg) (stashes dev 0 sg) < paddedTotal dev sg := by
      by_contra hmapped
      refine h ⟨hspace, hiova, ?_⟩
      rw [UInt64.toNat_ofNat', Nat.mod_eq_of_lt (by omega)]
      omega
    simp only [hiova, false_or, ne_eq, not_false_eq_true, true_and, hshort, and_true]
    split_ifs with hneg
    · omega
    · rw [intOfSsize, Int.bmod_def]
      omega

theorem faithful_of_succeeds (hmemory : ∀ s ∈ sg, s.dma.busAddress = false)
    (hpos : ∀ s ∈ sg, 0 < s.length.toNat) (hfirst : nextStart dev 0 sg = 0)
    (htotal : paddedTotal dev sg < 2 ^ 32) (h : Succeeds dev o sg) :
    ∃ r, rknpuIommuDmaMapSg dev o sg = some r ∧ Faithful dev o sg r := by
  obtain ⟨sg', hr, houtputs⟩ := mapSg_outputs hfirst (exact_of_total hmemory htotal) h
  have hcovers := houtputs.covers (fun g hg => filled_of_mem hmemory hpos htotal hg)
    (some (allocated dev o sg, UInt64.ofNat (paddedTotal dev sg)))
  refine ⟨_, hr, houtputs.kept, fun _ => ⟨rfl, _, hcovers⟩, fun hzero => ?_⟩
  have hne : sg ≠ [] := by
    rintro rfl
    exact h.space rfl
  exact absurd (List.length_eq_zero_iff.mp (Int.natCast_eq_zero.mp hzero)) (groups_ne_nil hne)

end Calls

/-- **A call** with memory segments of positive lengths, a mask of ones and a layout below `2^32`
gives the offsets and the lengths back, whatever the allocation of the IOVA and `iommu_map_sg`
return. It is faithful just when `iommu_map_sg` maps all that it is asked for, or nothing: then the
first entries have the output segments when the call succeeds, which cover the bytes of the list
where the layout places them, in order; and when it fails there is none. -/
theorem map_sg_reversible_iff (dev : MapDevice) (o : MapOutcome) {sg : List SgEntry}
    (hmemory : ∀ s ∈ sg, s.dma.busAddress = false) (hpos : ∀ s ∈ sg, 0 < s.length.toNat)
    {k : ℕ} (hk : k ≤ 64) (hmask : dev.segBoundary.toNat = 2 ^ k - 1)
    (htotal : paddedTotal dev sg < 2 ^ 32) :
    ∃ r, rknpuIommuDmaMapSg dev o sg = some r ∧
      r.sg.map (fun s => (s.offset, s.length)) = sg.map (fun s => (s.offset, s.length)) ∧
      (Faithful dev o sg r ↔ ¬ MapsPart dev o sg) := by
  have hfirst := nextStart_of_mask hk hmask sg
  by_cases h : Succeeds dev o sg
  · obtain ⟨r, hr, hfaithful⟩ := faithful_of_succeeds hmemory hpos hfirst htotal h
    refine ⟨r, hr, hfaithful.kept, iff_of_true hfaithful fun hpart => ?_⟩
    have hmapped := h.mapped
    rw [UInt64.toNat_ofNat', Nat.mod_eq_of_lt (by omega)] at hmapped
    exact absurd hmapped (Int.not_le.mpr hpart.2.2)
  · by_cases hne : sg = []
    · subst hne
      have hpart : ¬ MapsPart dev o [] := fun hpart => by
        have hzero : (paddedTotal dev [] : ℤ) = 0 := rfl
        have := hpart.2
        omega
      refine ⟨_, map_sg_nil dev o, rfl, iff_of_true ⟨rfl, fun hret => absurd rfl hret, ?_⟩ hpart⟩
      exact fun _ => ⟨rfl, fun s hs => absurd hs List.not_mem_nil⟩
    · have hspace := space_ne_zero hpos hne htotal
      have hr := mapSg_fails hfirst hspace h
      rw [invalidateSg_stashes hmemory hpos] at hr
      have hkept : (sg.map SgEntry.cleared).map (fun s => (s.offset, s.length)) =
          sg.map fun s => (s.offset, s.length) := by
        rw [List.map_map]
        rfl
      have hcleared : ∀ s ∈ sg.map SgEntry.cleared, s.dma.length = 0 := by
        intro s hs
        obtain ⟨t, -, rfl⟩ := List.mem_map.mp hs
        rfl
      refine ⟨_, hr, hkept, ?_⟩
      rw [← failedRet_ne_zero htotal h hspace, not_not]
      constructor
      · intro hfaithful
        by_contra hret
        obtain ⟨hmapped, -⟩ := hfaithful.success hret
        cases hmapped
      · intro hret
        exact ⟨hkept, fun hcon => absurd hret hcon, fun _ => ⟨rfl, hcleared⟩⟩

theorem pageShift_lt : 12 < 64 := by decide

/-- A device with pages as granules and the limits that a device has by default. -/
def defaultDevice : MapDevice where
  iovad := ⟨12, pageShift_lt⟩
  segBoundary := 0xffffffff
  maxSegSize := 0x10000
  dmaMask := 0xffffffff
  busDmaLimit := 0
  forceAperture := true
  apertureEnd := 0xffffffff
  kernel61 := true

/-- An allocator that has the granules from `pfn` on, and an `iommu_map_sg` that maps all. -/
def mapsFrom (pfn : UInt64) : MapOutcome where
  allocIova _ _ := some pfn
  allocIovaFast _ _ := pfn
  iommuMapSg _ sg := mappable sg

/-- A segment of the caller. -/
def sgSegment (offset length : UInt32) : SgEntry := ⟨offset, length, ⟨0, 0, false⟩⟩

def twoSegments : List SgEntry := [sgSegment 16 0xff0, sgSegment 0 0x1800]

theorem map_sg_reversible_iff_two :
    ∃ r, rknpuIommuDmaMapSg defaultDevice (mapsFrom 0xf) twoSegments = some r ∧
      Faithful defaultDevice (mapsFrom 0xf) twoSegments r := by
  have hmemory : ∀ s ∈ twoSegments, s.dma.busAddress = false := by decide
  obtain ⟨r, hr, -, hiff⟩ := map_sg_reversible_iff defaultDevice (mapsFrom 0xf) hmemory
    (by decide) (k := 32) (by decide) (by decide) (by decide)
  refine ⟨r, hr, hiff.mpr fun hpart => ?_⟩
  exact absurd hpart.2.2 (by decide)

/-- As `mapsFrom`, but `iommu_map_sg` maps one page and returns. -/
def mapsOnePage (pfn : UInt64) : MapOutcome := { mapsFrom pfn with iommuMapSg := fun _ _ => 0x1000 }

/-- Of three pages one is mapped: the call restores the list and returns `4096`. -/
theorem map_sg_takes_part :
    ∃ r, rknpuIommuDmaMapSg defaultDevice (mapsOnePage 0xf) twoSegments = some r ∧
      r.ret = 4096 ∧ (∀ s ∈ r.sg, s.dma.length = 0) ∧
      ¬ Faithful defaultDevice (mapsOnePage 0xf) twoSegments r := by
  have hcall : rknpuIommuDmaMapSg defaultDevice (mapsOnePage 0xf) twoSegments =
      some ⟨4096, [⟨16, 0xff0, ⟨dmaMappingError, 0, false⟩⟩,
        ⟨0, 0x1800, ⟨dmaMappingError, 0, false⟩⟩], none⟩ := by decide +kernel
  refine ⟨_, hcall, rfl, by decide, fun h => ?_⟩
  obtain ⟨hmapped, -⟩ := h.success (by decide)
  cases hmapped

end RknpuDriver.Iommu
