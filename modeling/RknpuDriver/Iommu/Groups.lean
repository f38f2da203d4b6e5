import RknpuDriver.Iommu.Finalise
import RknpuDriver.Lib.Spans
import Mathlib.Algebra.Order.BigOperators.Group.List
import Mathlib.Algebra.Order.Group.Nat

/-! # What a mapping leaves

* `isChain_segments`, `span_segments`, `groupDma_cons`: the output segment of a group is the span
  of its input segments on the bus.
* `mapSg_outputs`, `mapSg_fails`: what a call leaves that succeeds, and one that fails.
* `outputs_of_mapped`: a layout that has been mapped whole has not been cut to 32 bits, and has its
  output segments in the first entries.
-/

namespace RknpuDriver.Iommu
open RknpuDriver.Lib
open Place
set_option autoImplicit false

/-- Where a segment is on the bus when the layout begins at `base`. -/
def Place.segment (base : ℕ) (p : Place) : Segment := ⟨base + (p.start + p.offset), p.length⟩

section Groups
variable {dev : MapDevice} {iova : UInt64} {sg : List SgEntry} {g : List Place} {p : Place}

/-! ## Segments -/

theorem total_segments (base : ℕ) (g : List Place) :
    Segment.total (g.map (Place.segment base)) = total g := by
  rw [Segment.total, total, List.map_map]
  rfl

theorem isChain_segments (base : ℕ) (h : g.IsChain Continues) :
    (g.map (Place.segment base)).IsChain Segment.Meets := by
  refine (List.isChain_map _).mpr (h.imp fun q p hcont => ?_)
  obtain ⟨-, -, hstop, hoff⟩ := hcont
  unfold Place.stop at hstop
  show base + (q.start + q.offset) + q.length = base + (p.start + p.offset)
  omega

theorem span_segments (base : ℕ) (p : Place) (g : List Place) :
    Segment.span ((p :: g).map (Place.segment base)) =
      ⟨base + (p.start + p.offset), total (p :: g)⟩ := by
  rw [List.map_cons, Segment.span, ← List.map_cons, total_segments]
  rfl

theorem span_segments_end (base : ℕ) {q : Place} (h : (g ++ [q]).IsChain Continues) :
    (Segment.span ((g ++ [q]).map (Place.segment base))).start + total (g ++ [q]) =
      base + q.stop := by
  have hchain := isChain_segments base h
  rw [List.map_append, List.map_singleton] at hchain
  have hend := Segment.span_end hchain
  rw [← List.map_singleton, ← List.map_append, total_segments] at hend
  rw [hend]
  show base + (q.start + q.offset) + q.length = base + (q.start + q.offset + q.length)
  rw [Nat.add_assoc]

/-! ## Groups -/

theorem exists_of_mem_places {pos : ℕ} (h : p ∈ places dev pos sg) :
    ∃ s ∈ sg, p.length = s.length.toNat ∧ p.busAddress = s.dma.busAddress := by
  induction sg generalizing pos with
  | nil => cases h
  | cons s rest ih =>
    obtain rfl | h := List.mem_cons.mp h
    · exact ⟨s, List.mem_cons_self, rfl, rfl⟩
    · obtain ⟨t, ht, hp⟩ := ih h
      exact ⟨t, List.mem_cons_of_mem s ht, hp⟩

theorem flatten_groups (dev : MapDevice) (iova : UInt64) (sg : List SgEntry) :
    (groups dev iova sg).flatten = places dev 0 sg := flatten_coalesce _ _

theorem mem_places_of_mem_groups (hg : g ∈ groups dev iova sg) (hp : p ∈ g) :
    p ∈ places dev 0 sg := by
  rw [← flatten_groups dev iova]
  exact List.mem_flatten.mpr ⟨g, hg, hp⟩

theorem memory_of_mem_groups (hmemory : ∀ s ∈ sg, s.dma.busAddress = false)
    (hg : g ∈ groups dev iova sg) (hp : p ∈ g) : p.busAddress = false := by
  obtain ⟨s, hs, -, hbus⟩ := exists_of_mem_places (mem_places_of_mem_groups hg hp)
  rw [hbus]
  exact hmemory s hs

/-- The groups of a list of segments that have bytes. -/
theorem total_pos_of_mem_groups (hpos : ∀ s ∈ sg, 0 < s.length.toNat)
    (hg : g ∈ groups dev iova sg) : 0 < total g := by
  obtain ⟨p, g, rfl⟩ := List.exists_cons_of_ne_nil (ne_nil_of_mem_coalesce hg)
  obtain ⟨s, hs, hlen, -⟩ :=
    exists_of_mem_places (mem_places_of_mem_groups hg List.mem_cons_self)
  have hp := hpos s hs
  show 0 < p.length + total g
  omega

theorem total_append (g g' : List Place) : total (g ++ g') = total g + total g' := by
  simp [total]

theorem total_flatten (gs : List (List Place)) : total gs.flatten = (gs.map total).sum := by
  induction gs with
  | nil => rfl
  | cons g gs ih => rw [List.flatten_cons, total_append, ih, List.map_cons, List.sum_cons]

theorem total_places (pos : ℕ) (sg : List SgEntry) :
    total (places dev pos sg) = (sg.map fun s => s.length.toNat).sum := by
  induction sg generalizing pos with
  | nil => rfl
  | cons s rest ih =>
    rw [List.map_cons, List.sum_cons, ← ih]
    rfl

variable (dev) in
theorem total_places_le (pos : ℕ) (sg : List SgEntry) :
    pos + total (places dev pos sg) ≤ placesEnd dev pos sg := by
  induction sg generalizing pos with
  | nil => exact Nat.le_refl pos
  | cons s rest ih =>
    have hrest := ih (startAt dev pos s + s.space dev.iovad)
    have hround := dev.iovad.le_roundUp (s.offset.toNat % dev.iovad.granule + s.length.toNat)
    have hle := le_startAt dev pos s
    rw [← SgEntry.space] at hround
    show pos + (s.length.toNat + total (places dev _ rest)) ≤
      placesEnd dev (startAt dev pos s + s.space dev.iovad) rest
    omega

theorem total_le_of_mem_groups (hg : g ∈ groups dev iova sg) : total g ≤ paddedTotal dev sg := by
  have hle := total_places_le dev 0 sg
  rw [← flatten_groups dev iova, total_flatten, Nat.zero_add] at hle
  exact le_trans (List.le_sum_of_mem (List.mem_map_of_mem hg)) hle

theorem span_stop_le (base : ℕ) (hg : g ∈ groups dev iova sg) :
    (Segment.span (g.map (Place.segment base))).start + total g ≤ base + paddedTotal dev sg := by
  obtain ⟨g, q, rfl⟩ := g.eq_nil_or_concat'.resolve_left (ne_nil_of_mem_coalesce hg)
  rw [span_segments_end base (isChain_of_mem_groups hg)]
  exact Nat.add_le_add_left (stop_le_placesEnd
    (mem_places_of_mem_groups hg (List.mem_append_right _ List.mem_cons_self))) base

/-- An entry with a bus address has no bytes in a layout that has been mapped whole. -/
theorem length_of_bus {pos : ℕ} (h : Exact dev pos sg) (hp : p ∈ places dev pos sg)
    (hbus : p.busAddress = true) : p.length = 0 := by
  induction sg generalizing pos with
  | nil => cases hp
  | cons s rest ih =>
    obtain rfl | hp := List.mem_cons.mp hp
    · have hnext := h.2.1 hbus
      have hle := le_nextStart dev (startAt dev pos s + s.space dev.iovad) rest
      have hround := dev.iovad.le_roundUp (s.offset.toNat % dev.iovad.granule + s.length.toNat)
      rw [← SgEntry.space] at hround
      show s.length.toNat = 0
      omega
    · exact ih h.2.2 hp

/-- The DMA fields of a group without bus addresses. -/
theorem groupDma_cons (iova : UInt64) (g : List Place) (hp : p.busAddress = false) :
    groupDma iova (p :: g) =
      ⟨iova + UInt64.ofNat (p.start + p.offset), UInt32.ofNat (total (p :: g)), false⟩ := by
  rw [groupDma, if_neg (by rw [hp]; exact Bool.false_ne_true)]

theorem length_groupDma (iova : UInt64) (g : List Place) (hp : p.busAddress = false) :
    (groupDma iova (p :: g)).length.toNat = total (p :: g) % 2 ^ 32 := by
  rw [groupDma_cons iova g hp]
  exact UInt32.toNat_ofNat'

end Groups

/-! ## The call -/

/-- The range that a call allocates, for the layout of the whole list. -/
def allocated (dev : MapDevice) (o : MapOutcome) (sg : List SgEntry) : UInt64 :=
  rknpuIommuDmaAllocIova dev o (UInt64.ofNat (paddedTotal dev sg)) dev.dmaMask false

theorem dvd_allocated (dev : MapDevice) (o : MapOutcome) (sg : List SgEntry) :
    dev.iovad.granule ∣ (allocated dev o sg).toNat := by
  have hshift : dev.iovad.shift % 2 ^ 64 % 64 = dev.iovad.shift := by
    have hlt := dev.iovad.shift_lt
    omega
  unfold allocated rknpuIommuDmaAllocIova
  dsimp only
  rw [if_neg Bool.false_ne_true]
  split
  · exact Nat.dvd_zero _
  · rw [UInt64.toNat_shiftLeft, UInt64.toNat_ofNat', hshift, Nat.shiftLeft_eq]
    exact (Nat.dvd_mod_iff (Nat.pow_dvd_pow 2 dev.iovad.shift_lt.le)).mpr (Nat.dvd_mul_left _ _)

/-- Something is laid out, the range has been allocated, and `iommu_map_sg` has mapped it all. -/
structure Succeeds (dev : MapDevice) (o : MapOutcome) (sg : List SgEntry) : Prop where
  space : UInt64.ofNat (paddedTotal dev sg) ≠ 0
  iova : allocated dev o sg ≠ 0
  mapped : ((UInt64.ofNat (paddedTotal dev sg)).toNat : ℤ) ≤
    o.iommuMapSg (allocated dev o sg) (stashes dev 0 sg)

variable {dev : MapDevice} {o : MapOutcome} {sg : List SgEntry}

theorem mapSg_succeeds (hfirst : nextStart dev 0 sg = 0) (h : Succeeds dev o sg) :
    rknpuIommuDmaMapSg dev o sg =
      some ⟨(finaliseSg dev (stashes dev 0 sg) (allocated dev o sg)).1,
        (finaliseSg dev (stashes dev 0 sg) (allocated dev o sg)).2,
        some (allocated dev o sg, UInt64.ofNat (paddedTotal dev sg))⟩ := by
  have hret : ¬ (o.iommuMapSg (allocated dev o sg) (stashes dev 0 sg) < 0 ∨
      o.iommuMapSg (allocated dev o sg) (stashes dev 0 sg) <
        (UInt64.ofNat (paddedTotal dev sg)).toNat) := by
    have hmapped := h.mapped
    omega
  have hiova := h.iova
  rw [allocated] at hiova hret
  rw [rknpuIommuDmaMapSg, layOutSg_eq, if_pos hfirst]
  simp only [if_neg h.space, if_neg hiova, if_neg hret]
  rfl

/-- A list whose first entries have the output segments of the groups. -/
structure Outputs (dev : MapDevice) (iova : UInt64) (sg sg' : List SgEntry) : Prop where
  kept : sg'.map (fun s => (s.offset, s.length)) = sg.map fun s => (s.offset, s.length)
  dma : (sg'.take (groups dev iova sg).length).map SgEntry.dma =
    (groups dev iova sg).map (groupDma iova)
  rest : ∀ s ∈ sg'.drop (groups dev iova sg).length, s.dma = ⟨dmaMappingError, 0, false⟩

theorem overlay_outputs (dev : MapDevice) (iova : UInt64) (sg : List SgEntry) :
    Outputs dev iova sg
      (overlay writeDma (sg.map SgEntry.cleared) ((groups dev iova sg).map (groupDma iova))) := by
  let ds := (groups dev iova sg).map (groupDma iova)
  have hds : ds.length = (groups dev iova sg).length := List.length_map _
  have hle : ds.length ≤ (sg.map SgEntry.cleared).length := by
    rw [hds, List.length_map]
    exact length_groups_le dev iova sg
  have hkept : (overlay writeDma (sg.map SgEntry.cleared) ds).map (fun s => (s.offset, s.length)) =
      (sg.map SgEntry.cleared).map fun s => (s.offset, s.length) := by
    refine map_overlay ?_ _ _
    exact fun _ _ => rfl
  have hdma : ((overlay writeDma (sg.map SgEntry.cleared) ds).take ds.length).map SgEntry.dma =
      ds.map id := map_take_overlay (fun _ _ => rfl) hle
  refine ⟨?_, ?_, ?_⟩
  · rw [hkept, List.map_map]
    rfl
  · rw [← hds, hdma, List.map_id]
  · rw [← hds, drop_overlay]
    intro s hs
    obtain ⟨t, -, rfl⟩ := List.mem_map.mp (List.mem_of_mem_drop hs)
    rfl

theorem mapSg_outputs (hfirst : nextStart dev 0 sg = 0) (hexact : Exact dev 0 sg)
    (h : Succeeds dev o sg) :
    ∃ sg', rknpuIommuDmaMapSg dev o sg =
        some ⟨(groups dev (allocated dev o sg) sg).length, sg',
          some (allocated dev o sg, UInt64.ofNat (paddedTotal dev sg))⟩ ∧
      Outputs dev (allocated dev o sg) sg sg' := by
  have hcall := mapSg_succeeds hfirst h
  rw [finaliseSg_eq hfirst hexact] at hcall
  exact ⟨_, hcall, overlay_outputs dev _ sg⟩

/-- What a call returns that fails. -/
def failedRet (dev : MapDevice) (o : MapOutcome) (sg : List SgEntry) : ℤ :=
  if allocated dev o sg = 0 ∨ o.iommuMapSg (allocated dev o sg) (stashes dev 0 sg) < 0 then 0
  else intOfSsize (o.iommuMapSg (allocated dev o sg) (stashes dev 0 sg))

/-- A call that fails has restored the list from what the first loop has left. -/
theorem mapSg_fails (hfirst : nextStart dev 0 sg = 0)
    (hspace : UInt64.ofNat (paddedTotal dev sg) ≠ 0) (h : ¬ Succeeds dev o sg) :
    rknpuIommuDmaMapSg dev o sg =
      some ⟨failedRet dev o sg, invalidateSg (stashes dev 0 sg), none⟩ := by
  rw [rknpuIommuDmaMapSg, layOutSg_eq, if_pos hfirst, failedRet]
  by_cases hiova : allocated dev o sg = 0
  · rw [if_pos (Or.inl hiova)]
    rw [allocated] at hiova
    simp only [if_neg hspace, if_pos hiova]
  · have hret : o.iommuMapSg (allocated dev o sg) (stashes dev 0 sg) < 0 ∨
        o.iommuMapSg (allocated dev o sg) (stashes dev 0 sg) <
          (UInt64.ofNat (paddedTotal dev sg)).toNat := by
      by_contra hmapped
      exact h ⟨hspace, hiova, by omega⟩
    simp only [hiova, false_or]
    rw [allocated] at hiova hret ⊢
    simp only [if_neg hspace, if_neg hiova, if_pos hret]

theorem succeeds_of_mapped {r : MapResult} {iova iovaLen : UInt64}
    (hcall : rknpuIommuDmaMapSg dev o sg = some r) (hmapped : r.mapped = some (iova, iovaLen)) :
    nextStart dev 0 sg = 0 ∧ Succeeds dev o sg ∧ iova = allocated dev o sg ∧
      iovaLen = UInt64.ofNat (paddedTotal dev sg) := by
  have hfirst : nextStart dev 0 sg = 0 := by
    by_contra hfirst
    rw [rknpuIommuDmaMapSg, layOutSg_eq, if_neg hfirst] at hcall
    cases hcall
  by_cases hspace : UInt64.ofNat (paddedTotal dev sg) = 0
  · rw [rknpuIommuDmaMapSg, layOutSg_eq, if_pos hfirst] at hcall
    simp only [if_pos hspace] at hcall
    obtain rfl := Option.some.inj hcall
    cases hmapped
  · by_cases h : Succeeds dev o sg
    · rw [mapSg_succeeds hfirst h] at hcall
      obtain rfl := Option.some.inj hcall
      obtain ⟨rfl, rfl⟩ := Prod.mk.inj (Option.some.inj hmapped)
      exact ⟨hfirst, h, rfl, rfl⟩
    · rw [mapSg_fails hfirst hspace h] at hcall
      obtain rfl := Option.some.inj hcall
      cases hmapped

/-- `iommu_map_sg` maps no more than the entries hold that have no bus address. -/
def MapsNoMore (o : MapOutcome) : Prop :=
  ∀ iova sg, o.iommuMapSg iova sg ≤ mappable sg

/-- A layout that fits into the address space and has been mapped is exact. -/
theorem exact_of_succeeds (hsg : Succeeds dev o sg) (hret : MapsNoMore o)
    (hfirst : nextStart dev 0 sg = 0)
    (hroom : (allocated dev o sg).toNat + paddedTotal dev sg ≤ 2 ^ 64) : Exact dev 0 sg := by
  have hiova : 0 < (allocated dev o sg).toNat := by
    refine Nat.pos_of_ne_zero fun hzero => hsg.iova ?_
    exact UInt64.toNat_inj.mp hzero
  have hmapped := hsg.mapped
  have hmost := hret (allocated dev o sg) (stashes dev 0 sg)
  rw [UInt64.toNat_ofNat', Nat.mod_eq_of_lt (by omega)] at hmapped
  refine exact_of_mappable ?_
  show paddedTotal dev sg ≤ nextStart dev 0 sg + _
  omega

theorem outputs_of_mapped {r : MapResult} {iova iovaLen : UInt64}
    (hcall : rknpuIommuDmaMapSg dev o sg = some r) (hmapped : r.mapped = some (iova, iovaLen))
    (hret : MapsNoMore o) (hroom : iova.toNat + paddedTotal dev sg ≤ 2 ^ 64) :
    Exact dev 0 sg ∧ r.ret = (groups dev iova sg).length ∧ Outputs dev iova sg r.sg := by
  obtain ⟨hfirst, hsucceeds, rfl, -⟩ := succeeds_of_mapped hcall hmapped
  have hexact := exact_of_succeeds hsucceeds hret hfirst hroom
  obtain ⟨sg', hr, houtputs⟩ := mapSg_outputs hfirst hexact hsucceeds
  rw [hr] at hcall
  obtain rfl := Option.some.inj hcall
  exact ⟨hexact, rfl, houtputs⟩

end RknpuDriver.Iommu
