import RknpuDriver.Iommu.UnmapSg
import RknpuDriver.Lib.Mappings
import RknpuDriver.Lib.System

/-! # The translations of a domain over all mappings

Each buffer is mapped by `rknpu_iommu_dma_map_sg` and unmapped by `rknpu_iommu_dma_unmap_sg`, any
number of them in any order, in one IOMMU domain.

* `mapStep`: a mapping puts the range it has allocated in, an unmapping makes the calls that it
  computes from the DMA fields.
* `translations_exact_iff`: the device reaches exactly the buffers that are mapped, each at its own
  addresses, throughout a run, exactly when each buffer that is unmapped can be reconstructed.
-/

namespace RknpuDriver.Iommu
open RknpuDriver.Lib
open Place
set_option autoImplicit false

/-- What is mapped: memory segments that have bytes. The allocator and `iommu_map_sg` return what
they like, but no more is mapped than was asked for, and nothing stays mapped if less was. -/
structure MapCall where
  sg : List SgEntry
  memory : ∀ s ∈ sg, s.dma.busAddress = false
  positive : ∀ s ∈ sg, 0 < s.length.toNat
  outcome : MapOutcome
  noMore : MapsNoMore outcome

/-- A buffer that is mapped: its list, what the mapping has made of it, and its address. -/
structure MappedBuffer where
  sg : List SgEntry
  out : List SgEntry
  iova : UInt64

def MappedBuffer.range (dev : MapDevice) (b : MappedBuffer) : Segment :=
  ⟨b.iova.toNat, paddedTotal dev b.sg⟩

structure MapState where
  buffers : ℕ → Option MappedBuffer
  mappings : Mappings ℕ

/-- The range of each buffer that is mapped. -/
def liveRanges (dev : MapDevice) (buffers : ℕ → Option MappedBuffer) (k : ℕ) : Option Segment :=
  (buffers k).map (MappedBuffer.range dev)

/-- `iommu_unmap` clears what it is told to, `free_iova` gives the allocation back that the address
is in. -/
def iommuCall (m : Mappings ℕ) : IommuCall → Mappings ℕ
  | .iommuUnmap dmaAddr size => m.unmap ⟨dmaAddr.toNat, size.toNat⟩
  | .freeIova dmaAddr _ => m.release dmaAddr.toNat

inductive MapLabel where
  | map (k : ℕ) (call : MapCall)
  | unmap (k : ℕ)

/-- The allocator returns a range of addresses that are free. -/
def mapStep (dev : MapDevice) (s : MapState) : MapLabel → Option MapState
  | .map k call =>
    if s.buffers k ≠ none then none
    else
      (rknpuIommuDmaMapSg dev call.outcome call.sg).bind fun r =>
        match r.mapped with
        | none => some s
        | some (iova, _) =>
          let b : MappedBuffer := ⟨call.sg, r.sg, iova⟩
          if iova.toNat + paddedTotal dev call.sg ≤ 2 ^ 64 ∧ s.mappings.Free (b.range dev) then
            some ⟨Function.update s.buffers k (some b), s.mappings.map k (b.range dev)⟩
          else none
  | .unmap k =>
    (s.buffers k).map fun b =>
      ⟨Function.update s.buffers k none,
        (rknpuIommuDmaUnmapSg dev b.out).2.foldl iommuCall s.mappings⟩

def mapSystem (dev : MapDevice) : System MapState MapLabel where
  init s := s = ⟨fun _ => none, .empty⟩
  step := mapStep dev

/-- What an unmapping needs of the buffer. -/
def Reconstructible (dev : MapDevice) (s : MapState) : MapLabel → Prop
  | .map _ _ => True
  | .unmap k => ∀ b, s.buffers k = some b → Reconstructs dev b.iova b.sg

/-- The device reaches exactly the buffers that are mapped. -/
def TranslatesExactly (dev : MapDevice) (s : MapState) : Prop :=
  Mappings.Agrees (liveRanges dev s.buffers) s.mappings

/-! ## One unmapping -/

namespace Mapped
variable {dev : MapDevice} {iova : UInt64} {sg sg' : List SgEntry}

theorem paddedTotal_pos (h : Mapped dev iova sg sg') : 0 < paddedTotal dev sg := by
  have hbytes := total_places_le dev 0 sg
  obtain ⟨s, rest, rfl⟩ := List.exists_cons_of_ne_nil h.nonempty
  have hs := h.positive s List.mem_cons_self
  rw [total_places, List.map_cons, List.sum_cons] at hbytes
  unfold paddedTotal
  omega

theorem unmapBounds_of_read (h : Mapped dev iova sg sg') {init : List (List Place)}
    {g : List Place} (hread : readGroups dev iova sg = init ++ [g]) :
    ∃ start first, unmapBounds dev sg' = (start, UInt64.ofNat (readStop iova g)) ∧
      start.toNat = iova.toNat + first ∧ first < dev.iovad.granule := by
  obtain ⟨rest, hrest⟩ : readGroups dev iova sg <+: groups dev iova sg := reached_prefix _ _ _
  obtain ⟨g₀, read, hcons⟩ : ∃ g₀ read, init ++ [g] = g₀ :: read :=
    List.exists_cons_of_ne_nil (List.append_ne_nil_of_right_ne_nil _ (List.cons_ne_nil g []))
  have hgroups : groups dev iova sg = g₀ :: (read ++ rest) := by
    rw [← hrest, hread, hcons, List.cons_append]
  have hg : g ∈ groups dev iova sg := by
    rw [← hrest, hread]
    exact List.mem_append_left _ (List.mem_append_right _ List.mem_cons_self)
  have hg₀ : g₀ ∈ groups dev iova sg := by
    rw [hgroups]
    exact List.mem_cons_self
  obtain ⟨first, hfirst, hstart⟩ :=
    first_of_groups h.first hgroups (ne_nil_of_mem_coalesce hg₀)
  refine ⟨(groupDma iova g₀).address, first, ?_, ?_, hfirst⟩
  · rw [h.unmapBounds_eq, hread, ← h.stop_eq hg]
    refine bounds_eq ?_ ?_
    · rw [hcons]
      rfl
    · rw [List.map_append, List.map_singleton, List.getLast?_concat]
  · rw [← hstart]
    exact address_of_group h.exact h.room hg₀ (total_pos_of_mem_groups h.positive hg₀)

theorem calls_cases (h : Mapped dev iova sg sg') : (rknpuIommuDmaUnmapSg dev sg').2 = [] ∨
    ∃ size ≤ paddedTotal dev sg, (rknpuIommuDmaUnmapSg dev sg').2 =
      giveBack iova (UInt64.ofNat size) := by
  obtain hnone | ⟨init, g, hread⟩ := (readGroups dev iova sg).eq_nil_or_concat'
  · exact Or.inl (h.calls_of_none hnone)
  · obtain ⟨start, first, hbounds, hstart, hfirst⟩ := h.unmapBounds_of_read hread
    have hg : g ∈ groups dev iova sg := by
      obtain ⟨rest, hrest⟩ : readGroups dev iova sg <+: groups dev iova sg := reached_prefix _ _ _
      rw [← hrest, hread]
      exact List.mem_append_left _ (List.mem_append_right _ List.mem_cons_self)
    have hstop := span_stop_le iova.toNat hg
    have hcut := Nat.mod_le (total g) (2 ^ 32)
    have hlow := le_groupSpan iova (ne_nil_of_mem_coalesce hg)
    rw [← groupSpan] at hstop
    have hroom := h.room
    have hiova := h.iova_pos
    have hread : iova.toNat ≤ readStop iova g ∧
        readStop iova g ≤ iova.toNat + paddedTotal dev sg := by
      unfold readStop
      omega
    have hoff : (iovaOffset dev.iovad start).toNat = first := by
      have hlt := start.toNat_lt
      obtain ⟨k, hk⟩ := h.iova_dvd
      rw [iovaOffset, UInt64.toNat_ofNat', hstart, hk, Nat.mul_add_mod, Nat.mod_eq_of_lt hfirst]
      exact Nat.mod_eq_of_lt (by omega)
    have haddr : start - iovaOffset dev.iovad start = iova := by
      rw [← UInt64.toNat_inj, UInt64.toNat_sub, hoff, hstart]
      have hlt := start.toNat_lt
      omega
    have hsize : (UInt64.ofNat (readStop iova g) - start + iovaOffset dev.iovad start).toNat =
        readStop iova g - iova.toNat := by
      rw [UInt64.toNat_add, UInt64.toNat_sub, UInt64.toNat_ofNat', hoff, hstart]
      have hlt := start.toNat_lt
      omega
    rw [unmap_calls dev hbounds, haddr, iovaAlign_ofNat, hsize]
    split_ifs with hzero
    · refine Or.inr ⟨dev.iovad.roundUp (readStop iova g - iova.toNat), ?_, rfl⟩
      exact dev.iovad.roundUp_le_of_dvd (by omega) h.dvd_paddedTotal
    · exact Or.inl rfl

end Mapped

/-! ## Runs -/

section
variable {dev : MapDevice} {s t : MapState} {label : MapLabel}

/-- Each buffer was mapped by a call that succeeded. -/
def AllMapped (dev : MapDevice) (buffers : ℕ → Option MappedBuffer) : Prop :=
  ∀ k b, buffers k = some b → Mapped dev b.iova b.sg b.out

theorem mapped_of_call {call : MapCall} {r : MapResult} {iova iovaLen : UInt64}
    (hmask : dev.iovad.granule ∣ dev.segBoundary.toNat + 1)
    (hcall : rknpuIommuDmaMapSg dev call.outcome call.sg = some r)
    (hmapped : r.mapped = some (iova, iovaLen))
    (hroom : iova.toNat + paddedTotal dev call.sg ≤ 2 ^ 64) : Mapped dev iova call.sg r.sg := by
  obtain ⟨hexact, -, houtputs⟩ := outputs_of_mapped hcall hmapped call.noMore hroom
  obtain ⟨hfirst, hsucceeds, rfl, rfl⟩ := succeeds_of_mapped hcall hmapped
  refine ⟨call.memory, call.positive, hmask, hfirst, hexact, ?_, ?_, dvd_allocated dev _ _, hroom,
    houtputs⟩
  · intro hnil
    apply hsucceeds.space
    rw [hnil]
    rfl
  · exact Nat.pos_of_ne_zero fun hzero => hsucceeds.iova (UInt64.toNat_inj.mp hzero)

section
variable {buffers : ℕ → Option MappedBuffer} {k : ℕ}

theorem liveRanges_update (b : Option MappedBuffer) :
    liveRanges dev (Function.update buffers k b) =
      Function.update (liveRanges dev buffers) k (b.map (MappedBuffer.range dev)) := by
  funext i
  unfold liveRanges
  by_cases hi : i = k
  · subst hi
    rw [Function.update_self, Function.update_self]
  · rw [Function.update_of_ne hi, Function.update_of_ne hi]

theorem AllMapped.update (hs : AllMapped dev buffers) {new : Option MappedBuffer}
    (hnew : ∀ b, new = some b → Mapped dev b.iova b.sg b.out) :
    AllMapped dev (Function.update buffers k new) := by
  intro i b hi
  by_cases hik : i = k
  · subst hik
    rw [Function.update_self] at hi
    exact hnew b hi
  · rw [Function.update_of_ne hik] at hi
    exact hs i b hi

end

/-- An unmapping leaves the translations of the other buffers, and no others, exactly when the
buffer can be reconstructed. -/
theorem unmap_exact_iff (hs : TranslatesExactly dev s) (hmapped : AllMapped dev s.buffers) {k : ℕ}
    {b : MappedBuffer} (hb : s.buffers k = some b) :
    TranslatesExactly dev ⟨Function.update s.buffers k none,
      (rknpuIommuDmaUnmapSg dev b.out).2.foldl iommuCall s.mappings⟩ ↔
        Reconstructs dev b.iova b.sg := by
  have h := hmapped k b hb
  have hlive : liveRanges dev s.buffers k = some (b.range dev) := by
    rw [liveRanges, hb]
    rfl
  have htotal : paddedTotal dev b.sg < 2 ^ 64 := by
    have := h.room
    have := h.iova_pos
    omega
  unfold TranslatesExactly
  rw [liveRanges_update, Option.map_none, ← h.calls_iff_reconstructs]
  constructor
  · intro hexact
    by_contra hcalls
    have hpos := h.paddedTotal_pos
    obtain ⟨last, hlast⟩ : ∃ last, last = b.iova.toNat + paddedTotal dev b.sg - 1 := ⟨_, rfl⟩
    have hinside : Mappings.Inside (b.range dev) last := by
      refine ⟨?_, ?_⟩
      · show b.iova.toNat ≤ last
        omega
      · show last < b.iova.toNat + paddedTotal dev b.sg
        omega
    have hown := (hs.table last k).mpr ⟨_, hlive, hinside⟩
    have hleft : ((rknpuIommuDmaUnmapSg dev b.out).2.foldl iommuCall s.mappings).table last =
        some k := by
      obtain hnone | ⟨size, hle, hsize⟩ := h.calls_cases
      · rw [hnone]
        exact hown
      · have hlt : size < paddedTotal dev b.sg := by
          refine lt_of_le_of_ne hle ?_
          rintro rfl
          exact hcalls hsize
        have houtside :
            ¬ Mappings.Inside ⟨b.iova.toNat, (UInt64.ofNat size).toNat⟩ last := by
          rintro ⟨-, hcon⟩
          rw [UInt64.toNat_ofNat', Nat.mod_eq_of_lt (by omega)] at hcon
          simp only at hcon
          omega
        rw [hsize]
        exact (if_neg houtside).trans hown
    exact Mappings.Agrees.leftover hleft hexact
  · intro hcalls
    rw [hcalls]
    have hback := hs.giveBack hlive h.paddedTotal_pos
    have hsize : (UInt64.ofNat (paddedTotal dev b.sg)).toNat = paddedTotal dev b.sg := by
      rw [UInt64.toNat_ofNat', Nat.mod_eq_of_lt htotal]
    show Mappings.Agrees _ ((s.mappings.unmap
      ⟨b.iova.toNat, (UInt64.ofNat (paddedTotal dev b.sg)).toNat⟩).release b.iova.toNat)
    rw [hsize]
    exact hback

theorem step_exact_iff (hmask : dev.iovad.granule ∣ dev.segBoundary.toNat + 1)
    (hs : TranslatesExactly dev s) (hmapped : AllMapped dev s.buffers)
    (h : (mapSystem dev).step s label = some t) :
    AllMapped dev t.buffers ∧ (TranslatesExactly dev t ↔ Reconstructible dev s label) := by
  cases label with
  | map k call =>
    simp only [mapSystem, mapStep] at h
    split_ifs at h with hfresh
    obtain ⟨r, hcall, h⟩ := Option.bind_eq_some_iff.mp h
    split at h
    · cases h
      exact ⟨hmapped, iff_of_true hs trivial⟩
    · rename_i iova iovaLen hr
      split_ifs at h with hok
      obtain ⟨hroom, hfree⟩ := hok
      cases h
      refine ⟨hmapped.update fun b hb => ?_, iff_of_true ?_ trivial⟩
      · cases hb
        exact mapped_of_call hmask hcall hr hroom
      · unfold TranslatesExactly
        rw [liveRanges_update]
        refine hs.map ?_ hfree
        rw [liveRanges, not_not.mp hfresh]
        rfl
  | unmap k =>
    obtain ⟨b, hb, rfl⟩ := Option.map_eq_some_iff.mp h
    refine ⟨hmapped.update fun b hb => (by cases hb), ?_⟩
    rw [unmap_exact_iff hs hmapped hb]
    simp only [Reconstructible, hb, Option.some.injEq, forall_eq']

/-- **The translations of a domain** over any mappings and unmappings, where boundaries are at
multiples of the granule: throughout the run the device reaches exactly the buffers that are
mapped, each at its own addresses, exactly when each buffer that is unmapped can be reconstructed
from its DMA fields. -/
theorem translations_exact_iff {labels : List MapLabel}
    (hmask : dev.iovad.granule ∣ dev.segBoundary.toNat + 1) (hinit : (mapSystem dev).init s)
    (hrun : (mapSystem dev).run s labels = some t) :
    (mapSystem dev).Throughout (TranslatesExactly dev) s labels ↔
      (mapSystem dev).EachStep (Reconstructible dev) s labels := by
  have hstart : TranslatesExactly dev s ∧ AllMapped dev s.buffers := by
    obtain rfl : s = ⟨fun _ => none, .empty⟩ := hinit
    refine ⟨Mappings.agrees_empty, fun k b hb => ?_⟩
    cases hb
  refine System.throughout_iff_of_kept (I := fun s => TranslatesExactly dev s ∧ AllMapped dev s.buffers)
    (fun s hs => hs.1) ?_ ?_ hrun hstart
  · intro s label t hs hok h
    obtain ⟨ht, hiff⟩ := step_exact_iff hmask hs.1 hs.2 h
    exact ⟨hiff.mpr hok, ht⟩
  · intro s label t hs h ht
    exact (step_exact_iff hmask hs.1 hs.2 h).2.mp ht

end
/-- Two segments, for which the allocator has the granules from `0xf` on. -/
def twoCall : MapCall where
  sg := twoSegments
  memory := by decide
  positive := by decide
  outcome := mapsFrom 0xf
  noMore := mapsFrom_noMore 0xf

/-- The state after that call. -/
def twoMapped : MapState where
  buffers := Function.update (fun _ => none) 0 (some
    { sg := twoSegments
      out := [⟨16, 0xff0, ⟨0xf010, 0x27f0, false⟩⟩, ⟨0, 0x1800, ⟨dmaMappingError, 0, false⟩⟩]
      iova := 0xf000 })
  mappings := Mappings.empty.map 0 ⟨0xf000, 0x3000⟩

theorem twoMapped_step : (mapSystem defaultDevice).step ⟨fun _ => none, .empty⟩ (.map 0 twoCall) =
    some twoMapped := by
  have hcall : rknpuIommuDmaMapSg defaultDevice (mapsFrom 0xf) twoSegments =
      some ⟨1, [⟨16, 0xff0, ⟨0xf010, 0x27f0, false⟩⟩, ⟨0, 0x1800, ⟨dmaMappingError, 0, false⟩⟩],
        some (0xf000, 0x3000)⟩ := by decide +kernel
  have htotal : paddedTotal defaultDevice twoSegments = 0x3000 := by decide +kernel
  have hroom : (0xf000 : UInt64).toNat + 0x3000 ≤ 2 ^ 64 ∧
      (Mappings.empty : Mappings ℕ).Free ⟨(0xf000 : UInt64).toNat, 0x3000⟩ := by decide
  simp only [mapSystem, mapStep, twoCall, hcall, MappedBuffer.range, htotal, ne_eq,
    not_true_eq_false, if_false, Option.bind_some]
  exact if_pos hroom

theorem translations_exact_iff_two : (mapSystem defaultDevice).Throughout
    (TranslatesExactly defaultDevice) ⟨fun _ => none, .empty⟩ [.map 0 twoCall, .unmap 0] := by
  obtain ⟨t, ht⟩ : ∃ t, (mapSystem defaultDevice).run ⟨fun _ => none, .empty⟩
      [.map 0 twoCall, .unmap 0] = some t := by
    rw [System.run_cons, twoMapped_step]
    exact ⟨_, rfl⟩
  refine (translations_exact_iff (by decide) rfl ht).mpr ⟨trivial, fun s hs => ?_⟩
  rw [twoMapped_step] at hs
  cases hs
  refine ⟨fun b hb => ?_, fun s hs => trivial⟩
  cases hb
  exact reconstructs_of_total (by decide) (by decide) (by decide)

end RknpuDriver.Iommu
