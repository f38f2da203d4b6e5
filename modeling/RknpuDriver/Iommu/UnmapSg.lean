import RknpuDriver.Iommu.SegmentLimits
import Mathlib.Data.List.TakeWhile

/-! # What an unmapping computes

`rknpu_iommu_dma_unmap_sg` has no record of the range: it takes the first address and the last end
from the DMA fields and aligns them to the granule. A length of zero ends its loops.

* `unmapBounds_eq`: the bounds are those of the output segments that are read before a length of
  zero.
* `unmap_calls_iff`: when the aligned bounds are the range that has been allocated.
* `unmap_inverts_iff`: when an unmapping gives back what the mapping has allocated.
-/

namespace RknpuDriver.Iommu
open RknpuDriver.Lib
open Place
set_option autoImplicit false

/-! ## The loops -/

/-- What a loop reads that takes `n` elements unseen and stops before an element without `p`. -/
def reached {α : Type} (n : ℕ) (p : α → Bool) (l : List α) : List α :=
  l.take n ++ (l.drop n).takeWhile p

section Reached
variable {α β : Type} {n : ℕ} {p : α → Bool} {l : List α}

theorem reached_map (n : ℕ) (p : β → Bool) (f : α → β) (l : List α) :
    reached n p (l.map f) = (reached n (p ∘ f) l).map f := by
  rw [reached, reached, List.map_append, ← List.map_take, ← List.map_drop, List.takeWhile_map]

theorem reached_prefix (n : ℕ) (p : α → Bool) (l : List α) : reached n p l <+: l := by
  obtain ⟨rest, hrest⟩ := List.takeWhile_prefix p (l := l.drop n)
  refine ⟨rest, ?_⟩
  rw [reached, List.append_assoc, hrest, List.take_append_drop]

theorem reached_append (hn : n ≤ l.length) {rest : List α} (hrest : ∀ x ∈ rest, p x = false) :
    reached n p (l ++ rest) = reached n p l := by
  have hnone : rest.takeWhile p = [] := by
    cases rest with
    | nil => rfl
    | cons x rest => exact List.takeWhile_cons_of_neg (by rw [hrest x List.mem_cons_self]; simp)
  rw [reached, reached, List.take_append_of_le_length hn, List.drop_append_of_le_length hn,
    List.takeWhile_append, hnone, List.append_nil]
  split_ifs with hall
  · rw [(List.takeWhile_prefix p).eq_of_length hall]
  · rfl

/-- A loop reads all, or there is an element that it stops before. -/
theorem reached_cases (n : ℕ) (p : α → Bool) (l : List α) :
    (reached n p l = l ∧ ∀ x ∈ l.drop n, p x = true) ∨
      ∃ x rest, l = reached n p l ++ x :: rest ∧ x ∈ l.drop n ∧ p x = false := by
  have hsplit : (l.drop n).takeWhile p ++ (l.drop n).dropWhile p = l.drop n :=
    List.takeWhile_append_dropWhile
  cases hdrop : (l.drop n).dropWhile p with
  | nil =>
    rw [hdrop, List.append_nil] at hsplit
    refine Or.inl ⟨?_, List.takeWhile_eq_self_iff.mp hsplit⟩
    rw [reached, hsplit, List.take_append_drop]
  | cons x rest =>
    have hx : p x = false := by
      have hhead := List.head_dropWhile_not p (l := l.drop n) (by rw [hdrop]; simp)
      simpa [hdrop] using hhead
    rw [hdrop] at hsplit
    refine Or.inr ⟨x, rest, ?_, ?_, hx⟩
    · rw [reached, List.append_assoc, hsplit, List.take_append_drop]
    · rw [← hsplit]
      exact List.mem_append_right _ List.mem_cons_self

end Reached

/-- The lengths that are not looked at: before kernel 6.1 the first one. -/
def MapDevice.unseen (dev : MapDevice) : ℕ := if dev.kernel61 then 0 else 1

/-- Where the first of some output segments begins and the last one ends. -/
def bounds (ds : List SgDma) : UInt64 × UInt64 :=
  match ds.head?, ds.getLast? with
  | some first, some last => (first.address, last.address + last.length.toUInt64)
  | _, _ => (0, 0)

theorem bounds_eq {ds : List SgDma} {d e : SgDma} (hd : ds.head? = some d)
    (he : ds.getLast? = some e) : bounds ds = (d.address, e.address + e.length.toUInt64) := by
  rw [bounds, hd, he]

theorem bounds_cons (d : SgDma) (ds : List SgDma) :
    bounds (d :: ds) =
      (d.address, (ds.getLastD d).address + (ds.getLastD d).length.toUInt64) := by
  refine bounds_eq List.head?_cons ?_
  rw [List.getLast?_cons, List.getLastD_eq_getLast?]

section Loops
variable {sg : List SgEntry}

theorem unmapEnd_eq (hmemory : ∀ s ∈ sg, s.dma.busAddress = false) (stop : UInt64) :
    unmapEnd stop sg =
      match ((sg.map SgEntry.dma).takeWhile fun d => d.length ≠ 0).getLast? with
      | none => stop
      | some d => d.address + d.length.toUInt64 := by
  induction sg generalizing stop with
  | nil => rfl
  | cons s rest ih =>
    have hbus : ¬ s.dma.busAddress = true := by
      rw [hmemory s List.mem_cons_self]
      exact Bool.false_ne_true
    rw [unmapEnd, if_neg hbus, List.map_cons]
    by_cases hzero : s.dma.length = 0
    · rw [if_pos hzero, List.takeWhile_cons_of_neg (by simpa using hzero)]
      rfl
    · rw [if_neg hzero, List.takeWhile_cons_of_pos (by simpa using hzero),
        ih fun t ht => hmemory t (List.mem_cons_of_mem s ht), List.getLast?_cons]
      cases ((rest.map SgEntry.dma).takeWhile fun d => d.length ≠ 0).getLast? <;> rfl

theorem lastMapped_dma (s : SgEntry) (rest : List SgEntry) :
    (lastMapped s rest).dma =
      ((rest.map SgEntry.dma).takeWhile fun d => d.length ≠ 0).getLastD s.dma := by
  induction rest generalizing s with
  | nil => rfl
  | cons t rest ih =>
    rw [lastMapped, List.map_cons]
    by_cases hzero : t.dma.length = 0
    · rw [if_pos hzero, List.takeWhile_cons_of_neg (by simpa using hzero)]
      rfl
    · rw [if_neg hzero, List.takeWhile_cons_of_pos (by simpa using hzero), List.getLastD_cons, ih]

/-- The two loops read the DMA fields up to a length of zero. -/
theorem unmapBounds_eq (dev : MapDevice) (hmemory : ∀ s ∈ sg, s.dma.busAddress = false) :
    unmapBounds dev sg =
      bounds (reached dev.unseen (fun d => d.length ≠ 0) (sg.map SgEntry.dma)) := by
  cases hkernel : dev.kernel61 with
  | false =>
    rw [unmapBounds.eq_def, MapDevice.unseen, hkernel]
    cases sg with
    | nil => rfl
    | cons s rest =>
      show (s.dma.address, (lastMapped s rest).dma.address +
        (lastMapped s rest).dma.length.toUInt64) = bounds (s.dma :: List.takeWhile _ _)
      rw [bounds_cons, lastMapped_dma]
      rfl
  | true =>
    have hskip : sg.dropWhile (fun s => s.dma.busAddress) = sg := by
      cases sg with
      | nil => rfl
      | cons s rest =>
        refine List.dropWhile_cons_of_neg ?_
        rw [hmemory s List.mem_cons_self]
        exact Bool.false_ne_true
    rw [unmapBounds.eq_def, MapDevice.unseen, hkernel, if_pos rfl, if_pos rfl, hskip,
      unmapEnd_eq hmemory]
    cases sg with
    | nil => rfl
    | cons s rest =>
      have hbus : ¬ s.dma.busAddress = true := by
        rw [hmemory s List.mem_cons_self]
        exact Bool.false_ne_true
      rw [unmapStart, if_neg hbus, List.map_cons, reached, List.take_zero, List.nil_append,
        List.drop_zero]
      by_cases hzero : s.dma.length = 0
      · rw [if_pos hzero, List.takeWhile_cons_of_neg (by simpa using hzero)]
        rfl
      · rw [if_neg hzero, List.takeWhile_cons_of_pos (by simpa using hzero), bounds_cons,
          List.getLast?_cons, List.getLastD_eq_getLast?]

end Loops

/-! ## The calls -/

/-- The calls that give a range back. -/
def giveBack (iova size : UInt64) : List IommuCall := [.iommuUnmap iova size, .freeIova iova size]

theorem unmap_calls (dev : MapDevice) {sg : List SgEntry} {start stop : UInt64}
    (hbounds : unmapBounds dev sg = (start, stop)) :
    (rknpuIommuDmaUnmapSg dev sg).2 =
      if stop ≠ 0 then
        giveBack (start - iovaOffset dev.iovad start)
          (iovaAlign dev.iovad (stop - start + iovaOffset dev.iovad start))
      else [] := by
  rw [rknpuIommuDmaUnmapSg, hbounds]
  rfl

/-- The bounds are aligned to the range `[iova, iova + total)` when the end is not cut off and is
in the last granule. -/
theorem unmap_calls_iff {dev : MapDevice} {sg : List SgEntry} {start iova : UInt64}
    {first last total : ℕ} (hbounds : unmapBounds dev sg = (start, UInt64.ofNat last))
    (hiova : dev.iovad.granule ∣ iova.toNat) (hpos : 0 < iova.toNat)
    (hstart : start.toNat = iova.toNat + first) (hfirst : first < dev.iovad.granule)
    (hlow : iova.toNat ≤ last) (htotal : iova.toNat + total ≤ 2 ^ 64)
    (hle : dev.iovad.roundUp (last - iova.toNat) ≤ total) :
    (rknpuIommuDmaUnmapSg dev sg).2 = giveBack iova (UInt64.ofNat total) ↔
      last ≠ 2 ^ 64 ∧ dev.iovad.roundUp (last - iova.toNat) = total := by
  have hround := dev.iovad.le_roundUp (last - iova.toNat)
  have hoff : (iovaOffset dev.iovad start).toNat = first := by
    have hlt := start.toNat_lt
    obtain ⟨k, hk⟩ := hiova
    rw [iovaOffset, UInt64.toNat_ofNat', hstart, hk, Nat.mul_add_mod, Nat.mod_eq_of_lt hfirst]
    exact Nat.mod_eq_of_lt (by omega)
  have haddr : start - iovaOffset dev.iovad start = iova := by
    rw [← UInt64.toNat_inj, UInt64.toNat_sub, hoff, hstart]
    have hlt := start.toNat_lt
    omega
  have hsize : (UInt64.ofNat last - start + iovaOffset dev.iovad start).toNat =
      last - iova.toNat := by
    rw [UInt64.toNat_add, UInt64.toNat_sub, UInt64.toNat_ofNat', hoff, hstart]
    have hlt := start.toNat_lt
    omega
  have hzero : UInt64.ofNat last ≠ 0 ↔ last ≠ 2 ^ 64 := by
    rw [Ne, ← UInt64.toNat_inj, UInt64.toNat_ofNat']
    show ¬ last % 2 ^ 64 = 0 ↔ _
    omega
  rw [unmap_calls dev hbounds, haddr, iovaAlign_ofNat, hsize, ← hzero]
  constructor
  · intro h
    split_ifs at h with hlast
    · have hcall := congrArg List.head? h
      have hword : UInt64.ofNat (dev.iovad.roundUp (last - iova.toNat)) = UInt64.ofNat total :=
        (IommuCall.iommuUnmap.inj (Option.some.inj hcall)).2
      rw [← UInt64.toNat_inj, UInt64.toNat_ofNat', UInt64.toNat_ofNat',
        Nat.mod_eq_of_lt (by omega), Nat.mod_eq_of_lt (by omega)] at hword
      exact ⟨hlast, hword⟩
    · cases h
  · rintro ⟨hlast, hword⟩
    rw [if_pos hlast, hword]

/-! ## The output segments -/

section Output
variable {dev : MapDevice} {iova : UInt64} {sg : List SgEntry} {g : List Place}

/-- Where the bytes of a group begin and end on the bus. -/
def groupSpan (iova : UInt64) (g : List Place) : Segment :=
  Segment.span (g.map (Place.segment iova.toNat))

theorem pairwise_groups (dev : MapDevice) (iova : UInt64) (sg : List SgEntry) :
    (groups dev iova sg).Pairwise fun g g' =>
      Segment.Before (groupSpan iova g) (groupSpan iova g') := by
  have hflat : ((groups dev iova sg).map (List.map (Place.segment iova.toNat))).flatten =
      (places dev 0 sg).map (Place.segment iova.toNat) := by
    rw [← List.map_flatten, flatten_groups]
  have hsegments : ((places dev 0 sg).map (Place.segment iova.toNat)).Pairwise Segment.Before := by
    refine List.pairwise_map.mpr ((pairwise_places 0 sg).imp fun {q p} h => ?_)
    unfold Place.stop at h
    show iova.toNat + (q.start + q.offset) + q.length ≤ iova.toNat + (p.start + p.offset)
    omega
  have hchains : ∀ run ∈ (groups dev iova sg).map (List.map (Place.segment iova.toNat)),
      run.IsChain Segment.Meets := by
    intro run hrun
    obtain ⟨g, hg, rfl⟩ := List.mem_map.mp hrun
    exact isChain_segments iova.toNat (isChain_of_mem_groups hg)
  have hne : ∀ run ∈ (groups dev iova sg).map (List.map (Place.segment iova.toNat)),
      run ≠ [] := by
    intro run hrun hnil
    obtain ⟨g, hg, rfl⟩ := List.mem_map.mp hrun
    exact ne_nil_of_mem_coalesce hg (List.map_eq_nil_iff.mp hnil)
  rw [← hflat] at hsegments
  have hspans := Segment.pairwise_span hchains hne hsegments
  rw [List.map_map] at hspans
  exact List.pairwise_map.mp hspans

theorem le_groupSpan (iova : UInt64) (hg : g ≠ []) : iova.toNat ≤ (groupSpan iova g).start := by
  obtain ⟨p, g, rfl⟩ := List.exists_cons_of_ne_nil hg
  exact Nat.le_add_right _ _

theorem first_of_groups (hfirst : nextStart dev 0 sg = 0) {gs : List (List Place)}
    (h : groups dev iova sg = g :: gs) (hg : g ≠ []) :
    ∃ first < dev.iovad.granule, (groupSpan iova g).start = iova.toNat + first := by
  obtain ⟨p, g, rfl⟩ := List.exists_cons_of_ne_nil hg
  have hplaces := flatten_groups dev iova sg
  rw [h, List.flatten_cons, List.cons_append] at hplaces
  cases sg with
  | nil => cases hplaces
  | cons s rest =>
    have hp := (List.cons.inj hplaces).1
    refine ⟨s.offset.toNat % dev.iovad.granule, Nat.mod_lt _ dev.iovad.granule_pos, ?_⟩
    have hstart : startAt dev 0 s = 0 := hfirst
    rw [groupSpan, span_segments, hp, hstart, Nat.zero_add]

theorem last_of_groups {init : List (List Place)} (h : groups dev iova sg = init ++ [g])
    (hg : g ≠ []) :
    ∃ p ∈ (places dev 0 sg).getLast?,
      (groupSpan iova g).start + total g = iova.toNat + p.stop := by
  have hmem : g ∈ groups dev iova sg := by
    rw [h]
    exact List.mem_append_right _ List.mem_cons_self
  have hchain := isChain_of_mem_groups hmem
  obtain ⟨g, q, rfl⟩ := g.eq_nil_or_concat'.resolve_left hg
  refine ⟨q, ?_, span_segments_end iova.toNat hchain⟩
  rw [← flatten_groups dev iova, h, List.flatten_append, List.flatten_singleton,
    ← List.append_assoc, List.getLast?_concat]
  rfl

end Output

/-! ## The round trip -/

/-- What the mapping of a list of memory segments that have bytes leaves to the unmapping. -/
structure Mapped (dev : MapDevice) (iova : UInt64) (sg sg' : List SgEntry) : Prop where
  memory : ∀ s ∈ sg, s.dma.busAddress = false
  positive : ∀ s ∈ sg, 0 < s.length.toNat
  mask : dev.iovad.granule ∣ dev.segBoundary.toNat + 1
  first : nextStart dev 0 sg = 0
  exact : Exact dev 0 sg
  nonempty : sg ≠ []
  iova_pos : 0 < iova.toNat
  iova_dvd : dev.iovad.granule ∣ iova.toNat
  room : iova.toNat + paddedTotal dev sg ≤ 2 ^ 64
  outputs : Outputs dev iova sg sg'

/-- The mappings whose range can be computed from the DMA fields: no length that is looked at is
cut to zero, the last length is not cut, and the last byte is not the last one of the address
space. -/
structure Reconstructs (dev : MapDevice) (iova : UInt64) (sg : List SgEntry) : Prop where
  lengths : ∀ g ∈ (groups dev iova sg).drop dev.unseen, ¬ 2 ^ 32 ∣ total g
  last : ∀ g ∈ (groups dev iova sg).getLast?, total g < 2 ^ 32
  stop : ∀ p ∈ (places dev 0 sg).getLast?, iova.toNat + p.stop ≠ 2 ^ 64

/-- The output segments that the unmapping reads. -/
def readGroups (dev : MapDevice) (iova : UInt64) (sg : List SgEntry) : List (List Place) :=
  reached dev.unseen (fun g => (groupDma iova g).length ≠ 0) (groups dev iova sg)

/-- Where the end of an output segment is read. -/
def readStop (iova : UInt64) (g : List Place) : ℕ := (groupSpan iova g).start + total g % 2 ^ 32

namespace Mapped
variable {dev : MapDevice} {iova : UInt64} {sg sg' : List SgEntry} {g : List Place}

theorem groups_ne_nil (h : Mapped dev iova sg sg') : groups dev iova sg ≠ [] := by
  intro hnil
  have hplaces : places dev 0 sg = [] := coalesce_eq_nil.mp hnil
  have hlength := length_places dev 0 sg
  rw [hplaces] at hlength
  exact h.nonempty (List.length_eq_zero_iff.mp hlength.symm)

theorem groupDma_length (h : Mapped dev iova sg sg') (hg : g ∈ groups dev iova sg) :
    (groupDma iova g).length.toNat = total g % 2 ^ 32 := by
  obtain ⟨p, g, rfl⟩ := List.exists_cons_of_ne_nil (ne_nil_of_mem_coalesce hg)
  exact length_groupDma iova g (memory_of_mem_groups h.memory hg List.mem_cons_self)

theorem length_eq_zero_iff (h : Mapped dev iova sg sg') (hg : g ∈ groups dev iova sg) :
    (groupDma iova g).length = 0 ↔ 2 ^ 32 ∣ total g := by
  rw [← UInt32.toNat_inj, h.groupDma_length hg, Nat.dvd_iff_mod_eq_zero]
  rfl

theorem granule_lt (h : Mapped dev iova sg sg') : dev.iovad.granule < 2 ^ 32 := by
  obtain ⟨s, rest, rfl⟩ := List.exists_cons_of_ne_nil h.nonempty
  exact granule_lt_of_exact h.exact (h.positive s List.mem_cons_self)

theorem dma_eq (h : Mapped dev iova sg sg') :
    sg'.map SgEntry.dma = (groups dev iova sg).map (groupDma iova) ++
      (sg'.drop (groups dev iova sg).length).map SgEntry.dma := by
  rw [← h.outputs.dma, ← List.map_append, List.take_append_drop]

theorem no_busAddress (h : Mapped dev iova sg sg') : ∀ s ∈ sg', s.dma.busAddress = false := by
  intro s hs
  have hdma : s.dma ∈ sg'.map SgEntry.dma := List.mem_map_of_mem hs
  rw [h.dma_eq] at hdma
  obtain hdma | hdma := List.mem_append.mp hdma
  · obtain ⟨g, hg, hgs⟩ := List.mem_map.mp hdma
    obtain ⟨p, g, rfl⟩ := List.exists_cons_of_ne_nil (ne_nil_of_mem_coalesce hg)
    rw [← hgs, groupDma_cons iova g (memory_of_mem_groups h.memory hg List.mem_cons_self)]
  · obtain ⟨t, ht, hts⟩ := List.mem_map.mp hdma
    rw [← hts, h.outputs.rest t ht]

/-- The bounds are those of the output segments that are read. -/
theorem unmapBounds_eq (h : Mapped dev iova sg sg') :
    unmapBounds dev sg' = bounds ((readGroups dev iova sg).map (groupDma iova)) := by
  have hrest : ∀ d ∈ (sg'.drop (groups dev iova sg).length).map SgEntry.dma,
      decide (d.length ≠ 0) = false := by
    intro d hd
    obtain ⟨s, hs, rfl⟩ := List.mem_map.mp hd
    rw [h.outputs.rest s hs]
    rfl
  have hunseen : dev.unseen ≤ ((groups dev iova sg).map (groupDma iova)).length := by
    have hpos := List.length_pos_of_ne_nil h.groups_ne_nil
    rw [List.length_map, MapDevice.unseen]
    split_ifs <;> omega
  rw [Iommu.unmapBounds_eq dev h.no_busAddress, h.dma_eq, reached_append hunseen hrest,
    reached_map]
  rfl

theorem stop_eq (h : Mapped dev iova sg sg') (hg : g ∈ groups dev iova sg) :
    (groupDma iova g).address + (groupDma iova g).length.toUInt64 =
      UInt64.ofNat (readStop iova g) := by
  have haddress := address_of_group h.exact h.room hg (total_pos_of_mem_groups h.positive hg)
  rw [← UInt64.toNat_inj, UInt64.toNat_add, UInt32.toNat_toUInt64, haddress,
    h.groupDma_length hg, UInt64.toNat_ofNat']
  rfl

theorem readGroups_cases (h : Mapped dev iova sg sg') :
    (readGroups dev iova sg = groups dev iova sg ∧
        ∀ g ∈ (groups dev iova sg).drop dev.unseen, ¬ 2 ^ 32 ∣ total g) ∨
      ∃ g rest, groups dev iova sg = readGroups dev iova sg ++ g :: rest ∧
        g ∈ (groups dev iova sg).drop dev.unseen ∧ 2 ^ 32 ∣ total g := by
  obtain ⟨hall, hlengths⟩ | ⟨g, rest, hgroups, hg, hzero⟩ :=
    reached_cases dev.unseen (fun g => (groupDma iova g).length ≠ 0) (groups dev iova sg)
  · refine Or.inl ⟨hall, fun g hg hdvd => of_decide_eq_true (hlengths g hg) ?_⟩
    exact (h.length_eq_zero_iff (List.mem_of_mem_drop hg)).mpr hdvd
  · refine Or.inr ⟨g, rest, hgroups, hg, (h.length_eq_zero_iff (List.mem_of_mem_drop hg)).mp ?_⟩
    exact not_not.mp (of_decide_eq_false hzero)

theorem last_place (h : Mapped dev iova sg sg') :
    ∃ init g p, groups dev iova sg = init ++ [g] ∧ p ∈ (places dev 0 sg).getLast? ∧
      iova.toNat ≤ (groupSpan iova g).start ∧
      (groupSpan iova g).start + total g = iova.toNat + p.stop ∧
      paddedTotal dev sg = dev.iovad.roundUp p.stop := by
  obtain ⟨init, g, hgroups⟩ :=
    (groups dev iova sg).eq_nil_or_concat'.resolve_left h.groups_ne_nil
  have hg : g ∈ groups dev iova sg := by
    rw [hgroups]
    exact List.mem_append_right _ List.mem_cons_self
  have hne : g ≠ [] := ne_nil_of_mem_coalesce hg
  obtain ⟨p, hp, hend⟩ := last_of_groups hgroups hne
  exact ⟨init, g, p, hgroups, hp, le_groupSpan iova hne, hend,
    placesEnd_eq_roundUp h.mask (Nat.dvd_zero _) hp⟩

theorem dvd_paddedTotal (h : Mapped dev iova sg sg') :
    dev.iovad.granule ∣ paddedTotal dev sg := by
  obtain ⟨_, _, p, -, -, -, -, hpadded⟩ := h.last_place
  rw [hpadded]
  exact dev.iovad.dvd_roundUp _

theorem calls_of_none (h : Mapped dev iova sg sg') (hnone : readGroups dev iova sg = []) :
    (rknpuIommuDmaUnmapSg dev sg').2 = [] := by
  have hbounds : unmapBounds dev sg' = (0, 0) := by
    rw [h.unmapBounds_eq, hnone]
    rfl
  rw [unmap_calls dev hbounds]
  exact if_neg (not_not.mpr rfl)

theorem calls_iff (h : Mapped dev iova sg sg') {init : List (List Place)}
    (hread : readGroups dev iova sg = init ++ [g]) :
    (rknpuIommuDmaUnmapSg dev sg').2 = giveBack iova (UInt64.ofNat (paddedTotal dev sg)) ↔
      readStop iova g ≠ 2 ^ 64 ∧
        dev.iovad.roundUp (readStop iova g - iova.toNat) = paddedTotal dev sg := by
  obtain ⟨rest, hrest⟩ : readGroups dev iova sg <+: groups dev iova sg := reached_prefix _ _ _
  obtain ⟨g₀, read, hcons⟩ : ∃ g₀ read, init ++ [g] = g₀ :: read :=
    List.exists_cons_of_ne_nil (List.append_ne_nil_of_right_ne_nil _ (List.cons_ne_nil g []))
  have hg : g ∈ groups dev iova sg := by
    rw [← hrest, hread]
    exact List.mem_append_left _ (List.mem_append_right _ List.mem_cons_self)
  have hgroups : groups dev iova sg = g₀ :: (read ++ rest) := by
    rw [← hrest, hread, hcons, List.cons_append]
  have hg₀ : g₀ ∈ groups dev iova sg := by
    rw [hgroups]
    exact List.mem_cons_self
  have hbounds : unmapBounds dev sg' =
      ((groupDma iova g₀).address, UInt64.ofNat (readStop iova g)) := by
    rw [h.unmapBounds_eq, hread, ← h.stop_eq hg]
    refine bounds_eq ?_ ?_
    · rw [hcons]
      rfl
    · rw [List.map_append, List.map_singleton, List.getLast?_concat]
  obtain ⟨first, hfirst, hstart⟩ :=
    first_of_groups h.first hgroups (ne_nil_of_mem_coalesce hg₀)
  have hstop := span_stop_le iova.toNat hg
  have hcut := Nat.mod_le (total g) (2 ^ 32)
  have hlow := le_groupSpan iova (ne_nil_of_mem_coalesce hg)
  rw [← groupSpan] at hstop
  refine unmap_calls_iff hbounds h.iova_dvd h.iova_pos ?_ hfirst ?_ h.room ?_
  · rw [← hstart]
    exact address_of_group h.exact h.room hg₀ (total_pos_of_mem_groups h.positive hg₀)
  · unfold readStop
    omega
  · refine dev.iovad.roundUp_le_of_dvd ?_ h.dvd_paddedTotal
    unfold readStop
    omega

/-- An end that is read `2^32` too early is not in the last granule. -/
theorem roundUp_lt_of_early (h : Mapped dev iova sg sg')
    (hearly : readStop iova g + 2 ^ 32 ≤ iova.toNat + paddedTotal dev sg)
    (hlow : iova.toNat ≤ readStop iova g) :
    dev.iovad.roundUp (readStop iova g - iova.toNat) < paddedTotal dev sg := by
  have hround := dev.iovad.roundUp_lt (readStop iova g - iova.toNat)
  have hgranule := h.granule_lt
  omega

theorem calls_of_all (h : Mapped dev iova sg sg')
    (hall : readGroups dev iova sg = groups dev iova sg) :
    (rknpuIommuDmaUnmapSg dev sg').2 = giveBack iova (UInt64.ofNat (paddedTotal dev sg)) ↔
      (∀ g ∈ (groups dev iova sg).getLast?, total g < 2 ^ 32) ∧
        ∀ p ∈ (places dev 0 sg).getLast?, iova.toNat + p.stop ≠ 2 ^ 64 := by
  obtain ⟨init, g, p, hgroups, hp, hlow, hend, hpadded⟩ := h.last_place
  have hstop := dev.iovad.le_roundUp p.stop
  rw [h.calls_iff (hall.trans hgroups), hgroups, List.getLast?_concat, hp]
  simp only [Option.mem_some_iff, forall_eq']
  by_cases hlong : 2 ^ 32 ≤ total g
  · have hearly : readStop iova g + 2 ^ 32 ≤ iova.toNat + paddedTotal dev sg := by
      unfold readStop
      omega
    have hshort := h.roundUp_lt_of_early hearly (by unfold readStop; omega)
    omega
  · have hread : readStop iova g = iova.toNat + p.stop := by
      rw [readStop, Nat.mod_eq_of_lt (Nat.not_le.mp hlong), hend]
    rw [hread, Nat.add_sub_cancel_left, hpadded]
    omega

theorem calls_of_hidden (h : Mapped dev iova sg sg') {rest : List (List Place)}
    (hgroups : groups dev iova sg = readGroups dev iova sg ++ g :: rest)
    (hdvd : 2 ^ 32 ∣ total g) :
    (rknpuIommuDmaUnmapSg dev sg').2 ≠ giveBack iova (UInt64.ofNat (paddedTotal dev sg)) := by
  intro hcalls
  have hg : g ∈ groups dev iova sg := by
    rw [hgroups]
    exact List.mem_append_right _ List.mem_cons_self
  obtain hnone | ⟨init, v, hread⟩ := (readGroups dev iova sg).eq_nil_or_concat'
  · rw [h.calls_of_none hnone] at hcalls
    cases hcalls
  · have hpair := pairwise_groups dev iova sg
    rw [hgroups, hread] at hpair
    have hbefore : (groupSpan iova v).start + (groupSpan iova v).length ≤
        (groupSpan iova g).start := (List.pairwise_append.mp hpair).2.2 v
      (List.mem_append_right _ List.mem_cons_self) g List.mem_cons_self
    have hstop := span_stop_le iova.toNat hg
    have hlong := Nat.le_of_dvd (total_pos_of_mem_groups h.positive hg) hdvd
    have hcut := Nat.mod_le (total v) (2 ^ 32)
    have hv : v ∈ groups dev iova sg := by
      rw [hgroups, hread]
      exact List.mem_append_left _ (List.mem_append_right _ List.mem_cons_self)
    have hlow := le_groupSpan iova (ne_nil_of_mem_coalesce hv)
    rw [← groupSpan] at hstop
    rw [groupSpan, Segment.length_span, total_segments, ← groupSpan] at hbefore
    have hearly : readStop iova v + 2 ^ 32 ≤ iova.toNat + paddedTotal dev sg := by
      unfold readStop
      omega
    have hshort := h.roundUp_lt_of_early hearly (by unfold readStop; omega)
    have hround := ((h.calls_iff hread).mp hcalls).2
    omega

theorem calls_iff_reconstructs (h : Mapped dev iova sg sg') :
    (rknpuIommuDmaUnmapSg dev sg').2 = giveBack iova (UInt64.ofNat (paddedTotal dev sg)) ↔
      Reconstructs dev iova sg := by
  obtain ⟨hall, hlengths⟩ | ⟨g, rest, hgroups, hg, hdvd⟩ := h.readGroups_cases
  · rw [h.calls_of_all hall]
    exact ⟨fun ⟨hlast, hstop⟩ => ⟨hlengths, hlast, hstop⟩, fun hrec => ⟨hrec.last, hrec.stop⟩⟩
  · refine ⟨fun hcalls => absurd hcalls (h.calls_of_hidden hgroups hdvd), fun hrec => ?_⟩
    exact absurd hdvd (hrec.lengths g hg)

end Mapped

theorem reconstructs_of_total {dev : MapDevice} {iova : UInt64} {sg : List SgEntry}
    (hpos : ∀ s ∈ sg, 0 < s.length.toNat) (htotal : paddedTotal dev sg < 2 ^ 32)
    (hroom : iova.toNat + paddedTotal dev sg < 2 ^ 64) : Reconstructs dev iova sg := by
  refine ⟨fun g hg hdvd => ?_, fun g hg => ?_, fun p hp => ?_⟩
  · have hmem := List.mem_of_mem_drop hg
    have hle := total_le_of_mem_groups hmem
    have hlong := Nat.le_of_dvd (total_pos_of_mem_groups hpos hmem) hdvd
    omega
  · exact lt_of_le_of_lt (total_le_of_mem_groups (List.mem_of_getLast? hg)) htotal
  · have hle : p.stop ≤ paddedTotal dev sg := stop_le_placesEnd (List.mem_of_getLast? hp)
    omega

/-- **The range that an unmapping computes** from the DMA fields that a mapping of memory segments
with positive lengths has left, with boundaries at multiples of the granule: it is the range that
has been allocated exactly when the mapping can be reconstructed. -/
theorem unmap_inverts_iff {dev : MapDevice} {o : MapOutcome} {sg : List SgEntry} {r : MapResult}
    {iova iovaLen : UInt64} (hcall : rknpuIommuDmaMapSg dev o sg = some r)
    (hmapped : r.mapped = some (iova, iovaLen)) (hret : MapsNoMore o)
    (hroom : iova.toNat + paddedTotal dev sg ≤ 2 ^ 64)
    (hmemory : ∀ s ∈ sg, s.dma.busAddress = false) (hpos : ∀ s ∈ sg, 0 < s.length.toNat)
    (hmask : dev.iovad.granule ∣ dev.segBoundary.toNat + 1) :
    (rknpuIommuDmaUnmapSg dev r.sg).2 = [.iommuUnmap iova iovaLen, .freeIova iova iovaLen] ↔
      Reconstructs dev iova sg := by
  obtain ⟨hexact, -, houtputs⟩ := outputs_of_mapped hcall hmapped hret hroom
  obtain ⟨hfirst, hsucceeds, rfl, rfl⟩ := succeeds_of_mapped hcall hmapped
  have hnonempty : sg ≠ [] := by
    rintro rfl
    exact hsucceeds.space rfl
  have hiova : 0 < (allocated dev o sg).toNat :=
    Nat.pos_of_ne_zero fun hzero => hsucceeds.iova (UInt64.toNat_inj.mp hzero)
  have h : Mapped dev (allocated dev o sg) sg r.sg :=
    ⟨hmemory, hpos, hmask, hfirst, hexact, hnonempty, hiova, dvd_allocated dev o sg, hroom,
      houtputs⟩
  exact h.calls_iff_reconstructs

theorem unmap_inverts_iff_two :
    (rknpuIommuDmaUnmapSg defaultDevice
      [⟨16, 0xff0, ⟨0xf010, 0x27f0, false⟩⟩, ⟨0, 0x1800, ⟨dmaMappingError, 0, false⟩⟩]).2 =
      [.iommuUnmap 0xf000 0x3000, .freeIova 0xf000 0x3000] := by
  have hcall : rknpuIommuDmaMapSg defaultDevice (mapsFrom 0xf) twoSegments =
      some ⟨1, [⟨16, 0xff0, ⟨0xf010, 0x27f0, false⟩⟩, ⟨0, 0x1800, ⟨dmaMappingError, 0, false⟩⟩],
        some (0xf000, 0x3000)⟩ := by decide +kernel
  exact (unmap_inverts_iff hcall rfl (mapsFrom_noMore 0xf) (by decide) (by decide) (by decide)
    (by decide)).mpr (reconstructs_of_total (by decide) (by decide) (by decide))

/-- A device with addresses of 40 bits. -/
def wideDevice : MapDevice :=
  { defaultDevice with dmaMask := 0xffffffffff, apertureEnd := 0xffffffffff }

/-- Two segments of 3 GiB and 1 GiB are concatenated, their length is cut to zero, and the
unmapping gives nothing back. -/
theorem unmap_loses_range :
    rknpuIommuDmaMapSg wideDevice (mapsFrom 0xf)
        [sgSegment 0 0xc0000000, sgSegment 0 0x40000000] =
      some ⟨1, [⟨0, 0xc0000000, ⟨0xf000, 0, false⟩⟩, ⟨0, 0x40000000, ⟨dmaMappingError, 0, false⟩⟩],
        some (0xf000, 0x100000000)⟩ ∧
    wideDevice.iovad.granule ∣ wideDevice.segBoundary.toNat + 1 ∧
    (rknpuIommuDmaUnmapSg wideDevice
      [⟨0, 0xc0000000, ⟨0xf000, 0, false⟩⟩,
        ⟨0, 0x40000000, ⟨dmaMappingError, 0, false⟩⟩]).2 = [] := by
  decide +kernel

end RknpuDriver.Iommu
