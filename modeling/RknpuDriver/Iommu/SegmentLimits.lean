import RknpuDriver.Iommu.Groups
import RknpuDriver.Iommu.Reversible

/-! # The limits of DMA segments

`__finalise_sg` concatenates a segment when `max_len - cur_len >= s_length`. The subtraction is of
unsigned values: after a segment longer than `max_len` it wraps, and the test holds of almost
every length. It looks for a boundary only where a segment begins; that no segment crosses one is
left to the padding, which is right for a start that is itself a boundary.

* `length_limit_iff`: when the concatenated output segments are no longer than the limit.
* `boundary_iff`: when the boundaries inside of the output segments cannot be helped.
* `segment_limits_iff`: both, for a call.
-/

namespace RknpuDriver.Iommu
open RknpuDriver.Lib
open Place
set_option autoImplicit false

/-- The distance of boundaries. -/
def MapDevice.boundary (dev : MapDevice) : ℕ := dev.segBoundary.toNat + 1

/-- What the limits of the device mean for the output segment of a run: one that is concatenated
is no longer than `dma_get_max_seg_size`, and a boundary inside of it is inside of an input
segment that is longer than the distance of boundaries. -/
structure WithinLimits (dev : MapDevice) (iova : UInt64) (g : List Place) : Prop where
  length : 2 ≤ g.length →
    (groupDma iova g).length.toNat = total g ∧ total g ≤ dev.maxSegSize.toNat
  boundary : ∀ m, dev.boundary ∣ m → (groupDma iova g).address.toNat < m →
    m < (groupDma iova g).address.toNat + total g →
    ∃ p ∈ g, dev.boundary < p.length ∧ Segment.Cuts m (p.segment iova.toNat)

/-- Two neighbours with a wrapped test: the first is longer than the limit, the second continues
it off a boundary and does not take the sum past what the wrapped test allows. -/
structure Overlong (dev : MapDevice) (iova : UInt64) (q p : Place) : Prop where
  continues : Continues q p
  off : OffBoundary dev iova p
  long : dev.maxSegSize.toNat < q.length
  sum : q.length + p.length ≤ dev.maxSegSize.toNat + 2 ^ 32

/-- The layouts that the limits are kept in. The last condition is only about masks that are not
of ones. -/
structure KeepsLimits (dev : MapDevice) (iova : UInt64) (sg : List SgEntry) : Prop where
  length : (places dev 0 sg).IsChain fun q p => ¬ Overlong dev iova q p
  inside : ∀ p ∈ places dev 0 sg, p.length ≤ dev.boundary → ∀ m, dev.boundary ∣ m →
    ¬ Segment.Cuts m (p.segment iova.toNat)
  between : (∀ k, dev.segBoundary.toNat ≠ 2 ^ k - 1) → ∀ left right,
    left ++ right ∈ groups dev iova sg → 0 < total left → 0 < total right →
    ¬ dev.boundary ∣
      (Segment.span ((left ++ right).map (Place.segment iova.toNat))).start + total left

section Length
variable {dev : MapDevice} {iova : UInt64}

theorem concatenates_concat (dev : MapDevice) (iova : UInt64) (g : List Place) (q p : Place) :
    concatenates dev iova (g ++ [q]) p = true ↔ Continues q p ∧ OffBoundary dev iova p ∧
      u32 (total (g ++ [q])) ≠ 0 ∧
      p.length ≤ u32Sub dev.maxSegSize.toNat (u32 (total (g ++ [q]))) := by
  rw [concatenates, List.getLast?_concat]
  exact decide_eq_true_iff

theorem total_le_of_concatenates {g : List Place} {q p : Place}
    (hle : total (g ++ [q]) ≤ dev.maxSegSize.toNat)
    (h : concatenates dev iova (g ++ [q]) p = true) :
    total (g ++ [q]) + p.length ≤ dev.maxSegSize.toNat := by
  have hmax := dev.maxSegSize.toNat_lt
  obtain ⟨-, -, -, hfits⟩ := (concatenates_concat dev iova g q p).mp h
  rw [u32_of_lt (by omega), u32Sub_of_le hle hmax] at hfits
  omega

theorem concatenates_overlong {q p : Place} (hq : q.length < 2 ^ 32)
    (hlong : dev.maxSegSize.toNat < q.length) :
    concatenates dev iova [q] p = true ↔ Overlong dev iova q p := by
  have htotal : total ([] ++ [q]) = q.length := Nat.add_zero _
  have hwrap : u32Sub dev.maxSegSize.toNat q.length =
      dev.maxSegSize.toNat + 2 ^ 32 - q.length := by
    unfold u32Sub u32
    omega
  have hlast := concatenates_concat dev iova [] q p
  rw [htotal, u32_of_lt hq, hwrap] at hlast
  refine hlast.trans ⟨?_, ?_⟩
  · rintro ⟨hcont, hoff, -, hfits⟩
    exact ⟨hcont, hoff, hlong, by omega⟩
  · rintro ⟨hcont, hoff, -, hsum⟩
    exact ⟨hcont, hoff, by omega, by omega⟩

theorem overlong_concat {g : List Place} {q p : Place} (hq : q.length < 2 ^ 32)
    (hlimit : 2 ≤ (g ++ [q]).length → total (g ++ [q]) ≤ dev.maxSegSize.toNat)
    (h : Overlong dev iova q p) :
    concatenates dev iova (g ++ [q]) p = true := by
  cases g with
  | nil => exact (concatenates_overlong hq h.long).mpr h
  | cons r g =>
    have htwo : 2 ≤ (r :: g ++ [q]).length := by simp
    have hle := hlimit htwo
    have hlong := h.long
    rw [total_concat] at hle
    omega

theorem total_le_concat {g : List Place} {q p : Place} (hq : q.length < 2 ^ 32)
    (hlimit : 2 ≤ (g ++ [q]).length → total (g ++ [q]) ≤ dev.maxSegSize.toNat)
    (hjoin : concatenates dev iova (g ++ [q]) p = true) (h : ¬ Overlong dev iova q p) :
    total (g ++ [q]) ≤ dev.maxSegSize.toNat := by
  cases g with
  | nil =>
    have htotal : total ([] ++ [q]) = q.length := Nat.add_zero _
    rw [htotal]
    by_contra hlong
    exact h ((concatenates_overlong hq (Nat.not_le.mp hlong)).mp hjoin)
  | cons r g => exact hlimit (by simp)

/-- **The length limit**: the runs that are concatenated are within it exactly when no two
neighbours are such that the test wraps. -/
theorem length_limit_iff (dev : MapDevice) (iova : UInt64) {l : List Place}
    (hlength : ∀ p ∈ l, p.length < 2 ^ 32) :
    (∀ g ∈ coalesce (concatenates dev iova) l, 2 ≤ g.length → total g ≤ dev.maxSegSize.toNat) ↔
      l.IsChain fun q p => ¬ Overlong dev iova q p := by
  induction l using List.reverseRecOn with
  | nil => exact ⟨fun _ => List.isChain_nil, fun _ g hg => nomatch hg⟩
  | append_singleton l x ih =>
    obtain rfl | ⟨l, y, rfl⟩ := l.eq_nil_or_concat'
    · refine ⟨fun _ => List.isChain_singleton x, fun _ g hg htwo => ?_⟩
      obtain rfl := List.mem_singleton.mp hg
      exact absurd htwo (Nat.not_succ_le_self 1)
    · have hy : y.length < 2 ^ 32 := hlength y (by simp)
      have hih := ih fun p hp => hlength p (List.mem_append_left _ hp)
      have hchain : (l ++ [y] ++ [x]).IsChain (fun q p => ¬ Overlong dev iova q p) ↔
          (l ++ [y]).IsChain (fun q p => ¬ Overlong dev iova q p) ∧ ¬ Overlong dev iova y x := by
        rw [List.isChain_append]
        simp
      rw [hchain, ← hih]
      obtain ⟨init, g, hgs, ⟨hjoin, hnew⟩ | ⟨hapart, hnew⟩⟩ :=
        coalesce_concat_cases (concatenates dev iova) l y x
      · rw [hgs, hnew]
        simp only [List.forall_mem_append, List.forall_mem_singleton]
        constructor
        · rintro ⟨hinit, hlast⟩
          have hle := hlast (by simp)
          rw [total_concat (g ++ [y])] at hle
          refine ⟨⟨hinit, fun _ => by omega⟩, fun hover => ?_⟩
          have hlong := hover.long
          rw [total_concat] at hle
          omega
        · rintro ⟨⟨hinit, hlast⟩, hnot⟩
          refine ⟨hinit, fun _ => ?_⟩
          rw [total_concat (g ++ [y])]
          exact total_le_of_concatenates (total_le_concat hy hlast hjoin hnot) hjoin
      · rw [hgs, hnew]
        simp only [List.forall_mem_append, List.forall_mem_singleton]
        constructor
        · rintro ⟨⟨hinit, hlast⟩, -⟩
          exact ⟨⟨hinit, hlast⟩, fun hover => hapart (overlong_concat hy hlast hover)⟩
        · rintro ⟨hold, -⟩
          exact ⟨hold, fun htwo => absurd htwo (Nat.not_succ_le_self 1)⟩

end Length

section Boundary
variable {dev : MapDevice} {iova : UInt64} {sg : List SgEntry} {g : List Place}

theorem isChain_offBoundary (h : g ∈ groups dev iova sg) :
    g.IsChain fun q p => Continues q p ∧ OffBoundary dev iova p := by
  refine isChain_of_mem_coalesce (fun g q p hjoin => ?_) h
  obtain ⟨hcont, hoff, -⟩ := (concatenates_concat dev iova g q p).mp hjoin
  exact ⟨hcont, hoff⟩

theorem between_of_mask {k : ℕ} (hmask : dev.segBoundary.toNat = 2 ^ k - 1)
    {left right : List Place} (hg : left ++ right ∈ groups dev iova sg) (hleft : 0 < total left)
    (hright : 0 < total right) :
    ¬ dev.boundary ∣
      (Segment.span ((left ++ right).map (Place.segment iova.toNat))).start + total left := by
  have hne : left ≠ [] := by
    rintro rfl
    exact absurd hleft (Nat.lt_irrefl 0)
  cases right with
  | nil => exact absurd hright (Nat.lt_irrefl 0)
  | cons p right =>
    have hchain := isChain_segments iova.toNat (isChain_of_mem_groups hg)
    rw [List.map_append, List.map_cons] at hchain
    have hstart := Segment.start_of_append hchain (by simpa using hne)
    rw [total_segments, ← List.map_cons, ← List.map_append] at hstart
    rw [hstart]
    obtain ⟨left, q, rfl⟩ := left.eq_nil_or_concat'.resolve_left hne
    obtain ⟨-, -, hjoint⟩ := List.isChain_append.mp (isChain_offBoundary hg)
    obtain ⟨⟨-, -, -, hoff⟩, hmasked⟩ := hjoint q (by simp) p (by simp)
    have hpos := Nat.two_pow_pos k
    have hk : k ≤ 64 := by
      by_contra hk
      have hlt := dev.segBoundary.toNat_lt
      have hpow : 2 ^ 65 ≤ 2 ^ k := Nat.pow_le_pow_right (by decide) (by omega)
      omega
    intro hdvd
    refine hmasked ?_
    have hboundary : dev.boundary = 2 ^ k := by
      unfold MapDevice.boundary
      omega
    rw [hboundary] at hdvd
    have hplace : (p.segment iova.toNat).start = iova.toNat + p.start := by
      show iova.toNat + (p.start + p.offset) = _
      rw [hoff, Nat.add_zero]
    rw [hplace] at hdvd
    rw [← UInt64.toNat_inj, UInt64.toNat_and, hmask, Nat.and_two_pow_sub_one_eq_mod,
      UInt64.toNat_add, UInt64.toNat_ofNat', Nat.add_mod_mod,
      Nat.mod_mod_of_dvd _ (Nat.pow_dvd_pow 2 hk), Nat.mod_eq_zero_of_dvd hdvd]
    rfl

/-- **The boundaries** inside of the spans of the groups are inside of segments that are longer
than the distance of boundaries, exactly when none is inside of another segment, nor between two
segments of a group. -/
theorem boundary_iff (dev : MapDevice) (iova : UInt64) (sg : List SgEntry) :
    (∀ g ∈ groups dev iova sg, ∀ m, dev.boundary ∣ m →
        Segment.Cuts m (Segment.span (g.map (Place.segment iova.toNat))) →
        ∃ p ∈ g, dev.boundary < p.length ∧ Segment.Cuts m (p.segment iova.toNat)) ↔
      (∀ p ∈ places dev 0 sg, p.length ≤ dev.boundary → ∀ m, dev.boundary ∣ m →
        ¬ Segment.Cuts m (p.segment iova.toNat)) ∧
      ∀ left right, left ++ right ∈ groups dev iova sg → 0 < total left → 0 < total right →
        ¬ dev.boundary ∣
          (Segment.span ((left ++ right).map (Place.segment iova.toNat))).start + total left := by
  have hchain : ∀ g ∈ groups dev iova sg,
      (g.map (Place.segment iova.toNat)).IsChain Segment.Meets :=
    fun g hg => isChain_segments iova.toNat (isChain_of_mem_groups hg)
  constructor
  · intro h
    refine ⟨fun p hp hshort m hm hcut => ?_, fun left right hg hleft hright hm => ?_⟩
    · rw [← flatten_groups dev iova] at hp
      obtain ⟨g, hg, hpg⟩ := List.mem_flatten.mp hp
      have hmem := List.mem_map_of_mem (f := Place.segment iova.toNat) hpg
      obtain ⟨q, hq, hlong, hcut'⟩ := h g hg m hm
        ((Segment.cuts_span (hchain g hg)).mpr (Or.inl ⟨_, hmem, hcut⟩))
      have heq := Segment.eq_of_cuts (hchain g hg) hmem (List.mem_map_of_mem hq) hcut hcut'
      have hlen : p.length = q.length := congrArg Segment.length heq
      omega
    · have hspan := (Segment.cuts_span (hchain _ hg)).mpr (Or.inr
        ⟨left.map (Place.segment iova.toNat), right.map (Place.segment iova.toNat),
          List.map_append, by rwa [total_segments], by rwa [total_segments], rfl⟩)
      rw [total_segments] at hspan
      obtain ⟨q, hq, -, hcut⟩ := h _ hg _ hm hspan
      have hne : left.map (Place.segment iova.toNat) ≠ [] := by
        intro hnil
        rw [List.map_eq_nil_iff.mp hnil] at hleft
        exact absurd hleft (Nat.lt_irrefl 0)
      have hchain' := hchain _ hg
      rw [List.map_append] at hchain'
      refine Segment.not_cuts_between hchain' hne (s := q.segment iova.toNat) ?_ ?_
      · rw [← List.map_append]
        exact List.mem_map_of_mem hq
      · rw [← List.map_append, total_segments]
        exact hcut
  · rintro ⟨hinside, hbetween⟩ g hg m hm hcut
    obtain ⟨s, hs, hcut⟩ | ⟨left, right, hsplit, hleft, hright, hmid⟩ :=
      (Segment.cuts_span (hchain g hg)).mp hcut
    · obtain ⟨p, hp, rfl⟩ := List.mem_map.mp hs
      refine ⟨p, hp, ?_, hcut⟩
      by_contra hshort
      exact hinside p (mem_places_of_mem_groups hg hp) (Nat.not_lt.mp hshort) m hm hcut
    · obtain ⟨left, right, rfl, rfl, rfl⟩ := List.map_eq_append_iff.mp hsplit
      rw [total_segments] at hleft hright hmid
      exact absurd (hmid ▸ hm) (hbetween left right hg hleft hright)

end Boundary

/-! ## The call -/

section Call
variable {dev : MapDevice} {o : MapOutcome} {iova : UInt64} {sg : List SgEntry} {g : List Place}

theorem address_of_group (hexact : Exact dev 0 sg)
    (hroom : iova.toNat + paddedTotal dev sg ≤ 2 ^ 64) (hg : g ∈ groups dev iova sg)
    (hpos : 0 < total g) :
    (groupDma iova g).address.toNat =
      (Segment.span (g.map (Place.segment iova.toNat))).start := by
  have hchain := isChain_of_mem_groups hg
  obtain ⟨p, g, rfl⟩ := List.exists_cons_of_ne_nil (ne_nil_of_mem_coalesce hg)
  have hmemory : p.busAddress = false := by
    cases g with
    | cons q g => exact (List.isChain_cons_cons.mp hchain).1.1
    | nil =>
      cases hbus : p.busAddress with
      | false => rfl
      | true =>
        have hzero := length_of_bus hexact (mem_places_of_mem_groups hg List.mem_cons_self) hbus
        have htotal : total [p] = p.length := Nat.add_zero _
        omega
  have hend := span_stop_le iova.toNat hg
  rw [span_segments] at hend ⊢
  rw [groupDma_cons iova g hmemory, UInt64.toNat_add, UInt64.toNat_ofNat']
  simp only at hend ⊢
  omega

theorem length_of_group (hg : g ∈ groups dev iova sg) (htwo : 2 ≤ g.length) :
    (groupDma iova g).length.toNat = total g % 2 ^ 32 := by
  have hchain := isChain_of_mem_groups hg
  match g, htwo with
  | p :: q :: g, _ =>
    exact length_groupDma iova (q :: g) (List.isChain_cons_cons.mp hchain).1.1

theorem withinLimits_iff (hexact : Exact dev 0 sg)
    (hroom : iova.toNat + paddedTotal dev sg ≤ 2 ^ 64) (hg : g ∈ groups dev iova sg) :
    WithinLimits dev iova g ↔ (2 ≤ g.length → total g ≤ dev.maxSegSize.toNat) ∧
      ∀ m, dev.boundary ∣ m → Segment.Cuts m (Segment.span (g.map (Place.segment iova.toNat))) →
        ∃ p ∈ g, dev.boundary < p.length ∧ Segment.Cuts m (p.segment iova.toNat) := by
  have hcuts : ∀ m, Segment.Cuts m (Segment.span (g.map (Place.segment iova.toNat))) ↔
      (groupDma iova g).address.toNat < m ∧ m < (groupDma iova g).address.toNat + total g := by
    intro m
    rw [Segment.Cuts, Segment.length_span, total_segments]
    obtain hzero | hpos := Nat.eq_zero_or_pos (total g)
    · omega
    · rw [address_of_group hexact hroom hg hpos]
  constructor
  · rintro ⟨hlength, hboundary⟩
    refine ⟨fun htwo => (hlength htwo).2, fun m hm hcut => ?_⟩
    obtain ⟨hlow, hhigh⟩ := (hcuts m).mp hcut
    exact hboundary m hm hlow hhigh
  · rintro ⟨hlength, hboundary⟩
    refine ⟨fun htwo => ⟨?_, hlength htwo⟩, fun m hm hlow hhigh => ?_⟩
    · have hmax := dev.maxSegSize.toNat_lt
      rw [length_of_group hg htwo, Nat.mod_eq_of_lt (lt_of_le_of_lt (hlength htwo) hmax)]
    · exact hboundary m hm ((hcuts m).mpr ⟨hlow, hhigh⟩)

/-- **The limits of the output segments** of a mapping, at any start from which the layout fits
into the address space: they are kept exactly when no two neighbours make the length test wrap,
and no boundary is inside of a segment that is not longer than the distance of boundaries. -/
theorem segment_limits_iff {r : MapResult} {iovaLen : UInt64}
    (hcall : rknpuIommuDmaMapSg dev o sg = some r) (hmapped : r.mapped = some (iova, iovaLen))
    (hret : MapsNoMore o) (hroom : iova.toNat + paddedTotal dev sg ≤ 2 ^ 64) :
    (r.ret = (groups dev iova sg).length ∧
      (r.sg.take (groups dev iova sg).length).map SgEntry.dma =
        (groups dev iova sg).map (groupDma iova)) ∧
    ((∀ g ∈ groups dev iova sg, WithinLimits dev iova g) ↔ KeepsLimits dev iova sg) := by
  obtain ⟨hexact, hcount, houtputs⟩ := outputs_of_mapped hcall hmapped hret hroom
  refine ⟨⟨hcount, houtputs.dma⟩, ?_⟩
  have hlength32 : ∀ p ∈ places dev 0 sg, p.length < 2 ^ 32 := by
    intro p hp
    obtain ⟨s, -, hlen, -⟩ := exists_of_mem_places hp
    rw [hlen]
    exact s.length.toNat_lt
  have hlength := length_limit_iff dev iova hlength32
  have hboundary := boundary_iff dev iova sg
  constructor
  · intro h
    have hsplit := fun g hg => (withinLimits_iff hexact hroom hg).mp (h g hg)
    obtain ⟨hinside, hbetween⟩ := hboundary.mp fun g hg => (hsplit g hg).2
    exact ⟨hlength.mp fun g hg => (hsplit g hg).1, hinside, fun _ => hbetween⟩
  · rintro ⟨hchain, hinside, hbetween⟩ g hg
    refine (withinLimits_iff hexact hroom hg).mpr
      ⟨hlength.mpr hchain g hg, hboundary.mpr ⟨hinside, ?_⟩ g hg⟩
    by_cases hmask : ∃ k, dev.segBoundary.toNat = 2 ^ k - 1
    · obtain ⟨k, hk⟩ := hmask
      exact fun left right => between_of_mask hk
    · exact hbetween fun k hk => hmask ⟨k, hk⟩

end Call

theorem mapsFrom_noMore (pfn : UInt64) : MapsNoMore (mapsFrom pfn) := fun _ _ => Int.le_refl _

theorem twoSegments_keep : KeepsLimits defaultDevice 0xf000 twoSegments := by
  have hplaces : places defaultDevice 0 twoSegments =
      [⟨0, 16, 0xff0, false⟩, ⟨0x1000, 0, 0x1800, false⟩] := by decide
  have hboundary : defaultDevice.boundary = 2 ^ 32 := by decide
  refine ⟨?_, fun p hp _ m hm hcut => ?_, fun hmask => absurd (by decide) (hmask 32)⟩
  · rw [hplaces]
    exact List.isChain_pair.mpr fun h => absurd h.long (by decide)
  · rw [hboundary] at hm
    rw [hplaces] at hp
    have hlow : 0xf000 < m := lt_of_le_of_lt (Nat.le_add_right _ _) hcut.1
    have hhigh : m < 0xf000 + (p.start + p.offset) + p.length := hcut.2
    have hstop : p.start + p.offset + p.length ≤ 0x2800 := by
      obtain rfl | hp := List.mem_cons.mp hp
      · decide
      · obtain rfl := List.mem_singleton.mp hp
        decide
    omega

theorem segment_limits_iff_two :
    WithinLimits defaultDevice 0xf000 [⟨0, 16, 0xff0, false⟩, ⟨0x1000, 0, 0x1800, false⟩] := by
  have hcall : rknpuIommuDmaMapSg defaultDevice (mapsFrom 0xf) twoSegments =
      some ⟨1, [⟨16, 0xff0, ⟨0xf010, 0x27f0, false⟩⟩, ⟨0, 0x1800, ⟨dmaMappingError, 0, false⟩⟩],
        some (0xf000, 0x3000)⟩ := by decide +kernel
  have hlimits := (segment_limits_iff hcall rfl (mapsFrom_noMore 0xf) (by decide)).2
  exact hlimits.mpr twoSegments_keep _ (by decide)

/-- A device with boundaries at the multiples of 64 KiB. -/
def narrowDevice : MapDevice := { defaultDevice with segBoundary := 0xffff }

/-- Two segments of 128 KiB and 4 KiB are concatenated where the limit is 64 KiB, and a segment of
8 KiB is mapped across a boundary. -/
theorem segment_limits_broken :
    rknpuIommuDmaMapSg defaultDevice (mapsFrom 0xf) [sgSegment 0 0x20000, sgSegment 0 0x1000] =
      some ⟨1, [⟨0, 0x20000, ⟨0xf000, 0x21000, false⟩⟩, ⟨0, 0x1000, ⟨dmaMappingError, 0, false⟩⟩],
        some (0xf000, 0x21000)⟩ ∧
    defaultDevice.maxSegSize.toNat < 0x21000 ∧
    rknpuIommuDmaMapSg narrowDevice (mapsFrom 0xf) [sgSegment 0 0x2000] =
      some ⟨1, [⟨0, 0x2000, ⟨0xf000, 0x2000, false⟩⟩], some (0xf000, 0x2000)⟩ ∧
    narrowDevice.boundary = 0x10000 ∧ 0xf000 < 0x10000 ∧ 0x10000 < 0xf000 + 0x2000 ∧
    0x2000 ≤ narrowDevice.boundary := by
  decide +kernel

end RknpuDriver.Iommu
