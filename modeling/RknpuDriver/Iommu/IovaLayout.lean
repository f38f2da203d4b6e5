import RknpuDriver.Iommu.MapSg
import Mathlib.Tactic.SplitIfs

/-! # The padded IOVA layout

Where the first loop of `rknpu_iommu_dma_map_sg` places the segments, as numbers that do not wrap:
a segment is aligned to the granule, and begins where the one before it ends unless it is padded
away from a boundary.

* `layOutSg_eq`: what the loop leaves, in terms of the places.
* `Exact`: the lengths that the entries hold are those of the layout. It follows from a total
  below `2^32`, and from a mapping that is as long as the layout.
-/

namespace RknpuDriver.Iommu
set_option autoImplicit false

/-! ## Numbers -/

theorem IovaDomain.granule_pos (iovad : IovaDomain) : 0 < iovad.granule := Nat.two_pow_pos _

/-- `n` rounded up to a multiple of the granule. -/
def IovaDomain.roundUp (iovad : IovaDomain) (n : ℕ) : ℕ :=
  (n + (iovad.granule - 1)) / iovad.granule * iovad.granule

namespace IovaDomain
variable (iovad : IovaDomain)

theorem dvd_roundUp (n : ℕ) : iovad.granule ∣ iovad.roundUp n := Nat.dvd_mul_left _ _

theorem le_roundUp (n : ℕ) : n ≤ iovad.roundUp n := by
  have hpos := iovad.granule_pos
  have hdiv := Nat.lt_div_mul_add hpos (a := n + (iovad.granule - 1))
  rw [roundUp]
  omega

theorem roundUp_lt (n : ℕ) : iovad.roundUp n < n + iovad.granule := by
  have hpos := iovad.granule_pos
  have hdiv := Nat.div_mul_le_self (n + (iovad.granule - 1)) iovad.granule
  rw [roundUp]
  omega

theorem roundUp_add {m : ℕ} (hm : iovad.granule ∣ m) (n : ℕ) :
    iovad.roundUp (m + n) = m + iovad.roundUp n := by
  obtain ⟨k, rfl⟩ := hm
  rw [roundUp, roundUp, Nat.add_assoc, Nat.mul_add_div iovad.granule_pos, Nat.add_mul,
    Nat.mul_comm k]

theorem roundUp_le_of_dvd {m n : ℕ} (h : n ≤ m) (hm : iovad.granule ∣ m) :
    iovad.roundUp n ≤ m := by
  obtain ⟨k, rfl⟩ := hm
  obtain ⟨j, hj⟩ := iovad.dvd_roundUp n
  have hlt : iovad.granule * j < iovad.granule * (k + 1) := by
    rw [← hj, Nat.mul_succ]
    exact Nat.lt_of_lt_of_le (iovad.roundUp_lt n) (Nat.add_le_add_right h _)
  rw [hj]
  exact Nat.mul_le_mul_left _ (Nat.le_of_lt_succ (Nat.lt_of_mul_lt_mul_left hlt))

end IovaDomain

theorem iovaAlign_ofNat (iovad : IovaDomain) (n : UInt64) :
    iovaAlign iovad n = UInt64.ofNat (iovad.roundUp n.toNat) := rfl

/-! ## Places -/

/-- A segment in the layout: its granules begin at `start`, its bytes `offset` further. -/
structure Place where
  start : ℕ
  offset : ℕ
  length : ℕ
  busAddress : Bool
  deriving DecidableEq, Repr

/-- Where the bytes end. -/
def Place.stop (p : Place) : ℕ := p.start + p.offset + p.length

/-- The granules of a segment. -/
def SgEntry.space (iovad : IovaDomain) (s : SgEntry) : ℕ :=
  iovad.roundUp (s.offset.toNat % iovad.granule + s.length.toNat)

section Layout
variable (dev : MapDevice)

/-- Where a segment begins when those before it end at `pos`. -/
def startAt (pos : ℕ) (s : SgEntry) : ℕ :=
  pos + (padding dev.segBoundary (UInt64.ofNat pos) (UInt64.ofNat (s.space dev.iovad))).toNat

/-- The places of the segments of a list that is laid out from `pos` on. -/
def places : ℕ → List SgEntry → List Place
  | _, [] => []
  | pos, s :: rest =>
    ⟨startAt dev pos s, s.offset.toNat % dev.iovad.granule, s.length.toNat, s.dma.busAddress⟩ ::
      places (startAt dev pos s + s.space dev.iovad) rest

/-- The end of the layout. -/
def placesEnd : ℕ → List SgEntry → ℕ
  | pos, [] => pos
  | pos, s :: rest => placesEnd (startAt dev pos s + s.space dev.iovad) rest

/-- Where the next segment begins. -/
def nextStart (pos : ℕ) : List SgEntry → ℕ
  | [] => pos
  | s :: _ => startAt dev pos s

/-- The entries as the first loop leaves them. The padding of a segment is in the entry before. -/
def stashes : ℕ → List SgEntry → List SgEntry
  | _, [] => []
  | pos, s :: rest =>
    let start := startAt dev pos s
    let next := nextStart dev (start + s.space dev.iovad) rest
    { s.stash dev.iovad with length := UInt32.ofNat (next - start) } ::
      stashes (start + s.space dev.iovad) rest

/-- The lengths of the entries have not been cut to 32 bits, and an entry with a bus address has
no place. -/
def Exact : ℕ → List SgEntry → Prop
  | _, [] => True
  | pos, s :: rest =>
    let start := startAt dev pos s
    let next := nextStart dev (start + s.space dev.iovad) rest
    next - start < 2 ^ 32 ∧ (s.dma.busAddress = true → next = start) ∧
      Exact (start + s.space dev.iovad) rest

/-- The length of the whole layout. -/
def paddedTotal (sg : List SgEntry) : ℕ := placesEnd dev 0 sg

theorem le_startAt (pos : ℕ) (s : SgEntry) : pos ≤ startAt dev pos s := Nat.le_add_right _ _

theorem le_nextStart (pos : ℕ) (sg : List SgEntry) : pos ≤ nextStart dev pos sg := by
  cases sg with
  | nil => exact Nat.le_refl pos
  | cons s rest => exact le_startAt dev pos s

theorem nextStart_le (pos : ℕ) (sg : List SgEntry) :
    nextStart dev pos sg ≤ placesEnd dev pos sg := by
  induction sg generalizing pos with
  | nil => exact Nat.le_refl pos
  | cons s rest ih =>
    have hnext := ih (startAt dev pos s + s.space dev.iovad)
    have hle := le_nextStart dev (startAt dev pos s + s.space dev.iovad) rest
    show startAt dev pos s ≤ placesEnd dev (startAt dev pos s + s.space dev.iovad) rest
    omega

variable {dev} {pos : ℕ} {s : SgEntry} {sg rest : List SgEntry}

theorem places_append (pos : ℕ) (sg rest : List SgEntry) :
    places dev pos (sg ++ rest) = places dev pos sg ++ places dev (placesEnd dev pos sg) rest := by
  induction sg generalizing pos with
  | nil => rfl
  | cons s sg ih =>
    rw [List.cons_append, places, places, ih]
    rfl

theorem placesEnd_append (pos : ℕ) (sg rest : List SgEntry) :
    placesEnd dev pos (sg ++ rest) = placesEnd dev (placesEnd dev pos sg) rest := by
  induction sg generalizing pos with
  | nil => rfl
  | cons s sg ih =>
    rw [List.cons_append, placesEnd, ih]
    rfl

theorem le_start {p : Place} (h : p ∈ places dev pos sg) : pos ≤ p.start := by
  induction sg generalizing pos with
  | nil => cases h
  | cons s rest ih =>
    have hle := le_startAt dev pos s
    obtain rfl | h := List.mem_cons.mp h
    · exact hle
    · have hrest := ih h
      omega

theorem Exact.append (h : Exact dev pos (sg ++ rest)) : Exact dev (placesEnd dev pos sg) rest := by
  induction sg generalizing pos with
  | nil => exact h
  | cons s sg ih => exact ih h.2.2

variable (dev) in
theorem length_places (pos : ℕ) (sg : List SgEntry) : (places dev pos sg).length = sg.length := by
  induction sg generalizing pos with
  | nil => rfl
  | cons s rest ih => rw [places, List.length_cons, List.length_cons, ih]

variable (dev) in
theorem length_stashes (pos : ℕ) (sg : List SgEntry) : (stashes dev pos sg).length = sg.length := by
  induction sg generalizing pos with
  | nil => rfl
  | cons s rest ih => rw [stashes, List.length_cons, List.length_cons, ih]

/-! ## The first loop -/

theorem toNat_iovaOffset (s : SgEntry) (iovad : IovaDomain) :
    (iovaOffset iovad s.offset.toUInt64).toNat = s.offset.toNat % iovad.granule := by
  have hlt := s.offset.toNat_lt
  have hmod := Nat.mod_le s.offset.toNat iovad.granule
  rw [iovaOffset, UInt64.toNat_ofNat', UInt32.toNat_toUInt64]
  exact Nat.mod_eq_of_lt (by omega)

theorem alignedLength_eq (iovad : IovaDomain) (s : SgEntry) :
    alignedLength iovad s = UInt64.ofNat (s.space iovad) := by
  have hlen := s.length.toNat_lt
  have hoff := s.offset.toNat_lt
  have hmod := Nat.mod_le s.offset.toNat iovad.granule
  rw [alignedLength, iovaAlign_ofNat, UInt64.toNat_add, UInt32.toNat_toUInt64, toNat_iovaOffset,
    SgEntry.space, Nat.mod_eq_of_lt (by omega), Nat.add_comm]

/-- The padding and the aligned length bring `iova_len` to the end of the segment. -/
theorem ofNat_startAt (pos : ℕ) (s : SgEntry) :
    UInt64.ofNat pos + padding dev.segBoundary (UInt64.ofNat pos) (alignedLength dev.iovad s) +
        alignedLength dev.iovad s =
      UInt64.ofNat (startAt dev pos s + s.space dev.iovad) := by
  rw [alignedLength_eq, UInt64.ofNat_add, startAt, UInt64.ofNat_add, UInt64.ofNat_toNat]

/-- The length of an entry after the padding of the next one. -/
theorem stash_padded (pos : ℕ) (s : SgEntry) (rest : List SgEntry) :
    { s.stash dev.iovad with
        length := (s.stash dev.iovad).length +
          UInt32.ofNat (nextStart dev (startAt dev pos s + s.space dev.iovad) rest -
            (startAt dev pos s + s.space dev.iovad)) } ::
        stashes dev (startAt dev pos s + s.space dev.iovad) rest =
      stashes dev pos (s :: rest) := by
  have hle := le_nextStart dev (startAt dev pos s + s.space dev.iovad) rest
  have hlength : (s.stash dev.iovad).length = UInt32.ofNat (s.space dev.iovad) := by
    show (alignedLength dev.iovad s).toUInt32 = _
    rw [alignedLength_eq, UInt64.toUInt32_ofNat']
  have hsum : s.space dev.iovad + (nextStart dev (startAt dev pos s + s.space dev.iovad) rest -
        (startAt dev pos s + s.space dev.iovad)) =
      nextStart dev (startAt dev pos s + s.space dev.iovad) rest - startAt dev pos s := by
    omega
  rw [stashes, hlength, ← UInt32.ofNat_add, hsum]

theorem layOutSg_some (prev : SgEntry) (pos : ℕ) (sg : List SgEntry) :
    layOutSg dev (some prev) (UInt64.ofNat pos) sg =
      some ({ prev with length := prev.length + UInt32.ofNat (nextStart dev pos sg - pos) } ::
        stashes dev pos sg, UInt64.ofNat (placesEnd dev pos sg)) := by
  induction sg generalizing prev pos with
  | nil =>
    have hzero : UInt32.ofNat (pos - pos) = 0 := by
      rw [Nat.sub_self]
      rfl
    rw [layOutSg, nextStart, hzero, UInt32.add_zero]
    rfl
  | cons s rest ih =>
    have hpad : (padding dev.segBoundary (UInt64.ofNat pos) (alignedLength dev.iovad s)).toUInt32 =
        UInt32.ofNat (startAt dev pos s - pos) := by
      rw [alignedLength_eq, startAt, Nat.add_sub_cancel_left, UInt32.ofNat_uInt64ToNat]
    rw [layOutSg]
    simp only [ofNat_startAt, hpad, ih, stash_padded, Option.map_some]
    rfl

/-- What the first loop leaves, when it does not dereference NULL. -/
theorem layOutSg_eq (sg : List SgEntry) :
    layOutSg dev none 0 sg =
      if nextStart dev 0 sg = 0 then
        some (stashes dev 0 sg, UInt64.ofNat (paddedTotal dev sg))
      else none := by
  cases sg with
  | nil => rfl
  | cons s rest =>
    have hpad : startAt dev 0 s =
        (padding dev.segBoundary 0 (alignedLength dev.iovad s)).toNat := by
      rw [alignedLength_eq, startAt, Nat.zero_add]
      rfl
    rw [layOutSg, nextStart]
    by_cases hzero : padding dev.segBoundary 0 (alignedLength dev.iovad s) = 0
    · have hat : startAt dev 0 s = 0 := by
        rw [hpad, hzero]
        rfl
      have hlen : 0 + alignedLength dev.iovad s =
          UInt64.ofNat (startAt dev 0 s + s.space dev.iovad) := by
        rw [hat, Nat.zero_add, alignedLength_eq, UInt64.zero_add]
      rw [if_neg (not_not.mpr hzero), if_pos hat, hlen, layOutSg_some, stash_padded]
      rfl
    · have hat : startAt dev 0 s ≠ 0 := by
        rw [hpad]
        exact fun h => hzero (UInt64.toNat_inj.mp h)
      rw [if_pos hzero, if_neg hat]

/-! ## Exact lengths -/

theorem exact_of_total (hsg : ∀ s ∈ sg, s.dma.busAddress = false)
    (h : placesEnd dev pos sg < 2 ^ 32) : Exact dev pos sg := by
  induction sg generalizing pos with
  | nil => trivial
  | cons s rest ih =>
    have hend : placesEnd dev (startAt dev pos s + s.space dev.iovad) rest < 2 ^ 32 := h
    have hle := nextStart_le dev (startAt dev pos s + s.space dev.iovad) rest
    refine ⟨by omega, fun hbus => ?_, ih (fun t ht => hsg t (List.mem_cons_of_mem s ht)) hend⟩
    rw [hsg s List.mem_cons_self] at hbus
    exact absurd hbus Bool.false_ne_true

/-- What `iommu_map_sg` can map of a list: the lengths of the entries that have no bus address. -/
def mappable (sg : List SgEntry) : ℕ :=
  ((sg.filter fun s => ¬ s.dma.busAddress).map fun s => s.length.toNat).sum

theorem mappable_cons (s : SgEntry) (sg : List SgEntry) :
    mappable (s :: sg) = (if s.dma.busAddress then 0 else s.length.toNat) + mappable sg := by
  unfold mappable
  cases hbus : s.dma.busAddress with
  | false => simp [hbus]
  | true => simp [hbus]

variable (dev) in
theorem mappable_stashes_le (pos : ℕ) (sg : List SgEntry) :
    nextStart dev pos sg + mappable (stashes dev pos sg) ≤ placesEnd dev pos sg := by
  induction sg generalizing pos with
  | nil => exact Nat.le_refl pos
  | cons s rest ih =>
    have hrest := ih (startAt dev pos s + s.space dev.iovad)
    have hle := le_nextStart dev (startAt dev pos s + s.space dev.iovad) rest
    have hcut := Nat.mod_le (nextStart dev (startAt dev pos s + s.space dev.iovad) rest -
      startAt dev pos s) (2 ^ 32)
    rw [stashes, mappable_cons, UInt32.toNat_ofNat', placesEnd, nextStart]
    split_ifs <;> omega

/-- A mapping as long as the layout is one of the whole layout. -/
theorem exact_of_mappable
    (h : placesEnd dev pos sg ≤ nextStart dev pos sg + mappable (stashes dev pos sg)) :
    Exact dev pos sg := by
  induction sg generalizing pos with
  | nil => trivial
  | cons s rest ih =>
    have hrest := mappable_stashes_le dev (startAt dev pos s + s.space dev.iovad) rest
    have hle := le_nextStart dev (startAt dev pos s + s.space dev.iovad) rest
    have hmod := Nat.mod_lt (nextStart dev (startAt dev pos s + s.space dev.iovad) rest -
      startAt dev pos s) (show 0 < 2 ^ 32 by decide)
    have hcut := Nat.mod_le (nextStart dev (startAt dev pos s + s.space dev.iovad) rest -
      startAt dev pos s) (2 ^ 32)
    rw [stashes, mappable_cons, UInt32.toNat_ofNat', placesEnd, nextStart] at h
    refine ⟨?_, fun hbus => ?_, ih ?_⟩
    · split_ifs at h <;> omega
    · rw [if_pos (show (s.stash dev.iovad).dma.busAddress = true from hbus)] at h
      omega
    · split_ifs at h <;> omega

/-! ## Alignment -/

theorem pairwise_places (pos : ℕ) (sg : List SgEntry) :
    (places dev pos sg).Pairwise fun q p => q.stop ≤ p.start := by
  induction sg generalizing pos with
  | nil => exact List.Pairwise.nil
  | cons s rest ih =>
    refine List.pairwise_cons.mpr ⟨fun p hp => ?_, ih _⟩
    have hround := dev.iovad.le_roundUp (s.offset.toNat % dev.iovad.granule + s.length.toNat)
    have hstart := le_start hp
    rw [← SgEntry.space] at hround
    show startAt dev pos s + s.offset.toNat % dev.iovad.granule + s.length.toNat ≤ p.start
    omega

/-- Boundaries at multiples of the granule are not padded off the granules. -/
theorem dvd_padding (hmask : dev.iovad.granule ∣ dev.segBoundary.toNat + 1) {pos : ℕ}
    (hpos : dev.iovad.granule ∣ pos) (sLength : UInt64) :
    dev.iovad.granule ∣ (padding dev.segBoundary (UInt64.ofNat pos) sLength).toNat := by
  have hword : dev.iovad.granule ∣ 2 ^ 64 := Nat.pow_dvd_pow 2 (Nat.le_of_lt dev.iovad.shift_lt)
  have hpad : dev.iovad.granule ∣
      ((dev.segBoundary - UInt64.ofNat pos + 1) &&& dev.segBoundary).toNat := by
    have hsum : dev.iovad.granule ∣ (dev.segBoundary - UInt64.ofNat pos + 1).toNat := by
      have hmod : dev.iovad.granule ∣ pos % 2 ^ 64 := (Nat.dvd_mod_iff hword).mpr hpos
      have hlt := Nat.mod_lt pos (Nat.two_pow_pos 64)
      have hnat : (dev.segBoundary - UInt64.ofNat pos + 1).toNat =
          (2 ^ 64 - pos % 2 ^ 64 + (dev.segBoundary.toNat + 1)) % 2 ^ 64 := by
        rw [UInt64.toNat_add, UInt64.toNat_sub, UInt64.toNat_ofNat']
        show ((2 ^ 64 - pos % 2 ^ 64 + dev.segBoundary.toNat) % 2 ^ 64 + 1) % 2 ^ 64 = _
        omega
      rw [hnat]
      exact (Nat.dvd_mod_iff hword).mpr (Nat.dvd_add (Nat.dvd_sub hword hmod) hmask)
    refine Nat.dvd_of_mod_eq_zero ?_
    rw [UInt64.toNat_and, IovaDomain.granule, Nat.and_mod_two_pow, ← IovaDomain.granule,
      Nat.mod_eq_zero_of_dvd hsum, Nat.zero_and]
  show dev.iovad.granule ∣ UInt64.toNat (if _ then _ else 0)
  split_ifs
  · exact hpad
  · exact Nat.dvd_zero _

theorem dvd_startAt (hmask : dev.iovad.granule ∣ dev.segBoundary.toNat + 1)
    (hpos : dev.iovad.granule ∣ pos) (s : SgEntry) : dev.iovad.granule ∣ startAt dev pos s :=
  Nat.dvd_add hpos (dvd_padding hmask hpos _)

theorem placesEnd_eq_roundUp (hmask : dev.iovad.granule ∣ dev.segBoundary.toNat + 1)
    (hpos : dev.iovad.granule ∣ pos) {p : Place} (hp : p ∈ (places dev pos sg).getLast?) :
    placesEnd dev pos sg = dev.iovad.roundUp p.stop := by
  induction sg generalizing pos with
  | nil => cases hp
  | cons s rest ih =>
    have hstart := dvd_startAt hmask hpos s
    cases rest with
    | nil =>
      obtain rfl : (⟨startAt dev pos s, s.offset.toNat % dev.iovad.granule, s.length.toNat,
        s.dma.busAddress⟩ : Place) = p := Option.some.inj hp
      show startAt dev pos s + dev.iovad.roundUp _ = dev.iovad.roundUp (_ + _ + _)
      rw [Nat.add_assoc, dev.iovad.roundUp_add hstart]
    | cons t rest =>
      exact ih (Nat.dvd_add hstart (dev.iovad.dvd_roundUp _)) hp

/-- A granule is no longer than the entry of a segment that has bytes. -/
theorem granule_lt_of_exact (h : Exact dev pos (s :: rest)) (hs : 0 < s.length.toNat) :
    dev.iovad.granule < 2 ^ 32 := by
  have hround := dev.iovad.le_roundUp (s.offset.toNat % dev.iovad.granule + s.length.toNat)
  have hgranule := Nat.le_of_dvd (by omega)
    (dev.iovad.dvd_roundUp (s.offset.toNat % dev.iovad.granule + s.length.toNat))
  have hnext := le_nextStart dev (startAt dev pos s + s.space dev.iovad) rest
  have hlt := h.1
  rw [← SgEntry.space] at hgranule
  omega

end Layout

end RknpuDriver.Iommu
