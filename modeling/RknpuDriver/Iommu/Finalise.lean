import RknpuDriver.Iommu.IovaLayout
import RknpuDriver.Lib.Coalesce

/-! # The output segments of `__finalise_sg`

`__finalise_sg` reads a list and writes its output segments over the entries that it has read.

* `groups`: the input segments, in the groups that become one output segment each.
* `finaliseAt`: the list after any number of turns, with the output segments written over the
  entries restored so far and the rest as the first loop has left it.
* `finaliseSg_eq`: the list at the end.
-/

namespace RknpuDriver.Iommu
open RknpuDriver.Lib
set_option autoImplicit false

namespace Place

/-- The bytes of a run of segments. -/
def total (g : List Place) : ℕ := (g.map Place.length).sum

/-- Segment `p` begins where `q` ends, and neither has a bus address. -/
def Continues (q p : Place) : Prop :=
  q.busAddress = false ∧ p.busAddress = false ∧ q.stop = p.start ∧ p.offset = 0

instance (q p : Place) : Decidable (Continues q p) := inferInstanceAs (Decidable (_ ∧ _))

theorem total_concat (g : List Place) (p : Place) : total (g ++ [p]) = total g + p.length := by
  simp [total]

end Place

open Place

/-- Where segment `p` is mapped is no boundary. -/
def OffBoundary (dev : MapDevice) (iova : UInt64) (p : Place) : Prop :=
  (iova + UInt64.ofNat p.start) &&& dev.segBoundary ≠ 0

instance (dev : MapDevice) (iova : UInt64) (p : Place) : Decidable (OffBoundary dev iova p) :=
  inferInstanceAs (Decidable (_ ≠ _))

/-- Whether segment `p` is concatenated with the output segment of the run `g`. -/
def concatenates (dev : MapDevice) (iova : UInt64) (g : List Place) (p : Place) : Bool :=
  match g.getLast? with
  | none => false
  | some q => decide (Continues q p ∧ OffBoundary dev iova p ∧ u32 (total g) ≠ 0 ∧
      p.length ≤ u32Sub dev.maxSegSize.toNat (u32 (total g)))

/-- The segments in the groups that become one output segment each. -/
def groups (dev : MapDevice) (iova : UInt64) (sg : List SgEntry) : List (List Place) :=
  coalesce (concatenates dev iova) (places dev 0 sg)

/-- The DMA fields of an output segment. -/
def groupDma (iova : UInt64) : List Place → SgDma
  | [] => ⟨dmaMappingError, 0, false⟩
  | p :: g =>
    if p.busAddress then ⟨UInt64.ofNat p.offset, UInt32.ofNat p.length, true⟩
    else ⟨iova + UInt64.ofNat (p.start + p.offset), UInt32.ofNat (total (p :: g)), false⟩

/-- An entry of the caller, without DMA fields. -/
def SgEntry.cleared (s : SgEntry) : SgEntry := { s with dma := ⟨dmaMappingError, 0, false⟩ }

def writeDma (d : SgDma) (s : SgEntry) : SgEntry := { s with dma := d }

/-- `cur_len` when the next segment begins at `next`. -/
def openLength (gs : List (List Place)) (next : ℕ) : UInt32 :=
  match gs.getLast? with
  | none => 0
  | some g =>
    match g.getLast? with
    | none => 0
    | some q => if q.busAddress = true ∨ q.stop < next then 0 else UInt32.ofNat (total g)

/-- The loop after the entries `pre`, with `post` to go. -/
def finaliseAt (dev : MapDevice) (iova : UInt64) (pre post : List SgEntry) : Finalise where
  sg := overlay writeDma (pre.map SgEntry.cleared) ((groups dev iova pre).map (groupDma iova)) ++
    stashes dev (placesEnd dev 0 pre) post
  cur := (groups dev iova pre).length - 1
  curLen := openLength (groups dev iova pre) (nextStart dev (placesEnd dev 0 pre) post)
  dmaAddr := iova + UInt64.ofNat (nextStart dev (placesEnd dev 0 pre) post)
  count := (groups dev iova pre).length

section Loop
variable {dev : MapDevice} {iova : UInt64} {pre post : List SgEntry} {s : SgEntry}

/-! ## Groups -/

/-- The place of the segment after `pre`. -/
def placeAfter (dev : MapDevice) (pre : List SgEntry) (s : SgEntry) : Place :=
  ⟨startAt dev (placesEnd dev 0 pre) s, s.offset.toNat % dev.iovad.granule, s.length.toNat,
    s.dma.busAddress⟩

theorem groups_concat (dev : MapDevice) (iova : UInt64) (pre : List SgEntry) (s : SgEntry) :
    groups dev iova (pre ++ [s]) =
      extend (concatenates dev iova) (groups dev iova pre) (placeAfter dev pre s) := by
  rw [groups, places_append]
  exact coalesce_concat _ _

theorem length_groups_le (dev : MapDevice) (iova : UInt64) (pre : List SgEntry) :
    (groups dev iova pre).length ≤ pre.length := by
  rw [← length_places dev 0 pre]
  exact length_coalesce_le _ _

theorem stop_le_placesEnd {pos : ℕ} {sg : List SgEntry} {p : Place} (h : p ∈ places dev pos sg) :
    p.stop ≤ placesEnd dev pos sg := by
  induction sg generalizing pos with
  | nil => cases h
  | cons t rest ih =>
    obtain rfl | h := List.mem_cons.mp h
    · have hround := dev.iovad.le_roundUp (t.offset.toNat % dev.iovad.granule + t.length.toNat)
      have hle := le_nextStart dev (startAt dev pos t + t.space dev.iovad) rest
      have hend := nextStart_le dev (startAt dev pos t + t.space dev.iovad) rest
      rw [← SgEntry.space] at hround
      show startAt dev pos t + t.offset.toNat % dev.iovad.granule + t.length.toNat ≤
        placesEnd dev (startAt dev pos t + t.space dev.iovad) rest
      omega
    · exact ih h

/-- In a group that a segment is concatenated with, the first segment has no bus address. -/
theorem groupDma_memory {g : List Place} {q : Place} (hg : (g ++ [q]).IsChain Continues)
    (hq : q.busAddress = false) :
    ∃ p g', g ++ [q] = p :: g' ∧ p.busAddress = false := by
  cases g with
  | nil => exact ⟨q, [], rfl, hq⟩
  | cons p g =>
    refine ⟨p, g ++ [q], rfl, ?_⟩
    cases g with
    | nil => exact (List.isChain_cons_cons.mp hg).1.1
    | cons r g => exact (List.isChain_cons_cons.mp hg).1.1

theorem isChain_of_mem_groups {sg : List SgEntry} {g : List Place} (h : g ∈ groups dev iova sg) :
    g.IsChain Continues := by
  refine isChain_of_mem_coalesce (fun g q p hjoin => ?_) h
  rw [concatenates, List.getLast?_concat] at hjoin
  exact (of_decide_eq_true hjoin).1

/-! ## One turn -/

theorem openLength_concat (gs : List (List Place)) (g : List Place) (q : Place) (next : ℕ) :
    openLength (gs ++ [g ++ [q]]) next =
      if q.busAddress = true ∨ q.stop < next then 0 else UInt32.ofNat (total (g ++ [q])) := by
  simp [openLength]

theorem ofNat_eq_zero {n : ℕ} (h : n < 2 ^ 32) : UInt32.ofNat n = 0 ↔ n = 0 := by
  rw [← UInt32.toNat_inj, UInt32.toNat_ofNat', Nat.mod_eq_of_lt h]
  rfl

theorem toNat_sub_ofNat (m : UInt32) (n : ℕ) :
    (m - UInt32.ofNat n).toNat = u32Sub m.toNat (u32 n) := by
  have hlt : n % 2 ^ 32 < 2 ^ 32 := Nat.mod_lt n (by decide)
  rw [UInt32.toNat_sub, UInt32.toNat_ofNat', u32Sub, u32, u32]
  congr 1
  omega

theorem ofNat_ne_zero_iff (n : ℕ) : UInt32.ofNat n ≠ 0 ↔ u32 n ≠ 0 := by
  rw [Ne, ← UInt32.toNat_inj, UInt32.toNat_ofNat']
  rfl

/-- The test of the code is whether the segment continues the run. -/
theorem concatenates_iff {g : List Place} {q p : Place} {len : UInt32} (hq : q.stop ≤ p.start)
    (hbus : p.busAddress = false) (hoff : p.offset < 2 ^ 32) (hlen : len.toNat = p.length)
    {curLen : UInt32} (hcur : curLen =
      if q.busAddress = true ∨ q.stop < p.start then 0 else UInt32.ofNat (total (g ++ [q]))) :
    (curLen ≠ 0 ∧ UInt32.ofNat p.offset = 0 ∧
        (iova + UInt64.ofNat p.start) &&& dev.segBoundary ≠ 0 ∧ len ≤ dev.maxSegSize - curLen) ↔
      concatenates dev iova (g ++ [q]) p = true := by
  rw [concatenates, List.getLast?_concat]
  show _ ↔ decide _ = true
  rw [decide_eq_true_iff]
  by_cases hclosed : q.busAddress = true ∨ q.stop < p.start
  · rw [if_pos hclosed] at hcur
    constructor
    · exact fun h => absurd hcur h.1
    · rintro ⟨⟨hqbus, -, hstop, -⟩, -⟩
      obtain h | h := hclosed
      · rw [hqbus] at h
        exact absurd h Bool.false_ne_true
      · omega
  · rw [if_neg hclosed] at hcur
    rw [not_or, Bool.not_eq_true, Nat.not_lt] at hclosed
    have hstop : q.stop = p.start := Nat.le_antisymm hq hclosed.2
    rw [hcur, ofNat_ne_zero_iff, ofNat_eq_zero hoff, UInt32.le_iff_toNat_le, toNat_sub_ofNat, hlen]
    constructor
    · rintro ⟨hlast, hzero, hmask, hfits⟩
      exact ⟨⟨hclosed.1, hbus, hstop, hzero⟩, hmask, hlast, hfits⟩
    · rintro ⟨⟨-, -, -, hzero⟩, hmask, hlast, hfits⟩
      exact ⟨hlast, hzero, hmask, hfits⟩

/-- What a memory segment does to the groups, by the test of the code. -/
theorem turn_cases (dev : MapDevice) (iova : UInt64) (pre : List SgEntry) (s : SgEntry) :
    let p := placeAfter dev pre s
    let curLen := openLength (groups dev iova pre) p.start
    let test := curLen ≠ 0 ∧ UInt32.ofNat p.offset = 0 ∧
      (iova + UInt64.ofNat p.start) &&& dev.segBoundary ≠ 0 ∧ s.length ≤ dev.maxSegSize - curLen
    s.dma.busAddress = false →
    (test ∧ ∃ init g q, groups dev iova pre = init ++ [g ++ [q]] ∧ q.busAddress = false ∧
        curLen = UInt32.ofNat (total (g ++ [q])) ∧
        groups dev iova (pre ++ [s]) = init ++ [g ++ [q] ++ [p]]) ∨
      (¬ test ∧ groups dev iova (pre ++ [s]) = groups dev iova pre ++ [[p]]) := by
  intro p curLen test hbus
  have hoff : p.offset < 2 ^ 32 :=
    Nat.lt_of_le_of_lt (Nat.mod_le _ _) s.offset.toNat_lt
  rw [groups_concat]
  obtain rfl | ⟨pre', t, rfl⟩ := pre.eq_nil_or_concat'
  · exact Or.inr ⟨fun h => h.1 rfl, rfl⟩
  · have hlast : groups dev iova (pre' ++ [t]) = coalesce (concatenates dev iova)
        (places dev 0 pre' ++ [placeAfter dev pre' t]) := by
      rw [groups, places_append]
      rfl
    obtain ⟨init, g, hgs⟩ := coalesce_last (concatenates dev iova) (places dev 0 pre')
      (placeAfter dev pre' t)
    rw [← hlast] at hgs
    have hq : (placeAfter dev pre' t).stop ≤ p.start := by
      refine le_trans (stop_le_placesEnd ?_) (le_startAt dev (placesEnd dev 0 (pre' ++ [t])) s)
      rw [places_append]
      exact List.mem_append_right _ List.mem_cons_self
    have hcur : curLen = _ :=
      (congrArg (openLength · p.start) hgs).trans (openLength_concat init g _ p.start)
    have htest : test ↔ _ := concatenates_iff hq hbus hoff rfl hcur
    by_cases hjoin : concatenates dev iova (g ++ [placeAfter dev pre' t]) p = true
    · have hopen : ¬ ((placeAfter dev pre' t).busAddress = true ∨
          (placeAfter dev pre' t).stop < p.start) := by
        intro hclosed
        rw [if_pos hclosed] at hcur
        exact (htest.mpr hjoin).1 hcur
      rw [if_neg hopen] at hcur
      refine Or.inl ⟨htest.mpr hjoin, init, g, placeAfter dev pre' t, hgs, ?_, hcur, ?_⟩
      · exact (Bool.not_eq_true _).mp (not_or.mp hopen).1
      · rw [hgs]
        exact extend_joined hjoin
    · refine Or.inr ⟨fun h => hjoin (htest.mp h), ?_⟩
      rw [hgs]
      exact extend_apart hjoin

theorem finaliseEntry_bus (dev : MapDevice) {st : Finalise} {front tail : List SgEntry}
    {e : SgEntry} (hsg : st.sg = front ++ e :: tail) (hbus : e.dma.busAddress = true) :
    finaliseEntry dev st front.length =
      { sg := (front ++ e.cleared :: tail).modify (if 0 < front.length then st.cur + 1 else st.cur)
          (writeDma ⟨e.dma.address, e.dma.length, true⟩)
        cur := if 0 < front.length then st.cur + 1 else st.cur
        curLen := 0
        dmaAddr := st.dmaAddr
        count := st.count + 1 } := by
  simp only [finaliseEntry, hsg, getElem?_length_append, hbus, if_true, modify_length_append]
  rfl

/-- An entry of the first loop, restored. -/
def SgEntry.restored (e : SgEntry) : SgEntry :=
  { offset := e.offset + e.dma.address.toUInt32
    length := e.dma.length
    dma := ⟨dmaMappingError, 0, false⟩ }

def writeAddress (address : UInt64) (s : SgEntry) : SgEntry :=
  { s with dma := { s.dma with address } }

def writeLength (length : UInt32) (s : SgEntry) : SgEntry :=
  { s with dma := { s.dma with length } }

/-- A turn for a memory segment that is concatenated with the one before it. -/
theorem finaliseEntry_joined {st : Finalise} {front tail : List SgEntry} {e : SgEntry}
    (hsg : st.sg = front ++ e :: tail) (hbus : e.dma.busAddress = false)
    (htest : st.curLen ≠ 0 ∧ e.dma.address.toUInt32 = 0 ∧ st.dmaAddr &&& dev.segBoundary ≠ 0 ∧
      e.dma.length ≤ dev.maxSegSize - st.curLen) :
    finaliseEntry dev st front.length =
      { sg := (front ++ e.restored :: tail).modify st.cur (writeLength (st.curLen + e.dma.length))
        cur := st.cur
        curLen :=
          if e.dma.length + e.dma.address.toUInt32 < e.length then 0 else st.curLen + e.dma.length
        dmaAddr := st.dmaAddr + e.length.toUInt64
        count := st.count } := by
  simp only [finaliseEntry, hsg, getElem?_length_append, hbus, Bool.false_eq_true, if_false,
    decide_eq_true htest, if_true, modify_length_append]
  rfl

theorem finaliseEntry_apart {st : Finalise} {front tail : List SgEntry} {e : SgEntry}
    (hsg : st.sg = front ++ e :: tail) (hbus : e.dma.busAddress = false)
    (htest : ¬ (st.curLen ≠ 0 ∧ e.dma.address.toUInt32 = 0 ∧ st.dmaAddr &&& dev.segBoundary ≠ 0 ∧
      e.dma.length ≤ dev.maxSegSize - st.curLen)) :
    finaliseEntry dev st front.length =
      { sg := ((front ++ e.restored :: tail).modify
          (if 0 < front.length then st.cur + 1 else st.cur)
          (writeAddress (st.dmaAddr + e.dma.address.toUInt32.toUInt64))).modify
            (if 0 < front.length then st.cur + 1 else st.cur) (writeLength e.dma.length)
        cur := if 0 < front.length then st.cur + 1 else st.cur
        curLen := if e.dma.length + e.dma.address.toUInt32 < e.length then 0 else e.dma.length
        dmaAddr := st.dmaAddr + e.length.toUInt64
        count := st.count + 1 } := by
  simp only [finaliseEntry, hsg, getElem?_length_append, hbus, Bool.false_eq_true, if_false,
    decide_eq_false htest, modify_length_append]
  rfl

/-- The entry that the next turn reads. -/
def stashAfter (dev : MapDevice) (pre : List SgEntry) (s : SgEntry) (post : List SgEntry) :
    SgEntry :=
  { s.stash dev.iovad with
    length := UInt32.ofNat (nextStart dev (placesEnd dev 0 (pre ++ [s])) post -
      (placeAfter dev pre s).start) }

theorem stashes_cons (dev : MapDevice) (pre : List SgEntry) (s : SgEntry) (post : List SgEntry) :
    stashes dev (placesEnd dev 0 pre) (s :: post) =
      stashAfter dev pre s post :: stashes dev (placesEnd dev 0 (pre ++ [s])) post := by
  rw [stashAfter, placesEnd_append]
  rfl

theorem stash_address (iovad : IovaDomain) (s : SgEntry) :
    (s.stash iovad).dma.address.toUInt32 = UInt32.ofNat (s.offset.toNat % iovad.granule) := by
  rw [← UInt32.toNat_inj, UInt64.toNat_toUInt32, UInt32.toNat_ofNat']
  exact congrArg (· % 2 ^ 32) (toNat_iovaOffset s iovad)

theorem stashAfter_restored : (stashAfter dev pre s post).restored = s.cleared := by
  let sIovaOff := (iovaOffset dev.iovad s.offset.toUInt64).toUInt32
  show SgEntry.mk (s.offset - sIovaOff + sIovaOff) s.length _ = _
  rw [UInt32.sub_add_cancel]
  rfl

/-- The place of a segment that has been given its whole length. -/
structure Placed (dev : MapDevice) (pre : List SgEntry) (s : SgEntry) (post : List SgEntry) :
    Prop where
  next : (placeAfter dev pre s).stop ≤ nextStart dev (placesEnd dev 0 (pre ++ [s])) post
  length : nextStart dev (placesEnd dev 0 (pre ++ [s])) post - (placeAfter dev pre s).start < 2 ^ 32
  bus : s.dma.busAddress = true →
    nextStart dev (placesEnd dev 0 (pre ++ [s])) post = (placeAfter dev pre s).start

theorem Exact.placed (h : Exact dev (placesEnd dev 0 pre) (s :: post)) :
    Placed dev pre s post := by
  have hend : placesEnd dev 0 (pre ++ [s]) =
      startAt dev (placesEnd dev 0 pre) s + s.space dev.iovad := placesEnd_append 0 pre [s]
  have hstop : (placeAfter dev pre s).stop ≤ placesEnd dev 0 (pre ++ [s]) := by
    refine stop_le_placesEnd ?_
    rw [places_append]
    exact List.mem_append_right _ List.mem_cons_self
  refine ⟨le_trans hstop (le_nextStart dev _ post), ?_, ?_⟩
  · rw [hend]
    exact h.1
  · rw [hend]
    exact h.2.1

theorem Placed.cleared (h : Placed dev pre s post) (hbus : s.dma.busAddress = true) :
    (stashAfter dev pre s post).cleared = s.cleared := by
  have hnext := h.next
  rw [h.bus hbus] at hnext
  have hoff : s.offset.toNat % dev.iovad.granule = 0 := by
    simp only [Place.stop, placeAfter] at hnext
    omega
  have hlen : s.length.toNat = 0 := by
    simp only [Place.stop, placeAfter] at hnext
    omega
  have hoffset : iovaOffset dev.iovad s.offset.toUInt64 = 0 := by
    rw [← UInt64.toNat_inj, toNat_iovaOffset, hoff]
    rfl
  have hlength : s.length = 0 := UInt32.toNat_inj.mp hlen
  show SgEntry.mk (s.offset - (iovaOffset dev.iovad s.offset.toUInt64).toUInt32)
    (UInt32.ofNat (nextStart dev (placesEnd dev 0 (pre ++ [s])) post -
      (placeAfter dev pre s).start)) _ = SgEntry.mk s.offset s.length _
  have hzero : UInt64.toUInt32 0 = 0 := rfl
  rw [hoffset, h.bus hbus, Nat.sub_self, hlength, hzero, UInt32.sub_zero]
  rfl

/-- The length left open is that of a segment whose bytes end where the next one begins. -/
theorem Placed.curLen (h : Placed dev pre s post) (n : UInt32) :
    (if (stashAfter dev pre s post).dma.length +
          (stashAfter dev pre s post).dma.address.toUInt32 < (stashAfter dev pre s post).length
        then 0 else n) =
      if (placeAfter dev pre s).stop < nextStart dev (placesEnd dev 0 (pre ++ [s])) post
        then 0 else n := by
  have hnext := h.next
  have hlength := h.length
  have hsum : (s.length + UInt32.ofNat (s.offset.toNat % dev.iovad.granule)).toNat =
      s.length.toNat + s.offset.toNat % dev.iovad.granule := by
    simp only [Place.stop, placeAfter] at hnext hlength
    rw [UInt32.toNat_add, UInt32.toNat_ofNat']
    omega
  have hlt : (stashAfter dev pre s post).dma.length +
        (stashAfter dev pre s post).dma.address.toUInt32 < (stashAfter dev pre s post).length ↔
      (placeAfter dev pre s).stop < nextStart dev (placesEnd dev 0 (pre ++ [s])) post := by
    show s.length + (s.stash dev.iovad).dma.address.toUInt32 < UInt32.ofNat _ ↔ _
    rw [stash_address, UInt32.lt_iff_toNat_lt, hsum, UInt32.toNat_ofNat', Nat.mod_eq_of_lt hlength]
    simp only [Place.stop, placeAfter] at hnext ⊢
    omega
  simp only [hlt]

theorem Placed.dmaAddr (h : Placed dev pre s post) :
    iova + UInt64.ofNat (placeAfter dev pre s).start +
        (stashAfter dev pre s post).length.toUInt64 =
      iova + UInt64.ofNat (nextStart dev (placesEnd dev 0 (pre ++ [s])) post) := by
  have hnext := h.next
  have hle : (placeAfter dev pre s).start ≤
      nextStart dev (placesEnd dev 0 (pre ++ [s])) post := by
    simp only [Place.stop] at hnext
    omega
  show _ + (UInt32.ofNat _).toUInt64 = _
  rw [UInt32.toUInt64_ofNat' h.length, UInt64.add_assoc, ← UInt64.ofNat_add,
    Nat.add_sub_cancel' hle]

/-- The entries read so far are the restored ones with the output segments over them, whatever
is written over the first of them. -/
theorem overlay_read (pre : List SgEntry) (s : SgEntry) (tail : List SgEntry) {ds : List SgDma}
    (h : ds.length ≤ (pre ++ [s]).length) :
    overlay writeDma ((pre ++ [s]).map SgEntry.cleared ++ tail) ds =
      overlay writeDma ((pre ++ [s]).map SgEntry.cleared) ds ++ tail :=
  overlay_append tail (by rwa [List.length_map])

theorem overlay_front (pre : List SgEntry) (s : SgEntry) (tail : List SgEntry) {ds : List SgDma}
    (h : ds.length ≤ pre.length) :
    overlay writeDma (pre.map SgEntry.cleared) ds ++ s.cleared :: tail =
      overlay writeDma ((pre ++ [s]).map SgEntry.cleared ++ tail) ds := by
  have hle : ds.length ≤ (pre.map SgEntry.cleared).length := by rwa [List.length_map]
  rw [List.map_append, List.append_assoc, overlay_append _ hle]
  rfl

theorem write_next {f : SgEntry → SgEntry} {d : SgDma} (pre : List SgEntry) (s : SgEntry)
    (tail : List SgEntry) {ds : List SgDma} (h : ds.length ≤ pre.length)
    (hf : ∀ t : SgEntry, f t.cleared = writeDma d t) :
    (overlay writeDma ((pre ++ [s]).map SgEntry.cleared ++ tail) ds).modify ds.length f =
      overlay writeDma ((pre ++ [s]).map SgEntry.cleared ++ tail) (ds ++ [d]) := by
  refine modify_overlay_next _ _ fun a ha => ?_
  have hlt : ds.length < ((pre ++ [s]).map SgEntry.cleared).length := by
    rw [List.length_map, List.length_append]
    exact Nat.lt_succ_of_le h
  rw [List.getElem?_append_left hlt, List.getElem?_map] at ha
  obtain ⟨t, -, rfl⟩ := Option.map_eq_some_iff.mp ha
  exact hf t

theorem next_cur (dev : MapDevice) (iova : UInt64) (pre : List SgEntry) :
    (if 0 < pre.length then (groups dev iova pre).length - 1 + 1
      else (groups dev iova pre).length - 1) = (groups dev iova pre).length := by
  cases pre with
  | nil => rfl
  | cons t pre =>
    have hne : groups dev iova (t :: pre) ≠ [] := fun h => by
      have hplaces := coalesce_eq_nil.mp h
      cases hplaces
    have hpos := List.length_pos_iff.mpr hne
    rw [if_pos (show 0 < (t :: pre).length from Nat.succ_pos _)]
    omega

theorem groups_concat_bus (hbus : s.dma.busAddress = true) :
    groups dev iova (pre ++ [s]) = groups dev iova pre ++ [[placeAfter dev pre s]] := by
  rw [groups_concat]
  obtain ⟨hnil, hnew⟩ | ⟨init, g, -, hjoin, -⟩ | ⟨init, g, -, -, hnew⟩ :=
    extend_cases (concatenates dev iova) (groups dev iova pre) (placeAfter dev pre s)
  · rw [hnew, hnil]
    rfl
  · rw [concatenates] at hjoin
    split at hjoin
    · cases hjoin
    · have hmemory := (of_decide_eq_true hjoin).1.2.1
      rw [show (placeAfter dev pre s).busAddress = true from hbus] at hmemory
      cases hmemory
  · exact hnew

theorem finaliseAt_sg (dev : MapDevice) (iova : UInt64) (pre : List SgEntry) (s : SgEntry)
    (post : List SgEntry) :
    (finaliseAt dev iova pre (s :: post)).sg =
      overlay writeDma (pre.map SgEntry.cleared) ((groups dev iova pre).map (groupDma iova)) ++
        stashAfter dev pre s post :: stashes dev (placesEnd dev 0 (pre ++ [s])) post := by
  rw [← stashes_cons]
  rfl

theorem finaliseAt_of {st : Finalise} {gs : List (List Place)}
    (hgroups : groups dev iova (pre ++ [s]) = gs)
    (hsg : st.sg = overlay writeDma ((pre ++ [s]).map SgEntry.cleared ++
      stashes dev (placesEnd dev 0 (pre ++ [s])) post) (gs.map (groupDma iova)))
    (hcur : st.cur = gs.length - 1)
    (hlen : st.curLen = openLength gs (nextStart dev (placesEnd dev 0 (pre ++ [s])) post))
    (haddr : st.dmaAddr = iova + UInt64.ofNat (nextStart dev (placesEnd dev 0 (pre ++ [s])) post))
    (hcount : st.count = gs.length) :
    st = finaliseAt dev iova (pre ++ [s]) post := by
  have hle : (gs.map (groupDma iova)).length ≤ (pre ++ [s]).length := by
    rw [List.length_map, ← hgroups]
    exact length_groups_le dev iova _
  rw [overlay_read pre s _ hle] at hsg
  obtain ⟨sg, cur, curLen, dmaAddr, count⟩ := st
  simp only at hsg hcur hlen haddr hcount
  rw [finaliseAt, hgroups, hsg, hcur, hlen, haddr, hcount]

theorem map_groupDma_concat (iova : UInt64) (gs : List (List Place)) (g : List Place) :
    (gs ++ [g]).map (groupDma iova) = gs.map (groupDma iova) ++ [groupDma iova g] := by
  rw [List.map_append, List.map_singleton]

theorem ofNat_offset (iovad : IovaDomain) (s : SgEntry) :
    (s.stash iovad).dma.address = UInt64.ofNat (s.offset.toNat % iovad.granule) := by
  show iovaOffset iovad s.offset.toUInt64 = _
  rw [iovaOffset, UInt32.toNat_toUInt64]

theorem length_concat (gs : List (List Place)) (g : List Place) :
    gs.length + 1 = (gs ++ [g]).length := by
  rw [List.length_append, List.length_singleton]

theorem length_outputs (dev : MapDevice) (iova : UInt64) (pre : List SgEntry) :
    ((groups dev iova pre).map (groupDma iova)).length = (groups dev iova pre).length :=
  List.length_map _

/-- There are no more output segments than entries that have been read. -/
theorem length_outputs_le (dev : MapDevice) (iova : UInt64) (pre : List SgEntry) :
    ((groups dev iova pre).map (groupDma iova)).length ≤ pre.length := by
  rw [length_outputs]
  exact length_groups_le dev iova pre

theorem length_front (dev : MapDevice) (iova : UInt64) (pre : List SgEntry) :
    (overlay writeDma (pre.map SgEntry.cleared)
      ((groups dev iova pre).map (groupDma iova))).length = pre.length := by
  rw [length_overlay, List.length_map]

theorem finaliseEntry_step_bus (h : Placed dev pre s post) (hbus : s.dma.busAddress = true) :
    finaliseEntry dev (finaliseAt dev iova pre (s :: post)) pre.length =
      finaliseAt dev iova (pre ++ [s]) post := by
  have hle := length_outputs_le dev iova pre
  have hturn := finaliseEntry_bus dev (finaliseAt_sg dev iova pre s post) hbus
  rw [length_front] at hturn
  have hd : (⟨(stashAfter dev pre s post).dma.address, (stashAfter dev pre s post).dma.length,
      true⟩ : SgDma) = groupDma iova [placeAfter dev pre s] := by
    show SgDma.mk (s.stash dev.iovad).dma.address s.length true = _
    rw [groupDma, if_pos (show (placeAfter dev pre s).busAddress = true from hbus), ofNat_offset]
    show _ = SgDma.mk _ (UInt32.ofNat s.length.toNat) _
    rw [UInt32.ofNat_toNat]
    rfl
  have hcur : (if 0 < pre.length then (finaliseAt dev iova pre (s :: post)).cur + 1
      else (finaliseAt dev iova pre (s :: post)).cur) = (groups dev iova pre).length :=
    next_cur dev iova pre
  rw [hturn]
  have hlen := length_outputs dev iova pre
  refine finaliseAt_of (groups_concat_bus hbus) ?_ ?_ ?_ ?_ (length_concat _ _)
  · show (_ ++ _ :: _).modify _ _ = _
    rw [hcur, h.cleared hbus, overlay_front pre s _ hle, hd, ← hlen, map_groupDma_concat]
    exact write_next pre s _ hle fun t => rfl
  · rw [List.length_append, List.length_singleton, Nat.add_sub_cancel]
    exact hcur
  · have hopen := openLength_concat (groups dev iova pre) [] (placeAfter dev pre s)
      (nextStart dev (placesEnd dev 0 (pre ++ [s])) post)
    rw [if_pos (Or.inl (show (placeAfter dev pre s).busAddress = true from hbus))] at hopen
    exact hopen.symm
  · show iova + UInt64.ofNat (placeAfter dev pre s).start = _
    rw [h.bus hbus]

theorem stashAfter_address : (stashAfter dev pre s post).dma.address.toUInt32 =
    UInt32.ofNat (placeAfter dev pre s).offset := stash_address dev.iovad s

theorem stashAfter_offset : (stashAfter dev pre s post).dma.address.toUInt32.toUInt64 =
    UInt64.ofNat (placeAfter dev pre s).offset := by
  have hlt : (placeAfter dev pre s).offset < 2 ^ 32 :=
    Nat.lt_of_le_of_lt (Nat.mod_le _ _) s.offset.toNat_lt
  rw [stashAfter_address, UInt32.toUInt64_ofNat' hlt]

theorem stashAfter_length : (stashAfter dev pre s post).dma.length =
    UInt32.ofNat (placeAfter dev pre s).length := UInt32.ofNat_toNat.symm

theorem openLength_memory (gs : List (List Place)) (g : List Place)
    (hbus : s.dma.busAddress = false) {next : ℕ} :
    (if (placeAfter dev pre s).stop < next then 0
      else UInt32.ofNat (total (g ++ [placeAfter dev pre s]))) =
      openLength (gs ++ [g ++ [placeAfter dev pre s]]) next := by
  have hmemory : ¬ (placeAfter dev pre s).busAddress = true := by
    rw [show (placeAfter dev pre s).busAddress = false from hbus]
    exact Bool.false_ne_true
  rw [openLength_concat]
  by_cases hgap : (placeAfter dev pre s).stop < next
  · rw [if_pos hgap, if_pos (Or.inr hgap)]
  · rw [if_neg hgap, if_neg (not_or.mpr ⟨hmemory, hgap⟩)]

theorem finaliseEntry_step_apart (h : Placed dev pre s post) (hbus : s.dma.busAddress = false)
    (htest : ¬ ((finaliseAt dev iova pre (s :: post)).curLen ≠ 0 ∧
      (stashAfter dev pre s post).dma.address.toUInt32 = 0 ∧
      (finaliseAt dev iova pre (s :: post)).dmaAddr &&& dev.segBoundary ≠ 0 ∧
      (stashAfter dev pre s post).dma.length ≤
        dev.maxSegSize - (finaliseAt dev iova pre (s :: post)).curLen))
    (hgroups : groups dev iova (pre ++ [s]) = groups dev iova pre ++ [[placeAfter dev pre s]]) :
    finaliseEntry dev (finaliseAt dev iova pre (s :: post)) pre.length =
      finaliseAt dev iova (pre ++ [s]) post := by
  have hle := length_outputs_le dev iova pre
  have hturn := finaliseEntry_apart (finaliseAt_sg dev iova pre s post) hbus htest
  rw [length_front] at hturn
  have hmemory : ¬ (placeAfter dev pre s).busAddress = true := by
    rw [show (placeAfter dev pre s).busAddress = false from hbus]
    exact Bool.false_ne_true
  have hd : (⟨iova + UInt64.ofNat (placeAfter dev pre s).start +
      (stashAfter dev pre s post).dma.address.toUInt32.toUInt64,
      (stashAfter dev pre s post).dma.length, false⟩ : SgDma) =
      groupDma iova [placeAfter dev pre s] := by
    rw [groupDma, if_neg hmemory, stashAfter_offset, stashAfter_length, UInt64.ofNat_add,
      UInt64.add_assoc]
    rfl
  have hcur : (if 0 < pre.length then (finaliseAt dev iova pre (s :: post)).cur + 1
      else (finaliseAt dev iova pre (s :: post)).cur) = (groups dev iova pre).length :=
    next_cur dev iova pre
  have hlen := length_outputs dev iova pre
  rw [hturn]
  refine finaliseAt_of hgroups ?_ ?_ ?_ h.dmaAddr (length_concat _ _)
  · show ((_ ++ _ :: _).modify _ _).modify _ _ = _
    rw [hcur, stashAfter_restored, overlay_front pre s _ hle, ← hlen, map_groupDma_concat, ← hd]
    have hwrite := write_next (d := ⟨iova + UInt64.ofNat (placeAfter dev pre s).start +
      (stashAfter dev pre s post).dma.address.toUInt32.toUInt64, 0, false⟩)
      (f := writeAddress (iova + UInt64.ofNat (placeAfter dev pre s).start +
        (stashAfter dev pre s post).dma.address.toUInt32.toUInt64)) pre s
      (stashes dev (placesEnd dev 0 (pre ++ [s])) post) hle fun t => rfl
    refine (congrArg (List.modify · _ _) hwrite).trans ?_
    exact modify_overlay_last (fun t => rfl) _ _
  · rw [List.length_append, List.length_singleton, Nat.add_sub_cancel]
    exact hcur
  · show (if _ then _ else _) = _
    rw [h.curLen, stashAfter_length]
    exact openLength_memory (groups dev iova pre) [] hbus

/-- A turn for a memory segment that is concatenated with the one before it. -/
theorem finaliseEntry_step_joined (h : Placed dev pre s post) (hbus : s.dma.busAddress = false)
    (htest : (finaliseAt dev iova pre (s :: post)).curLen ≠ 0 ∧
      (stashAfter dev pre s post).dma.address.toUInt32 = 0 ∧
      (finaliseAt dev iova pre (s :: post)).dmaAddr &&& dev.segBoundary ≠ 0 ∧
      (stashAfter dev pre s post).dma.length ≤
        dev.maxSegSize - (finaliseAt dev iova pre (s :: post)).curLen)
    {init : List (List Place)} {g : List Place} {q : Place}
    (hgs : groups dev iova pre = init ++ [g ++ [q]]) (hq : q.busAddress = false)
    (hlen : (finaliseAt dev iova pre (s :: post)).curLen = UInt32.ofNat (total (g ++ [q])))
    (hgroups : groups dev iova (pre ++ [s]) = init ++ [g ++ [q] ++ [placeAfter dev pre s]]) :
    finaliseEntry dev (finaliseAt dev iova pre (s :: post)) pre.length =
      finaliseAt dev iova (pre ++ [s]) post := by
  have hle := length_outputs_le dev iova pre
  have hturn := finaliseEntry_joined (finaliseAt_sg dev iova pre s post) hbus htest
  rw [length_front] at hturn
  have hsum : (finaliseAt dev iova pre (s :: post)).curLen +
      (stashAfter dev pre s post).dma.length =
      UInt32.ofNat (total (g ++ [q] ++ [placeAfter dev pre s])) := by
    rw [hlen, stashAfter_length, ← UInt32.ofNat_add, total_concat (g ++ [q])]
  have hchain : (g ++ [q]).IsChain Continues :=
    isChain_of_mem_groups (hgs ▸ List.mem_append_right _ List.mem_cons_self)
  obtain ⟨p, g', hfirst, hp⟩ := groupDma_memory hchain hq
  have hp' : ¬ p.busAddress = true := by
    rw [hp]
    exact Bool.false_ne_true
  have hwrite : ∀ t, writeLength (UInt32.ofNat (total (g ++ [q] ++ [placeAfter dev pre s])))
      (writeDma (groupDma iova (g ++ [q])) t) =
        writeDma (groupDma iova (g ++ [q] ++ [placeAfter dev pre s])) t := by
    intro t
    rw [hfirst, List.cons_append, groupDma, groupDma, if_neg hp', if_neg hp']
    rfl
  have hcur : (finaliseAt dev iova pre (s :: post)).cur = (init.map (groupDma iova)).length := by
    show (groups dev iova pre).length - 1 = _
    rw [hgs, List.length_append, List.length_singleton, Nat.add_sub_cancel, List.length_map]
  rw [hturn]
  refine finaliseAt_of hgroups ?_ ?_ ?_ h.dmaAddr ?_
  · show (_ ++ _ :: _).modify _ _ = _
    rw [hsum, stashAfter_restored, overlay_front pre s _ hle, hcur, hgs, map_groupDma_concat,
      map_groupDma_concat]
    exact modify_overlay_last hwrite _ _
  · rw [List.length_append, List.length_singleton, Nat.add_sub_cancel]
    exact hcur.trans (List.length_map _)
  · show (if _ then _ else _) = _
    rw [h.curLen, hsum]
    exact openLength_memory init (g ++ [q]) hbus
  · show (groups dev iova pre).length = _
    rw [hgs, List.length_append, List.length_append]
    rfl

theorem finaliseEntry_step (h : Exact dev (placesEnd dev 0 pre) (s :: post)) :
    finaliseEntry dev (finaliseAt dev iova pre (s :: post)) pre.length =
      finaliseAt dev iova (pre ++ [s]) post := by
  cases hbus : s.dma.busAddress with
  | true => exact finaliseEntry_step_bus h.placed hbus
  | false =>
    have haddress : (stashAfter dev pre s post).dma.address.toUInt32 = _ := stashAfter_address
    have hcases := turn_cases dev iova pre s hbus
    rw [← haddress] at hcases
    obtain ⟨htest, init, g, q, hgs, hq, hlen, hgroups⟩ | ⟨htest, hgroups⟩ := hcases
    · exact finaliseEntry_step_joined h.placed hbus htest hgs hq hlen hgroups
    · exact finaliseEntry_step_apart h.placed hbus htest hgroups

/-! ## The loop -/

theorem finaliseLoop (hfirst : nextStart dev 0 (pre ++ post) = 0)
    (hexact : Exact dev 0 (pre ++ post)) :
    (List.range pre.length).foldl (finaliseEntry dev)
        ⟨stashes dev 0 (pre ++ post), 0, 0, iova, 0⟩ =
      finaliseAt dev iova pre post := by
  induction pre using List.reverseRecOn generalizing post with
  | nil =>
    have hstart : nextStart dev 0 post = 0 := hfirst
    have hzero : UInt64.ofNat 0 = 0 := rfl
    show _ = Finalise.mk _ _ _ (iova + UInt64.ofNat (nextStart dev 0 post)) _
    rw [hstart, hzero, UInt64.add_zero]
    rfl
  | append_singleton pre s ih =>
    rw [List.append_assoc, List.singleton_append] at hfirst hexact ⊢
    rw [List.length_append, List.length_singleton, List.range_succ, List.foldl_append,
      ih hfirst hexact]
    exact finaliseEntry_step hexact.append

end Loop

/-- **The output segments**: the entries of the caller are as they were, and the first DMA fields
are those of the groups. -/
theorem finaliseSg_eq {dev : MapDevice} {sg : List SgEntry} (hfirst : nextStart dev 0 sg = 0)
    (hexact : Exact dev 0 sg) (iova : UInt64) :
    finaliseSg dev (stashes dev 0 sg) iova =
      ((groups dev iova sg).length,
        overlay writeDma (sg.map SgEntry.cleared) ((groups dev iova sg).map (groupDma iova))) := by
  rw [← List.append_nil sg] at hfirst hexact
  have hloop : _ = finaliseAt dev iova sg [] := finaliseLoop hfirst hexact
  rw [List.append_nil] at hloop
  rw [finaliseSg, length_stashes, hloop, finaliseAt]
  show (_, _ ++ []) = _
  rw [List.append_nil]

end RknpuDriver.Iommu
